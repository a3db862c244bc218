import AttributeFilter.Command.Run
import AttributeFilter.Proofs.Number.Written
import AttributeFilter.Proofs.Text.Json
import AttributeFilter.Proofs.Text.Lines
import AttributeFilter.Proofs.Token.Cuts

/-!
The printed tokens of a text. No token holds a line feed or ends in white space, so every token has a line of its
own. Neither a place nor the name of a kind holds a tab, so the columns of every line can be told.
-/

namespace AttributeFilter

open Text Lexeme

namespace Text

variable {c : Char} {t u w : Text}

theorem solid_of_isDigits (h : ∀ c ∈ t, isDigit c = true) : t.Solid := by
  intro c hc
  have := toNat_of_isDigit (h c hc)
  exact isBlank_eq_false (by omega) (by omega)

theorem solid_of_isNumber (h : IsNumber w) : w.Solid := by
  intro c hc
  rcases (Bool.or_eq_true _ _).mp (Json.isNumberChar_of_isNumber h c hc) with h | h
  · exact solid_of_isDigits (List.forall_mem_singleton.mpr h) c List.mem_cons_self
  · have hs : Solid "+-.eE".toList := by decide
    exact hs c (List.contains_iff_mem.mp h)

theorem solid_of_isWord (h : IsWord w) : w.Solid := by
  cases w
  case nil      => exact nofun
  case cons c r =>
    have ⟨hc, hr⟩ := isWord_cons_iff.mp h
    have hu {d : Char} (h : isWordChar d = true) : isBlank d = false :=
      isBlank_of_isUriChar (by simp [isUriChar, h])
    refine List.forall_mem_cons.mpr ⟨?_, fun d hd => hu (hr d hd)⟩
    cases hc
    case inl hc => exact hu (isWordChar_of_isLetter hc)
    case inr hc => exact hc ▸ rfl

theorem solid_ofNat (n : Nat) : (ofNat n).Solid :=
  solid_of_isDigits (isDigits_toDigits n).digits

theorem ofNat_inj {n m : Nat} (h : ofNat n = ofNat m) : n = m := by
  have h := congrArg (Nat.ofDigitChars 10 · 0) h
  rwa [ofNat, ofNat, Nat.ofDigitChars_ten_toDigits, Nat.ofDigitChars_ten_toDigits] at h

end Text

namespace Token.Kind

variable {k k' : Kind} {w : Text}

-- White space stands in string literals only.
theorem Admits.solid (h : k.Admits w) (hk : k ≠ string) : w.Solid := by
  cases k
  case schemaUri    => exact fun c hc => isBlank_of_isUriChar (h.chars c hc)
  case identifier   => exact solid_of_isWord h.left
  case string       => exact absurd rfl hk
  case number       => exact solid_of_isNumber h
  case leftParen    => exact h ▸ .singleton rfl
  case rightParen   => exact h ▸ .singleton rfl
  case leftBracket  => exact h ▸ .singleton rfl
  case rightBracket => exact h ▸ .singleton rfl
  case dot          => exact h ▸ .singleton rfl
  case colon        => exact h ▸ .singleton rfl
  all_goals exact solid_of_isWord (isWord_of_reserves h)

-- A string literal has line feeds and tabs in it only as escapes, and ends with a quote.
theorem Admits.isPrinted (h : k.Admits w) : w.IsPrinted := by
  by_cases hk : k = string
  case neg => exact (h.solid hk).isPrinted h.ne_nil
  case pos =>
    subst hk
    have ⟨t, ht⟩ := Option.isSome_iff_exists.mp h
    have hw := Quoted.decode?_eq_some_iff.mp ht
    exact ⟨fun hn => absurd (hw.le_toNat _ hn) (by decide), '"', hw.getLast?, rfl⟩

theorem solid_name (k : Kind) : k.name.Solid := by
  unfold Solid
  cases k <;> decide

theorem name_inj (h : k.name = k'.name) : k = k' := by
  revert h
  cases k <;> cases k' <;> decide

end Token.Kind

namespace Position

-- A place as it is printed: the line and the column with a colon between them.
def columns (p : Position) : Text :=
  ofNat p.line ++ ':' :: ofNat p.column

theorem solid_columns (p : Position) : p.columns.Solid :=
  (solid_ofNat _).append ((solid_ofNat _).cons rfl)

theorem colon_notMem_ofNat (n : Nat) : ':' ∉ ofNat n := fun h => by
  cases (isDigits_toDigits n).digits _ h

theorem columns_inj {p q : Position} (h : p.columns = q.columns) : p = q := by
  have h := congrArg (cut ':') h
  rw [columns, columns, cut_append (colon_notMem_ofNat _), cut_append (colon_notMem_ofNat _)] at h
  have ⟨hl, hc⟩ := Prod.mk.inj h
  obtain ⟨l, c⟩ := p
  obtain ⟨l', c'⟩ := q
  cases ofNat_inj hl
  cases ofNat_inj hc
  rfl

end Position

namespace Command

variable {t u : Text} {ts us : List Token} {k : Token}

-- The three columns of a line. There is a tab behind the first one and behind the second one.
def lineColumns (line : Text) : Text × Text × Text :=
  let (place, r)   := cut '\t' line
  let (kind, text) := cut '\t' r
  (place, kind, text)

-- The columns in which a token is told.
def columns (k : Token) : Text × Text × Text :=
  (k.position.columns, k.kind.name, k.text)

theorem tokenLine_eq (k : Token) :
    tokenLine k = k.position.columns ++ '\t' :: (k.kind.name ++ '\t' :: k.text) := by
  simp [tokenLine, Position.columns]

theorem lineColumns_tokenLine (k : Token) : lineColumns (tokenLine k) = columns k := by
  have hp : '\t' ∉ k.position.columns := k.position.solid_columns.notMem rfl
  have hk : '\t' ∉ k.kind.name := k.kind.solid_name.notMem rfl
  simp only [tokenLine_eq, lineColumns, cut_append hp, cut_append hk, columns]

theorem isPrinted_tokenLine (h : k.IsLexeme) : (tokenLine k).IsPrinted := by
  have hn {t : Text} (h : t.Solid) : '\n' ∉ t ++ ['\t'] := by
    intro hm
    cases List.mem_append.mp hm
    case inl hm => exact h.notMem rfl hm
    case inr hm => exact absurd (List.mem_singleton.mp hm) (by decide)
  have hk : ((k.kind.name ++ ['\t']) ++ k.text).IsPrinted :=
    .append (hn k.kind.solid_name) (Token.Kind.Admits.isPrinted h)
  have hl : tokenLine k = (k.position.columns ++ ['\t']) ++ ((k.kind.name ++ ['\t']) ++ k.text) := by
    simp [tokenLine_eq]
  exact hl ▸ .append (hn k.position.solid_columns) hk

-- The lines of the output are those of the tokens.
theorem printedLines_tokenLines (h : ∀ k ∈ ts, k.IsLexeme) :
    printedLines (tokenLines ts) = ts.map tokenLine := by
  refine printedLines_joined fun l hl => ?_
  have ⟨k, hk, he⟩ := List.mem_map.mp hl
  exact he ▸ isPrinted_tokenLine (h k hk)

theorem map_columns_of_tokenLines (h : ∀ k ∈ ts, k.IsLexeme) :
    (printedLines (tokenLines ts)).map lineColumns = ts.map columns := by
  rw [printedLines_tokenLines h, List.map_map]
  exact List.map_congr_left fun k _ => lineColumns_tokenLine k

-- All that is told of a token.
def told (k : Token) : Token.Kind × Text × Position :=
  (k.kind, k.text, k.position)

theorem told_eq_of_columns {k' : Token} (h : columns k = columns k') : told k = told k' := by
  have ⟨hp, h⟩ := Prod.mk.inj h
  have ⟨hk, ht⟩ := Prod.mk.inj h
  rw [told, told, Position.columns_inj hp, Token.Kind.name_inj hk, ht]

theorem map_told_of_columns (h : ts.map columns = us.map columns) : ts.map told = us.map told := by
  induction ts generalizing us
  case nil => rw [List.map_eq_nil_iff.mp h.symm]
  case cons t ts ih =>
    cases us
    case nil       => cases h
    case cons u us =>
      have ⟨hh, ht⟩ := List.cons.inj h
      rw [List.map_cons, List.map_cons, told_eq_of_columns hh, ih ht]

theorem perform_tokens (l : Limits) (t : Text) :
    (Verb.tokens.perform l t).1 = (tokenize t).map tokenLines :=
  rfl

-- What the command for tokens prints has one line for each token, with all that is told of it. So texts for
-- which the same is printed have the same tokens.
theorem perform_tokens_lossless (l : Limits) (ht : tokenize t = .ok ts) :
    (∃ out, (Verb.tokens.perform l t).1 = .ok out ∧ (out = [] ↔ ts = []) ∧
      (printedLines out).map lineColumns = ts.map columns) ∧
    ∀ l' u us, tokenize u = .ok us →
      (Verb.tokens.perform l t).1 = (Verb.tokens.perform l' u).1 → ts.map told = us.map told := by
  have hts := isLexeme_of_tokenize ht
  have hp : (Verb.tokens.perform l t).1 = .ok (tokenLines ts) := by rw [perform_tokens, ht]; rfl
  refine ⟨⟨tokenLines ts, hp, ?_, map_columns_of_tokenLines hts⟩, ?_⟩
  case refine_1 =>
    constructor
    case mpr => rintro rfl; rfl
    case mp =>
      intro hn
      have hl := printedLines_tokenLines hts
      rw [hn] at hl
      exact List.map_eq_nil_iff.mp hl.symm
  case refine_2 =>
    intro l' u us hu h
    rw [hp, perform_tokens, hu] at h
    have h : tokenLines ts = tokenLines us := Except.ok.inj h
    apply map_told_of_columns
    rw [← map_columns_of_tokenLines hts, ← map_columns_of_tokenLines (isLexeme_of_tokenize hu), h]

-- A separator of lines stands in the literal, and a text of two lines around it.
def separatedText : Text :=
  "x eq\n \"\u2028\"".toList

theorem perform_tokens_lossless_separatedText :
    ∃ out, (Verb.tokens.perform {} separatedText).1 = .ok out ∧
      (printedLines out).map lineColumns =
        [("1:1".toList, "Identifier".toList, "x".toList), ("1:3".toList, "Operator".toList, "eq".toList),
         ("2:2".toList, "String".toList, "\"\u2028\"".toList)] := by
  let ts : List Token :=
    [⟨.identifier, "x".toList, "x ".toList, ⟨1, 1⟩⟩, ⟨.operator, "eq".toList, " eq\n ".toList, ⟨1, 3⟩⟩,
     ⟨.string, "\"\u2028\"".toList, "\n \"\u2028\"".toList, ⟨2, 2⟩⟩]
  have hts : tokenize separatedText = .ok ts := by decide +kernel
  have ⟨out, ho, _, hl⟩ := (perform_tokens_lossless {} hts).left
  exact ⟨out, ho, hl.trans (by decide)⟩

end Command
end AttributeFilter
