import AttributeFilter.Proofs.Token.Division
import AttributeFilter.Proofs.Token.Makes

/-!
The scanner recognises the lexical grammar. What it makes of a text are lexemes, and a schema URI stands
directly before its colon and that directly before what it qualifies; and lexemes that are written with
white space between them are made from the text, as they are.
-/

namespace AttributeFilter

open Text Lexeme

def Text.BeginsWithLetter (w : Text) : Prop :=
  ∃ c ∈ w.head?, isLetter c = true

-- Lexemes that are written one behind the other, with white space between them. Only a schema URI, the
-- colon behind it and the word behind that are written without.
inductive Written : List (Token.Kind × Text) → Text → Prop
  | nothing : Written [] []
  | last : k.Admits w → k ≠ .schemaUri → Written [(k, w)] w
  | apart : k.Admits w → k ≠ .schemaUri → g ≠ [] → Blank g → Written (l :: ls) t →
    Written ((k, w) :: l :: ls) (w ++ (g ++ t))
  | qualified : IsSchemaUri u → IsWord w → BeginsWithLetter w → Written ((k, w) :: ls) t →
    Written ((.schemaUri, u) :: (.colon, [':']) :: (k, w) :: ls) (u ++ (':' :: t))

variable {k : Token.Kind} {w u t r : Text} {ls : List (Token.Kind × Text)} {ts : List Token}
  {gaps : List Text}

theorem Text.Blank.stops (h : r.Blank) : r.Stops isUriChar := by
  intro c hc
  have hb := h c (List.mem_of_head? hc)
  apply Bool.eq_false_iff.mpr
  intro hu
  cases hb.symm.trans (isBlank_of_isUriChar hu)

theorem Text.Blank.stops_append (h : r.Blank) (hn : r ≠ []) (u : Text) : (r ++ u).Stops isUriChar := by
  have hs := h.stops
  cases r
  case nil  => exact absurd rfl hn
  case cons => exact hs

-- A word is no schema URI, which has a colon in it.
theorem not_isSchemaUri_of_isWord (h : IsWord w) : ¬IsSchemaUri w := by
  intro hs
  have ⟨a, b, c, u, he, _⟩ := of_startsUri hs.scheme
  exact ne_colon_of_isWord h (c := ':') (by simp [he]) rfl

-- Behind the first lexeme stands nothing that would continue it.
theorem Written.exists_append (h : Written ((k, w) :: ls) t) (hw : IsWord w) (hr : r.Stops isUriChar) :
    ∃ v, t ++ r = w ++ v ∧ v.Stops isUriChar := by
  cases h
  case last               => exact ⟨r, rfl, hr⟩
  case apart g _ _ v hn hg _ _ _ =>
    refine ⟨g ++ (v ++ r), ?_, hg.stops_append hn _⟩
    rw [List.append_assoc, List.append_assoc]
  case qualified => exact absurd ‹IsSchemaUri w› (not_isSchemaUri_of_isWord hw)

theorem cuts_qualified (hu : IsSchemaUri u) (hw : IsWord w) (hl : w.BeginsWithLetter)
    (hr : r.Stops isUriChar) : Cuts .schemaUri u (':' :: (w ++ r)) := by
  have ⟨c, hc, hl⟩ := hl
  have hc : ∃ c ∈ w.head?, isUriChar c = true :=
    ⟨c, hc, by simp [isUriChar, isWordChar_of_isLetter hl]⟩
  exact cuts_schemaUri_before hu hc (fun c => ne_colon_of_isWord hw) hr

theorem Spells.lexeme (hc : Cuts k w r) :
    Spells (fun ts : List Token => ts) (fun ts => ts.map Token.lexeme = [(k, w)]) w r :=
  (Spells.terminal [k] List.mem_cons_self hc).map fun t ⟨hk, hw⟩ =>
    ⟨[t.token], by rw [List.map_singleton, Token.lexeme, hk, hw], rfl⟩

-- What is written is made, if nothing stands behind it that would continue it.
theorem Written.spells (h : Written ls t) (hr : r.Stops isUriChar) :
    Spells (fun ts : List Token => ts) (fun ts => ts.map Token.lexeme = ls) t r := by
  induction h
  case nothing    => exact fun s hs => ⟨[], s, rfl, .stay s, hs⟩
  case last hw hk => exact .lexeme (cuts_of_admits hw hk hr)
  case apart hw hk hn hg _ ih =>
    refine ((Spells.lexeme (cuts_of_admits hw hk (hg.stops_append hn _))).andApart hg ih).map ?_
    intro ⟨ts, us⟩ ⟨hts, hus⟩
    refine ⟨ts ++ us, ?_, rfl⟩
    rw [List.map_append, hts, hus]
    rfl
  case qualified hu hw hl h ih =>
    have ⟨v, hv, hs⟩ := h.exists_append hw hr
    have hc := cuts_qualified hu hw hl hs
    rw [← hv] at hc
    have hm (r : Text) := Spells.lexeme (cuts_mark (c := ':') rfl r)
    refine ((Spells.lexeme hc).andThen ((hm _).andThen ih)).map ?_
    intro ⟨ts, us, vs⟩ ⟨hts, hus, hvs⟩
    refine ⟨ts ++ (us ++ vs), ?_, rfl⟩
    rw [List.map_append, List.map_append, hts, hus, hvs]
    rfl

namespace Scanner

variable {s s' : Scanner} {c : Char}

-- A scanner before something that is not white space makes a token, unless it fails.
theorem exists_next?_of_rest (hr : s.rest = c :: r) (hc : isUriChar c = true)
    (hf : s.scan.failure? = none) :
    ∃ t s', s.next? = some (.ok t, s') ∧ s'.scan.failure? = none := by
  rcases hn : s.next? with _ | ⟨e | t, s'⟩
  case none =>
    have hd : dropBlank s.rest = c :: r := by
      rw [hr]
      exact dropBlank_of_stops (.cons (isBlank_of_isUriChar hc))
    cases hd.symm.trans (dropBlank_of_next?_none hn)
  case some.error =>
    rw [scan_of_error hn] at hf
    cases hf
  case some.ok =>
    rw [scan_of_token hn] at hf
    exact ⟨t, s', rfl, hf⟩

-- Behind every schema URI a colon is made that has no white space around it, and something behind that.
theorem exists_colon_of_scan (hf : s.scan.failure? = none) {i : Nat} {u : Token}
    (hi : s.scan.tokens[i]? = some u) (hu : u.kind = .schemaUri) :
    ∃ c n, s.scan.tokens[i + 1]? = some c ∧ s.scan.tokens[i + 2]? = some n ∧ c.kind = .colon ∧
      c.raw = c.text := by
  induction i generalizing s
  all_goals
    cases hs : s.scan.tokens
    case nil => rw [hs] at hi; cases hi
  case zero.cons t ts =>
    rw [hs] at hi
    cases hi
    have ⟨s₁, hn, hs₁⟩ := exists_next?_of_scan hs
    have hf₁ : s₁.scan.failure? = none := by rwa [scan_of_token hn] at hf
    have ⟨_, _, _, hl⟩ := exists_first_of_next? hn
    have ⟨_, _, hr, _⟩ := rest_of_first hl hu
    have ⟨c, s₂, hn₁, hf₂⟩ := exists_next?_of_rest hr rfl hf₁
    have ⟨hk, hw, d, v, hr', hd⟩ := colon_of_next? hn hu hn₁
    have ⟨n, s₃, hn₂, _⟩ := exists_next?_of_rest hr' hd hf₂
    refine ⟨c, n, ?_, ?_, hk, hw⟩
    · rw [← hs₁, scan_of_token hn₁]; rfl
    · rw [← hs₁, scan_of_token hn₁, scan_of_token hn₂]; rfl
  case succ.cons i ih t ts =>
    rw [hs] at hi
    have ⟨s₁, hn, hs₁⟩ := exists_next?_of_scan hs
    have hf₁ : s₁.scan.failure? = none := by rwa [scan_of_token hn] at hf
    exact hs₁ ▸ ih hf₁ (hs₁ ▸ hi)

end Scanner

-- A schema URI, the colon behind it, and what stands behind that have no gaps between them.
def Qualifies (gaps : List Text) (ts : List Token) : Prop :=
  ∀ (i : Nat) (u : Token), ts[i]? = some u → u.kind = .schemaUri →
    ∃ c n, ts[i + 1]? = some c ∧ c.kind = .colon ∧ ts[i + 2]? = some n ∧
      gaps[i + 1]? = some [] ∧ gaps[i + 2]? = some []

theorem Divides.exists_gap {before remainder : Text} (h : Divides before t gaps ts remainder) {i : Nat}
    (hi : i ≤ ts.length) : ∃ g, gaps[i]? = some g :=
  ⟨_, List.getElem?_eq_getElem (by have := h.length; omega)⟩

-- The gaps around a token are those that its raw text has.
theorem Divides.gaps_eq_nil {before remainder : Text} (h : Divides before t gaps ts remainder) {i : Nat}
    {c : Token} (hi : ts[i]? = some c) (hr : c.raw = c.text) :
    gaps[i]? = some [] ∧ gaps[i + 1]? = some [] := by
  have hlt := (List.getElem?_eq_some_iff.mp hi).1
  have ⟨g, hg⟩ := h.exists_gap (Nat.le_of_lt hlt)
  have ⟨g', hg'⟩ := h.exists_gap hlt
  have hl := congrArg List.length ((h.raw i c g g' hi hg hg').symm.trans hr)
  simp only [List.length_append] at hl
  have hn : g = [] := List.eq_nil_of_length_eq_zero (by omega)
  have hn' : g' = [] := List.eq_nil_of_length_eq_zero (by omega)
  exact ⟨hn ▸ hg, hn' ▸ hg'⟩

theorem exists_qualifies (h : tokenize t = .ok ts) :
    ∃ gaps, Divides [] t gaps ts [] ∧ Qualifies gaps ts := by
  have hp : (Scanner.ofText t).position = .behind [] := rfl
  have ⟨gaps, remainder, hd, he⟩ := (Scanner.ofText t).exists_divides hp
  unfold tokenize Scan.result at h
  split at h
  case h_2 => cases h
  case h_1 hf =>
    cases h
    have hr : remainder = [] := by
      cases he
      case inl he => exact he.right
      case inr he =>
        have ⟨w, hw, _⟩ := he
        cases hf.symm.trans hw
    refine ⟨_, hr ▸ hd, fun i u hi hu => ?_⟩
    have ⟨c, n, hc, hn, hk, hraw⟩ := Scanner.exists_colon_of_scan hf hi hu
    have hg := hd.gaps_eq_nil hc hraw
    exact ⟨c, n, hc, hk, hn, hg.left, hg.right⟩

theorem Written.exists_tokenize {g g' : Text} (h : Written ls t) (hg : g.Blank) (hg' : g'.Blank) :
    ∃ ts, tokenize (g ++ (t ++ g')) = .ok ts ∧ ts.map Token.lexeme = ls := by
  have ⟨ts, hts, ht, _⟩ := tokenize_of_spells hg hg' (h.spells hg'.stops)
  exact ⟨ts, ht, hts⟩

-- The scanner makes lexemes of their kinds, of which schema URIs qualify what stands behind them, and it
-- makes all that is written as lexemes. String lexemes are the literals.
theorem tokenize_recognises :
    (∀ t ts, tokenize t = .ok ts →
      (∀ u ∈ ts, u.IsLexeme) ∧ ∃ gaps, Divides [] t gaps ts [] ∧ Qualifies gaps ts) ∧
    (∀ ls t g g', Written ls t → Blank g → Blank g' →
      ∃ ts, tokenize (g ++ (t ++ g')) = .ok ts ∧ ts.map Token.lexeme = ls) ∧
    ∀ w, Token.Kind.string.Admits w ↔ ∃ t, Quoted.Writes t w :=
  ⟨fun _ _ h => ⟨isLexeme_of_tokenize h, exists_qualifies h⟩, fun _ _ _ _ => Written.exists_tokenize,
    fun _ => Option.isSome_iff_exists.trans (exists_congr fun _ => Quoted.decode?_eq_some_iff)⟩

def qualifiedLexemes : List (Token.Kind × Text) :=
  [(.schemaUri, "URN:a:".toList), (.colon, ":".toList), (.identifier, "b".toList),
   (.operator, "Gt".toList), (.string, "\"\\u0041\"".toList)]

theorem written_qualifiedLexemes :
    Written qualifiedLexemes "URN:a::b Gt \"\\u0041\"".toList := by
  have hq : Quoted.IsQuad 0x41 "0041".toList := ⟨rfl, by decide⟩
  have hc : Quoted.WritesChar (.ofNat 0x41) "\\u0041".toList :=
    .escaped (.numbered hq (by decide) (by decide))
  have hs : Token.Kind.string.Admits "\"\\u0041\"".toList :=
    Option.isSome_iff_exists.mpr ⟨_, Quoted.decode?_eq_some_iff.mpr ⟨_, .cons hc .nil, rfl⟩⟩
  have ho : Token.Kind.operator.Admits "Gt".toList := .operator .greater (by decide)
  have hb : Token.Kind.identifier.Admits "b".toList := by decide
  have hu : IsSchemaUri "URN:a:".toList := ⟨by decide, by decide, by decide⟩
  have hl : BeginsWithLetter "b".toList := ⟨'b', rfl, rfl⟩
  have hw := Written.apart (g := [' ']) ho nofun nofun (by decide) (.last hs nofun)
  exact .qualified hu hb.left hl (.apart (g := [' ']) hb nofun nofun (by decide) hw)

theorem tokenize_qualifiedLexemes :
    ∃ ts gaps, tokenize "URN:a::b Gt \"\\u0041\"".toList = .ok ts ∧
      ts.map Token.lexeme = qualifiedLexemes ∧ (∀ u ∈ ts, u.IsLexeme) ∧ Qualifies gaps ts := by
  have ⟨ts, ht, hl⟩ := tokenize_recognises.right.left _ _ [] [] written_qualifiedLexemes .nil .nil
  rw [List.nil_append, List.append_nil] at ht
  have ⟨hts, gaps, _, hq⟩ := tokenize_recognises.left _ _ ht
  exact ⟨ts, gaps, ht, hl, hts, hq⟩

end AttributeFilter
