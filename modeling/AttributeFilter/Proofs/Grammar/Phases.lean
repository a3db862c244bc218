import AttributeFilter.Proofs.Grammar.Halting
import AttributeFilter.Proofs.Grammar.Mirroring
import AttributeFilter.Proofs.Number.Written

/-!
The two phases of parsing a text: making its tokens, and applying the grammar to them. All tokens of a text but
numbers that are out of range mean something. So the grammar has no other cause to call a text unrecognized, and
the errors that only tokens made by hand can cause are those of no text.
-/

namespace AttributeFilter

open Text Grammar

namespace Token

variable {t : Token}

-- A number that is not among the finite ones.
structure IsOutOfRange (t : Token) : Prop where
  kind  : t.kind = .number
  value : ∃ x, Binary64.ofText? t.text = some x ∧ x.isFinite = false

theorem IsMeaningful.not_isOutOfRange (h : t.IsMeaningful) : ¬t.IsOutOfRange := by
  intro ho
  have ⟨x, hx, hf⟩ := ho.value
  have ⟨y, hy, hf'⟩ := h.number ho.kind
  cases hx.symm.trans hy
  cases hf.symm.trans hf'

namespace IsLexeme

-- The words that the scanner takes for operators are those that name one.
theorem exists_operator (h : t.IsLexeme) (hk : t.kind = .operator) :
    ∃ o, Operator.ofWord? t.text = some o := by
  rw [IsLexeme, hk] at h
  cases h
  case operator o ho => exact Option.isSome_iff_exists.mp (List.find?_isSome.mpr ⟨o, o.mem_all, ho⟩)
  case word hm _     => simp [Kind.reservedWords] at hm

theorem exists_string (h : t.IsLexeme) (hk : t.kind = .string) :
    ∃ s, Quoted.decodePadded? t.text = some s := by
  rw [IsLexeme, hk] at h
  rw [Quoted.decodePadded?_of_isSome h]
  exact Option.isSome_iff_exists.mp h

theorem exists_number (h : t.IsLexeme) (hk : t.kind = .number) :
    ∃ x, Binary64.ofText? t.text = some x := by
  rw [IsLexeme, hk] at h
  exact Binary64.exists_ofText? h

end IsLexeme
end Token

-- The errors that the grammar itself raises.
inductive Error.IsSyntactic : Error → Prop
  | endOfText : IsSyntactic .endOfText
  | expectedExpression : IsSyntactic (.expectedExpression found position)
  | unexpected : IsSyntactic (.unexpected text position)
  | tooDeep : IsSyntactic (.tooDeep limit position)

theorem Error.IsSyntactic.isLexical {e : Error} (h : e.IsSyntactic) : e.isLexical = false := by
  cases h <;> rfl

-- The last of some tokens is out of range, and is what the error is about.
def Error.Overflows (e : Error) (taken : List Token) : Prop :=
  ∃ k, taken.getLast? = some k ∧ k.IsOutOfRange ∧ e = .unrecognized k.text k.position

namespace Grammar

variable {limit : Nat} {e : Error} {c us : List Token}

theorem FaultAhead.isSyntactic (h : FaultAhead e us) : e.IsSyntactic := by
  cases h <;> constructor

-- Whatever the tokens are, these errors are not among those of the grammar.
theorem Halts.excludes (h : Halts limit e c us) :
    (∀ o, e ≠ .arity o) ∧ e ≠ .foreignNode ∧ ∀ length max, e ≠ .tooLong length max := by
  cases h
  case ahead hf  => cases hf <;> exact ⟨nofun, nofun, nofun⟩
  case behind hf => cases hf <;> exact ⟨nofun, nofun, nofun⟩
  case emptyName => exact ⟨nofun, nofun, nofun⟩

theorem Halts.exists_emptyName (h : Halts limit .emptyPath c us) :
    ∃ k ∈ c, k.kind ∈ [.identifier, .not] ∧ k.text = [] := by
  cases h
  case ahead hf  => cases hf
  case behind hf => cases hf
  case emptyName hk htext _ hmem => exact ⟨_, hmem, hk, htext⟩

-- Tokens of a text have no other fault than a number that is out of range.
theorem FaultBehind.of_isLexeme {t : Token} (h : FaultBehind limit t e) (hl : t.IsLexeme) :
    (e.IsSyntactic ∧ t.IsMeaningful) ∨ (t.IsOutOfRange ∧ e = .unrecognized t.text t.position) := by
  cases h
  case operator hk hn =>
    have ⟨_, ho⟩ := hl.exists_operator hk
    cases hn.symm.trans ho
  case string hk hn =>
    have ⟨_, hs⟩ := hl.exists_string hk
    cases hn.symm.trans hs
  case number hk hn =>
    have ⟨x, hx⟩ := hl.exists_number hk
    exact .inr ⟨⟨hk, x, hx, hn x hx⟩, rfl⟩
  case level hk =>
    refine .inl ⟨.tooDeep, Token.isMeaningful_of_kind ?_⟩
    simp only [List.mem_cons, List.not_mem_nil, or_false] at hk
    rcases hk with hk | hk | hk <;> rw [hk] <;> decide

theorem Halts.of_isLexeme (h : Halts limit e c us) (hl : ∀ t ∈ c, t.IsLexeme) :
    (e.IsSyntactic ∧ ∀ t ∈ c, t.IsMeaningful) ∨ e.Overflows c := by
  cases h
  case ahead hm hf => exact .inl ⟨hf.isSyntactic, hm⟩
  case behind c t hm hf =>
    rcases hf.of_isLexeme (hl t (by simp)) with ⟨he, ht⟩ | ⟨ht, he⟩
    · exact .inl ⟨he, isMeaningful_concat hm ht⟩
    · exact .inr ⟨t, List.getLast?_concat, ht, he⟩
  case emptyName _ htext _ hmem => exact absurd htext (hl _ hmem).ne_nil

end Grammar

variable {l : Limits} {t : Text} {ts : List Token} {e : Error}

-- The tokens that the grammar takes of all those of a text.
def takenTokens (l : Limits) (ts : List Token) : List Token :=
  ((Cursor.ofTokens ts).parse l).2.consumed

theorem mem_of_mem_takenTokens {k : Token} (h : k ∈ takenTokens l ts) : k ∈ ts :=
  List.mem_of_mem_take h

theorem takenTokens_concludes (l : Limits) (ts : List Token) :
    Concludes l.maxDepth ((Cursor.ofTokens ts).parse l).1 (takenTokens l ts)
      ((Cursor.ofTokens ts).parse l).2.remaining := by
  have ⟨_, _, hcons, hx⟩ := (Cursor.ofTokens ts).parse_concludes l
  have htaken : takenTokens l ts = _ := hcons
  rwa [htaken]

-- Tokens are refused by the grammar, or because one is left behind what it takes.
theorem error_of_parseTokens (h : parseTokens l ts = .error e) :
    ((Cursor.ofTokens ts).parse l).1 = .error e ∨
      (∃ f?, ((Cursor.ofTokens ts).parse l).1 = .ok f?) ∧ ∃ t : Token, e = .unexpected t.text t.position := by
  rw [parseTokens_eq_parse] at h
  cases hf : ((Cursor.ofTokens ts).parse l).1
  case error => rw [hf] at h; exact .inl h
  case ok f? =>
    rw [hf, Except.bind] at h
    refine .inr ⟨⟨f?, rfl⟩, ?_⟩
    cases hr : (expression l.maxDepth ts).rest.head?
    case none   => rw [hr] at h; cases h
    case some t => rw [hr] at h; cases h; exact ⟨t, rfl⟩

-- The grammar refuses tokens of a text for a reason of its own, or for a number that is out of range.
theorem of_parseTokens_error (hl : ∀ t ∈ ts, t.IsLexeme) (h : parseTokens l ts = .error e) :
    (e.IsSyntactic ∧ ∀ k ∈ takenTokens l ts, k.IsMeaningful) ∨ e.Overflows (takenTokens l ts) := by
  have hx := takenTokens_concludes l ts
  rcases error_of_parseTokens h with he | ⟨⟨f?, hf⟩, t, rfl⟩
  · rw [he] at hx
    cases hx with | error hx => exact hx.of_isLexeme fun t ht => hl t (mem_of_mem_takenTokens ht)
  · rw [hf] at hx
    cases hx with | value hm => exact .inl ⟨.unexpected, hm⟩

theorem isMeaningful_of_parseTokens {f? : Option Filter} (h : parseTokens l ts = .ok f?) :
    ∀ k ∈ takenTokens l ts, k.IsMeaningful := by
  have hx := takenTokens_concludes l ts
  rw [parseTokens_eq_parse] at h
  cases hf : ((Cursor.ofTokens ts).parse l).1
  case error => rw [hf] at h; cases h
  case ok    =>
    rw [hf] at hx
    cases hx with | value hm => exact hm

-- A text is refused because it is too long, by the scanner, or by the grammar.
theorem parse_eq_error_iff : parse l t = .error e ↔
    (l.maxLength < byteLength t ∧ e = .tooLong (byteLength t) l.maxLength) ∨
    (byteLength t ≤ l.maxLength ∧
      (tokenize t = .error e ∨ ∃ ts, tokenize t = .ok ts ∧ parseTokens l ts = .error e)) := by
  simp only [parse, parseReporting, tokenize, Scan.result]
  split
  case isTrue h =>
    have hn : ¬byteLength t ≤ l.maxLength := Nat.not_le.mpr h
    simp [h, hn, eq_comm]
  case isFalse h =>
    cases (Scanner.ofText t).scan.failure? <;> simp [h, Nat.not_lt.mp h]

-- The errors of texts are those of the grammar, and two more.
theorem of_parse_error (h : parse l t = .error e) :
    e.IsSyntactic ∨ (∃ length max, e = .tooLong length max) ∨ ∃ w p, e = .unrecognized w p := by
  rcases parse_eq_error_iff.mp h with ⟨_, rfl⟩ | ⟨_, hs | ⟨ts, hts, hg⟩⟩
  · exact .inr (.inl ⟨_, _, rfl⟩)
  · exact .inr (.inr (exists_unrecognized_of_tokenize hs))
  · rcases of_parseTokens_error (isLexeme_of_tokenize hts) hg with ⟨he, _⟩ | ⟨_, _, _, rfl⟩
    · exact .inl he
    · exact .inr (.inr ⟨_, _, rfl⟩)

-- Where tokens have been made, only a number can still be unrecognized, and it is the last token that is taken.
theorem overflows_of_unrecognized {w : Text} {p : Position} (hts : tokenize t = .ok ts)
    (h : parse l t = .error (.unrecognized w p)) :
    (Error.unrecognized w p).Overflows (takenTokens l ts) := by
  rcases parse_eq_error_iff.mp h with ⟨_, he⟩ | ⟨_, hs | ⟨us, hus, hg⟩⟩
  · cases he
  · cases hts.symm.trans hs
  · cases hts.symm.trans hus
    exact (of_parseTokens_error (isLexeme_of_tokenize hts) hg).resolve_left fun h => nomatch h.left

-- The causes of the errors that only builders and tokens made by hand can have are those of no text. Of the
-- tokens of a text, only numbers can mean nothing, and they are the only ones that are unrecognized late.
theorem internal_errors_unreachable :
    (∀ (l : Limits) (t : Text),
      (∀ o, parse l t ≠ .error (.arity o)) ∧ parse l t ≠ .error .emptyPath ∧
        parse l t ≠ .error .foreignNode ∧
        ∀ ts, tokenize t = .ok ts →
          (∀ k ∈ ts, k.kind = .operator → ∃ o, Operator.ofWord? k.text = some o) ∧
          (∀ k ∈ ts, k.kind = .string → ∃ s, Quoted.decodePadded? k.text = some s) ∧
          ∀ w p, parse l t = .error (.unrecognized w p) →
            ∃ k, (takenTokens l ts).getLast? = some k ∧ k.kind = .number ∧
              (∃ x, Binary64.ofText? k.text = some x ∧ x.isFinite = false) ∧
              w = k.text ∧ p = k.position) ∧
    ∀ (c : Cursor) (l : Limits) (e : Error), (c.parse l).1 = .error e →
      (∀ o, e ≠ .arity o) ∧ e ≠ .foreignNode ∧ (∀ length max, e ≠ .tooLong length max) ∧
        (e = .emptyPath → ∃ taken, (c.parse l).2.consumed = c.consumed ++ taken ∧
          ∃ k ∈ taken, k.kind ∈ [.identifier, .not] ∧ k.text = []) := by
  constructor
  case left =>
    intro l t
    have hn {e : Error} (he : ¬e.IsSyntactic) (hl : ∀ length max, e ≠ .tooLong length max)
        (hu : ∀ w p, e ≠ .unrecognized w p) : parse l t ≠ .error e := by
      intro h
      rcases of_parse_error h with h | ⟨_, _, h⟩ | ⟨_, _, h⟩
      exacts [he h, hl _ _ h, hu _ _ h]
    refine ⟨fun o => hn nofun nofun nofun, hn nofun nofun nofun, hn nofun nofun nofun, fun ts hts => ?_⟩
    have hlex := isLexeme_of_tokenize hts
    refine ⟨fun k hk => (hlex k hk).exists_operator, fun k hk => (hlex k hk).exists_string, fun w p h => ?_⟩
    have ⟨k, hlast, hk, he⟩ := overflows_of_unrecognized hts h
    cases he
    exact ⟨k, hlast, hk.kind, hk.value, rfl, rfl⟩
  case right =>
    intro c l e h
    have ⟨taken, _, hcons, hx⟩ := c.parse_concludes l
    rw [h] at hx
    cases hx with | error hh =>
    have ⟨harity, hforeign, hlong⟩ := hh.excludes
    exact ⟨harity, hforeign, hlong, fun he => ⟨taken, hcons, (he ▸ hh).exists_emptyName⟩⟩

def overflowingText : Text :=
  "x gt 1e999".toList

def overflowingTokens : List Token :=
  [⟨.identifier, "x".toList, "x ".toList, ⟨1, 1⟩⟩, ⟨.operator, "gt".toList, " gt ".toList, ⟨1, 3⟩⟩,
   ⟨.number, "1e999".toList, " 1e999".toList, ⟨1, 6⟩⟩]

theorem tokenize_overflowingText : tokenize overflowingText = .ok overflowingTokens := by
  decide +kernel

theorem parse_overflowingText :
    parse {} overflowingText = .error (.unrecognized "1e999".toList ⟨1, 6⟩) :=
  eq_error_of_map (by decide +kernel)

-- The number is the last token that is taken; and a name without a text can only be made by hand.
theorem internal_errors_unreachable_overflowingText :
    (∃ k, (takenTokens {} overflowingTokens).getLast? = some k ∧ k.kind = .number ∧
      "1e999".toList = k.text ∧ ⟨1, 6⟩ = k.position) ∧
    ∃ c : Cursor, (c.parse {}).1 = .error .emptyPath ∧
      ∃ taken, (c.parse {}).2.consumed = c.consumed ++ taken ∧
        ∃ k ∈ taken, k.kind ∈ [.identifier, .not] ∧ k.text = [] := by
  constructor
  case left =>
    have ⟨_, _, _, h⟩ := internal_errors_unreachable.left {} overflowingText
    have ⟨_, _, h⟩ := h _ tokenize_overflowingText
    have ⟨k, hlast, hk, _, htext, hposition⟩ := h _ _ parse_overflowingText
    exact ⟨k, hlast, hk, htext, hposition⟩
  case right =>
    have he : ((Cursor.ofTokens [.ofText .identifier []]).parse {}).1 = .error .emptyPath :=
      eq_error_of_map (by decide +kernel)
    have ⟨_, _, _, h⟩ := internal_errors_unreachable.right _ {} _ he
    exact ⟨_, he, h rfl⟩

theorem parse_eq_tooLong (h : l.maxLength < byteLength t) :
    parse l t = .error (.tooLong (byteLength t) l.maxLength) :=
  parse_eq_error_iff.mpr (.inl ⟨h, rfl⟩)

theorem parse_eq_error_of_tokenize (hl : byteLength t ≤ l.maxLength) (h : tokenize t = .error e) :
    parse l t = .error e :=
  parse_eq_error_iff.mpr (.inr ⟨hl, .inl h⟩)

-- A number that is out of range is always told where it is taken.
theorem exists_unrecognized_of_isOutOfRange {k : Token} (hl : byteLength t ≤ l.maxLength)
    (hts : tokenize t = .ok ts) (hk : k ∈ takenTokens l ts) (ho : k.IsOutOfRange) :
    ∃ w p, parse l t = .error (.unrecognized w p) := by
  rw [parse_eq_parseTokens hl hts]
  cases hp : parseTokens l ts
  case ok => exact absurd ho (isMeaningful_of_parseTokens hp k hk).not_isOutOfRange
  case error =>
    rcases of_parseTokens_error (isLexeme_of_tokenize hts) hp with ⟨_, hm⟩ | ⟨_, _, _, rfl⟩
    · exact absurd ho (hm k hk).not_isOutOfRange
    · exact ⟨_, _, rfl⟩

-- A text is refused as one that the grammar has not seen, exactly if it is too long, if it cannot be scanned, or
-- if the grammar takes a number that is out of range.
theorem exists_isLexical_iff : (∃ e, parse l t = .error e ∧ e.isLexical = true) ↔
    l.maxLength < byteLength t ∨ (∃ e, tokenize t = .error e) ∨
      ∃ ts, tokenize t = .ok ts ∧ ∃ k ∈ takenTokens l ts, k.IsOutOfRange := by
  constructor
  case mp =>
    rintro ⟨e, h, he⟩
    rcases parse_eq_error_iff.mp h with ⟨hl, _⟩ | ⟨_, hs | ⟨ts, hts, hg⟩⟩
    · exact .inl hl
    · exact .inr (.inl ⟨e, hs⟩)
    · rcases of_parseTokens_error (isLexeme_of_tokenize hts) hg with ⟨hs, _⟩ | ⟨k, hlast, hk, _⟩
      · cases he.symm.trans hs.isLexical
      · exact .inr (.inr ⟨ts, hts, k, List.mem_of_getLast? hlast, hk⟩)
  case mpr =>
    intro h
    rcases Nat.lt_or_ge l.maxLength (byteLength t) with hl | hl
    · exact ⟨_, parse_eq_tooLong hl, rfl⟩
    · rcases h.resolve_left (Nat.not_lt.mpr hl) with ⟨e, hs⟩ | ⟨ts, hts, k, hk, ho⟩
      · obtain ⟨_, _, rfl⟩ := exists_unrecognized_of_tokenize hs
        exact ⟨_, parse_eq_error_of_tokenize hl hs, rfl⟩
      · have ⟨_, _, hp⟩ := exists_unrecognized_of_isOutOfRange hl hts hk ho
        exact ⟨_, hp, rfl⟩

-- If the grammar takes no number that is out of range, its errors are told from those that come before it.
theorem parse_phases (h : byteLength t ≤ l.maxLength → ∀ ts, tokenize t = .ok ts →
      ∀ k ∈ takenTokens l ts, ¬k.IsOutOfRange) :
    ((∃ e, parse l t = .error e ∧ e.isLexical = true) ↔
      l.maxLength < byteLength t ∨ ∃ e, tokenize t = .error e) ∧
    (l.maxLength < byteLength t → parse l t = .error (.tooLong (byteLength t) l.maxLength)) ∧
    (byteLength t ≤ l.maxLength → ∀ e, tokenize t = .error e → parse l t = .error e) ∧
    (byteLength t ≤ l.maxLength → ∀ ts, tokenize t = .ok ts →
      ∀ e, parse l t = .error e → e.isLexical = false) := by
  have hiff : (∃ e, parse l t = .error e ∧ e.isLexical = true) ↔
      l.maxLength < byteLength t ∨ ∃ e, tokenize t = .error e := by
    rw [exists_isLexical_iff, ← or_assoc]
    refine ⟨fun hp => ?_, .inl⟩
    rcases hp with hp | ⟨ts, hts, k, hk, ho⟩
    · exact hp
    · exact .inl (Nat.lt_of_not_le fun hl => h hl ts hts k hk ho)
  refine ⟨hiff, parse_eq_tooLong, fun hl e => parse_eq_error_of_tokenize hl, fun hl ts hts e he => ?_⟩
  by_contra hlex
  rcases hiff.mp ⟨e, he, Bool.of_not_eq_false hlex⟩ with hl' | ⟨_, hs⟩
  · exact absurd hl (Nat.not_le.mpr hl')
  · cases hts.symm.trans hs

def danglingText : Text :=
  "x pr )".toList

theorem parse_phases_danglingText :
    parse {} danglingText = .error (.unexpected ")".toList ⟨1, 6⟩) ∧
      ∀ e, parse {} danglingText = .error e → e.isLexical = false := by
  let ts : List Token :=
    [⟨.identifier, "x".toList, "x ".toList, ⟨1, 1⟩⟩, ⟨.operator, "pr".toList, " pr ".toList, ⟨1, 3⟩⟩,
     ⟨.rightParen, ")".toList, " )".toList, ⟨1, 6⟩⟩]
  have hts : tokenize danglingText = .ok ts := by decide +kernel
  have hk : ∀ k ∈ ts, k.kind ≠ .number := by decide
  have h := parse_phases (l := {}) (t := danglingText) fun _ us hus k hm ho => by
    cases hts.symm.trans hus
    exact hk k (mem_of_mem_takenTokens hm) ho.kind
  exact ⟨eq_error_of_map (by decide +kernel), h.right.right.right (by decide) ts hts⟩

-- A number that is out of range is told as if the grammar had not seen it.
theorem not_parse_phases_overflowingText :
    ¬∀ (l : Limits) (t : Text), byteLength t ≤ l.maxLength → ∀ ts, tokenize t = .ok ts →
      ∀ e, parse l t = .error e → e.isLexical = false := by
  intro h
  have := h {} overflowingText (by decide) _ tokenize_overflowingText _ parse_overflowingText
  cases this

end AttributeFilter
