import AttributeFilter.Proofs.Text.Runs
import AttributeFilter.Token.Lexeme

/-!
The lexical grammar: which texts are lexemes of a kind. The scanner does not occur in it.
-/

namespace AttributeFilter

open Text

namespace Lexeme

-- A name or a reserved word: a letter or `$`, and any number of letters, digits, `_` and `-`.
structure IsWord (w : Text) : Prop where
  head : ∃ c ∈ w.head?, isLetter c = true ∨ c = '$'
  tail : ∀ c ∈ w.tail, isWordChar c = true

theorem isWord_cons_iff {c : Char} {r : Text} :
    IsWord (c :: r) ↔ (isLetter c = true ∨ c = '$') ∧ ∀ d ∈ r, isWordChar d = true := by
  constructor
  case mp =>
    intro ⟨⟨_, hc, h⟩, ht⟩
    cases hc
    exact ⟨h, ht⟩
  case mpr => exact fun h => ⟨⟨c, rfl, h.left⟩, h.right⟩

instance decidableIsWord : (w : Text) → Decidable (IsWord w)
  | []     => isFalse fun h => nomatch h.head
  | _ :: _ => decidable_of_iff _ isWord_cons_iff.symm

structure IsDigits (t : Text) : Prop where
  ne_nil : t ≠ []
  digits : ∀ c ∈ t, isDigit c = true

inductive IsFraction : Text → Prop
  | absent : IsFraction []
  | digits : IsDigits ds → IsFraction ('.' :: ds)

inductive IsExponent : Text → Prop
  | absent : IsExponent []
  | digits : Part.isExponentMark e = true → IsDigits ds → IsExponent (e :: ds)
  | signed : Part.isExponentMark e = true → Part.isSign s = true → IsDigits ds →
    IsExponent (e :: s :: ds)

inductive IsNumber : Text → Prop
  | unsigned : IsDigits whole → IsFraction fraction → IsExponent exponent →
    IsNumber (whole ++ fraction ++ exponent)
  | negative : IsDigits whole → IsFraction fraction → IsExponent exponent →
    IsNumber ('-' :: (whole ++ fraction ++ exponent))

theorem IsNumber.ne_nil : IsNumber t → t ≠ []
  | .unsigned h _ _ => by simp [h.ne_nil]
  | .negative ..    => by simp

-- A schema URI has more than its scheme.
structure IsSchemaUri (t : Text) : Prop where
  scheme : startsUri t = true
  longer : uriScheme.length < t.length
  chars  : ∀ c ∈ t, isUriChar c = true

end Lexeme

namespace Token

open Lexeme

namespace Kind

-- A reserved word is the same whatever the case of its letters.
inductive Reserves : Kind → Text → Prop
  | operator (o : Operator) : sameWord o.word w → Reserves operator w
  | word : (v, k) ∈ reservedWords → sameWord v w → Reserves k w

def Admits : Kind → Text → Prop
  | schemaUri, t    => IsSchemaUri t
  | identifier, t   => IsWord t ∧ ∀ k, ¬Reserves k t
  | string, t       => (Quoted.decode? t).isSome
  | number, t       => IsNumber t
  | leftParen, t    => t = ['(']
  | rightParen, t   => t = [')']
  | leftBracket, t  => t = ['[']
  | rightBracket, t => t = [']']
  | dot, t          => t = ['.']
  | colon, t        => t = [':']
  | k, t            => Reserves k t

end Kind

-- The text of the token is a lexeme of its kind.
def IsLexeme (t : Token) : Prop :=
  t.kind.Admits t.text

end Token

theorem Text.lower_lower (t : Text) : lower (lower t) = lower t := by
  rw [lower, lower, List.map_map]
  exact List.map_congr_left fun c _ => toLower_toLower c

theorem Text.sameWord_iff {t u : Text} : sameWord t u = true ↔ lower t = lower u := by
  simp [sameWord]

namespace Token.Kind

variable {w : Text} {k : Kind}

theorem ofReserved?_lower (w : Text) : ofReserved? (lower w) = ofReserved? w := by
  simp only [ofReserved?, lower_lower]

-- Each word that is an operator names one.
theorem exists_word_of_mem_operatorWords : ∀ w ∈ operatorWords, ∃ o : Operator, lower o.word = w := by
  have h : ∀ w ∈ operatorWords, ∃ o ∈ Operator.all, lower o.word = w := by decide
  intro w hw
  have ⟨o, _, ho⟩ := h w hw
  exact ⟨o, ho⟩

theorem lower_of_mem_reservedWords {v : Text} (h : (v, k) ∈ reservedWords) : lower v = v := by
  revert h
  simp only [reservedWords, List.mem_cons, Prod.mk.injEq, List.not_mem_nil, or_false]
  rintro (⟨rfl, -⟩ | ⟨rfl, -⟩ | ⟨rfl, -⟩ | ⟨rfl, -⟩ | ⟨rfl, -⟩ | ⟨rfl, -⟩) <;> decide

theorem ofReserved?_eq_some_iff : ofReserved? w = some k ↔ Reserves k w := by
  constructor
  case mp =>
    intro h
    simp only [ofReserved?] at h
    split at h
    · next hm =>
      have ⟨o, ho⟩ := exists_word_of_mem_operatorWords _ hm
      injection h with h
      exact h ▸ .operator o (sameWord_iff.mpr ho)
    · next =>
      have ⟨_, _, hl, _⟩ := List.lookup_eq_some_iff.mp h
      have hm : (lower w, k) ∈ reservedWords := hl ▸ List.mem_append_right _ List.mem_cons_self
      exact .word hm (sameWord_iff.mpr (lower_lower w))
  case mpr =>
    rintro (⟨o, h⟩ | ⟨hm, h⟩)
    case operator =>
      rw [← ofReserved?_lower, ← sameWord_iff.mp h]
      cases o <;> decide
    case word v =>
      rw [← ofReserved?_lower, ← sameWord_iff.mp h, lower_of_mem_reservedWords hm]
      revert hm
      simp only [reservedWords, List.mem_cons, Prod.mk.injEq, List.not_mem_nil, or_false]
      rintro (⟨rfl, rfl⟩ | ⟨rfl, rfl⟩ | ⟨rfl, rfl⟩ | ⟨rfl, rfl⟩ | ⟨rfl, rfl⟩ | ⟨rfl, rfl⟩) <;> decide

theorem ofReserved?_eq_none_iff : ofReserved? w = none ↔ ∀ k, ¬Reserves k w := by
  constructor
  case mp =>
    intro hn k hk
    cases hn.symm.trans (ofReserved?_eq_some_iff.mpr hk)
  case mpr =>
    intro h
    cases hk : ofReserved? w
    case none   => rfl
    case some k => exact absurd (ofReserved?_eq_some_iff.mp hk) (h k)

instance : Decidable (identifier.Admits w) :=
  decidable_of_iff (Lexeme.IsWord w ∧ ofReserved? w = none) (and_congr_right' ofReserved?_eq_none_iff)

-- Every reserved word is reserved as it is.
theorem Reserves.of_mem (h : (w, k) ∈ reservedWords) : Reserves k w :=
  .word h (sameWord_iff.mpr rfl)

theorem Reserves.ne_nil (h : Reserves k w) : w ≠ [] := by
  rintro rfl
  have := ofReserved?_eq_some_iff.mpr h
  simp [show ofReserved? [] = none by decide] at this

theorem Admits.ne_nil {t : Text} (h : k.Admits t) : t ≠ [] := by
  rintro rfl
  cases k
  case schemaUri  => exact absurd h.longer (Nat.not_lt_zero _)
  case identifier => simpa using h.left.head
  case string     => simp [Admits, Quoted.decode?] at h
  case number     => exact h.ne_nil rfl
  all_goals first | exact Reserves.ne_nil h rfl | simp [Admits] at h

end Token.Kind
end AttributeFilter
