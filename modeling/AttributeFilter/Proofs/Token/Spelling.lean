import AttributeFilter.Proofs.Number.Written
import AttributeFilter.Proofs.Token.Makes
import AttributeFilter.Proofs.Tree.Canonical

/-!
The spelling of words, literals and tests.
-/

namespace AttributeFilter

open Text Lexeme Grammar

variable {w r s : Text} {k : Token.Kind}

-- One of some characters comes next, if there is one.
def Text.Ends (ends : List Char) (r : Text) : Prop :=
  ∀ c ∈ r.head?, c ∈ ends

theorem Text.Ends.cons {ends : List Char} {c : Char} (h : c ∈ ends) : Ends ends (c :: r) :=
  fun _ hd => Option.some.inj hd ▸ h

theorem Text.Ends.stops {ends : List Char} {p : Char → Bool} (h : r.Ends ends)
    (hp : ∀ c ∈ ends, p c = false) : r.Stops p :=
  fun c hc => hp c (h c hc)

theorem Text.Ends.mono {ends ends' : List Char} (h : r.Ends ends) (hs : ∀ c ∈ ends, c ∈ ends') :
    r.Ends ends' :=
  fun c hc => hs c (h c hc)

-- What may stand behind an operand, and behind a name.
def operandEnds : List Char :=
  [' ', ')', ']']

def nameEnds : List Char :=
  '[' :: operandEnds

namespace Grammar

theorem spells_literal_of_cuts {v : Value} (hk : k ∈ Token.Kind.literals) (hc : Cuts k w r)
    (hd : ∀ t : Token, t.kind = k → t.text = w → Denotes t v) :
    Spells (fun l : Literal => [l.word.token]) (fun l => l.value = v) w r :=
  (Spells.terminal _ hk hc).map fun t ⟨ht, hw⟩ => ⟨⟨t, v, hd _ ht hw⟩, rfl, rfl⟩

theorem spells_literal {v : Value} (hf : ∀ x, v = .number x → x.isFinite = true)
    (hr : r.Ends operandEnds) :
    Spells (fun l : Literal => [l.word.token]) (fun l => l.value = v) v.text r := by
  have hw : r.Stops continuesWord := hr.stops (by decide)
  have hc {k : Token.Kind} {w : Text} (h : (w, k) ∈ Token.Kind.reservedWords) : Cuts k w r :=
    cuts_reserved (.of_mem h) hw
  cases v
  case string t =>
    have hd := Quoted.decode?_encode t
    exact spells_literal_of_cuts (by decide) (cuts_string (hd ▸ rfl) r)
      fun _ hk ht => .string hk (ht ▸ hd)
  case number x =>
    have ⟨hx, hb⟩ := Value.numberText_spec (hf x rfl)
    exact spells_literal_of_cuts (by decide) (cuts_number hx (hr.stops (by decide)))
      fun _ hk ht => .number hk (ht ▸ hb) (hf x rfl)
  case boolean b =>
    cases b
    case true  => exact spells_literal_of_cuts (by decide) (hc (by decide)) fun _ hk _ => .true hk
    case false => exact spells_literal_of_cuts (by decide) (hc (by decide)) fun _ hk _ => .false hk
  case null => exact spells_literal_of_cuts (by decide) (hc (by decide)) fun _ hk _ => .null hk

theorem spells_operator {o : Operator} (hr : r.Stops continuesWord) :
    Spells (fun t : Terminal [.operator] => [t.token])
      (fun t => Operator.ofWord? t.token.text = some o) o.word r := by
  have hc := cuts_reserved (.operator o (sameWord_iff.mpr rfl)) hr
  exact (Spells.terminal _ List.mem_cons_self hc).map fun t ⟨_, hw⟩ =>
    ⟨t, hw ▸ Operator.ofWord?_word o, rfl⟩

theorem spells_test {o : Operator} {v? : Option Value} (ha : v? = none ↔ o = .present)
    (hf : ∀ x, v? = some (.number x) → x.isFinite = true) (hr : r.Ends operandEnds) :
    Spells Test.tokens (fun d => d.meaning = (o, v?)) (o.word ++ v?.elim [] fun v => ' ' :: v.text)
      r := by
  cases v?
  case none =>
    have ho := ha.mp rfl
    subst ho
    have hw : r.Stops continuesWord := hr.stops (by decide)
    rw [Option.elim_none, List.append_nil]
    exact (spells_operator hw).map fun t ht => ⟨.present t ht, rfl, rfl⟩
  case some v =>
    have ho : o ≠ .present := fun ho => by cases ha.mpr ho
    have hw : Stops continuesWord (' ' :: (v.text ++ r)) := .cons rfl
    have hv := spells_literal (v := v) (fun x hx => hf x (congrArg some hx)) hr
    apply ((spells_operator hw).andBehind hv).map
    intro ⟨t, l⟩ ⟨ht, hl⟩
    exact ⟨.relation t o ht ho l, by rw [Test.meaning, hl], rfl⟩

end Grammar
end AttributeFilter
