import AttributeFilter.Proofs.Tree.Json

/-!
A sub-attribute that stands behind no value filter is written as one more segment. To settle a tree is to
make such sub-attributes segments, which does not change its text.
-/

namespace AttributeFilter

open Text

namespace Path

variable {p : Path}

def folded (p : Path) : Path :=
  match p.sub? with
  | some (c :: s) =>
    { p with
      segments        := p.segments ++ [c :: s]
      sub?            := none
      segments_ne_nil := by simp
      ne_nil_of_mem   := by
        intro t ht
        cases List.mem_append.mp ht
        case inl ht => exact p.ne_nil_of_mem t ht
        case inr ht => cases List.mem_singleton.mp ht; exact List.cons_ne_nil c s }
  | _ => p

theorem folded_of_sub?_eq_none (h : p.sub? = none) : p.folded = p := by
  unfold folded
  split
  case h_1 hs => cases h.symm.trans hs
  case h_2    => rfl

theorem joined_concat {ss : List Text} (hs : ss ≠ []) (s : Text) :
    joined ['.'] (ss ++ [s]) = joined ['.'] ss ++ '.' :: s := by
  induction ss
  case nil => exact absurd rfl hs
  case cons t ss ih =>
    cases ss
    case nil => simp [joined]
    case cons u ss =>
      have ih := ih (List.cons_ne_nil u ss)
      simp only [List.cons_append] at ih
      simp only [List.cons_append, joined, ih, List.append_assoc]

theorem text_folded (p : Path) : p.folded.text [] = p.text [] := by
  unfold folded
  split
  case h_1 hs => simp [text, hs, joined_concat p.segments_ne_nil]
  case h_2    => rfl

theorem IsNamed.folded (h : p.IsNamed) : p.folded.IsNamed ∧ p.folded.sub? = none := by
  unfold Path.folded
  split
  case h_1 c s hs =>
    have hf : (p.segments ++ [c :: s]).head (by simp) = p.first :=
      List.head_append_of_ne_nil p.segments_ne_nil
    have ht : (p.segments ++ [c :: s]).tail = p.segments.tail ++ [c :: s] :=
      List.tail_append_of_ne_nil p.segments_ne_nil
    refine ⟨⟨h.schema, fun hq => ?_, fun hq => ?_, fun t hm => ?_, nofun⟩, rfl⟩
    · rw [first, hf]
      exact h.qualified hq
    · rw [first, hf]
      exact h.plain hq
    · rw [ht] at hm
      cases List.mem_append.mp hm
      case inl hm => exact h.more t hm
      case inr hm => cases List.mem_singleton.mp hm; exact h.sub _ hs
  case h_2 hn =>
    refine ⟨h, ?_⟩
    cases hs : p.sub?
    case none => rfl
    case some s =>
      cases s
      case nil      => exact absurd rfl (h.sub [] hs).ne_nil
      case cons c s => exact absurd hs (hn c s)

end Path

namespace Tree

mutual

def settle : Tree → Tree
  | path p none              => path p.folded none
  | path p (some t)          => path p (some (settle t))
  | comparison p none o v?   => comparison p.folded none o v?
  | comparison p (some t) o v? => comparison p (some (settle t)) o v?
  | negation t               => negation (settle t)
  | conjunction ts           => conjunction (settles ts)
  | disjunction ts           => disjunction (settles ts)

def settles : List Tree → List Tree
  | []      => []
  | t :: ts => settle t :: settles ts

end

variable {t : Tree}

theorem settles_eq_map (ts : List Tree) : settles ts = ts.map settle := by
  induction ts
  case nil          => rfl
  case cons t ts ih => rw [settles, ih]; rfl

theorem precedence_settle (t : Tree) : t.settle.precedence = t.precedence := by
  cases t
  case path f?           => cases f? <;> rfl
  case comparison f? _ _ => cases f? <;> rfl
  all_goals rfl

theorem operandText_settle {outer : Nat} (h : t.settle.text = t.text) :
    operandText outer t.settle = operandText outer t := by
  rw [operandText, precedence_settle, h]
  rfl

theorem text_settle (t : Tree) : t.settle.text = t.text := by
  induction t using byParts
  case step t ih =>
    have hm {outer : Nat} {ts : List Tree} (h : ∀ t ∈ ts, t.settle.text = t.text) :
        operandTexts outer (settles ts) = operandTexts outer ts := by
      rw [operandTexts_eq_map, operandTexts_eq_map, settles_eq_map, List.map_map]
      exact List.map_congr_left fun t ht => operandText_settle (h t ht)
    cases t
    case path p f? =>
      cases f?
      case none   => exact p.text_folded
      case some t => simp [settle, text, filterText, ih t List.mem_cons_self]
    case comparison p f? o v? =>
      cases f?
      case none   => simp [settle, text, filterText, p.text_folded]
      case some t => simp [settle, text, filterText, ih t List.mem_cons_self]
    case negation t     => simp [settle, text, ih t List.mem_cons_self]
    case conjunction ts =>
      have h : operandTexts 2 (settles ts) = operandTexts 2 ts := hm ih
      rw [settle, text, text, h]
    case disjunction ts =>
      have h : operandTexts 1 (settles ts) = operandTexts 1 ts := hm ih
      rw [settle, text, text, h]

theorem parts_settle (t : Tree) : t.settle.parts = t.parts.map settle := by
  cases t
  case path f?           => cases f? <;> rfl
  case comparison f? _ _ => cases f? <;> rfl
  case negation          => rfl
  case conjunction ts    => exact settles_eq_map ts
  case disjunction ts    => exact settles_eq_map ts

theorem All.settle {P Q : Tree → Prop} (hPQ : ∀ t, P t → Q t.settle) (h : t.All P) :
    t.settle.All Q := by
  induction h
  case intro t h _ ih =>
    apply All.intro (hPQ t h)
    rw [parts_settle]
    exact List.forall_mem_map.mpr ih

-- What is known of each node of a tree that the grammar accepts.
def IsAccepted : Tree → Prop
  | path p _ => p.IsNamed
  | comparison p f? _ v? =>
    (p.IsNamed ∨ (p.IsNot ∧ f? = none)) ∧ ∀ x, v? = some (.number x) → x.isFinite = true
  | negation _ => True
  | conjunction cs | disjunction cs => 2 ≤ cs.length

-- A sub-attribute stands behind a value filter.
def IsAttached : Tree → Prop
  | path p f? | comparison p f? _ _ => f? = none → p.sub? = none
  | _                               => True

theorem isAttached_of_isCanonical (t : Tree) (h : t.IsCanonical) : t.IsAttached := by
  cases t
  case path => exact h.right
  case comparison =>
    cases h.left
    case inl h => exact h.right
    case inr h => exact fun _ => h.left.sub
  all_goals trivial

theorem isCanonical_settle (t : Tree) (h : t.IsAccepted) : t.settle.IsCanonical := by
  have hl {ts : List Tree} (h : 2 ≤ ts.length) : 2 ≤ (settles ts).length := by
    rwa [settles_eq_map, List.length_map]
  cases t
  case path p f? =>
    cases f?
    case none   => exact ⟨h.folded.left, fun _ => h.folded.right⟩
    case some t => exact ⟨h, nofun⟩
  case comparison p f? o v? =>
    have ⟨h, hf⟩ := h
    cases f? <;> cases h
    case none.inl h => exact ⟨.inl ⟨h.folded.left, fun _ => h.folded.right⟩, hf⟩
    case none.inr h =>
      have hp := p.folded_of_sub?_eq_none h.left.sub
      exact ⟨.inr ⟨hp.symm ▸ h.left, rfl⟩, hf⟩
    case some.inl h => exact ⟨.inl ⟨h, nofun⟩, hf⟩
    case some.inr h => cases h.right
  case negation    => trivial
  case conjunction => exact hl h
  case disjunction => exact hl h

theorem hasArity_settle (t : Tree) (h : t.HasArity) : t.settle.HasArity := by
  cases t
  case path f?           => cases f? <;> trivial
  case comparison f? _ _ => cases f? <;> exact h
  all_goals trivial

theorem settle_of_isAttached (h : t.All IsAttached) : t.settle = t := by
  induction h
  case intro t h hs ih =>
    have hm {ts : List Tree} (h : ∀ t ∈ ts, t.settle = t) : settles ts = ts := by
      rw [settles_eq_map]
      exact (List.map_congr_left h).trans (List.map_id ts)
    cases t
    case path p f? =>
      cases f?
      case none   => rw [settle, p.folded_of_sub?_eq_none (h rfl)]
      case some t => rw [settle, ih t List.mem_cons_self]
    case comparison p f? o v? =>
      cases f?
      case none   => rw [settle, p.folded_of_sub?_eq_none (h rfl)]
      case some t => rw [settle, ih t List.mem_cons_self]
    case negation t     => rw [settle, ih t List.mem_cons_self]
    case conjunction ts => exact congrArg conjunction (hm ih)
    case disjunction ts => exact congrArg disjunction (hm ih)

-- Settling changes an accepted tree if and only if some sub-attribute stands behind no value filter.
theorem settle_eq_iff (ha : t.All IsAccepted) : t.settle = t ↔ t.All IsAttached := by
  constructor
  case mp =>
    intro h
    have hc : t.settle.All IsCanonical := ha.settle isCanonical_settle
    rw [h] at hc
    exact hc.imp isAttached_of_isCanonical
  case mpr => exact settle_of_isAttached

theorem isFinite_of_isAccepted (t : Tree) (h : t.IsAccepted) : t.IsFinite := by
  cases t
  case comparison => exact isFinite_comparison h.right
  all_goals trivial

theorem isFinite_of_isCanonical (t : Tree) (h : t.IsCanonical) : t.IsFinite := by
  cases t
  case comparison => exact isFinite_comparison h.right
  all_goals trivial

theorem json_settle_eq_iff (ha : t.All IsAccepted) :
    t.settle.json = t.json ↔ t.All IsAttached := by
  have hf : t.All IsFinite := ha.imp isFinite_of_isAccepted
  have hs : t.settle.All IsFinite := (ha.settle isCanonical_settle).imp isFinite_of_isCanonical
  rw [← settle_eq_iff ha]
  exact ⟨json_inj hs hf, congrArg json⟩

end Tree
end AttributeFilter
