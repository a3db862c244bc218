import AttributeFilter.Proofs.Tree.Settled

/-!
How many levels a tree opens, as its canonical text opens them: one for each value filter, one for each
operand in parentheses, and some number for each negation. The canonical text opens two for a negation, the
word `not` and the parentheses behind it. Whoever writes the tree has to open one at least.
-/

namespace AttributeFilter.Tree

variable {n m outer : Nat} {t : Tree}

mutual

-- How many levels a tree opens, where a negation opens `n`.
def levels (n : Nat) : Tree → Nat
  | path _ f? | comparison _ f? _ _ => filterLevels n f?
  | negation c                      => levels n c + n
  | conjunction cs                  => operandsLevels n 2 cs
  | disjunction cs                  => operandsLevels n 1 cs

def filterLevels (n : Nat) : Option Tree → Nat
  | none   => 0
  | some t => levels n t + 1

def operandsLevels (n outer : Nat) : List Tree → Nat
  | []      => 0
  | t :: ts => max (levels n t + if t.precedence ≤ outer then 1 else 0) (operandsLevels n outer ts)

end

-- The levels of an operand, with the one for its parentheses.
def operandLevels (n outer : Nat) (t : Tree) : Nat :=
  t.levels n + if t.precedence ≤ outer then 1 else 0

theorem levels_le_operandLevels : t.levels n ≤ t.operandLevels n outer :=
  Nat.le_add_right _ _

theorem operandLevels_le : t.operandLevels n outer ≤ t.levels n + 1 := by
  unfold operandLevels
  split <;> omega

-- An operand that holds together has no parentheses where one that does not has none.
theorem operandLevels_mono {outer' : Nat} (h : outer ≤ outer') :
    t.operandLevels n outer ≤ t.operandLevels n outer' := by
  unfold operandLevels
  split <;> split <;> omega

theorem operandsLevels_cons (ts : List Tree) :
    operandsLevels n outer (t :: ts) = max (t.operandLevels n outer) (operandsLevels n outer ts) := by
  rw [operandsLevels, operandLevels]

theorem operandsLevels_le_iff {ts : List Tree} {k : Nat} :
    operandsLevels n outer ts ≤ k ↔ ∀ t ∈ ts, t.operandLevels n outer ≤ k := by
  induction ts
  case nil          => exact ⟨fun _ => nofun, fun _ => Nat.zero_le k⟩
  case cons t ts ih => rw [operandsLevels_cons, Nat.max_le, ih, List.forall_mem_cons]

theorem operandsLevels_congr {n' : Nat} {ts us : List Tree}
    (h : ts.map (operandLevels n outer) = us.map (operandLevels n' outer)) :
    operandsLevels n outer ts = operandsLevels n' outer us := by
  induction ts generalizing us <;> cases us
  case nil.nil   => rfl
  case nil.cons  => cases h
  case cons.nil  => cases h
  case cons.cons ih _ _ =>
    have ⟨h, hs⟩ := List.cons.inj h
    rw [operandsLevels_cons, operandsLevels_cons, h, ih hs]

theorem levels_settle (n : Nat) (t : Tree) : t.settle.levels n = t.levels n := by
  induction t using byParts
  case step t ih =>
    have hm (outer : Nat) {ts : List Tree} (h : ∀ t ∈ ts, t.settle.levels n = t.levels n) :
        operandsLevels n outer (settles ts) = operandsLevels n outer ts := by
      apply operandsLevels_congr
      rw [settles_eq_map, List.map_map]
      refine List.map_congr_left fun t ht => ?_
      rw [Function.comp_apply, operandLevels, precedence_settle, h t ht, operandLevels]
    cases t
    case path f? | comparison f? _ _ =>
      cases f?
      case none   => rfl
      case some t => simp [settle, levels, filterLevels, ih t List.mem_cons_self]
    case negation t     => simp [settle, levels, ih t List.mem_cons_self]
    case conjunction ts => exact hm 2 ih
    case disjunction ts => exact hm 1 ih

-- Where a negation opens twice as many levels, all open at most twice as many.
theorem levels_mul_le {k : Nat} (hk : 1 ≤ k) (t : Tree) : t.levels (k * n) ≤ k * t.levels n := by
  induction t using byParts
  case step t ih =>
    have hadd {a b c : Nat} (h : a ≤ k * b) (hc : c ≤ 1) : a + c ≤ k * (b + c) := by
      rw [Nat.mul_add]
      exact Nat.add_le_add h (Nat.le_mul_of_pos_left c hk)
    have hm (outer : Nat) {ts : List Tree} (h : ∀ t ∈ ts, t.levels (k * n) ≤ k * t.levels n) :
        operandsLevels (k * n) outer ts ≤ k * operandsLevels n outer ts := by
      refine operandsLevels_le_iff.mpr fun t ht => ?_
      have ho := operandsLevels_le_iff.mp (Nat.le_refl (operandsLevels n outer ts)) t ht
      refine Nat.le_trans (hadd (h t ht) ?_) (Nat.mul_le_mul_left k ho)
      split <;> omega
    cases t
    case path f? | comparison f? _ _ =>
      cases f?
      case none   => exact Nat.zero_le _
      case some t => exact hadd (ih t List.mem_cons_self) (Nat.le_refl 1)
    case negation t =>
      have ht := ih t List.mem_cons_self
      simp only [levels, Nat.mul_add]
      exact Nat.add_le_add_right ht _
    case conjunction ts => exact hm 2 ih
    case disjunction ts => exact hm 1 ih

def IsPositive : Tree → Prop
  | negation _ => False
  | _          => True

-- Without negations it does not matter how many levels a negation opens.
theorem levels_of_positive (h : t.All IsPositive) : t.levels n = t.levels m := by
  induction h
  case intro t hp _ ih =>
    have hm (outer : Nat) {ts : List Tree} (h : ∀ t ∈ ts, t.levels n = t.levels m) :
        operandsLevels n outer ts = operandsLevels m outer ts := by
      apply operandsLevels_congr
      exact List.map_congr_left fun t ht => by rw [operandLevels, operandLevels, h t ht]
    cases t
    case path f? _ | comparison f? _ _ _ =>
      cases f?
      case none     => rfl
      case some t _ => simp only [levels, filterLevels, ih t List.mem_cons_self]
    case negation       => cases hp
    case conjunction ts => exact hm 2 ih
    case disjunction ts => exact hm 1 ih

end AttributeFilter.Tree
