import AttributeFilter.Proofs.Filter.Beside

/-!
Laying trees out one node after the other. Where the parts of a tree have been laid out and their handles are
pending, the next call of the builder is accepted, and it lays out the whole.
-/

namespace AttributeFilter

open AttributeFilter.Tree

variable {b b₁ b₂ : Builder} {ts us : List Tree} {hs gs : List Handle} {t : Tree} {h : Handle}
  {f? : Option Tree} {h? : Option Handle} {o : Operator} {v? : Option Value}

-- A builder has made the nodes of trees and no others, and the handles of those at their tops are pending.
structure Builder.Raises (b : Builder) (ts : List Tree) (hs : List Handle) (b' : Builder) : Prop where
  makeable : ∀ t ∈ ts, t.All Makeable
  build    : buildAll ts b = .ok (hs, b')

namespace Builder.Raises

theorem lays (hr : b.Raises ts hs b₁) : b.Lays hs ts b₁ := by
  have ⟨_, _, hb, hl⟩ := exists_buildAll (fun t ht => makes_build (hr.makeable t ht)) b
  cases hr.build.symm.trans hb
  exact hl

theorem nil (b : Builder) : b.Raises [] [] b where
  makeable := nofun
  build    := rfl

theorem singleton_iff : b.Raises [t] hs b₁ ↔
    t.All Makeable ∧ ∃ h, hs = [h] ∧ t.build b = .ok (some h, b₁) := by
  constructor
  case mp =>
    intro hr
    have ht := hr.makeable t List.mem_cons_self
    have ⟨h, b', hb, _⟩ := makes_build ht b
    have ⟨_, hb', he⟩ := bind_eq_ok_iff.mp hr.build
    cases hb.symm.trans hb'
    cases he
    exact ⟨ht, h, rfl, hb⟩
  case mpr =>
    rintro ⟨ht, h, rfl, hb⟩
    exact ⟨List.forall_mem_singleton.mpr ht, bind_eq_ok_iff.mpr ⟨_, hb, rfl⟩⟩

theorem append (hr : b.Raises ts hs b₁) (hr' : b₁.Raises us gs b₂) :
    b.Raises (ts ++ us) (hs ++ gs) b₂ where
  makeable := List.forall_mem_append.mpr ⟨hr.makeable, hr'.makeable⟩
  build    := by
    have hb := hr.build
    clear hr
    induction ts generalizing b hs
    case nil => cases hb; exact hr'.build
    case cons t ts ih =>
      have ⟨⟨h?, c⟩, hc, hb⟩ := bind_eq_ok_iff.mp hb
      have ⟨⟨hs', d⟩, hd, hb⟩ := bind_eq_ok_iff.mp hb
      cases hb
      refine bind_eq_ok_iff.mpr ⟨_, hc, bind_eq_ok_iff.mpr ⟨_, ih hd, ?_⟩⟩
      exact congrArg (fun l => Except.ok (l, b₂)) (List.append_assoc _ _ _).symm

theorem eq_none (hr : b.Raises [] h?.toList b₁) : h? = none ∧ b = b₁ := by
  cases h? <;> cases hr.build
  exact ⟨rfl, rfl⟩

theorem exists_eq_some (hr : b.Raises [t] h?.toList b₁) : ∃ h, h? = some h ∧ t.build b = .ok (some h, b₁) := by
  have ⟨_, h, hh, hb⟩ := singleton_iff.mp hr
  exact ⟨h, Option.toList_eq_singleton_iff.mp hh, hb⟩

-- The nodes of a value filter are laid out, if there is one.
theorem buildFilter (hr : b.Raises f?.toList h?.toList b₁) : Tree.buildFilter f? b = .ok (h?, b₁) := by
  cases f?
  case none =>
    have ⟨hh, hb⟩ := hr.eq_none
    rw [hh, hb]
    rfl
  case some f =>
    have ⟨h, hh, hb⟩ := hr.exists_eq_some
    exact hh ▸ hb

theorem path (hr : b.Raises f?.toList h?.toList b₁) (p : Path) :
    ∃ made b₂, b₁.path { path := p } h? = .ok (made, b₂) ∧ b.Raises [.path p f?] [made.handle] b₂ := by
  have hall : (Tree.path p f?).All Makeable := .intro trivial hr.makeable
  have ⟨made, b₂, hmade, _⟩ := exists_path p hr.lays
  refine ⟨made, b₂, hmade, singleton_iff.mpr ⟨hall, made.handle, rfl, ?_⟩⟩
  exact bind_eq_ok_iff.mpr ⟨_, hr.buildFilter, bind_eq_ok_iff.mpr ⟨_, hmade, rfl⟩⟩

theorem comparison {p : Path} {left : PathHandle} (hr : b.Raises [.path p f?] [left.handle] b₁)
    (hv : o.takesValue = v?.isSome) :
    ∃ h b₂, b₁.comparison left o v? = .ok (h, b₂) ∧ b.Raises [.comparison p f? o v?] [h] b₂ := by
  have ⟨hall, h, hh, hb⟩ := singleton_iff.mp hr
  cases hh
  have hall : (Tree.comparison p f? o v?).All Makeable := .intro hv fun _ => hall.part
  have ⟨h, b₂, hc, _⟩ := makes_build hall b
  refine ⟨h, b₂, ?_, singleton_iff.mpr ⟨hall, h, rfl, hc⟩⟩
  -- Both begin with the nodes of the attribute path.
  have ⟨⟨f?', c⟩, h₁, hb⟩ := bind_eq_ok_iff.mp hb
  have ⟨⟨left', d⟩, h₂, hb⟩ := bind_eq_ok_iff.mp hb
  have ⟨_, h₁', hc⟩ := bind_eq_ok_iff.mp hc
  cases h₁.symm.trans h₁'
  have ⟨_, h₂', hc⟩ := bind_eq_ok_iff.mp hc
  cases h₂.symm.trans h₂'
  have ⟨made, h₃, he⟩ := bind_eq_ok_iff.mp hc
  cases left
  cases left'
  cases hb
  cases he
  exact h₃

theorem negation (hr : b.Raises [t] [h] b₁) :
    ∃ h' b₂, b₁.negation h = .ok (h', b₂) ∧ b.Raises [.negation t] [h'] b₂ := by
  have ⟨hall, _, hh, hb⟩ := singleton_iff.mp hr
  cases hh
  have hall : (Tree.negation t).All Makeable := .intro trivial (List.forall_mem_singleton.mpr hall)
  have ⟨h', b₂, hn, _⟩ := makes_build hall b
  refine ⟨h', b₂, ?_, singleton_iff.mpr ⟨hall, h', rfl, hn⟩⟩
  have ⟨_, hb', hn⟩ := bind_eq_ok_iff.mp hn
  cases hb.symm.trans hb'
  have ⟨⟨_, _⟩, hn, he⟩ := bind_eq_ok_iff.mp hn
  cases he
  exact hn

theorem join {join : List Tree → Tree} {make : List Nat → Node} (hj : JoinsBy join make)
    (hr : b.Raises ts hs b₁) (hn : ts ≠ []) :
    ∃ h b₂, b₁.combination make hj.children hj.operand hs = .ok (some h, b₂) ∧
      b.Raises [join ts] [h] b₂ := by
  have hall : (join ts).All Makeable := .intro (hj.makeable ts hn) ((hj.parts ts).symm ▸ hr.makeable)
  have ⟨h, b₂, hb, _⟩ := makes_build hall b
  refine ⟨h, b₂, ?_, singleton_iff.mpr ⟨hall, h, rfl, hb⟩⟩
  have ⟨_, hb', hc⟩ := bind_eq_ok_iff.mp ((hj.build ts b).symm.trans hb)
  cases hr.build.symm.trans hb'
  exact hc

end Builder.Raises
end AttributeFilter
