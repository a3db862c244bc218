import AttributeFilter.Proofs.Workbench.Orders
import AttributeFilter.Proofs.Workbench.Run

/-!
Which builder has issued which handle, told from the calls of a run alone. A builder tells its own handles by
their serial numbers, and these say the same.
-/

namespace AttributeFilter

theorem Named.find?_foldl_erase {α : Type} (l : Named α) (names : List Text) (name : Text) :
    (names.foldl erase l).find? name = if name ∈ names then none else l.find? name := by
  induction names generalizing l
  case nil => rfl
  case cons n names ih =>
    rw [List.foldl_cons, ih, find?_erase]
    split <;> split <;> simp_all

namespace Workbench

-- A call has a node made by the builder `b`, and its handle is kept under the name `n`.
def Hands (w : Workbench) (c : Call) (n b : Text) : Prop :=
  ∃ o builder given k, w.order? c = some o ∧ w.Reaches o builder given ∧
    (w.perform c).1 = .made true k ∧ o.as = n ∧ o.builder = b

-- After some calls the handle under the name `n` is one that was issued by the builder under the name `b`. It
-- stays so until another handle is kept under the one name, or another builder is started under the other.
inductive IssuedBy : List Call → Text → Text → Prop
  | handed : Hands (run calls) c n b → IssuedBy (calls ++ [c]) n b
  | kept : IssuedBy calls n b → (∀ m, ¬ Hands (run calls) c n m) → c ≠ .builder b →
    IssuedBy (calls ++ [c]) n b

variable {w : Workbench} {calls : List Call} {c : Call} {n b : Text} {g : Handed} {builder : Builder}

theorem issuedBy_append_iff :
    IssuedBy (calls ++ [c]) n b ↔ Hands (run calls) c n b ∨
      (IssuedBy calls n b ∧ (∀ m, ¬ Hands (run calls) c n m) ∧ c ≠ .builder b) := by
  constructor
  case mp =>
    intro h
    generalize hs : calls ++ [c] = all at h
    cases h
    case handed h =>
      obtain ⟨rfl, he⟩ := List.append_inj' hs rfl
      cases he
      exact .inl h
    case kept hn hc hi =>
      obtain ⟨rfl, he⟩ := List.append_inj' hs rfl
      cases he
      exact .inr ⟨hi, hn, hc⟩
  case mpr =>
    rintro (h | ⟨hi, hn, hc⟩)
    · exact .handed h
    · exact .kept hi hn hc

namespace Hands

theorem unique {m : Text} (h : Hands w c n b) (h' : Hands w c n m) : b = m := by
  obtain ⟨_, _, _, _, ho, _, _, _, rfl⟩ := h
  obtain ⟨_, _, _, _, ho', _, _, _, rfl⟩ := h'
  cases ho.symm.trans ho'
  rfl

-- The builder goes on under its name, with the same serial number as the handle.
theorem serial (hs : w.Sound) (h : Hands w c n b) (hg : (w.perform c).2.handles.find? n = some g) :
    ∃ builder, (w.perform c).2.builders.find? b = some builder ∧ g.handle.builder = builder.serial := by
  obtain ⟨o, builder, given, k, ho, hr, ha, rfl, rfl⟩ := h
  have he := ends_perform hs ho hr
  generalize w.perform c = result at he ha hg
  cases he
  case made node builder' made w' _ _ _ hadds hb hh =>
    refine ⟨builder', by rw [hb, Named.find?_insert, if_pos rfl], ?_⟩
    rw [hh, Named.find?_insert, if_pos rfl] at hg
    cases hg
    exact hadds.handle_builder.trans hadds.serial.symm
  all_goals cases ha

end Hands

theorem find?_handles_of_consume {names : List Text}
    (h : (w.consume names).handles.find? n = some g) : w.handles.find? n = some g := by
  have hf := Named.find?_foldl_erase w.handles names n
  split at hf
  case isTrue  => cases hf.symm.trans h
  case isFalse => exact hf.symm.trans h

-- A handle that was not just made was there before.
theorem find?_handles_of_perform (hs : w.Sound) (hn : ∀ b, ¬ Hands w c n b)
    (hg : (w.perform c).2.handles.find? n = some g) : w.handles.find? n = some g := by
  rcases perform_cases hs c with ⟨o, builder, given, ho, hr, he⟩ | ⟨hh, _⟩
  · have hn := fun k ha hm => hn o.builder ⟨o, builder, given, k, ho, hr, ha, hm, rfl⟩
    generalize w.perform c = result at he hg hn
    cases he
    case made hh =>
      have hne : n ≠ o.as := fun he => hn _ rfl he.symm
      rw [hh, Named.find?_insert, if_neg hne] at hg
      exact find?_handles_of_consume hg
    case foreign h | arity h | nothing h | finished h _ => exact find?_handles_of_consume (h.handles ▸ hg)
  · rwa [hh] at hg

theorem Spends.find?_builders {w' : Workbench} {o : Order} (h : Spends o w w')
    (hb : w'.builders.find? b = some builder) : w.builders.find? b = some builder := by
  by_cases hq : o.request = .finish ∧ b = o.builder
  case pos =>
    have hgone := h.gone hq.left
    rw [← hq.right, hb] at hgone
    cases hgone
  case neg => exact (h.kept b hq).symm.trans hb

-- A builder that was not just started was there before, with the same serial number.
theorem find?_builders_of_perform (hs : w.Sound) (hc : c ≠ .builder b)
    (hb : (w.perform c).2.builders.find? b = some builder) :
    ∃ builder', w.builders.find? b = some builder' ∧ builder'.serial = builder.serial := by
  rcases perform_cases hs c with ⟨o, _, _, _, hr, he⟩ | ⟨_, hu⟩
  · generalize w.perform c = result at he hb
    cases he
    case made b' _ _ hadds hbs _ =>
      rw [hbs, Named.find?_insert] at hb
      split at hb
      case isTrue he  => cases hb; exact ⟨_, he ▸ hr.builder, hadds.serial.symm⟩
      case isFalse    => exact ⟨_, hb, rfl⟩
    case foreign h | arity h | nothing h | finished h _ => exact ⟨_, h.find?_builders hb, rfl⟩
  · by_cases hstart : ∃ m, c = .builder m
    case pos =>
      obtain ⟨m, rfl⟩ := hstart
      have hm : b ≠ m := fun he => hc (he ▸ rfl)
      rw [perform, Named.find?_insert, if_neg hm] at hb
      exact ⟨_, hb, rfl⟩
    case neg =>
      rw [hu fun m he => hstart ⟨m, he⟩] at hb
      exact ⟨_, hb, rfl⟩

-- A builder that was just started has issued nothing.
theorem Sound.ne_serial_of_builder (hs : w.Sound) (hi : w.issued < UInt64.size)
    (hg : w.handles.find? n = some g) : g.handle.builder ≠ .ofNat w.issued := by
  have ⟨k, hk, he⟩ := hs.origin _ _ (Named.mem_of_find? hg)
  exact he ▸ Sound.serial_ne hi hk

theorem issuedBy_iff_serial (hi : (run calls).issued ≤ UInt64.size)
    (hg : (run calls).handles.find? n = some g) (hb : (run calls).builders.find? b = some builder) :
    IssuedBy calls n b ↔ g.handle.builder = builder.serial := by
  induction calls using List.reverseRecOn generalizing builder
  case nil => cases hg
  case append_singleton calls c ih =>
    have hs' := run_sound _ hi
    rw [run_append] at hi hg hb hs'
    have hi₀ := Nat.le_trans (does_perform (run calls) c).issued_le hi
    have hs := run_sound calls hi₀
    rw [issuedBy_append_iff]
    by_cases hh : ∃ m, Hands (run calls) c n m
    case pos =>
      obtain ⟨m, hh⟩ := hh
      obtain ⟨builder', hb', he⟩ := hh.serial hs hg
      constructor
      case mp =>
        rintro (h | ⟨_, hn, _⟩)
        · cases h.unique hh
          cases hb.symm.trans hb'
          exact he
        · exact absurd hh (hn m)
      case mpr =>
        intro hsr
        have hm := hs'.distinct _ _ _ _ (Named.mem_of_find? hb') (Named.mem_of_find? hb) (he.symm.trans hsr)
        exact .inl (hm.left ▸ hh)
    case neg =>
      have hn := not_exists.mp hh
      have hg₀ := find?_handles_of_perform hs hn hg
      by_cases hc : c = .builder b
      case pos =>
        subst hc
        rw [perform, Named.find?_insert, if_pos rfl] at hb
        cases hb
        have hne := hs.ne_serial_of_builder hi hg₀
        simp [hn, hne, Builder.ofSerial]
      case neg =>
        obtain ⟨builder₀, hb₀, he⟩ := find?_builders_of_perform hs hc hb
        simp [hn, hc, ih hi₀ hg₀ hb₀, he]

end Workbench
end AttributeFilter
