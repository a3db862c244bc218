import AttributeFilter.Proofs.Command.Tokens
import AttributeFilter.Proofs.Tree.Settled

/-!
The text of a tree on a line. Names hold no white space, and string literals have line feeds in them only as escapes,
so the text has no line feed in it, and it does not end in white space either.
-/

namespace AttributeFilter

open Text

namespace Text

variable {c d : Char} {s t u : Text} {ls : List Text}

theorem IsPrinted.andBehind (ht : t.IsPrinted) (hu : u = [] ∨ u.IsPrinted) : IsPrinted (t ++ u) := by
  rcases hu with rfl | hu
  · exact (List.append_nil t).symm ▸ ht
  · exact .append ht.unbroken hu

theorem IsPrinted.cons (hc : c ≠ '\n') (ht : t.IsPrinted) : IsPrinted (c :: t) :=
  .append (t := [c]) (fun hn => hc (List.mem_singleton.mp hn).symm) ht

theorem IsPrinted.enclosed (hc : c ≠ '\n') (hd : isBlank d = false) (ht : t.IsPrinted) :
    IsPrinted (c :: t ++ [d]) :=
  .append (ht.cons hc).unbroken (Solid.isPrinted (.singleton hd) (List.cons_ne_nil d []))

theorem isPrinted_joined (hs : '\n' ∉ s) (hne : ls ≠ []) (h : ∀ l ∈ ls, l.IsPrinted) :
    (joined s ls).IsPrinted := by
  fun_induction joined s ls
  case case1 => exact absurd rfl hne
  case case2 => exact h _ List.mem_cons_self
  case case3 l m ls ih =>
    obtain ⟨hl, h⟩ := List.forall_mem_cons.mp h
    have hls : '\n' ∉ l ++ s := fun hn => (List.mem_append.mp hn).elim hl.unbroken hs
    exact .append hls (ih (List.cons_ne_nil m ls) h)

-- What is written only if there is something.
theorem isPrinted_elim {β : Type} {b? : Option β} {g : β → Text} (h : ∀ b ∈ b?, (g b).IsPrinted) :
    b?.elim [] g = [] ∨ IsPrinted (b?.elim [] g) := by
  cases b?
  case none   => exact .inl rfl
  case some b => exact .inr (h b rfl)

theorem IsName.solid (h : t.IsName) : t.Solid :=
  Token.Kind.Admits.solid h nofun

theorem IsQualifiedName.solid (h : t.IsQualifiedName) : t.Solid :=
  h.elim (·.left.solid) (·.solid nofun)

end Text

-- No part of the path holds white space, and a sub-attribute is not empty.
structure Path.IsSolid (p : Path) : Prop where
  schema   : ∀ u ∈ p.schema?, u.Solid
  segments : ∀ s ∈ p.segments, s.Solid
  sub      : ∀ s ∈ p.sub?, s.Solid ∧ s ≠ []

namespace Path

variable {p : Path} {filter : Text}

theorem IsNamed.isSolid (h : p.IsNamed) : p.IsSolid where
  schema u hu := Token.Kind.Admits.solid (k := .schemaUri) (h.schema u hu) nofun
  segments    := by
    rw [p.segments_eq]
    refine List.forall_mem_cons.mpr ⟨?_, fun s hs => (h.more s hs).solid⟩
    by_cases hn : p.schema? = none
    case pos => exact (h.plain hn).solid
    case neg => exact (h.qualified hn).solid
  sub s hs    := ⟨(h.sub s hs).solid, (h.sub s hs).ne_nil⟩

theorem IsNot.isSolid (h : p.IsNot) : p.IsSolid where
  schema   := by rw [h.schema]; nofun
  segments := by
    rw [p.segments_eq, h.more]
    exact List.forall_mem_singleton.mpr (h.word.solid nofun)
  sub      := by rw [h.sub]; nofun

theorem IsSolid.isPrinted_text (h : p.IsSolid) (hf : filter = [] ∨ filter.IsPrinted) :
    (p.text filter).IsPrinted := by
  have hs : ∀ s ∈ p.segments, s.IsPrinted := fun s hs => (h.segments s hs).isPrinted (p.ne_nil_of_mem s hs)
  have hj : (joined ['.'] p.segments).IsPrinted := isPrinted_joined (by decide) p.segments_ne_nil hs
  have hq : '\n' ∉ p.schema?.elim [] fun s => s ++ [':'] := by
    cases hu : p.schema?
    case none   => exact List.not_mem_nil
    case some u => exact ((h.schema u hu).append (.singleton rfl)).notMem rfl
  have hb : ∀ s ∈ p.sub?, IsPrinted ('.' :: s) := by
    intro s hs
    have ⟨hs, hn⟩ := h.sub s hs
    exact (hs.isPrinted hn).cons (by decide)
  exact ((IsPrinted.append hq hj).andBehind hf).andBehind (isPrinted_elim hb)

end Path

theorem Operator.isPrinted_word (o : Operator) : o.word.IsPrinted := by
  have hs : o.word.Solid := by cases o <;> decide
  exact hs.isPrinted (by cases o <;> decide)

theorem Value.isPrinted_text {v : Value} (h : ∀ x, v = .number x → x.isFinite = true) : v.text.IsPrinted := by
  cases v
  case string t  =>
    have hd : (Quoted.decode? (Quoted.encode t)).isSome := by rw [Quoted.decode?_encode]; rfl
    exact Token.Kind.Admits.isPrinted (k := .string) hd
  case number x  => exact Token.Kind.Admits.isPrinted (k := .number) (numberText_spec (h x rfl)).left
  case boolean b =>
    have hs : (booleanText b).Solid := by cases b <;> decide
    exact hs.isPrinted (by cases b <;> decide)
  case null      =>
    have hs : Solid "null".toList := by decide
    exact hs.isPrinted (by decide)

namespace Tree

variable {t : Tree} {f? : Option Tree}

-- What each node of a tree has to be for its text to stand on a line.
def IsLegible : Tree → Prop
  | path p _                       => p.IsSolid
  | comparison p _ _ v?            => p.IsSolid ∧ ∀ x, v? = some (.number x) → x.isFinite = true
  | negation _                     => True
  | conjunction cs | disjunction cs => cs ≠ []

theorem IsAccepted.isLegible (t : Tree) (h : t.IsAccepted) : t.IsLegible := by
  have hn {cs : List Tree} (h : 2 ≤ cs.length) : cs ≠ [] :=
    List.ne_nil_of_length_pos (Nat.lt_of_lt_of_le Nat.two_pos h)
  cases t
  case path        => exact h.isSolid
  case comparison  => exact ⟨h.left.elim (·.isSolid) (·.left.isSolid), h.right⟩
  case negation    => trivial
  case conjunction => exact hn h
  case disjunction => exact hn h

theorem isPrinted_filterText (h : ∀ t ∈ f?.toList, t.text.IsPrinted) :
    filterText f? = [] ∨ (filterText f?).IsPrinted := by
  cases f?
  case none   => exact .inl rfl
  case some t => exact .inr ((h t List.mem_cons_self).enclosed (by decide) rfl)

theorem isPrinted_joined_operandTexts {outer : Nat} {s : Text} {ts : List Tree} (hs : '\n' ∉ s) (hn : ts ≠ [])
    (h : ∀ t ∈ ts, t.text.IsPrinted) : (joined s (operandTexts outer ts)).IsPrinted := by
  rw [operandTexts_eq_map]
  refine isPrinted_joined hs (fun he => hn (List.map_eq_nil_iff.mp he)) fun l hl => ?_
  have ⟨t, ht, he⟩ := List.mem_map.mp hl
  rw [← he, operandText]
  split
  case isTrue  => exact (h t ht).enclosed (by decide) rfl
  case isFalse => exact h t ht

theorem isPrinted_text (h : t.All IsLegible) : t.text.IsPrinted := by
  induction h
  case intro t h hs ih =>
    cases t
    case path p f? => exact h.isPrinted_text (isPrinted_filterText ih)
    case comparison p f? o v? =>
      have hp := h.left.isPrinted_text (isPrinted_filterText ih)
      have hl : '\n' ∉ p.text (filterText f?) ++ [' '] := fun hn =>
        (List.mem_append.mp hn).elim hp.unbroken (by decide)
      have hv : ∀ v ∈ v?, IsPrinted (' ' :: v.text) := by
        rintro v rfl
        have hv : v.text.IsPrinted := Value.isPrinted_text fun x hx => h.right x (congrArg some hx)
        exact hv.cons (by decide)
      have he : (comparison p f? o v?).text =
          (p.text (filterText f?) ++ [' ']) ++ (o.word ++ v?.elim [] fun v => ' ' :: v.text) := by simp [text]
      exact he ▸ .append hl (o.isPrinted_word.andBehind (isPrinted_elim hv))
    case negation t     => exact .append (by decide) ((ih t List.mem_cons_self).enclosed (by decide) rfl)
    case conjunction ts => exact isPrinted_joined_operandTexts (by decide) h ih
    case disjunction ts => exact isPrinted_joined_operandTexts (by decide) h ih

end Tree
end AttributeFilter
