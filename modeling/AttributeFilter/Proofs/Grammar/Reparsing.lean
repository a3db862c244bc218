import AttributeFilter.Proofs.Grammar.Acceptance
import AttributeFilter.Proofs.Grammar.Rendering

/-!
Parsing the text of a tree gives the tree back.
-/

namespace AttributeFilter

variable {l : Limits} {t : Tree} {levels : Nat}

namespace Limits

-- A text keeps the limits, however it is nested.
structure Admits (l : Limits) (t : Text) : Prop where
  length : Text.byteLength t ≤ l.maxLength
  depth  : Text.byteLength t ≤ l.maxDepth

end Limits

-- What a text says is parsed.
theorem exists_parse_of_says {w : Text} (h : Grammar.Says levels .filter (some t) w [])
    (hl : l.Admits w) : ∃ g, parse l w = .ok (some g) ∧ g.tree = t := by
  have ⟨d, ⟨hd, _⟩, ht, hn⟩ := tokenize_of_spells .nil .nil h
  rw [List.nil_append, List.append_nil] at ht hn
  have hb := Nat.le_trans hn (Nat.le_trans w.length_le_byteLength hl.depth)
  have ⟨f?, hp, hf⟩ := exists_parseTokens d hb
  rw [hd] at hf
  have ⟨g, hg, hgt⟩ := Option.map_eq_some_iff.mp hf
  exact ⟨g, parse_eq_ok_iff.mpr ⟨hl.length, _, ht, hg ▸ hp⟩, hgt⟩

-- Every canonical tree is read back from its text.
theorem exists_parse_text (h : t.All Tree.IsCanonical) (ha : t.All Tree.HasArity)
    (hl : l.Admits t.text) : ∃ g, parse l t.text = .ok (some g) ∧ g.tree = t :=
  exists_parse_of_says ((Grammar.Spelled.of_canonical h ha).filter [] nofun) hl

end AttributeFilter
