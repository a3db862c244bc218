import AttributeFilter.Proofs.Filter.Joining
import AttributeFilter.Proofs.Grammar.Agreement
import AttributeFilter.Proofs.Grammar.Reparsing
import AttributeFilter.Proofs.Token.Following

/-!
Putting accepted texts together. A text that is accepted means the same between brackets: a bracket does
not continue its last lexeme, and the tokens up to the bracket are those that the grammar has taken
before. So a text that is put together from accepted texts means what their meanings give together.
-/

namespace AttributeFilter

open Text Lexeme Grammar

variable {l : Limits} {w u r : Text} {n n' : Nat}

namespace Grammar

-- A text spells derivations that mean something and have so many levels open at most.
def SaysWithin (n : Nat) (s : Symbol) (m : Meaning s) (w r : Text) : Prop :=
  Spells (fun d : Derivation s => d.tokens) (fun d => d.meaning = m ∧ d.depth ≤ n) w r

namespace SaysWithin

variable {m m' : Option Tree}

theorem conjunction_of_factor (h : SaysWithin n .factor m w r) : SaysWithin n .conjunction m w r :=
  h.map fun d hd => have ⟨e, ht, hm, hn⟩ := d.exists_conjunction
    ⟨e, ⟨hm.trans hd.left, hn ▸ hd.right⟩, ht⟩

theorem disjunction_of_conjunction (h : SaysWithin n .conjunction m w r) :
    SaysWithin n .disjunction m w r :=
  h.map fun d hd => have ⟨e, ht, hm, hn⟩ := d.exists_disjunction
    ⟨e, ⟨hm.trans hd.left, hn ▸ hd.right⟩, ht⟩

theorem whole (h : SaysWithin n .disjunction m w r) : SaysWithin n .filter m w r :=
  h.map fun d hd => ⟨.whole d, hd, rfl⟩

theorem group (h : SaysWithin n .filter m w ([')'] ++ r)) :
    SaysWithin (n + 1) .factor m (Tree.inParens w) r :=
  (spells_group h).map fun d hd =>
    ⟨.group d.1 d.2.1 d.2.2, ⟨hd.left, Nat.succ_le_succ hd.right⟩, rfl⟩

theorem negation (h : SaysWithin n .factor m w r) :
    SaysWithin (n + 1) .factor (m.map .negation) ("not".toList ++ ' ' :: w) r :=
  (spells_negation h).map fun d hd =>
    ⟨.negation d.1 d.2, ⟨congrArg _ hd.left, Nat.succ_le_succ hd.right⟩, rfl⟩

theorem conjunction (h : SaysWithin n .factor m w (' ' :: ("and".toList ++ ' ' :: u ++ r)))
    (h' : SaysWithin n .factor m' u r) :
    SaysWithin n .conjunction (combine .conjunction [m, m']) (w ++ ' ' :: ("and".toList ++ ' ' :: u))
      r := by
  have hw : Token.Kind.Reserves .and "and".toList := .of_mem (by decide)
  apply (spells_between hw h h').map
  intro d ⟨⟨hm, hn⟩, hm', hn'⟩
  refine ⟨.conjunction d.1 (.conjunct d.2.1 d.2.2 .lastConjunct), ⟨?_, ?_⟩, ?_⟩
  case refine_1 => rw [Derivation.meaning, hm, Derivation.meaning, hm', Derivation.meaning]
  case refine_2 => exact Nat.max_le.mpr ⟨hn, Nat.max_le.mpr ⟨hn', Nat.zero_le _⟩⟩
  case refine_3 => simp [Derivation.tokens]

theorem disjunction (h : SaysWithin n .conjunction m w (' ' :: ("or".toList ++ ' ' :: u ++ r)))
    (h' : SaysWithin n .conjunction m' u r) :
    SaysWithin n .disjunction (combine .disjunction [m, m']) (w ++ ' ' :: ("or".toList ++ ' ' :: u))
      r := by
  have hw : Token.Kind.Reserves .or "or".toList := .of_mem (by decide)
  apply (spells_between hw h h').map
  intro d ⟨⟨hm, hn⟩, hm', hn'⟩
  refine ⟨.disjunction d.1 (.alternative d.2.1 d.2.2 .lastAlternative), ⟨?_, ?_⟩, ?_⟩
  case refine_1 => rw [Derivation.meaning, hm, Derivation.meaning, hm', Derivation.meaning]
  case refine_2 => exact Nat.max_le.mpr ⟨hn, Nat.max_le.mpr ⟨hn', Nat.zero_le _⟩⟩
  case refine_3 => simp [Derivation.tokens]

theorem reference {p : Path} (hp : p.IsNamed) (hs : p.sub? = none)
    (h : SaysWithin n .filter m w ([']'] ++ r)) :
    SaysWithin (n + 1) .factor (some (.path p m)) (nameText p ++ (['['] ++ (w ++ [']']))) r := by
  apply (spells_brackets hp h).map
  intro d ⟨hd, hm, hn⟩
  refine ⟨.reference (.filtered d.1 d.2.1 d.2.2.1 d.2.2.2 none), ⟨?_, Nat.succ_le_succ hn⟩, ?_⟩
  case refine_1 =>
    have hp : d.1.path none = p := Path.eq_of hd.left hd.right hs.symm
    rw [Derivation.meaning, Derivation.meaning, hm, hp]
  case refine_2 => simp [Derivation.tokens]

end SaysWithin
end Grammar

-- A text is read as a filter, and it is so too with more text behind it.
structure Reads (n : Nat) (w : Text) (f? : Option Filter) : Prop where
  spells   : ∀ r, r.Stops isUriChar → SaysWithin n .filter (f?.map Filter.tree) w r
  makeable : ∀ t ∈ f?.map Filter.tree, t.All Tree.Makeable
  laidOut  : layOut (f?.map Filter.tree) = .ok f?

theorem reads_of_parse {f? : Option Filter} (h : parse l w = .ok f?) : Reads l.maxDepth w f? := by
  have ⟨_, ts, hts, hp⟩ := parse_eq_ok_iff.mp h
  have ⟨t?, hy, hf⟩ := parseTokens_eq_ok_iff.mp hp
  have hlex := isLexeme_of_tokenize hts
  have ⟨d, _, hm, _⟩ := filter_sound factor_sound hy hlex
  have hmake : ∀ t ∈ t?, t.All Tree.Makeable := hm ▸ d.makeable
  have ⟨g?, hg, ht⟩ := exists_layOut hmake
  cases hf.symm.trans hg
  subst ht
  -- With more text behind it the same lexemes are made, at other places, and the grammar goes the same
  -- way with them.
  refine ⟨fun r hr => (spells_of_tokenize hts hr).map fun us hus => ?_, hmake, hf⟩
  have hy : (expression l.maxDepth).Yields (us ++ []) (f?.map Filter.tree) [] :=
    Agrees.expression (Nat.le_refl _) (by rwa [List.append_nil]) ⟨(map_sense_eq hus).symm, rfl⟩
  rw [List.append_nil] at hy
  have ⟨d, hd, hm, hn⟩ := filter_sound factor_sound hy (isLexeme_of_map_eq hus hlex)
  exact ⟨d, ⟨hm, hn⟩, by simpa using hd⟩

-- A text is parsed to something that has a property, if its length and so many levels are allowed.
def ParsesTo (n : Nat) (w : Text) (P : Option Filter → Prop) : Prop :=
  ∀ length, byteLength w ≤ length → ∃ f?, parse ⟨length, n⟩ w = .ok f? ∧ P f?

namespace ParsesTo

theorem imp {P Q : Option Filter → Prop} (h : ParsesTo n w P) (hi : ∀ f?, P f? → Q f?) :
    ParsesTo n w Q :=
  fun length hl => have ⟨f?, hf, hP⟩ := h length hl; ⟨f?, hf, hi f? hP⟩

theorem of_saysWithin {m : Option Tree} (h : SaysWithin n .filter m w []) :
    ParsesTo n w fun f? => layOut m = .ok f? ∧ f?.map Filter.tree = m := by
  intro length hl
  have ⟨d, ⟨hm, hn⟩, ht, _⟩ := tokenize_of_spells .nil .nil h
  rw [List.nil_append, List.append_nil] at ht
  have ⟨f?, hf, hft⟩ := exists_layOut d.makeable
  have hp : parseTokens ⟨length, n⟩ d.tokens = .ok f? := parseTokens_of_derivation d hn hf
  exact ⟨f?, parse_eq_ok_iff.mpr ⟨hl, _, ht, hp⟩, hm ▸ hf, hft.trans hm⟩

end ParsesTo

-- What comes of joining two filters, each of which may be nothing.
inductive Combined (join : List Tree → Tree) (make : List Nat → Node) :
    Option Filter → Option Filter → Option Filter → Prop
  | neither : Combined join make none none none
  | first : Combined join make (some f) none (some f)
  | second : Combined join make none (some g) (some g)
  | both (tree : h.tree = join [f.tree, g.tree]) (joins : Filter.Joins make f g h) :
    Combined join make (some f) (some g) (some h)

namespace Reads

variable {f? g? : Option Filter} {join : List Tree → Tree} {make : List Nat → Node}

theorem group (h : Reads n w f?) (r : Text) :
    SaysWithin (n + 1) .factor (f?.map Filter.tree) (Tree.inParens w) r :=
  (h.spells _ (.cons rfl)).group

theorem combined (hj : Tree.JoinsBy join make) (hf : Reads n w f?) (hg : Reads n' u g?)
    {h? : Option Filter}
    (hl : layOut (combine join [f?.map Filter.tree, g?.map Filter.tree]) = .ok h?) :
    Combined join make f? g? h? := by
  cases f? <;> cases g?
  case none.none =>
    cases hl
    exact .neither
  case some.none =>
    cases hf.laidOut.symm.trans hl
    exact .first
  case none.some =>
    cases hg.laidOut.symm.trans hl
    exact .second
  case some.some f g =>
    have ⟨h, hh, ht, hj⟩ := Filter.exists_ofTree_join hj (hf.makeable _ rfl) (hg.makeable _ rfl)
      hf.laidOut hg.laidOut
    cases hh.symm.trans hl
    exact .both ht hj

theorem conjunction (hf : Reads n w f?) (hg : Reads n u g?) :
    ParsesTo (n + 1) (Tree.inParens w ++ " and ".toList ++ Tree.inParens u)
      (Combined .conjunction .conjunction f? g?) := by
  rw [List.append_assoc]
  have h := SaysWithin.conjunction (hf.group _) (hg.group [])
  exact (ParsesTo.of_saysWithin h.disjunction_of_conjunction.whole).imp
    fun _ hh => hf.combined .conjunction hg hh.left

theorem disjunction (hf : Reads n w f?) (hg : Reads n u g?) :
    ParsesTo (n + 1) (Tree.inParens w ++ " or ".toList ++ Tree.inParens u)
      (Combined .disjunction .disjunction f? g?) := by
  rw [List.append_assoc]
  have h := SaysWithin.disjunction (hf.group _).conjunction_of_factor
    (hg.group []).conjunction_of_factor
  exact (ParsesTo.of_saysWithin h.whole).imp fun _ hh => hf.combined .disjunction hg hh.left

theorem negation (hf : Reads n w f?) :
    ParsesTo (n + 2) ("not ".toList ++ Tree.inParens w) fun h? =>
      h?.map Filter.tree = (f?.map Filter.tree).map .negation := by
  have h := (hf.group []).negation
  exact (ParsesTo.of_saysWithin h.conjunction_of_factor.disjunction_of_conjunction.whole).imp
    fun _ hh => hh.right

theorem reference {p : Text} (hf : Reads n w f?) (hp : p.IsName) :
    ParsesTo (n + 1) (p ++ "[".toList ++ w ++ "]".toList) fun h? => ∃ q,
      Path.ofSegments [p] = .ok q ∧ h?.map Filter.tree = some (.path q (f?.map Filter.tree)) := by
  have hs : [p] ≠ [] ∧ ∀ s ∈ [p], s ≠ [] :=
    ⟨List.cons_ne_nil _ _, List.forall_mem_singleton.mpr (Token.Kind.Admits.ne_nil hp)⟩
  let q : Path := ⟨none, [p], none, hs.left, hs.right⟩
  have hq : Path.ofSegments [p] = .ok q := dif_pos hs
  have hn : q.IsNamed := ⟨nofun, fun h => absurd rfl h, fun _ => hp, nofun, nofun⟩
  have h := SaysWithin.reference hn rfl (hf.spells ([']'] ++ []) (.cons rfl))
  have he : nameText q ++ (['['] ++ (w ++ [']'])) = p ++ "[".toList ++ w ++ "]".toList := by
    simp [nameText, q, joined]
  rw [he] at h
  exact (ParsesTo.of_saysWithin h.conjunction_of_factor.disjunction_of_conjunction.whole).imp
    fun _ hh => ⟨q, hq, hh.right⟩

end Reads

-- Accepted texts can be put together: none breaks out of its brackets.
theorem parsesTo_composed {d k k' : Nat} {p : Text} {f? g? : Option Filter}
    (hw : parse ⟨k, d⟩ w = .ok f?) (hu : parse ⟨k', d⟩ u = .ok g?)
    (hp : Token.Kind.identifier.Admits p) :
    ParsesTo (d + 1) (Tree.inParens w ++ " and ".toList ++ Tree.inParens u)
      (Combined .conjunction .conjunction f? g?) ∧
    ParsesTo (d + 1) (Tree.inParens w ++ " or ".toList ++ Tree.inParens u)
      (Combined .disjunction .disjunction f? g?) ∧
    ParsesTo (d + 2) ("not ".toList ++ Tree.inParens w) (fun h? =>
      h?.map Filter.tree = (f?.map Filter.tree).map .negation) ∧
    ParsesTo (d + 1) (p ++ "[".toList ++ w ++ "]".toList) (fun h? => ∃ q,
      Path.ofSegments [p] = .ok q ∧ h?.map Filter.tree = some (.path q (f?.map Filter.tree))) :=
  have hf := reads_of_parse hw
  have hg := reads_of_parse hu
  ⟨hf.conjunction hg, hf.disjunction hg, hf.negation, hf.reference hp⟩

def activeTree : Tree :=
  .path ⟨none, ["active".toList], none, by decide, by decide⟩ none

theorem parsesTo_composed_activeTree :
    ∃ f g h, parse {} "active".toList = .ok (some f) ∧ f.tree = activeTree ∧
      parse {} "not (active)".toList = .ok (some g) ∧ g.tree = .negation activeTree ∧
      parse { maxDepth := 33 } "(active) and (not (active))".toList = .ok (some h) ∧
      h.tree = .conjunction [f.tree, g.tree] ∧ Filter.Joins .conjunction f g h := by
  have hn : Token.Kind.identifier.Admits "active".toList := by decide
  have hp : Path.IsNamed ⟨none, ["active".toList], none, by decide, by decide⟩ :=
    ⟨nofun, nofun, fun _ => hn, nofun, nofun⟩
  have hc : activeTree.All Tree.IsCanonical := .intro ⟨hp, fun _ => rfl⟩ nofun
  have ha : activeTree.All Tree.HasArity := .intro trivial nofun
  have ⟨f, hf, hft⟩ := exists_parse_text hc ha (l := {}) ⟨by decide, by decide⟩
  have ⟨g, hg, hgt⟩ := exists_parse_text (t := .negation activeTree) (l := {})
    (.intro trivial (List.forall_mem_singleton.mpr hc))
    (.intro trivial (List.forall_mem_singleton.mpr ha)) ⟨by decide, by decide⟩
  have ⟨h?, hh, hj⟩ := (parsesTo_composed hf hg hn).left 4096 (by decide)
  cases hj
  case both h ht hj => exact ⟨f, g, h, hf, hft, hg, hgt, hh, ht, hj⟩

end AttributeFilter
