import AttributeFilter.Proofs.Filter.Arity
import AttributeFilter.Proofs.Grammar.Arrangement
import AttributeFilter.Proofs.Grammar.Reparsing
import AttributeFilter.Proofs.Token.Adjoining
import AttributeFilter.Proofs.Tree.Settled

/-!
Parsing the canonical text of a filter that was parsed. It is read back as it was, unless a sub-attribute
stands behind an empty value filter: there is no text for that, and the sub-attribute becomes a segment.
-/

namespace AttributeFilter

open Text Lexeme

namespace Grammar

variable {s : Symbol}

theorem Terminal.admits {k : Token.Kind} (t : Terminal [k]) : k.Admits t.token.text := by
  have h := t.lexeme
  rwa [Token.IsLexeme, t.kind_eq] at h

theorem Member.isName (m : Member) : m.text.IsName :=
  m.name.admits

theorem isName_of_mem_members {ms : List Member} : ∀ t ∈ ms.map Member.text, t.IsName := by
  intro t ht
  have ⟨m, _, he⟩ := List.mem_map.mp ht
  exact he ▸ m.isName

theorem Name.isNamed (n : Name) (sub? : Option Member) (h : Adjoining n.tokens) :
    (n.path sub?).IsNamed := by
  have hs : ∀ t ∈ (n.path sub?).sub?, t.IsName := by
    intro t ht
    have ⟨m, _, he⟩ := Option.map_eq_some_iff.mp ht
    exact he ▸ m.isName
  cases n
  case plain first more =>
    exact ⟨nofun, fun hn => absurd rfl hn, fun _ => first.admits, isName_of_mem_members, hs⟩
  case qualified uri colon first more =>
    refine ⟨?_, fun _ => ?_, nofun, isName_of_mem_members, hs⟩
    case refine_1 => rintro _ ⟨⟩; exact uri.admits
    case refine_2 =>
      have hl := first.lexeme
      unfold Token.IsLexeme at hl
      have hk := first.kind_mem
      simp only [List.mem_cons, List.not_mem_nil, or_false] at hk
      cases hk
      case inr hk => rw [hk] at hl; exact .inr hl
      case inl hk =>
        have hp : [uri.token, colon.token, first.token] <+: (qualified uri colon first more).tokens :=
          ⟨more.flatMap Member.tokens, rfl⟩
        have hb := h _ _ _ hp.isInfix uri.kind_eq colon.kind_eq (.inl hk)
        rw [hk] at hl
        exact .inl ⟨hl, hb⟩

theorem Name.isNot (t : Terminal [.not]) : (notPath t).IsNot where
  schema := rfl
  word   := t.admits
  more   := rfl
  sub    := rfl

theorem Test.isFinite (d : Test) : ∀ x, d.meaning.2 = some (.number x) → x.isFinite = true := by
  intro x hx
  cases d
  case present => cases hx
  case relation l =>
    have hd := l.denotes
    rw [show l.value = .number x from Option.some.inj hx] at hd
    cases hd
    assumption

theorem Derivation.isNamed (p : Derivation .path) (h : Adjoining p.tokens) :
    p.meaning.1.IsNamed := by
  cases p
  case bare name               => exact name.isNamed none h
  case filtered name _ _ _ sub? => exact name.isNamed sub? h.left

-- The trees that derivations mean, where the tokens come from a text.
theorem Derivation.accepted (d : Derivation s) (ht : Adjoining d.tokens) :
    Meaning.All (Tree.All Tree.IsAccepted) s d.meaning := by
  have hj {join : List Tree → Tree} (hp : ∀ ts, (join ts).parts = ts)
      (hm : ∀ ts, 2 ≤ ts.length → (join ts).IsAccepted) (ts : List Tree) (hl : 2 ≤ ts.length)
      (h : ∀ t ∈ ts, Tree.All Tree.IsAccepted t) : Tree.All Tree.IsAccepted (join ts) := by
    apply Tree.All.intro (hm ts hl)
    rw [hp]
    exact h
  induction d
  case nothing | lastAlternative | lastConjunct | bare => nofun
  case whole ih => exact ih ht
  case group ih => exact ih ht.tail.left
  case filtered ih => exact ih ht.right.tail.left
  case disjunction ih₁ ih₂ =>
    exact of_mem_combine (List.forall_mem_cons.mpr ⟨ih₁ ht.left, ih₂ ht.right⟩)
      (hj (fun _ => rfl) fun _ => id)
  case conjunction ih₁ ih₂ =>
    exact of_mem_combine (List.forall_mem_cons.mpr ⟨ih₁ ht.left, ih₂ ht.right⟩)
      (hj (fun _ => rfl) fun _ => id)
  case alternative ih₁ ih₂ | conjunct ih₁ ih₂ =>
    exact List.forall_mem_cons.mpr ⟨ih₁ ht.tail.left, ih₂ ht.tail.right⟩
  case negation inner ih =>
    intro t hm
    have ⟨c, hc, he⟩ := Option.map_eq_some_iff.mp hm
    exact he ▸ .intro trivial (by simpa [Tree.parts] using ih ht.tail c hc)
  case reference p ih =>
    rintro t ⟨⟩
    exact .intro (p.isNamed ht) (by simpa [Tree.parts, Meaning.All] using ih ht)
  case comparison p test ih =>
    rintro t ⟨⟩
    exact .intro ⟨.inl (p.isNamed ht.left), test.isFinite⟩
      (by simpa [Tree.parts, Meaning.All] using ih ht.left)
  case namedNot word test =>
    rintro t ⟨⟩
    exact .intro ⟨.inr ⟨Name.isNot word, rfl⟩, test.isFinite⟩ (by simp [Tree.parts])

end Grammar

variable {l l' : Limits} {input : Text} {f : Filter}

theorem accepted_of_parse (h : parse l input = .ok (some f)) :
    f.tree.All Tree.IsAccepted ∧ f.tree.All Tree.HasArity := by
  have ⟨_, ts, hts, hp⟩ := parse_eq_ok_iff.mp h
  have ⟨d, hd, hm⟩ := of_parseTokens (isLexeme_of_tokenize hts) hp
  have hac := d.accepted (hd ▸ adjoining_of_tokenize hts)
  rw [hm] at hac
  exact ⟨hac _ rfl, (Arena.shows_treeAt f.root_lt).hasArity (forest_of_parse h).left.arity⟩

theorem exists_parse_settled (h : parse l input = .ok (some f)) (hl : l'.Admits f.text) :
    ∃ g, parse l' f.text = .ok (some g) ∧ g.tree = f.tree.settle := by
  have ⟨hac, har⟩ := accepted_of_parse h
  have hc : f.tree.settle.All Tree.IsCanonical := hac.settle Tree.isCanonical_settle
  have ha : f.tree.settle.All Tree.HasArity := har.settle Tree.hasArity_settle
  have ht : f.tree.settle.text = f.text := f.tree.text_settle
  have ⟨g, hg, he⟩ := exists_parse_text hc ha (ht ▸ hl)
  exact ⟨g, ht ▸ hg, he⟩

namespace Grammar

-- An empty value filter leaves nothing behind but the place where a sub-attribute may stand.
theorem says_emptyFilter {p : Path} {t r : Text} (hp : p.IsNamed) (hs : p.sub? = some t)
    (hr : r.Ends operandEnds) :
    Says 1 .path (p, none) (nameText p ++ (['['] ++ ([']'] ++ (['.'] ++ t)))) r := by
  have hn := spells_name (r := ['['] ++ ([']'] ++ (['.'] ++ t)) ++ r) hp (.cons (by decide))
  have hl := Spells.terminal [.leftBracket] List.mem_cons_self
    (cuts_mark (c := '[') rfl ([']'] ++ (['.'] ++ t) ++ r))
  have hb := Spells.terminal [.rightBracket] List.mem_cons_self
    (cuts_mark (c := ']') rfl (['.'] ++ t ++ r))
  have hm := spells_sub (hp.sub t hs) hr
  apply (hn.andThen (hl.andThen (hb.andThen hm))).map
  intro ⟨n, l, b, m⟩ ⟨⟨h₁, h₂⟩, _, _, hm⟩
  refine ⟨.filtered n l .nothing b (some m), ⟨?_, rfl⟩, rfl⟩
  have hs : (n.path (some m)).sub? = p.sub? := hs ▸ congrArg some hm
  rw [Derivation.meaning, Path.eq_of (p := n.path (some m)) h₁ h₂ hs]
  rfl

end Grammar

theorem exists_parse_emptyFilter {p : Path} {t : Text} (hp : p.IsNamed) (hs : p.sub? = some t)
    (hl : l.Admits (Grammar.nameText p ++ ("[].".toList ++ t) ++ " pr".toList)) :
    ∃ f, parse l (Grammar.nameText p ++ ("[].".toList ++ t) ++ " pr".toList) = .ok (some f) ∧
      f.tree = .comparison p none .present none := by
  have ho := Grammar.spells_test (r := []) (Iff.intro (fun _ => rfl) fun _ => rfl) nofun nofun
  have hq := Spells.andBehind (Grammar.says_emptyFilter hp hs (.cons (by decide))) ho
  have hf : Grammar.Says 1 .factor (some (.comparison p none .present none)) _ [] :=
    hq.map fun ⟨d, test⟩ ⟨⟨hd, hn⟩, ht⟩ =>
      ⟨.comparison d test, ⟨by rw [Grammar.Derivation.meaning, hd, ht], hn⟩, rfl⟩
  exact exists_parse_of_says (Grammar.says_filter_of_factor hf) hl

-- The text of a parsed filter is always parsed, and what it is parsed to is the same filter if and only if
-- every sub-attribute stands behind a value filter.
theorem parse_text_of_parse (h : parse l input = .ok (some f)) (hl : l'.Admits f.text) :
    ∃ g, parse l' f.text = .ok (some g) ∧
      (g.tree = f.tree ↔ f.tree.All Tree.IsAttached) ∧
      (g.json = f.json ↔ f.tree.All Tree.IsAttached) := by
  have ⟨hac, _⟩ := accepted_of_parse h
  have ⟨g, hg, he⟩ := exists_parse_settled h hl
  refine ⟨g, hg, ?_, ?_⟩
  · rw [he]
    exact Tree.settle_eq_iff hac
  · rw [Filter.json, he]
    exact Tree.json_settle_eq_iff hac

def attachedTree : Tree :=
  .comparison ⟨none, ["emails".toList], some "value".toList, by decide, by decide⟩
    (some (.path ⟨none, ["type".toList], none, by decide, by decide⟩ none)) .present none

theorem isCanonical_attachedTree : attachedTree.All Tree.IsCanonical := by
  have hp : Path.IsNamed ⟨none, ["emails".toList], some "value".toList, by decide, by decide⟩ :=
    ⟨nofun, nofun, fun _ => by decide, nofun, by decide⟩
  have hf : Path.IsNamed ⟨none, ["type".toList], none, by decide, by decide⟩ :=
    ⟨nofun, nofun, fun _ => by decide, nofun, nofun⟩
  refine .intro ⟨.inl ⟨hp, nofun⟩, nofun⟩ (List.forall_mem_singleton.mpr ?_)
  exact .intro ⟨hf, fun _ => rfl⟩ nofun

theorem parse_text_of_attachedTree :
    ∃ f g, parse {} "emails[type].value pr".toList = .ok (some f) ∧ f.tree = attachedTree ∧
      parse {} f.text = .ok (some g) ∧ g.tree = f.tree := by
  have hc := isCanonical_attachedTree
  have ha : attachedTree.All Tree.HasArity :=
    .intro ⟨fun _ => rfl, fun _ => rfl⟩ (List.forall_mem_singleton.mpr (.intro trivial nofun))
  have ⟨f, hf, ht⟩ := exists_parse_text hc ha (l := {}) ⟨by decide, by decide⟩
  have hl : Limits.Admits {} f.text := by
    rw [Filter.text, ht]
    exact ⟨by decide, by decide⟩
  have ⟨g, hg, htree, _⟩ := parse_text_of_parse hf hl
  have hx : attachedTree.text = "emails[type].value pr".toList := by decide
  exact ⟨f, g, hx ▸ hf, ht, hg, htree.mpr (ht ▸ hc.imp Tree.isAttached_of_isCanonical)⟩

-- The sub-attribute is read back as a segment.
theorem parse_text_of_emptyFilter :
    ∃ f g, parse {} "emails[].value pr".toList = .ok (some f) ∧ f.text = "emails.value pr".toList ∧
      parse {} f.text = .ok (some g) ∧ g.json ≠ f.json := by
  have hp : Path.IsNamed ⟨none, ["emails".toList], some "value".toList, by decide, by decide⟩ :=
    ⟨nofun, nofun, fun _ => by decide, nofun, by decide⟩
  have ⟨f, hf, ht⟩ := exists_parse_emptyFilter hp rfl (l := {}) ⟨by decide, by decide⟩
  have hx : f.text = "emails.value pr".toList := by
    rw [Filter.text, ht]
    decide
  have hl : Limits.Admits {} f.text := hx ▸ ⟨by decide, by decide⟩
  have ⟨g, hg, hs⟩ := exists_parse_settled hf hl
  refine ⟨f, g, hf, hx, hg, fun hj => ?_⟩
  rw [Filter.json, Filter.json, hs] at hj
  have ha := (Tree.json_settle_eq_iff (accepted_of_parse hf).left).mp hj
  rw [ht] at ha
  cases ha.here rfl

end AttributeFilter
