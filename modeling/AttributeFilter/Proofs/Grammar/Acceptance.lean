import AttributeFilter.Proofs.Grammar.Building
import AttributeFilter.Proofs.Grammar.Soundness
import AttributeFilter.Proofs.Grammar.Unambiguous
import AttributeFilter.Proofs.Token.Lexing

/-!
The parser accepts what the grammar derives and nothing else, and the filter it makes has the tree that
the only derivation means.
-/

namespace AttributeFilter.Grammar

open AttributeFilter.Parser

variable {ts : List Token} {s : Symbol}

-- All trees that a symbol means have a property.
def Meaning.All (P : Tree → Prop) : (s : Symbol) → Meaning s → Prop
  | .filter, t? | .disjunction, t? | .conjunction, t? | .factor, t? => ∀ t ∈ t?, P t
  | .alternatives, ts | .conjuncts, ts => ∀ t? ∈ ts, ∀ t ∈ t?, P t
  | .path, (_, f?) => ∀ f ∈ f?, P f

-- A single operand stands for itself, and several ones are joined.
theorem of_mem_combine_imp {P Q : Tree → Prop} {join : List Tree → Tree}
    {operands : List (Option Tree)} (ho : ∀ t? ∈ operands, ∀ t ∈ t?, P t) (hPQ : ∀ t, P t → Q t)
    (hj : ∀ ts : List Tree, 2 ≤ ts.length → (∀ t ∈ ts, P t) → Q (join ts)) :
    ∀ t ∈ combine join operands, Q t := by
  have hs : ∀ t ∈ operands.filterMap id, P t := by
    intro t ht
    have ⟨t?, hm, he⟩ := List.mem_filterMap.mp ht
    exact ho t? hm t he
  unfold combine
  split
  case h_1 => nofun
  case h_2 he =>
    rintro t ⟨⟩
    exact hPQ _ (hs _ (he ▸ List.mem_cons_self))
  case h_3 hn h₁ =>
    rintro t ⟨⟩
    exact hj _ (two_le_length hn h₁) hs

theorem of_mem_combine {P : Tree → Prop} {join : List Tree → Tree} {operands : List (Option Tree)}
    (ho : ∀ t? ∈ operands, ∀ t ∈ t?, P t)
    (hj : ∀ ts : List Tree, 2 ≤ ts.length → (∀ t ∈ ts, P t) → P (join ts)) :
    ∀ t ∈ combine join operands, P t :=
  of_mem_combine_imp ho (fun _ => id) hj

theorem Test.takesValue (d : Test) : d.meaning.1.takesValue = d.meaning.2.isSome := by
  cases d
  case present => rfl
  case relation o _ hn _ => cases o <;> first | rfl | exact absurd rfl hn

-- What a derivation means can be laid out.
theorem Derivation.makeable (d : Derivation s) : Meaning.All (Tree.All Tree.Makeable) s d.meaning := by
  have hj {join : List Tree → Tree} (hp : ∀ ts, (join ts).parts = ts)
      (hm : ∀ ts, ts ≠ [] → (join ts).Makeable) (ts : List Tree) (hl : 2 ≤ ts.length)
      (h : ∀ t ∈ ts, Tree.All Tree.Makeable t) : Tree.All Tree.Makeable (join ts) := by
    apply Tree.All.intro (hm ts (by rintro rfl; cases hl))
    rw [hp]
    exact h
  induction d
  case nothing | lastAlternative | lastConjunct | bare => nofun
  case whole ih | group ih | filtered ih => exact ih
  case disjunction ih₁ ih₂ =>
    exact of_mem_combine (List.forall_mem_cons.mpr ⟨ih₁, ih₂⟩) (hj (fun _ => rfl) fun _ => id)
  case conjunction ih₁ ih₂ =>
    exact of_mem_combine (List.forall_mem_cons.mpr ⟨ih₁, ih₂⟩) (hj (fun _ => rfl) fun _ => id)
  case alternative ih₁ ih₂ | conjunct ih₁ ih₂ => exact List.forall_mem_cons.mpr ⟨ih₁, ih₂⟩
  case negation inner ih =>
    intro t ht
    have ⟨c, hc, he⟩ := Option.map_eq_some_iff.mp ht
    exact he ▸ .intro trivial (by simpa [Tree.parts] using ih c hc)
  case reference ih =>
    rintro t ⟨⟩
    exact .intro trivial (by simpa [Tree.parts, Meaning.All] using ih)
  case comparison test ih =>
    rintro t ⟨⟩
    exact .intro test.takesValue (by simpa [Tree.parts, Meaning.All] using ih)
  case namedNot test =>
    rintro t ⟨⟩
    exact .intro test.takesValue (by simp [Tree.parts])

end Grammar

open Grammar

variable {l : Limits} {ts us : List Token}

theorem getElem?_of_suffix (h : us <:+ ts) :
    ts[min (ts.length - us.length) ts.length]? = us.head? := by
  have ⟨c, hc⟩ := h
  subst hc
  have hp : min ((c ++ us).length - us.length) (c ++ us).length = c.length := by simp
  rw [hp, List.getElem?_append_right (Nat.le_refl _), Nat.sub_self, List.head?_eq_getElem?]

-- The next token at the cursor is the first one that the grammar leaves.
theorem peek?_parse :
    ((Cursor.ofTokens ts).parse l).2.peek? = (expression l.maxDepth ts).rest.head? := by
  rw [Cursor.parse_eq_of_runs (.intro _ _)]
  exact getElem?_of_suffix (expression l.maxDepth ts).suffix

-- What the tokens are parsed to, if no token is left.
theorem parseTokens_eq_parse : parseTokens l ts = ((Cursor.ofTokens ts).parse l).1.bind fun f? =>
    match (expression l.maxDepth ts).rest.head? with
    | none   => .ok f?
    | some t => .error (unexpected t) := by
  rw [← peek?_parse]
  unfold parseTokens Cursor.expectEnd
  cases (Cursor.ofTokens ts).parse l
  case mk result c =>
    cases result <;> cases h : c.peek? <;> simp [bind, Except.bind, h, pure, Except.pure, unexpected]

-- What the grammar makes of the tokens is laid out, and then no token may be left.
theorem parseTokens_eq :
    parseTokens l ts = (((expression l.maxDepth ts).outcome.bind layOut).bind fun f? =>
      match (expression l.maxDepth ts).rest.head? with
      | none   => .ok f?
      | some t => .error (unexpected t)) := by
  rw [parseTokens_eq_parse, Cursor.parse_eq_of_runs (.intro _ _)]
  rfl

theorem parseTokens_eq_ok_iff {f? : Option Filter} :
    parseTokens l ts = .ok f? ↔
      ∃ t?, (expression l.maxDepth).Yields ts t? [] ∧ layOut t? = .ok f? := by
  have hy {t? : Option Tree} : (expression l.maxDepth).Yields ts t? [] ↔
      (expression l.maxDepth ts).outcome = .ok t? ∧ (expression l.maxDepth ts).rest.head? = none := by
    rw [List.head?_eq_none_iff]
    exact ⟨fun h => ⟨h.outcome, h.rest⟩, fun h => ⟨h.left, h.right⟩⟩
  simp only [parseTokens_eq, hy]
  cases (expression l.maxDepth ts).outcome
  case error => simp [Except.bind]
  case ok t? =>
    cases (expression l.maxDepth ts).rest.head? <;> cases hf : layOut t? <;> simp [Except.bind, hf]

theorem exists_layOut {t? : Option Tree} (hm : ∀ t ∈ t?, Tree.All Tree.Makeable t) :
    ∃ f?, layOut t? = .ok f? ∧ f?.map Filter.tree = t? := by
  cases t?
  case none   => exact ⟨none, rfl, rfl⟩
  case some t =>
    have ⟨f, hf, ht⟩ := Filter.ofTree_tree (hm t rfl)
    exact ⟨some f, hf, congrArg some ht⟩

theorem exists_of_map_ok {r : Except Error (Option Filter)} {α : Type} {g : Filter → α} {a : α}
    (h : (r.toOption.bind id).map g = some a) : ∃ f, r = .ok (some f) ∧ g f = a := by
  have ⟨f, hf, ha⟩ := Option.map_eq_some_iff.mp h
  cases r
  case error => cases hf
  case ok f? => exact ⟨f, congrArg Except.ok hf, ha⟩

-- What is parsed is laid out from what the tokens mean, however deep it is.
theorem of_parseTokens (hlex : ∀ t ∈ ts, t.IsLexeme) {f? : Option Filter}
    (h : parseTokens l ts = .ok f?) :
    ∃ d : Derivation .filter, d.tokens = ts ∧ d.meaning = f?.map Filter.tree := by
  have ⟨t?, hy, hl⟩ := parseTokens_eq_ok_iff.mp h
  have ⟨d, hd, hm, _⟩ := filter_sound factor_sound hy hlex
  have ⟨g?, hg, ht⟩ := exists_layOut (hm ▸ d.makeable)
  cases hl.symm.trans hg
  exact ⟨d, by simpa using hd, hm.trans ht.symm⟩

theorem parseTokens_of_derivation (d : Derivation .filter) (hd : d.depth ≤ l.maxDepth)
    {f? : Option Filter} (hf : layOut d.meaning = .ok f?) : parseTokens l d.tokens = .ok f? := by
  have hy : (expression l.maxDepth).Yields (d.tokens ++ []) d.meaning [] :=
    yields_of_derivation d hd (.inl rfl)
  rw [List.append_nil] at hy
  exact parseTokens_eq_ok_iff.mpr ⟨_, hy, hf⟩

-- What tokens mean is parsed, if enough levels may be opened.
theorem exists_parseTokens (d : Derivation .filter) (hl : d.tokens.length ≤ l.maxDepth) :
    ∃ f?, parseTokens l d.tokens = .ok f? ∧ f?.map Filter.tree = d.meaning := by
  have ⟨f?, hf, ht⟩ := exists_layOut d.makeable
  exact ⟨f?, parseTokens_of_derivation d (Nat.le_trans d.depth_le_length hl) hf, ht⟩

-- The filter that tokens are parsed to has the tree that their derivation means.
theorem parseTokens_tree_iff (hl : ts.length ≤ l.maxDepth) (hlex : ∀ t ∈ ts, t.IsLexeme)
    {t? : Option Tree} :
    (parseTokens l ts).map (·.map Filter.tree) = .ok t? ↔
      ∃ d : Derivation .filter, d.tokens = ts ∧ d.meaning = t? := by
  constructor
  case mp =>
    intro h
    cases hp : parseTokens l ts
    case error => simp [hp, Except.map] at h
    case ok f? =>
      have ⟨d, hd, hm⟩ := of_parseTokens hlex hp
      simp only [hp, Except.map, Except.ok.injEq] at h
      exact ⟨d, hd, hm.trans h⟩
  case mpr =>
    rintro ⟨d, rfl, rfl⟩
    have ⟨f?, hf, ht⟩ := exists_parseTokens d hl
    rw [hf]
    exact congrArg Except.ok ht

-- The parser accepts exactly what the grammar derives, with the tree of the only derivation.
theorem parseTokens_iff_derivation :
    (∀ t ts, tokenize t = .ok ts → ∀ k ∈ ts, k.IsLexeme) ∧
    ∀ (l : Limits) (ts : List Token), ts.length ≤ l.maxDepth → (∀ t ∈ ts, t.IsLexeme) →
      (∀ t?, (parseTokens l ts).map (·.map Filter.tree) = .ok t? ↔
        ∃ d : Derivation .filter, d.tokens = ts ∧ d.meaning = t?) ∧
      ∀ d d' : Derivation .filter, d.tokens = ts → d'.tokens = ts → d = d' :=
  ⟨fun _ _ => isLexeme_of_tokenize, fun _ _ hl hlex =>
    ⟨fun _ => parseTokens_tree_iff hl hlex,
      fun _ _ h h' => Derivation.tokens_injective (h.trans h'.symm)⟩⟩

def negatedTokens : List Token :=
  [.ofText .not "NOT".toList, .ofText .identifier "a".toList, .ofText .operator "pr".toList]

def negatedTree : Tree :=
  .negation (.comparison ⟨none, ["a".toList], none, by decide, by decide⟩ none .present none)

theorem parseTokens_negatedTokens :
    (parseTokens {} negatedTokens).map (·.map Filter.tree) = .ok (some negatedTree) := by
  have hn : (Token.ofText .not "NOT".toList).IsLexeme :=
    .word (v := "not".toList) (by decide) (by decide)
  have ha : Token.Kind.identifier.Admits "a".toList := by decide
  have ha : (Token.ofText .identifier "a".toList).IsLexeme := ha
  have ho : (Token.ofText .operator "pr".toList).IsLexeme := .operator .present (by decide)
  have hlex : ∀ t ∈ negatedTokens, t.IsLexeme :=
    List.forall_mem_cons.mpr ⟨hn, List.forall_mem_cons.mpr ⟨ha, List.forall_mem_singleton.mpr ho⟩⟩
  let test : Test := .present ⟨_, List.mem_cons_self, ho⟩ rfl
  let comparison := Derivation.comparison (.bare (.plain ⟨_, List.mem_cons_self, ha⟩ [])) test
  let negation := Derivation.negation ⟨_, List.mem_cons_self, hn⟩ comparison
  let d := Derivation.whole (.disjunction (.conjunction negation .lastConjunct) .lastAlternative)
  exact ((parseTokens_iff_derivation.right {} _ (by decide) hlex).left _).mpr ⟨d, rfl, rfl⟩

theorem parse_eq_ok_iff {t : Text} {f? : Option Filter} :
    parse l t = .ok f? ↔
      Text.byteLength t ≤ l.maxLength ∧ ∃ ts, tokenize t = .ok ts ∧ parseTokens l ts = .ok f? := by
  simp only [parse, parseReporting, tokenize, Scan.result]
  split
  case isTrue h => simp; omega
  case isFalse h =>
    cases (Scanner.ofText t).scan.failure?
    case none   => simp; omega
    case some e => simp

theorem exists_cursor_of_parse {t : Text} {f? : Option Filter} (h : parse l t = .ok f?) :
    ∃ c : Cursor, (c.parse l).1 = .ok f? := by
  have ⟨_, ts, _, hp⟩ := parse_eq_ok_iff.mp h
  rw [parseTokens_eq_parse] at hp
  have ⟨g?, hg, he⟩ := bind_eq_ok_iff.mp hp
  split at he <;> cases he
  exact ⟨_, hg⟩

end AttributeFilter
