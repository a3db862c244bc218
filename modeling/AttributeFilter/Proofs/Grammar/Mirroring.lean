import AttributeFilter.Proofs.Grammar.Content
import AttributeFilter.Proofs.Grammar.Faults
import AttributeFilter.Proofs.Token.Respelling

/-!
Two runs side by side, on tokens that are alike one by one. Every rule does the same in both: it takes as many
tokens and has the same value, or it fails with the same error at tokens of one index. So neither white space
nor the case of keywords has an influence on a filter, nor on what is wrong with a text.
-/

namespace AttributeFilter

open Text

namespace Error

-- An error without what it quotes, and without a place.
def bare : Error → Error
  | unrecognized _ _       => unrecognized [] {}
  | unexpected _ _         => unexpected [] {}
  | expectedExpression _ _ => expectedExpression [] {}
  | tooDeep max _          => tooDeep max {}
  | e                      => e

end Error

-- Two errors are of one kind, and if they have places, these are the ones of a pair of tokens.
structure Twins (pairs : List (Token × Token)) (e e' : Error) : Prop where
  bare  : e'.bare = e.bare
  place : ∀ p, e.position? = some p →
    ∃ z ∈ pairs, z.1.position = p ∧ e'.position? = some z.2.position

namespace Grammar

open AttributeFilter.Parser

variable {α β : Type} {limit : Nat} {pairs zs : List (Token × Token)} {z : Token × Token} {e : Error}
  {kinds : List Token.Kind} {kind : Token.Kind}

-- The tokens of each pair are alike.
def Paired (pairs : List (Token × Token)) : Prop :=
  ∀ z ∈ pairs, z.1.sense = z.2.sense

theorem Paired.isNext (h : Paired zs) (kinds : List Token.Kind) :
    isNext kinds (zs.map Prod.fst) = isNext kinds (zs.map Prod.snd) := by
  cases zs
  case nil => rfl
  case cons z zs =>
    have hk := kind_eq_of_sense_eq (h z List.mem_cons_self)
    rw [List.map_cons, List.map_cons, isNext_cons, isNext_cons, hk]

theorem twins_refl (h : e.position? = none) : Twins pairs e e where
  bare  := rfl
  place := fun p hp => by cases h.symm.trans hp

theorem twins_at {e' : Error} (hz : z ∈ pairs) (hb : e'.bare = e.bare)
    (hp : e.position? = some z.1.position) (hp' : e'.position? = some z.2.position) :
    Twins pairs e e' where
  bare  := hb
  place := fun _ h => ⟨z, hz, Option.some.inj (hp.symm.trans h), hp'⟩

-- From some pairs on, two rules do the same, the one on the first tokens and the other one on the second
-- ones. Both leave the tokens of some pairs.
inductive MirrorsAt (pairs zs : List (Token × Token)) (p p' : Rule α) : Prop
  | value {a : α} {ws : List (Token × Token)} (suffix : ws <:+ zs)
    (run : p.Runs (zs.map Prod.fst) (.ok a) (ws.map Prod.fst))
    (run' : p'.Runs (zs.map Prod.snd) (.ok a) (ws.map Prod.snd))
  | fault {e e' : Error} {ws : List (Token × Token)} (suffix : ws <:+ zs)
    (run : p.Runs (zs.map Prod.fst) (.error e) (ws.map Prod.fst))
    (run' : p'.Runs (zs.map Prod.snd) (.error e') (ws.map Prod.snd)) (twins : Twins pairs e e')

namespace MirrorsAt

variable {p p' q q' : Rule α} {f f' : α → Rule β}

theorem congr (h : MirrorsAt pairs zs q q') (hq : p (zs.map Prod.fst) = q (zs.map Prod.fst))
    (hq' : p' (zs.map Prod.snd) = q' (zs.map Prod.snd)) : MirrorsAt pairs zs p p' := by
  cases h
  case value hs h h'    => exact .value hs (h.congr hq) (h'.congr hq')
  case fault hs h h' ht => exact .fault hs (h.congr hq) (h'.congr hq') ht

theorem bind (hp : MirrorsAt pairs zs p p')
    (hf : ∀ a ws, ws <:+ zs → MirrorsAt pairs ws (f a) (f' a)) :
    MirrorsAt pairs zs (p >>= f) (p' >>= f') := by
  cases hp
  case fault hs h h' ht => exact .fault hs h.bind_error h'.bind_error ht
  case value a ws hs h h' =>
    cases hf a ws hs
    case value hs' k k'    => exact .value (hs'.trans hs) (h.bind_ok k) (h'.bind_ok k')
    case fault hs' k k' ht => exact .fault (hs'.trans hs) (h.bind_ok k) (h'.bind_ok k') ht

theorem map (hp : MirrorsAt pairs zs p p') (g : α → β) : MirrorsAt pairs zs (g <$> p) (g <$> p') := by
  cases hp
  case value hs h h'    => exact .value hs (h.map g) (h'.map g)
  case fault hs h h' ht => exact .fault hs (h.map g) (h'.map g) ht

-- A pair of tokens that announce an item is taken.
theorem behind {announces : Token → Bool} (hz : announces z.1 = true) (hz' : announces z.2 = true)
    (h : MirrorsAt pairs zs (p >>= fun a => (a :: ·) <$> many announces p)
      (p' >>= fun a => (a :: ·) <$> many announces p')) :
    MirrorsAt pairs (z :: zs) (many announces p) (many announces p') := by
  cases h
  case value hs h h' => exact .value (hs.trans (List.suffix_cons z zs)) (h.many_cons hz) (h'.many_cons hz')
  case fault hs h h' ht =>
    exact .fault (hs.trans (List.suffix_cons z zs)) (h.many_cons hz) (h'.many_cons hz') ht

end MirrorsAt

-- The two rules do the same from wherever they start in the pairs.
def Mirrors (pairs : List (Token × Token)) (p p' : Rule α) : Prop :=
  Paired pairs → ∀ zs, zs <:+ pairs → MirrorsAt pairs zs p p'

namespace Mirrors

variable {p p' : Rule α} {f f' : α → Rule β}

theorem pure (a : α) : Mirrors pairs (pure a) (pure a) :=
  fun _ _ _ => .value List.suffix_rfl (.ofExcept _ _) (.ofExcept _ _)

theorem fail {e e' : Error} (h : Twins pairs e e') : Mirrors pairs (fail e : Rule α) (fail e') :=
  fun _ _ _ => .fault List.suffix_rfl (.ofExcept _ _) (.ofExcept _ _) h

theorem bind (hp : Mirrors pairs p p') (hf : ∀ a, Mirrors pairs (f a) (f' a)) :
    Mirrors pairs (p >>= f) (p' >>= f') :=
  fun ha zs hz => (hp ha zs hz).bind fun a ws hw => hf a ha ws (hw.trans hz)

theorem map (hp : Mirrors pairs p p') (g : α → β) : Mirrors pairs (g <$> p) (g <$> p') :=
  fun ha zs hz => (hp ha zs hz).map g

theorem expect_bind {f f' : Token → Rule α}
    (hf : ∀ z ∈ pairs, z.1.sense = z.2.sense → z.1.kind ∈ kinds → Mirrors pairs (f z.1) (f' z.2)) :
    Mirrors pairs (expect kinds >>= f) (expect kinds >>= f') := by
  intro ha zs hz
  cases zs
  case nil =>
    have hr : (expect kinds).Runs [] (.error .endOfText) [] := .intro _ _
    exact .fault List.suffix_rfl hr.bind_error hr.bind_error (twins_refl rfl)
  case cons z zs =>
    have hm := hz.mem List.mem_cons_self
    have hs := ha z hm
    by_cases hk : z.1.kind ∈ kinds
    case neg =>
      have hk' : z.2.kind ∉ kinds := kind_eq_of_sense_eq hs ▸ hk
      exact .fault List.suffix_rfl (runs_expect_error hk).bind_error
        (runs_expect_error hk').bind_error (twins_at hm rfl rfl rfl)
    case pos =>
      have hk' : z.2.kind ∈ kinds := kind_eq_of_sense_eq hs ▸ hk
      have hc := List.suffix_cons z zs
      cases hf z hm hs hk ha zs (hc.trans hz)
      case value hs h h' =>
        exact .value (hs.trans hc) ((runs_expect_ok hk).bind_ok h) ((runs_expect_ok hk').bind_ok h')
      case fault hs h h' ht =>
        exact .fault (hs.trans hc) ((runs_expect_ok hk).bind_ok h) ((runs_expect_ok hk').bind_ok h') ht

theorem optional (hp : Mirrors pairs p p') : Mirrors pairs (optional kind p) (optional kind p') := by
  intro ha zs hz
  have hn := Paired.isNext (fun z h => ha z (hz.mem h)) [kind]
  cases h : isNext [kind] (zs.map Prod.fst)
  case false =>
    refine MirrorsAt.congr (pure none ha zs hz) ?_ ?_ <;> rw [Grammar.optional, ahead_bind_eq]
    · simp [h]
    · simp [← hn, h]
  case true =>
    refine MirrorsAt.congr ((hp.bind fun a => pure (some a)) ha zs hz) ?_ ?_ <;>
      rw [Grammar.optional, ahead_bind_eq]
    · simp [h]
    · simp [← hn, h]

-- Items behind separators, as often as there is one. The induction is on the number of pairs.
theorem behindEach (hp : Mirrors pairs p p') :
    Mirrors pairs (behindEach kind p) (behindEach kind p') := by
  intro ha zs hz
  induction hl : zs.length using Nat.strongRecOn generalizing zs
  case ind l ih =>
    have hn := Paired.isNext (fun z h => ha z (hz.mem h)) [kind]
    cases h : isNext [kind] (zs.map Prod.fst)
    case false =>
      have hy {ts : List Token} (p : Rule α) (h : isNext [kind] ts = false) :
          (Grammar.behindEach kind p).Runs ts (.ok []) ts :=
        have hy := (yields_behindEach_stop_iff h).mpr ⟨rfl, rfl⟩
        ⟨hy.outcome, hy.rest⟩
      exact .value List.suffix_rfl (hy p h) (hy p' (hn ▸ h))
    case true =>
      cases zs
      case nil => cases h
      case cons z zs =>
        have hc := (List.suffix_cons z zs).trans hz
        have hk : z.1.kind = kind := by simpa using h
        have hk' := kind_eq_of_sense_eq (ha z (hz.mem List.mem_cons_self))
        refine MirrorsAt.behind (by simpa using hk) (by simpa using hk'.symm.trans hk) ?_
        refine (hp ha zs hc).bind fun a ws hw => (ih ws.length ?_ ws (hw.trans hc) rfl).map _
        have := hw.length_le
        rw [List.length_cons] at hl
        omega

theorem ofExcept_literalValue (hm : z ∈ pairs) (hs : z.1.sense = z.2.sense) :
    Mirrors pairs (ofExcept (literalValue z.1)) (ofExcept (literalValue z.2)) := by
  have ht := text_eq_of_sense_eq hs
  unfold literalValue
  rw [← kind_eq_of_sense_eq hs]
  split
  case h_1 hk =>
    rw [← ht (by rw [hk]; decide)]
    cases Quoted.decodePadded? z.1.text
    case none   => exact fail (twins_at hm rfl rfl rfl)
    case some v => exact pure _
  case h_2 hk =>
    rw [← ht (by rw [hk]; decide)]
    cases (Binary64.ofText? z.1.text).filter Binary64.isFinite
    case none   => exact fail (twins_at hm rfl rfl rfl)
    case some v => exact pure _
  case h_6 => exact fail (twins_at hm rfl rfl rfl)
  all_goals exact pure _

theorem literal : Mirrors pairs literal literal :=
  expect_bind fun _ hm hs _ => ofExcept_literalValue hm hs

theorem operator : Mirrors pairs operator operator := by
  refine expect_bind fun z hm hs _ => ?_
  have ho : Operator.ofWord? z.1.text = Operator.ofWord? z.2.text := by
    simp only [Operator.ofWord?, sameWord, lower_text_eq_of_sense_eq hs]
  rw [← ho]
  cases Operator.ofWord? z.1.text
  case none   => exact fail (twins_at hm rfl rfl rfl)
  case some o => exact pure o

theorem segment (hk : ∀ k ∈ kinds, k ∉ Token.Kind.caseless) :
    Mirrors pairs (segment kinds) (segment kinds) :=
  expect_bind fun _ _ hs hm => text_eq_of_sense_eq hs (hk _ hm) ▸ pure _

theorem schema : Mirrors pairs schema schema :=
  expect_bind fun _ _ hs hm => expect_bind fun _ _ _ _ => by
    have hk := List.mem_singleton.mp hm
    exact text_eq_of_sense_eq hs (by rw [hk]; decide) ▸ pure _

theorem subAttribute : Mirrors pairs subAttribute subAttribute :=
  expect_bind fun _ _ _ _ => segment (by decide)

theorem ofSegments (segments : List Text) :
    Mirrors pairs (ofExcept (Path.ofSegments segments)) (ofExcept (Path.ofSegments segments)) := by
  unfold Path.ofSegments
  split
  case isTrue  => exact pure _
  case isFalse => exact fail (twins_refl rfl)

theorem name : Mirrors pairs name name :=
  (optional schema).bind fun _ => (segment (by decide)).bind fun _ =>
    (behindEach (segment (by decide))).bind fun _ => (ofSegments _).bind fun _ => pure _

theorem test : Mirrors pairs test test := by
  refine operator.bind fun o => ?_
  cases o.takesValue
  case false => exact pure _
  case true  => exact literal.bind fun _ => pure _

variable {inner : Rule (Option Tree)} {inner? factor? : Option (Rule (Option Tree))}

theorem nested (h : ∀ inner ∈ inner?, Mirrors pairs inner inner) (hm : z ∈ pairs) :
    Mirrors pairs (nested limit inner? z.1) (nested limit inner? z.2) := by
  cases inner?
  case none       => exact fail (twins_at hm rfl rfl rfl)
  case some inner => exact h inner rfl

theorem valueFilter (h : ∀ inner ∈ inner?, Mirrors pairs inner inner) :
    Mirrors pairs (valueFilter limit inner?) (valueFilter limit inner?) :=
  expect_bind fun _ hm _ _ => (nested h hm).bind fun _ => expect_bind fun _ _ _ _ =>
    (optional subAttribute).bind fun _ => pure _

theorem path (h : ∀ inner ∈ inner?, Mirrors pairs inner inner) :
    Mirrors pairs (path limit inner?) (path limit inner?) := by
  refine name.bind fun _ => (optional (valueFilter h)).bind fun f? => ?_
  cases f?
  case none => exact pure _
  case some => exact pure _

theorem comparison (h : ∀ inner ∈ inner?, Mirrors pairs inner inner) :
    Mirrors pairs (comparison limit inner?) (comparison limit inner?) := by
  refine (path h).bind fun _ => (optional test).bind fun t? => ?_
  cases t?
  case none => exact pure _
  case some => exact pure _

theorem group (h : ∀ inner ∈ inner?, Mirrors pairs inner inner) :
    Mirrors pairs (group limit inner?) (group limit inner?) :=
  expect_bind fun _ hm _ _ => (nested h hm).bind fun _ => expect_bind fun _ _ _ _ => pure _

theorem negation (h : ∀ inner ∈ inner?, Mirrors pairs inner inner) :
    Mirrors pairs (negation limit inner?) (negation limit inner?) :=
  expect_bind fun _ hm _ _ => (nested h hm).bind fun _ => pure _

theorem conjunction (h : Mirrors pairs inner inner) :
    Mirrors pairs (conjunction inner) (conjunction inner) :=
  h.bind fun _ => (behindEach h).bind fun _ => pure _

theorem disjunction (h : Mirrors pairs inner inner) :
    Mirrors pairs (disjunction inner) (disjunction inner) :=
  (conjunction h).bind fun _ => (behindEach (conjunction h)).bind fun _ => pure _

theorem filter (h' : Mirrors pairs inner inner) : Mirrors pairs (filter inner) (filter inner) := by
  intro ha zs hz
  have hn := Paired.isNext (fun z h => ha z (hz.mem h)) [.rightParen, .rightBracket]
  have he : zs.map Prod.fst = [] ↔ zs.map Prod.snd = [] := by
    rw [List.map_eq_nil_iff, List.map_eq_nil_iff]
  by_cases h : zs.map Prod.fst = [] ∨ isNext [.rightParen, .rightBracket] (zs.map Prod.fst) = true
  case pos =>
    refine MirrorsAt.congr (pure none ha zs hz) ?_ ?_ <;> rw [Grammar.filter, ahead_bind_eq]
    · rw [if_pos h]
    · rw [if_pos (by rwa [← he, ← hn])]
  case neg =>
    refine MirrorsAt.congr (disjunction h' ha zs hz) ?_ ?_ <;> rw [Grammar.filter, ahead_bind_eq]
    · rw [if_neg h]
    · rw [if_neg (by rwa [← he, ← hn])]

-- A factor is what its first tokens decide on, and these are of the same kinds.
theorem factorAbove (h : ∀ inner ∈ factor?, Mirrors pairs inner inner) :
    Mirrors pairs (factorAbove limit factor?) (factorAbove limit factor?) := by
  have hf : ∀ inner ∈ factor?.map Grammar.filter, Mirrors pairs inner inner := by
    intro rule hr
    have ⟨inner, hi, he⟩ := Option.map_eq_some_iff.mp hr
    exact he ▸ filter (h inner hi)
  have hc : Mirrors pairs (some <$> Grammar.comparison limit (factor?.map Grammar.filter))
      (some <$> Grammar.comparison limit (factor?.map Grammar.filter)) := (comparison hf).map some
  intro ha zs hz
  cases zs
  case nil => exact .fault List.suffix_rfl (.intro _ _) (.intro _ _) (twins_refl rfl)
  case cons z zs =>
    have hm := hz.mem List.mem_cons_self
    have hk' := kind_eq_of_sense_eq (ha z hm)
    by_cases hk : z.1.kind ∈ openers
    case neg =>
      have ht : Twins pairs (.expectedExpression z.1.raw z.1.position)
          (.expectedExpression z.2.raw z.2.position) := twins_at hm rfl rfl rfl
      exact (fail ht ha _ hz).congr (factorAbove_eq_fail hk) (factorAbove_eq_fail (hk' ▸ hk))
    case pos =>
      rcases mem_openers_iff.mp hk with hk | hk | hk
      · have hn := Paired.isNext (fun z h => ha z (hz.mem (List.mem_cons_of_mem _ h))) [.operator]
        cases ho : isNext [.operator] (zs.map Prod.fst)
        case false =>
          exact (negation h ha _ hz).congr (factorAbove_eq_negation hk ho)
            (factorAbove_eq_negation (hk' ▸ hk) (hn ▸ ho))
        case true =>
          exact (hc ha _ hz).congr (factorAbove_eq_notPath hk ho)
            (factorAbove_eq_notPath (hk' ▸ hk) (hn ▸ ho))
      · exact (group hf ha _ hz).congr (factorAbove_eq_group hk) (factorAbove_eq_group (hk' ▸ hk))
      · exact (hc ha _ hz).congr (factorAbove_eq_comparison hk) (factorAbove_eq_comparison (hk' ▸ hk))

theorem factor (levels : Nat) : Mirrors pairs (factor limit levels) (factor limit levels) := by
  induction levels
  case zero => exact factorAbove nofun
  case succ k ih =>
    refine factorAbove ?_
    rintro _ ⟨⟩
    exact ih

theorem expression : Mirrors pairs (expression limit) (expression limit) :=
  filter (factor limit)

end Mirrors
end Grammar

open Grammar

variable {l l' : Limits} {input t : Text} {gaps gaps' texts : List Text} {ts : List Token}
  {pairs : List (Token × Token)}

-- Tokens that are alike are parsed to the same filter, or refused for the same reason.
theorem parseTokens_mirror (ha : Paired pairs) (hd : l'.maxDepth = l.maxDepth) :
    (∃ f?, parseTokens l (pairs.map Prod.fst) = .ok f? ∧ parseTokens l' (pairs.map Prod.snd) = .ok f?) ∨
    ∃ e e', parseTokens l (pairs.map Prod.fst) = .error e ∧
      parseTokens l' (pairs.map Prod.snd) = .error e' ∧ Twins pairs e e' := by
  rw [parseTokens_eq, parseTokens_eq, hd]
  have hm : Mirrors pairs (expression l.maxDepth) (expression l.maxDepth) := Mirrors.expression
  cases hm ha pairs List.suffix_rfl
  case fault h h' ht =>
    rw [h.outcome, h'.outcome]
    exact .inr ⟨_, _, rfl, rfl, ht⟩
  case value t? ws hs h h' =>
    have ⟨_, _, hc⟩ := keeps_expression h.yields (b := none) rfl
    have ⟨f?, hf, _⟩ := exists_layOut hc.makeable
    rw [h.outcome, h'.outcome, h.rest, h'.rest]
    simp only [Except.bind, hf]
    cases ws
    case nil => exact .inl ⟨f?, rfl, rfl⟩
    case cons z ws => exact .inr ⟨_, _, rfl, rfl, twins_at (hs.mem List.mem_cons_self) rfl rfl rfl⟩

theorem paired_zip {ts' : List Token} (h : ts'.map Token.sense = ts.map Token.sense) :
    Paired (ts.zip ts') := by
  intro z hz
  have ⟨i, hi⟩ := List.mem_iff_getElem?.mp hz
  have ⟨ht, ht'⟩ := List.getElem?_zip_eq_some.mp hi
  have hs := congrArg (·[i]?) h
  simp only [List.getElem?_map, ht, ht', Option.map_some, Option.some.injEq] at hs
  exact hs.symm

-- The places of twins are those of tokens of one index.
theorem Twins.exists_index {ts' : List Token} {e e' : Error} {p : Position}
    (h : Twins (ts.zip ts') e e') (hp : e.position? = some p) :
    ∃ (i : Nat) (t t' : Token), ts[i]? = some t ∧ ts'[i]? = some t' ∧ t.position = p ∧
      e'.position? = some t'.position := by
  have ⟨z, hz, hpos, hpos'⟩ := h.place p hp
  have ⟨i, hi⟩ := List.mem_iff_getElem?.mp hz
  have ⟨ht, ht'⟩ := List.getElem?_zip_eq_some.mp hi
  exact ⟨i, z.1, z.2, ht, ht', hpos, hpos'⟩

-- A text that has tokens can be divided.
theorem exists_gaps_of_tokenize (h : tokenize input = .ok ts) : ∃ gaps, Divides [] input gaps ts [] := by
  have hp : (Scanner.ofText input).position = .behind [] := rfl
  have ⟨gaps, remainder, hdiv, he⟩ := (Scanner.ofText input).exists_divides hp
  rw [scan_eq_of_tokenize h] at hdiv he
  rcases he with ⟨_, hr⟩ | ⟨_, he, _⟩
  · subst hr
    exact ⟨_, hdiv⟩
  · cases he

theorem parse_eq_parseTokens (hl : byteLength t ≤ l.maxLength) (h : tokenize t = .ok ts) :
    parse l t = parseTokens l ts := by
  have hscan : (Scanner.ofText t).scan = ⟨ts, none⟩ := scan_eq_of_tokenize h
  simp only [parse, parseReporting, if_neg (Nat.not_lt.mpr hl), hscan]

-- A text can be divided, and however it is written, it says the same: if it is accepted, then with the same
-- filter, and if it is refused, then with the same error, at the token of the same index.
theorem parse_respelled (l l' : Limits) (hts : tokenize input = .ok ts) (hd : l'.maxDepth = l.maxDepth) :
    (∃ gaps, Divides [] input gaps ts []) ∧
    ∀ gaps gaps' texts, Divides [] input gaps ts [] → Respells gaps ts gaps' texts →
      byteLength (weave gaps' texts) ≤ l'.maxLength →
      ∃ ts', tokenize (weave gaps' texts) = .ok ts' ∧ Token.texts ts' = texts ∧
        (∀ f?, parse l input = .ok f? → parse l' (weave gaps' texts) = .ok f?) ∧
        ∀ e, byteLength input ≤ l.maxLength → parse l input = .error e →
          ∃ e', parse l' (weave gaps' texts) = .error e' ∧ e'.bare = e.bare ∧
            ∀ p, e.position? = some p → ∃ (i : Nat) (t t' : Token), ts[i]? = some t ∧
              ts'[i]? = some t' ∧ t.position = p ∧ e'.position? = some t'.position := by
  constructor
  case left  => exact exists_gaps_of_tokenize hts
  case right =>
    intro gaps gaps' texts hdiv hr hl'
    have ⟨ts', hts', hsense, htexts⟩ := tokenize_of_respells hts hdiv hr
    have hlength : ts.length = ts'.length := by simpa using (congrArg List.length hsense).symm
    have hfst : (ts.zip ts').map Prod.fst = ts := List.map_fst_zip (Nat.le_of_eq hlength)
    have hsnd : (ts.zip ts').map Prod.snd = ts' := List.map_snd_zip (Nat.le_of_eq hlength.symm)
    have hm := parseTokens_mirror (paired_zip hsense) hd
    rw [hfst, hsnd, ← parse_eq_parseTokens hl' hts'] at hm
    refine ⟨ts', hts', htexts, fun f? hf => ?_, fun e hl he => ?_⟩
    case refine_1 =>
      have hl := (parse_eq_ok_iff.mp hf).left
      rw [← parse_eq_parseTokens hl hts, hf] at hm
      rcases hm with ⟨g?, hg, hg'⟩ | ⟨_, _, he, _⟩
      · cases hg; exact hg'
      · cases he
    case refine_2 =>
      rw [← parse_eq_parseTokens hl hts, he] at hm
      rcases hm with ⟨_, hg, _⟩ | ⟨_, e', he, he', htwins⟩
      · cases hg
      · cases he
        exact ⟨e', he', htwins.bare, fun _ => htwins.exists_index⟩

def nameToken : Token :=
  ⟨.identifier, ['a'], ['a', ' '], ⟨1, 1⟩⟩

def presentToken (raw : Text) (column : Nat) : Token :=
  ⟨.operator, ['p', 'r'], raw, ⟨1, column⟩⟩

-- A name with an operator behind it is accepted, and an operator alone is refused.
theorem parse_respelled_present :
    (∃ f, parse {} ['a', ' ', 'p', 'r'] = .ok (some f) ∧
      parse {} ['\t', 'a', '\n', 'P', 'R', ' '] = .ok (some f)) ∧
    ∃ e e', parse {} ['p', 'r'] = .error e ∧ parse {} [' ', 'P', 'r'] = .error e' ∧
      e'.bare = e.bare := by
  have htokenize {t : Text} {ts : List Token} (h : (Scanner.ofText t).scan = ⟨ts, none⟩) :
      tokenize t = .ok ts := by rw [tokenize, h, Scan.result]
  have hblank : Blank [] ∧ Blank [' '] ∧ Blank ['\t'] ∧ Blank ['\n'] := by decide
  constructor
  case left =>
    let ts := [nameToken, presentToken [' ', 'p', 'r'] 3]
    have hts : tokenize ['a', ' ', 'p', 'r'] = .ok ts := htokenize (by decide +kernel)
    have hd₀ : Divides ['a', ' ', 'p', 'r'] [] [[]] [] [] := .nil (g := []) hblank.left
    have hd₁ : Divides ['a'] [' ', 'p', 'r'] [[' '], []] [presentToken [' ', 'p', 'r'] 3] [] :=
      .cons (u := presentToken [' ', 'p', 'r'] 3) hd₀ hblank.right.left (by decide) rfl rfl
    have hd : Divides [] ['a', ' ', 'p', 'r'] [[], [' '], []] ts [] :=
      .cons (u := nameToken) hd₁ hblank.left (by decide) rfl rfl
    have hr₁ : Respells [[' '], []] [presentToken [' ', 'p', 'r'] 3] [['\n'], [' ']] [['P', 'R']] :=
      .cons hblank.right.right.right (.inr (by decide)) (by decide) (.single hblank.right.left)
    have hr : Respells [[], [' '], []] ts [['\t'], ['\n'], [' ']] [['a'], ['P', 'R']] :=
      .cons hblank.right.right.left (.inl rfl) (by decide) hr₁
    obtain ⟨_, _, _, h, _⟩ := (parse_respelled {} {} hts rfl).right _ _ _ hd hr (by decide)
    have ho : ((parse {} ['a', ' ', 'p', 'r']).toOption.bind id).isSome = true := by decide +kernel
    obtain ⟨f, hf⟩ := Option.isSome_iff_exists.mp ho
    cases hp : parse {} ['a', ' ', 'p', 'r']
    case error => rw [hp] at hf; cases hf
    case ok f? =>
      rw [hp] at hf
      have hp := hp.trans (congrArg Except.ok hf)
      exact ⟨f, congrArg Except.ok hf, h _ hp⟩
  case right =>
    have hts : tokenize ['p', 'r'] = .ok [presentToken ['p', 'r'] 1] := htokenize (by decide +kernel)
    have hd₀ : Divides ['p', 'r'] [] [[]] [] [] := .nil (g := []) hblank.left
    have hd : Divides [] ['p', 'r'] [[], []] [presentToken ['p', 'r'] 1] [] :=
      .cons (u := presentToken ['p', 'r'] 1) hd₀ hblank.left (by decide) rfl rfl
    have hr : Respells [[], []] [presentToken ['p', 'r'] 1] [[' '], []] [['P', 'r']] :=
      .cons hblank.right.left (.inr (by decide)) (by decide) (.single hblank.left)
    obtain ⟨_, _, _, _, h⟩ := (parse_respelled {} {} hts rfl).right _ _ _ hd hr (by decide)
    have ho : (parse {} ['p', 'r']).isOk = false := by decide +kernel
    cases hp : parse {} ['p', 'r']
    case ok => rw [hp] at ho; cases ho
    case error e =>
      obtain ⟨e', he', hb, _⟩ := h e (by decide) hp
      exact ⟨e, e', rfl, he', hb⟩

end AttributeFilter
