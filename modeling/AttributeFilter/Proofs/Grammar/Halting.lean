import AttributeFilter.Proofs.Grammar.Content
import AttributeFilter.Proofs.Grammar.Faults

/-!
Where a parse stops with an error. What has been taken and what is left tell the error: it is the fault of the
first token that is left, or of the last one that has been taken, or of a name without a text. All other tokens
that have been taken mean something, each by itself.
-/

namespace AttributeFilter

open Text

-- An operator names one, a string literal denotes a text, and a number is a finite one.
structure Token.IsMeaningful (t : Token) : Prop where
  operator : t.kind = .operator → ∃ o, Operator.ofWord? t.text = some o
  string   : t.kind = .string → ∃ s, Quoted.decodePadded? t.text = some s
  number   : t.kind = .number → ∃ x, Binary64.ofText? t.text = some x ∧ x.isFinite = true

-- The kinds of tokens whose texts have to mean something.
def Token.Kind.meaningful : List Token.Kind :=
  [.operator, .string, .number]

theorem Token.isMeaningful_of_kind {t : Token} (h : t.kind ∉ Token.Kind.meaningful) : t.IsMeaningful := by
  simp only [Token.Kind.meaningful, List.mem_cons, List.not_mem_nil, or_false, not_or] at h
  exact ⟨fun hk => absurd hk h.left, fun hk => absurd hk h.right.left, fun hk => absurd hk h.right.right⟩

namespace Grammar

open AttributeFilter.Parser

-- The error at the first of the tokens that are left.
inductive FaultAhead : Error → List Token → Prop
  | endOfText : FaultAhead .endOfText []
  | expectedExpression (t : Token) (us : List Token) (kind : t.kind ∉ openers) :
    FaultAhead (.expectedExpression t.raw t.position) (t :: us)
  | unexpected (t : Token) (us : List Token) : FaultAhead (.unexpected t.text t.position) (t :: us)

-- The error of a token that has been taken.
inductive FaultBehind (limit : Nat) (t : Token) : Error → Prop
  | operator (kind : t.kind = .operator) (text : Operator.ofWord? t.text = none) :
    FaultBehind limit t (.unexpected t.text t.position)
  | string (kind : t.kind = .string) (text : Quoted.decodePadded? t.text = none) :
    FaultBehind limit t (.unrecognized t.text t.position)
  | number (kind : t.kind = .number)
    (text : ∀ x, Binary64.ofText? t.text = some x → x.isFinite = false) :
    FaultBehind limit t (.unrecognized t.text t.position)
  | level (kind : t.kind ∈ [.not, .leftParen, .leftBracket]) :
    FaultBehind limit t (.tooDeep limit t.position)

-- Some tokens have been taken where the error arises, and others are left.
inductive Halts (limit : Nat) : Error → (taken left : List Token) → Prop
  | ahead {e c us} (meaningful : ∀ t ∈ c, t.IsMeaningful) (fault : FaultAhead e us) : Halts limit e c us
  | behind {e c t us} (meaningful : ∀ t ∈ c, t.IsMeaningful) (fault : FaultBehind limit t e) :
    Halts limit e (c ++ [t]) us
  | emptyName {c t us} (meaningful : ∀ t ∈ c, t.IsMeaningful) (mem : t ∈ c)
    (kind : t.kind ∈ [.identifier, .not]) (text : t.text = []) : Halts limit .emptyPath c us

variable {α β : Type} {limit : Nat} {b c us ts : List Token} {kinds : List Token.Kind}

-- All tokens that have been taken mean something, or the error tells which one does not.
inductive Concludes (limit : Nat) : Except Error α → (taken left : List Token) → Prop
  | value {a c us} (meaningful : ∀ t ∈ c, t.IsMeaningful) : Concludes limit (.ok a) c us
  | error {e c us} (halts : Halts limit e c us) : Concludes limit (.error e) c us

-- On some tokens, a rule that is begun behind others tells where it fails.
def LocatesAt (limit : Nat) (b ts : List Token) (p : Rule α) : Prop :=
  ∃ c us x, p.Runs ts x us ∧ ts = c ++ us ∧ Concludes limit x (b ++ c) us

namespace LocatesAt

variable {p q : Rule α} {f : α → Rule β} {e : Error}

theorem congr (h : LocatesAt limit b ts q) (hp : p ts = q ts) : LocatesAt limit b ts p :=
  have ⟨c, us, x, hr, hts, hx⟩ := h
  ⟨c, us, x, hr.congr hp, hts, hx⟩

-- A rule that takes nothing.
theorem value {a : α} (h : p.Yields ts a ts) (hb : ∀ t ∈ b, t.IsMeaningful) : LocatesAt limit b ts p :=
  ⟨[], ts, _, ⟨h.outcome, h.rest⟩, rfl, .value (by rwa [List.append_nil])⟩

theorem fault (h : p.Runs ts (.error e) ts) (he : Halts limit e b ts) : LocatesAt limit b ts p :=
  ⟨[], ts, _, h, rfl, .error (by rwa [List.append_nil])⟩

theorem bind (hp : LocatesAt limit b ts p)
    (hf : ∀ a c us, p.Yields ts a us → ts = c ++ us → (∀ t ∈ b ++ c, t.IsMeaningful) →
      LocatesAt limit (b ++ c) us (f a)) : LocatesAt limit b ts (p >>= f) := by
  have ⟨c, us, x, hr, hts, hx⟩ := hp
  cases hx
  case error h => exact ⟨c, us, _, hr.bind_error, hts, .error h⟩
  case value h =>
    have ⟨d, vs, y, hr', hus, hy⟩ := hf _ c us hr.yields hts h
    exact ⟨c ++ d, vs, y, hr.bind_ok hr', by rw [hts, hus, List.append_assoc],
      by rwa [← List.append_assoc]⟩

theorem map (h : LocatesAt limit b ts p) (g : α → β) : LocatesAt limit b ts (g <$> p) := by
  have ⟨c, us, x, hr, hts, hx⟩ := h
  refine ⟨c, us, _, hr.map g, hts, ?_⟩
  cases hx
  case error h => exact .error h
  case value h => exact .value h

-- A token that is expected. It is on what follows to tell whether it means something.
theorem expect_bind {f : Token → Rule α} (hb : ∀ t ∈ b, t.IsMeaningful)
    (hf : ∀ t us, ts = t :: us → t.kind ∈ kinds → LocatesAt limit (b ++ [t]) us (f t)) :
    LocatesAt limit b ts (expect kinds >>= f) := by
  cases ts
  case nil =>
    have hr : (expect kinds).Runs [] (.error .endOfText) [] := .intro _ _
    exact .fault hr.bind_error (.ahead hb .endOfText)
  case cons t us =>
    by_cases hk : t.kind ∈ kinds
    case neg => exact .fault (runs_expect_error hk).bind_error (.ahead hb (.unexpected t us))
    case pos =>
      have ⟨c, vs, x, hr, hus, hx⟩ := hf t us rfl hk
      refine ⟨t :: c, vs, x, (runs_expect_ok hk).bind_ok hr, by rw [hus, List.cons_append], ?_⟩
      rwa [List.append_assoc] at hx

end LocatesAt

-- A rule tells where it fails.
def Locates (limit : Nat) (p : Rule α) : Prop :=
  ∀ ⦃b⦄ ts, (∀ t ∈ b, t.IsMeaningful) → LocatesAt limit b ts p

theorem isMeaningful_concat {t : Token} (hb : ∀ t ∈ b, t.IsMeaningful) (ht : t.IsMeaningful) :
    ∀ u ∈ b ++ [t], u.IsMeaningful :=
  List.forall_mem_append.mpr ⟨hb, List.forall_mem_singleton.mpr ht⟩

-- A literal that denotes nothing is a text or a number.
theorem faultBehind_of_literalValue {t : Token} {e : Error} (hk : t.kind ∈ Token.Kind.literals)
    (h : literalValue t = .error e) : FaultBehind limit t e := by
  unfold literalValue at h
  split at h
  case h_1 hs =>
    split at h
    case h_1    => cases h
    case h_2 hn => cases h; exact .string hs hn
  case h_2 hs =>
    split at h
    case h_1 => cases h
    case h_2 hn =>
      cases h
      exact .number hs fun x hx => by simpa [hx, Option.filter] using hn
  case h_6 hs hn ht hf h₀ =>
    simp only [Token.Kind.literals, List.mem_cons, List.not_mem_nil, or_false] at hk
    rcases hk with hk | hk | hk | hk | hk
    exacts [(hs hk).elim, (hn hk).elim, (ht hk).elim, (hf hk).elim, (h₀ hk).elim]
  all_goals cases h

theorem isMeaningful_of_literalValue {t : Token} {v : Value} (hk : t.kind ∈ Token.Kind.literals)
    (h : literalValue t = .ok v) : t.IsMeaningful := by
  constructor
  case operator =>
    intro ho
    rw [ho] at hk
    exact absurd hk (by decide)
  case string =>
    intro hs
    simp only [literalValue, hs] at h
    split at h
    case h_1 s hs => exact ⟨s, hs⟩
    case h_2      => cases h
  case number =>
    intro hn
    simp only [literalValue, hn] at h
    split at h
    case h_1 x hx => exact ⟨x, Option.filter_eq_some_iff.mp hx⟩
    case h_2      => cases h

namespace Locates

variable {p : Rule α} {f : α → Rule β} {kind : Token.Kind}

theorem pure (a : α) : Locates limit (pure a) :=
  fun _ _ hb => .value (yields_pure_iff.mpr ⟨rfl, rfl⟩) hb

theorem bind (hp : Locates limit p) (hf : ∀ a, Locates limit (f a)) : Locates limit (p >>= f) :=
  fun _ ts hb => (hp ts hb).bind fun a _ us _ _ hbc => hf a us hbc

theorem map (hp : Locates limit p) (g : α → β) : Locates limit (g <$> p) :=
  fun _ ts hb => (hp ts hb).map g

-- A token of a kind that has no meaning of its own.
theorem expect_bind {f : Token → Rule α} (hk : ∀ k ∈ kinds, k ∉ Token.Kind.meaningful)
    (hf : ∀ t, Locates limit (f t)) : Locates limit (expect kinds >>= f) :=
  fun _ _ hb => .expect_bind hb fun t us _ ht =>
    hf t us (isMeaningful_concat hb (Token.isMeaningful_of_kind (hk _ ht)))

theorem optional (hp : Locates limit p) : Locates limit (optional kind p) := by
  intro b ts hb
  cases hn : isNext [kind] ts
  case false => exact .value (yields_optional_iff.mpr (.inr ⟨hn, rfl, rfl⟩)) hb
  case true =>
    refine LocatesAt.congr ((hp.bind fun a => pure (some a)) ts hb) ?_
    rw [Grammar.optional, ahead_bind_eq, if_pos hn]

-- Items behind separators, as often as there is one. The induction is on the number of tokens.
theorem behindEach (hp : Locates limit p) (hk : kind ∉ Token.Kind.meaningful) :
    Locates limit (behindEach kind p) := by
  intro b ts hb
  induction hl : ts.length using Nat.strongRecOn generalizing b ts
  case ind l ih =>
    cases hn : isNext [kind] ts
    case false => exact .value ((yields_behindEach_stop_iff hn).mpr ⟨rfl, rfl⟩) hb
    case true =>
      cases ts
      case nil => cases hn
      case cons t us =>
        have ht : t.kind = kind := by simpa using hn
        have hb := isMeaningful_concat hb (Token.isMeaningful_of_kind (ht ▸ hk))
        have hitem : LocatesAt limit (b ++ [t]) us
            (p >>= fun a => (a :: ·) <$> Grammar.behindEach kind p) := by
          refine (hp us hb).bind fun a c vs hy _ hbc => (ih vs.length ?_ vs hbc rfl).map _
          have := hy.suffix.length_le
          rw [List.length_cons] at hl
          omega
        have ⟨c, vs, x, hr, hus, hx⟩ := hitem
        refine ⟨t :: c, vs, x, hr.many_cons (by simp [ht]), by rw [hus, List.cons_append], ?_⟩
        rwa [List.append_assoc] at hx

theorem literal : Locates limit literal := by
  intro b ts hb
  refine .expect_bind hb fun t us _ hk => ?_
  cases h : literalValue t
  case error e => exact .fault (.ofExcept _ _) (.behind hb (faultBehind_of_literalValue hk h))
  case ok v =>
    have ht := isMeaningful_of_literalValue hk h
    exact .value (yields_ofExcept_iff.mpr ⟨rfl, rfl⟩) (isMeaningful_concat hb ht)

theorem operator : Locates limit operator := by
  intro b ts hb
  refine .expect_bind hb fun t us _ hk => ?_
  have hk := List.mem_singleton.mp hk
  cases h : Operator.ofWord? t.text
  case none => exact .fault (.ofExcept _ _) (.behind hb (.operator hk h))
  case some o =>
    have ht : t.IsMeaningful := ⟨fun _ => ⟨o, h⟩, by rw [hk]; nofun, by rw [hk]; nofun⟩
    exact .value (yields_pure_iff.mpr ⟨rfl, rfl⟩) (isMeaningful_concat hb ht)

theorem test : Locates limit test := by
  refine operator.bind fun o => ?_
  cases o.takesValue
  case false => exact pure _
  case true  => exact literal.bind fun _ => pure _

theorem segment (hk : ∀ k ∈ kinds, k ∉ Token.Kind.meaningful) : Locates limit (segment kinds) :=
  expect_bind hk fun _ => pure _

theorem schema : Locates limit schema :=
  expect_bind (by decide) fun _ => expect_bind (by decide) fun _ => pure _

theorem subAttribute : Locates limit subAttribute :=
  expect_bind (by decide) fun _ => segment (by decide)

end Locates

-- Segments are the texts of tokens.
theorem exists_token_of_members {names : List Text}
    (h : (behindEach .dot (segment [.identifier])).Yields ts names us) (hts : ts = c ++ us) :
    ∀ s ∈ names, ∃ t ∈ c, t.kind ∈ [.identifier, .not] ∧ t.text = s := by
  refine behindEach_induction (motive := fun ts names => ∀ c, ts = c ++ us →
    ∀ s ∈ names, ∃ t ∈ c, t.kind ∈ [.identifier, .not] ∧ t.text = s) h ?stop ?step c hts
  case stop => nofun
  case step =>
    intro d ts a vs as _ h₁ h₂ ih c hc s hs
    have ⟨t, hts, hk, ha⟩ := yields_segment_iff.mp h₁
    have ⟨e, he⟩ := h₂.suffix
    subst he hts
    have hc : c = d :: t :: e := (List.append_cancel_right hc).symm
    subst hc
    cases hs
    case head => exact ⟨t, by simp, by simp_all, ha⟩
    case tail hs =>
      have ⟨u, hu, hku⟩ := ih e rfl s hs
      exact ⟨u, by simp [hu], hku⟩

theorem ofSegments_eq_error {segments : List Text} {e : Error} (hn : segments ≠ [])
    (h : Path.ofSegments segments = .error e) : e = .emptyPath ∧ [] ∈ segments := by
  unfold Path.ofSegments at h
  split at h
  case isTrue => cases h
  case isFalse hs =>
    cases h
    refine ⟨rfl, ?_⟩
    by_contra hm
    exact hs ⟨hn, fun s hs he => hm (he ▸ hs)⟩

namespace Locates

-- A segment without a text is told once all segments have been taken.
theorem name : Locates limit name := by
  intro b ts hb
  refine ((optional schema) ts hb).bind fun schema? c us _ _ hb => ?_
  refine ((segment (by decide)) us hb).bind fun first d vs hfirst hd hb => ?_
  refine ((behindEach (segment (by decide)) (by decide)) vs hb).bind fun more e ws hmore he hb => ?_
  cases h : Path.ofSegments (first :: more)
  case ok p =>
    exact ((pure p).bind fun p => pure _) ws hb
  case error err =>
    obtain ⟨rfl, hm⟩ := ofSegments_eq_error (List.cons_ne_nil _ _) h
    have ⟨t, ht, hk, htext⟩ : ∃ t ∈ d ++ e, t.kind ∈ [.identifier, .not] ∧ t.text = [] := by
      cases hm
      case head =>
        have ⟨t, hus, hk, htext⟩ := yields_segment_iff.mp hfirst
        have hd : d = [t] := List.append_cancel_right (hd.symm.trans hus)
        exact ⟨t, by simp [hd], hk, htext⟩
      case tail hm =>
        have ⟨t, ht, hk⟩ := exists_token_of_members hmore he [] hm
        exact ⟨t, List.mem_append_right d ht, hk⟩
    have ht : t ∈ b ++ c ++ d ++ e := by
      rw [List.append_assoc]
      exact List.mem_append_right _ ht
    have hr : (Parser.ofExcept (.error .emptyPath) : Rule Path).Runs ws (.error .emptyPath) ws :=
      .ofExcept _ _
    exact .fault hr.bind_error (.emptyName hb ht hk htext)

variable {inner : Rule (Option Tree)} {inner? factor? : Option (Rule (Option Tree))}

-- A token that opens a level, and what stands behind it.
theorem opened {opening : Token.Kind} {f : Option Tree → Rule β}
    (hk : opening ∈ [.not, .leftParen, .leftBracket]) (hi : ∀ inner ∈ inner?, Locates limit inner)
    (hf : ∀ a, Locates limit (f a)) :
    Locates limit (expect [opening] >>= fun t => nested limit inner? t >>= f) := by
  intro b ts hb
  refine .expect_bind hb fun t us _ ht => ?_
  have ht : t.kind ∈ [.not, .leftParen, .leftBracket] := List.mem_singleton.mp ht ▸ hk
  cases inner?
  case none =>
    have hr : (nested limit none t).Runs us (.error (.tooDeep limit t.position)) us := .ofExcept _ _
    exact .fault hr.bind_error (.behind hb (.level ht))
  case some inner =>
    have hm : t.kind ∉ Token.Kind.meaningful := by
      simp only [List.mem_cons, List.not_mem_nil, or_false] at ht
      rcases ht with ht | ht | ht <;> rw [ht] <;> decide
    have hb := isMeaningful_concat hb (Token.isMeaningful_of_kind hm)
    exact ((hi inner rfl).bind hf) us hb

theorem valueFilter (hi : ∀ inner ∈ inner?, Locates limit inner) :
    Locates limit (valueFilter limit inner?) :=
  opened (by decide) hi fun _ => expect_bind (by decide) fun _ =>
    (optional subAttribute).bind fun _ => pure _

theorem path (hi : ∀ inner ∈ inner?, Locates limit inner) : Locates limit (path limit inner?) := by
  refine name.bind fun _ => (optional (valueFilter hi)).bind fun f? => ?_
  cases f?
  case none => exact pure _
  case some => exact pure _

theorem comparison (hi : ∀ inner ∈ inner?, Locates limit inner) :
    Locates limit (comparison limit inner?) := by
  refine (path hi).bind fun _ => (optional test).bind fun t? => ?_
  cases t?
  case none => exact pure _
  case some => exact pure _

theorem group (hi : ∀ inner ∈ inner?, Locates limit inner) : Locates limit (group limit inner?) :=
  opened (by decide) hi fun _ => expect_bind (by decide) fun _ => pure _

theorem negation (hi : ∀ inner ∈ inner?, Locates limit inner) : Locates limit (negation limit inner?) :=
  opened (by decide) hi fun _ => pure _

theorem conjunction (h : Locates limit inner) : Locates limit (conjunction inner) :=
  h.bind fun _ => (behindEach h (by decide)).bind fun _ => pure _

theorem disjunction (h : Locates limit inner) : Locates limit (disjunction inner) :=
  (conjunction h).bind fun _ => (behindEach (conjunction h) (by decide)).bind fun _ => pure _

theorem filter (h : Locates limit inner) : Locates limit (filter inner) := by
  intro b ts hb
  by_cases hc : ts = [] ∨ isNext [.rightParen, .rightBracket] ts = true
  case pos => exact .value (yields_filter_iff.mpr (.inl ⟨hc, rfl, rfl⟩)) hb
  case neg =>
    refine LocatesAt.congr (disjunction h ts hb) ?_
    rw [Grammar.filter, ahead_bind_eq, if_neg hc]

-- A factor is what its first tokens decide on.
theorem factorAbove (hi : ∀ inner ∈ factor?, Locates limit inner) :
    Locates limit (factorAbove limit factor?) := by
  have hf : ∀ rule ∈ factor?.map Grammar.filter, Locates limit rule := by
    intro rule hr
    have ⟨inner, hin, he⟩ := Option.map_eq_some_iff.mp hr
    exact he ▸ filter (hi inner hin)
  intro b ts hb
  cases ts
  case nil => exact .fault (.intro _ _) (.ahead hb .endOfText)
  case cons t us =>
    have hc := ((comparison hf).map some) (t :: us) hb
    by_cases hk : t.kind ∈ openers
    case neg =>
      have hh : Halts limit _ b (t :: us) := .ahead hb (.expectedExpression t us hk)
      exact .congr (.fault (.ofExcept _ _) hh) (factorAbove_eq_fail hk)
    case pos =>
      rcases mem_openers_iff.mp hk with hk | hk | hk
      · cases ho : isNext [.operator] us
        case false => exact .congr (negation hi _ hb) (factorAbove_eq_negation hk ho)
        case true  => exact .congr hc (factorAbove_eq_notPath hk ho)
      · exact .congr (group hf _ hb) (factorAbove_eq_group hk)
      · exact .congr hc (factorAbove_eq_comparison hk)

theorem factor {levels : Nat} : Locates limit (factor limit levels) := by
  induction levels
  case zero      => exact factorAbove nofun
  case succ n ih => exact factorAbove (by rintro _ ⟨⟩; exact ih)

theorem expression : Locates limit (expression limit) :=
  filter factor

end Locates
end Grammar

open Grammar

-- Errors can be compared where values cannot.
theorem eq_error_of_map {α : Type} {r : Except Error α} {e : Error}
    (h : r.map (fun _ => ()) = .error e) : r = .error e := by
  cases r
  case ok    => cases h
  case error => cases h; rfl

namespace Cursor

variable {c : Cursor} {l : Limits} {e : Error}

-- What the grammar makes can always be laid out, so all errors are its own.
theorem parse_concludes (c : Cursor) (l : Limits) :
    ∃ taken, c.remaining = taken ++ (c.parse l).2.remaining ∧
      (c.parse l).2.consumed = c.consumed ++ taken ∧
      Concludes l.maxDepth (c.parse l).1 taken (c.parse l).2.remaining := by
  have hl : LocatesAt l.maxDepth [] c.remaining (expression l.maxDepth) :=
    Locates.expression c.remaining nofun
  have ⟨taken, us, x, hr, hc, hx⟩ := hl
  have ⟨hcons, hrem⟩ := moveTo_of_remaining hc
  rw [parse_eq_of_runs hr, hcons, hrem]
  refine ⟨taken, hc, rfl, ?_⟩
  cases hx
  case error h => exact .error h
  case value h =>
    have ⟨_, _, hv⟩ := keeps_expression (b := none) hr.yields rfl
    have ⟨f?, hf, _⟩ := exists_layOut hv.makeable
    rw [Except.bind, hf]
    exact .value h

theorem place_le_of_consumed {c' : Cursor} {taken : List Token} (h : c'.consumed = c.consumed ++ taken) :
    c.place ≤ c'.place := by
  rw [← length_consumed, ← length_consumed, h, List.length_append]
  exact Nat.le_add_right _ _

-- Where a parse fails, the cursor tells what the error is about.
theorem parse_halts (h : (c.parse l).1 = .error e) :
    (c.parse l).2.tokens = c.tokens ∧ c.place ≤ (c.parse l).2.place ∧
      (c.parse l).2.place ≤ c.tokens.length ∧
      ∃ taken, c.remaining = taken ++ (c.parse l).2.remaining ∧
        (c.parse l).2.consumed = c.consumed ++ taken ∧
        Halts l.maxDepth e taken (c.parse l).2.remaining := by
  have ⟨taken, hrem, hcons, hx⟩ := parse_concludes c l
  rw [h] at hx
  cases hx with | error hh =>
  exact ⟨rfl, place_le_of_consumed hcons, (c.parse l).2.place_le, taken, hrem, hcons, hh⟩

-- In brackets, a token that is made as an operator and names none.
def strayCursor : Cursor :=
  (ofTokens [.ofText .and "and".toList, .ofText .identifier "a".toList, .ofText .leftBracket "[".toList,
    .ofText .identifier "b".toList, .ofText .operator "is".toList ⟨1, 9⟩,
    .ofText .true "true".toList]).moveTo 1

theorem parse_strayCursor : (strayCursor.parse {}).1 = .error (.unexpected "is".toList ⟨1, 9⟩) :=
  eq_error_of_map (by decide +kernel)

-- The operator is the last token that has been taken, so the halt is behind it.
theorem parse_halts_strayCursor :
    (strayCursor.parse {}).1 = .error (.unexpected "is".toList ⟨1, 9⟩) ∧
      ∃ taken, strayCursor.remaining = taken ++ (strayCursor.parse {}).2.remaining ∧
        Halts (Limits.maxDepth {}) (.unexpected "is".toList ⟨1, 9⟩) taken (strayCursor.parse {}).2.remaining :=
  have ⟨_, _, _, taken, hrem, _, hh⟩ := parse_halts parse_strayCursor
  ⟨parse_strayCursor, taken, hrem, hh⟩

end Cursor
end AttributeFilter
