import AttributeFilter.Parse
import AttributeFilter.Proofs.Filter.Raising
import AttributeFilter.Proofs.Grammar.Rules
import AttributeFilter.Proofs.Parser.Matching

/-!
Productions make the nodes of what the rules read. Each production takes the same tokens as its rule and fails
with the same errors, and no call of the builder is refused. So parsing is reading a tree and laying it out.
-/

namespace AttributeFilter

open AttributeFilter.Parser Grammar

theorem Grammar.optional_bind_eq {α β : Type} (kind : Token.Kind) (rule : Rule α) (f : Option α → Rule β) :
    optional kind rule >>= f = ahead >>= fun ts =>
      if isNext [kind] ts then rule >>= fun a => f (some a) else f none := by
  simp only [optional, bind_assoc]
  congr 1
  funext ts
  split <;> simp only [bind_assoc, pure_bind]

namespace Production

variable {α β γ δ : Type} {b : Builder} {ts us : List Token} {t : Token} {limit levels : Nat}
  {R : α → β × Builder → Prop}

-- A rule that is shared leaves the builder as it is.
theorem lift_bind_eq (rule : Rule γ) (g : γ → Production β) (b : Builder) :
    (liftM rule >>= g) b = rule >>= fun a => g a b := by
  change ((rule >>= fun a => pure (a, b)) >>= fun m => g m.1 m.2) = _
  simp only [bind_assoc, pure_bind]

theorem matches_lift_bind {rule : Rule γ} {f : γ → Rule α} {g : γ → Production β}
    (h : ∀ a us, rule.Yields ts a us → Matches R (f a) (g a b) us) :
    Matches R (rule >>= f) ((liftM rule >>= g) b) ts := by
  rw [lift_bind_eq]
  refine (Matches.refl rule ts).bind fun a _ us hy hr => ?_
  exact hr ▸ h a us hy

theorem yields_call {make : Builder → Except Error (β × Builder)} {made : β × Builder}
    (h : make b = .ok made) : (call make b).Yields ts made ts :=
  ⟨h, rfl⟩

theorem matches_call {make : Builder → Except Error (β × Builder)} {a : α} {made : β × Builder}
    (h : make b = .ok made) (hr : R a made) : Matches R (pure a : Rule α) (call make b) ts :=
  .value (.ofExcept _ _) (yields_call h).runs hr

-- From any builder on, a production makes the nodes of what a rule gives.
def Builds (production : Production (Option Handle)) (rule : Rule (Option Tree)) : Prop :=
  ∀ b ts, Matches (fun t? made => b.Raises t?.toList made.1.toList made.2) rule (production b) ts

variable {production : Production (Option Handle)} {rule : Rule (Option Tree)}
  {production? filter? : Option (Production (Option Handle))} {rule? frule? : Option (Rule (Option Tree))}

theorem builds_nested (h : Option.Rel Builds production? rule?) :
    Builds (nested limit production? t) (Grammar.nested limit rule? t) := by
  cases h
  case some h => exact h
  case none   => exact fun _ _ => .fail _

theorem matches_valueFilter (h : Option.Rel Builds production? rule?) :
    Matches (fun v made => made.1.2 = v.2 ∧ b.Raises v.1.toList made.1.1.toList made.2)
      (Grammar.valueFilter limit rule?) (valueFilter limit production? b) ts := by
  refine matches_lift_bind fun opening us _ => ?_
  refine (builds_nested h b us).bind fun f? made us _ hr => ?_
  refine matches_lift_bind fun _ us _ => ?_
  exact matches_lift_bind fun sub? us _ => .pure ⟨rfl, hr⟩

-- The tokens ahead tell whether there is what is optional.
theorem matches_optional_bind {kind : Token.Kind} {rule : Rule γ} {f : Option γ → Rule α}
    {g : List Token → Production β}
    (there : isNext [kind] ts = true → Matches R (rule >>= fun a => f (some a)) (g ts b) ts)
    (missing : isNext [kind] ts = false → Matches R (f none) (g ts b) ts) :
    Matches R (optional kind rule >>= f) ((ahead >>= g) b) ts := by
  rw [optional_bind_eq, ahead, lift_bind_eq]
  suffices h : Matches R (if isNext [kind] ts then rule >>= fun a => f (some a) else f none) (g ts b) ts from
    h.congr rfl rfl
  split
  case isTrue hn  => exact there hn
  case isFalse hn => exact missing (by simpa using hn)

theorem matches_path (h : Option.Rel Builds production? rule?) :
    Matches (fun v made => b.Raises [.path v.1 v.2] [made.1.handle] made.2)
      (Grammar.path limit rule?) (path limit production? b) ts := by
  refine matches_lift_bind fun p us _ => ?_
  apply matches_optional_bind
  case there =>
    intro hn
    rw [if_pos hn]
    refine (matches_valueFilter h).bind fun v made us _ hr => ?_
    have ⟨left, b₂, hc, hr'⟩ := hr.right.path (p.withSub v.2)
    exact matches_call (hr.left ▸ hc) hr'
  case missing =>
    intro hn
    rw [if_neg (by simp [hn])]
    have hn : b.Raises (none : Option Tree).toList (none : Option Handle).toList b := .nil b
    have ⟨left, b₂, hc, hr⟩ := hn.path p
    exact matches_call hc hr

theorem matches_comparison (h : Option.Rel Builds production? rule?) :
    Matches (fun t made => b.Raises [t] [made.1] made.2) (Grammar.comparison limit rule?)
      (comparison limit production? b) ts := by
  refine (matches_path h).bind fun v left us _ hr => ?_
  refine matches_lift_bind fun test? us hy => ?_
  cases test?
  case none => exact .pure hr
  case some test =>
    have ht := (yields_optional_iff.mp hy).elim (fun h => h.right) nofun
    have ⟨_, ht, he⟩ := ht
    cases he
    have ⟨h, b₂, hc, hr'⟩ := hr.comparison (takesValue_of_test ht)
    exact matches_call hc hr'

theorem builds_comparison (h : Option.Rel Builds production? rule?) :
    Builds (some <$> comparison limit production?) (some <$> Grammar.comparison limit rule?) := by
  intro b ts
  rw [map_eq_pure_bind]
  exact (matches_comparison h).bind fun _ _ us _ hr => .pure hr

theorem builds_group (h : Option.Rel Builds production? rule?) :
    Builds (group limit production?) (Grammar.group limit rule?) := by
  intro b ts
  refine matches_lift_bind fun opening us _ => ?_
  refine (builds_nested h b us).bind fun f? made us _ hr => ?_
  exact matches_lift_bind fun _ us _ => .pure hr

theorem yields_not (ht : t.kind = .not) : (expect [.not]).Yields (t :: ts) t ts :=
  yields_expect_iff.mpr ⟨rfl, List.mem_singleton.mpr ht⟩

-- Before an operator the word is given back.
theorem yields_notWord_of_operator (ht : t.kind = .not) (hn : isNext [.operator] ts = true) :
    notWord.Yields (t :: ts) none (t :: ts) := by
  have ha : (Parser.ahead : Rule _).Yields ts ts ts := yields_ahead_iff.mpr ⟨rfl, rfl⟩
  apply Yields.orBack_none
  rw [(yields_not ht).bind_iff, ha.bind_iff, if_pos hn]
  exact yields_pure_iff.mpr ⟨rfl, rfl⟩

theorem yields_notWord (ht : t.kind = .not) (hn : isNext [.operator] ts = false) :
    notWord.Yields (t :: ts) (some t) ts := by
  have ha : (Parser.ahead : Rule _).Yields ts ts ts := yields_ahead_iff.mpr ⟨rfl, rfl⟩
  apply Yields.orBack_some
  rw [(yields_not ht).bind_iff, ha.bind_iff, if_neg (by simp [hn])]
  exact yields_pure_iff.mpr ⟨rfl, rfl⟩

theorem matches_negation (hf : Option.Rel Builds filter? frule?) (h : Option.Rel Builds production? rule?)
    (ht : t.kind = .not) :
    Matches (fun t? made => b.Raises t?.toList made.1.toList made.2)
      (if isNext [.operator] ts then some <$> Grammar.comparison limit frule? else Grammar.negation limit rule?)
      (negation limit filter? production? b) (t :: ts) := by
  rw [negation, lift_bind_eq]
  split
  case isTrue hn =>
    exact .behind (yields_notWord_of_operator ht hn) (builds_comparison hf b (t :: ts))
  case isFalse hn =>
    refine .bind_yields (yields_not ht) (yields_notWord ht (by simpa using hn)) ?_
    refine (builds_nested h b ts).bind fun child? made us _ hr => ?_
    obtain ⟨h?, b₁⟩ := made
    cases child?
    case none =>
      cases hr.eq_none.left
      exact .pure hr
    case some child =>
      have ⟨h, hh, _⟩ := hr.exists_eq_some
      cases hh
      have ⟨h', b₂, hc, hr'⟩ := hr.negation
      exact .behind (yields_call hc) (.pure hr')

theorem filterMap_id_cons (t? : Option Tree) (more : List (Option Tree)) :
    (t? :: more).filterMap id = t?.toList ++ more.filterMap id := by
  cases t? <;> rfl

-- Operands behind separators, in addition to those that are pending.
theorem matches_behindEach {kind : Token.Kind} (h : Builds production rule) (pending : List Handle) :
    Matches (fun more made => ∃ hs, made.1 = pending ++ hs ∧ b.Raises (more.filterMap id) hs made.2)
      (Grammar.behindEach kind rule)
      (behindEach kind (fun pending => return pending ++ (← production).toList) pending b) ts := by
  refine Matches.iterate (b := (pending, b))
    (Q := fun m t? m' => ∃ h?, m'.1 = m.1 ++ Option.toList h? ∧ m.2.Raises t?.toList h?.toList m'.2)
    (C := fun m more m' => ∃ hs, m'.1 = m.1 ++ hs ∧ m.2.Raises (more.filterMap id) hs m'.2) ?nil ?cons ?item ts
  case nil => exact fun m => ⟨[], (List.append_nil _).symm, .nil _⟩
  case cons =>
    rintro m t? m₁ more m₂ ⟨h?, he, hr⟩ ⟨hs, he', hr'⟩
    refine ⟨h?.toList ++ hs, by rw [he', he, List.append_assoc], ?_⟩
    exact filterMap_id_cons t? more ▸ hr.append hr'
  case item =>
    intro m ts
    rw [← bind_pure rule]
    exact (h m.2 ts).bind fun _ made _ _ hr => .pure ⟨made.1, rfl, hr⟩

theorem matches_operands {kind : Token.Kind} (h : Builds production rule) :
    Matches (fun operands made => b.Raises (operands.filterMap id) made.1 made.2)
      (rule >>= fun first => (first :: ·) <$> Grammar.behindEach kind rule) (operands kind production b) ts := by
  refine (h b ts).bind fun first? made us _ hr => ?_
  refine (matches_behindEach h made.1.toList).map_left fun more made' ⟨hs, he, hr'⟩ => ?_
  exact filterMap_id_cons first? more ▸ he ▸ hr.append hr'

-- One operand is handed on, and several ones are joined.
theorem matches_combine {join : List Tree → Tree} {make : List Nat → Node} (hj : Tree.JoinsBy join make)
    {operands : List (Option Tree)} {hs : List Handle} {b₁ : Builder}
    (hr : b.Raises (operands.filterMap id) hs b₁) :
    Matches (fun t? made => b.Raises t?.toList made.1.toList made.2)
      (pure (Grammar.combine join operands) : Rule _)
      (combine (·.combination make hj.children hj.operand) hs b₁) ts := by
  have hl := hr.lays.length
  unfold Grammar.combine combine
  split
  case h_1 he =>
    rw [he] at hl hr
    cases List.eq_nil_of_length_eq_zero hl
    exact .pure hr
  case h_2 t he =>
    rw [he] at hl hr
    obtain ⟨h, rfl⟩ := List.length_eq_one_iff.mp hl
    exact .pure hr
  case h_3 hn h₁ =>
    have h₂ := two_le_length hn h₁
    rw [if_neg (by omega)]
    have ⟨h, b₂, hc, hr'⟩ := hr.join hj (List.ne_nil_of_length_pos (by omega))
    exact matches_call hc hr'

theorem builds_join {kind : Token.Kind} {join : List Tree → Tree} {make : List Nat → Node}
    (hj : Tree.JoinsBy join make) (h : Builds production rule) :
    Builds (operands kind production >>= combine (·.combination make hj.children hj.operand))
      (do return Grammar.combine join ((← rule) :: (← Grammar.behindEach kind rule))) := by
  intro b ts
  have hd : (do return Grammar.combine join ((← rule) :: (← Grammar.behindEach kind rule))) =
      ((rule >>= fun first => (first :: ·) <$> Grammar.behindEach kind rule) >>=
        fun operands => pure (Grammar.combine join operands)) := by
    simp only [bind_assoc, bind_map_left]
  rw [hd]
  exact (matches_operands h).bind fun _ _ _ _ hr => matches_combine hj hr

theorem builds_conjunction (h : Builds production rule) :
    Builds (conjunction production) (Grammar.conjunction rule) :=
  builds_join .conjunction h

theorem builds_disjunction (h : Builds production rule) :
    Builds (disjunction production) (Grammar.disjunction rule) :=
  builds_join .disjunction (builds_conjunction h)

theorem builds_filter (h : Builds production rule) : Builds (filter production) (Grammar.filter rule) := by
  intro b ts
  rw [filter, ahead, lift_bind_eq]
  apply Matches.ahead_bind
  split
  case isTrue  => exact .pure (.nil b)
  case isFalse => exact builds_disjunction h b ts

theorem rel_filter (h : Option.Rel Builds production? rule?) :
    Option.Rel Builds (production?.map filter) (rule?.map Grammar.filter) := by
  cases h
  case some h => exact .some (builds_filter h)
  case none   => exact .none

theorem builds_factorAbove (h : Option.Rel Builds production? rule?) :
    Builds (factorAbove limit production?) (Grammar.factorAbove limit rule?) := by
  intro b ts
  rw [factorAbove, ahead, lift_bind_eq]
  apply Matches.ahead_bind
  cases ts
  case nil => exact .fail _
  case cons t us =>
    dsimp only
    cases hk : t.kind
    case not                    => exact matches_negation (rel_filter h) h hk
    case leftParen              => exact builds_group (rel_filter h) b (t :: us)
    case identifier | schemaUri => exact builds_comparison (rel_filter h) b (t :: us)
    all_goals exact .fail _

theorem builds_factor : Builds (factor limit levels) (Grammar.factor limit levels) := by
  induction levels
  case zero      => exact builds_factorAbove .none
  case succ n ih => exact builds_factorAbove (.some ih)

theorem builds_expression : Builds (expression limit) (Grammar.expression limit) :=
  builds_filter builds_factor

end Production

-- What is done with a tree that has been read.
def layOut : Option Tree → Except Error (Option Filter)
  | none   => .ok none
  | some t => Filter.ofTree t

theorem finish_eq_layOut {serial : UInt64} {t? : Option Tree} {made : Option Handle × Builder}
    (hr : Builder.Raises (.ofSerial serial) t?.toList made.1.toList made.2) :
    Production.finish made = layOut t? := by
  obtain ⟨h?, b⟩ := made
  cases t?
  case none =>
    cases hr.eq_none.left
    rfl
  case some t =>
    have ⟨root, hh, hb⟩ := hr.exists_eq_some
    cases hh
    have ⟨f, ht, hf⟩ := Filter.exists_ofTree_of_build (hr.makeable t List.mem_cons_self) hb
    rw [layOut, ht, Production.finish, hf]
    rfl

theorem runs_finish {limit : Nat} {ts us : List Token} {x : Except Error (Option Tree)} (serial : UInt64)
    (h : (expression limit).Runs ts x us) :
    ((Production.expression limit (.ofSerial serial) ts).outcome >>= Production.finish) = x.bind layOut ∧
      (Production.expression limit (.ofSerial serial) ts).rest = us := by
  have hb : Production.Builds (Production.expression limit) (expression limit) := Production.builds_expression
  rw [← h.outcome, ← h.rest]
  cases hb (.ofSerial serial) ts
  case fault h h' =>
    rw [h.outcome, h.rest, h'.outcome, h'.rest]
    exact ⟨rfl, rfl⟩
  case value t? made us h h' hr =>
    rw [h.outcome, h.rest, h'.outcome, h'.rest]
    exact ⟨finish_eq_layOut hr, rfl⟩

-- Parsing is reading a tree and laying it out. The cursor stops where reading stops.
theorem Cursor.parse_eq_of_runs {l : Limits} {c : Cursor} {x : Except Error (Option Tree)} {us : List Token}
    (h : (expression l.maxDepth).Runs c.remaining x us) :
    c.parse l = (x.bind layOut, c.moveTo (c.tokens.length - us.length)) := by
  have ⟨ho, hr⟩ := runs_finish 0 h
  rw [← ho, ← hr]
  rfl

-- No handle leaves the parser, so it makes no difference which serial number its builder has.
theorem Cursor.parse_eq_of_serial (serial : UInt64) (l : Limits) (c : Cursor) :
    let reply := Production.expression l.maxDepth (.ofSerial serial) c.remaining
    c.parse l = (reply.outcome >>= Production.finish, c.moveTo (c.tokens.length - reply.rest.length)) := by
  have h := Runs.intro (expression l.maxDepth) c.remaining
  have ⟨ho, hr⟩ := runs_finish serial h
  dsimp only
  rw [ho, hr]
  exact parse_eq_of_runs h

variable {c : Cursor} {l : Limits} {r : Option Filter} {f : Filter}

theorem parse_eq_ok_of_layOut (h : (c.parse l).1 = .ok r) :
    ∃ t? us, (expression l.maxDepth).Yields c.remaining t? us ∧ layOut t? = .ok r ∧
      (c.parse l).2 = c.moveTo (c.tokens.length - us.length) := by
  have hr := Runs.intro (expression l.maxDepth) c.remaining
  rw [Cursor.parse_eq_of_runs hr] at h ⊢
  cases ho : (expression l.maxDepth c.remaining).outcome
  case error => simp [ho, Except.bind] at h
  case ok t? => exact ⟨t?, _, ⟨ho, rfl⟩, by simpa [ho, Except.bind] using h, rfl⟩

theorem Cursor.exists_ofTree_of_parse (h : (c.parse l).1 = .ok (some f)) :
    ∃ t, Filter.ofTree t = .ok (some f) ∧ t.All Tree.Makeable := by
  have ⟨t?, us, hy, hl, _⟩ := parse_eq_ok_of_layOut h
  cases t?
  case none => cases hl
  case some t =>
    refine ⟨t, hl, ?_⟩
    cases Production.builds_expression (.ofSerial 0) c.remaining
    case fault hr _    => cases hr.outcome.symm.trans hy.outcome
    case value hr _ hb => cases hr.outcome.symm.trans hy.outcome; exact hb.makeable t List.mem_cons_self

end AttributeFilter
