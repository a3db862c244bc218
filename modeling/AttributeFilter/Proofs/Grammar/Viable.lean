import AttributeFilter.Proofs.Grammar.Faults
import AttributeFilter.Proofs.Grammar.Soundness

/-!
What the rules have taken where they fail can be completed: it is the beginning of something that the
grammar derives.
-/

namespace AttributeFilter.Grammar

open AttributeFilter.Parser Text
open List (prefix_append_right_inj)

variable {ts us : List Token} {c : List Token} {t : Token} {V : List Token → Prop} {levels n : Nat}
  {s : Symbol} {factor : Rule (Option Tree)} {factor' : Nat → Rule (Option Tree)}

namespace Terminal

def ofText (k : Token.Kind) (w : Text) (h : k.Admits w) : Terminal [k] :=
  ⟨.ofText k w, List.mem_singleton_self k, h⟩

def ofToken {k : Token.Kind} (hk : t.kind = k) (hl : t.IsLexeme) : Terminal [k] :=
  ⟨t, List.mem_singleton.mpr hk, hl⟩

end Terminal

-- What completes a beginning.
instance : Inhabited (Terminal [.identifier]) :=
  ⟨.ofText .identifier "a".toList (by decide)⟩

instance : Inhabited (Terminal [.identifier, .not]) :=
  ⟨.ofText .identifier "a".toList, by decide, (default : Terminal [.identifier]).lexeme⟩

instance : Inhabited (Terminal [.colon]) :=
  ⟨.ofText .colon [':'] rfl⟩

instance : Inhabited (Terminal [.rightParen]) :=
  ⟨.ofText .rightParen [')'] rfl⟩

instance : Inhabited (Terminal [.rightBracket]) :=
  ⟨.ofText .rightBracket [']'] rfl⟩

instance : Inhabited Literal :=
  have h : Token.Kind.null.Admits "null".toList := .word (v := "null".toList) (by decide) (by decide)
  ⟨⟨⟨.ofText .null "null".toList, by decide, h⟩, .null, .null rfl⟩⟩

instance : Inhabited Test :=
  have h : Token.Kind.operator.Admits "pr".toList := .operator .present (by decide)
  ⟨.present (.ofText .operator "pr".toList h) rfl⟩

instance : Inhabited (Derivation .factor) :=
  ⟨.reference (.bare (.plain default []))⟩

instance : Inhabited (Derivation .conjunction) :=
  ⟨.conjunction default .lastConjunct⟩

-- Tokens that a symbol can begin with.
def Viable (s : Symbol) (c : List Token) : Prop :=
  ∃ d : Derivation s, c <+: d.tokens

-- A rule for a symbol, with some levels left, and the same rule with more of them: what the rule takes
-- is derived if it succeeds, and can be completed if it fails.
structure Predicts (levels : Nat) (rule : Rule (Meaning s)) (rule' : Nat → Rule (Meaning s)) :
    Prop where
  sound  : Sound levels rule
  agrees : ∀ k, Agrees rule (rule' k)
  blames : ∀ ts, Fits levels ts → Blames rule rule' (Viable s) ts

theorem Predicts.exists_derivation {rule : Rule (Meaning s)} {rule' : Nat → Rule (Meaning s)}
    {m : Meaning s} (h : Predicts levels rule rule') (hy : rule.Yields (c ++ us) m us)
    (hf : Fits levels (c ++ us)) : ∃ d : Derivation s, d.tokens = c := by
  have ⟨d, hd, _⟩ := h.sound hy hf.lexemes
  exact ⟨d, List.append_cancel_right hd⟩

namespace Predicts

section

-- A rule for operands, and the ways to derive what stands behind the first one.
variable {operand operands joined : Symbol} {rule : Rule (Meaning operand)}
  {rule' : Nat → Rule (Meaning operand)} {kind : Token.Kind} (h : Predicts levels rule rule')
  (last : Derivation operands)
  (more : Terminal [kind] → Derivation operand → Derivation operands → Derivation operands)
  (hm : ∀ word d ds, (more word d ds).tokens = word.token :: (d.tokens ++ ds.tokens))
include h last more hm

theorem behindEach_blames (hf : Fits levels ts) :
    Blames (behindEach kind rule) (fun k => behindEach kind (rule' k)) (Viable operands) ts := by
  refine .behindEach h.agrees h.blames ?_ ?_ hf
  case refine_1 =>
    intro t c hk hl ⟨d, hd⟩
    refine ⟨more (.ofToken hk hl) d last, ?_⟩
    rw [hm]
    exact (prefix_append_right_inj [t]).mpr (hd.trans (List.prefix_append _ _))
  case refine_2 =>
    intro t c m us e hk hf hy ⟨ds, hd⟩
    have ⟨d, hc⟩ := h.exists_derivation hy (hf.suffix (List.suffix_cons _ _))
    refine ⟨more (.ofToken hk hf.head) d ds, ?_⟩
    rw [hm, hc]
    exact (prefix_append_right_inj [t]).mpr ((prefix_append_right_inj c).mpr hd)

theorem joined_blames (join : Derivation operand → Derivation operands → Derivation joined)
    (hj : ∀ d ds, (join d ds).tokens = d.tokens ++ ds.tokens) {α : Type}
    (g : Meaning operand → List (Meaning operand) → α) (hf : Fits levels ts) :
    Blames (rule >>= fun a => behindEach kind rule >>= fun as => pure (g a as))
      (fun k => rule' k >>= fun a => behindEach kind (rule' k) >>= fun as => pure (g a as))
      (Viable joined) ts := by
  have hb := (h.blames ts hf).mono (W := Viable joined) fun c ⟨d, hd⟩ =>
    ⟨join d last, hj d last ▸ hd.trans (List.prefix_append _ _)⟩
  refine hb.bind h.agrees fun m c us hy hc => ?_
  subst hc
  have ⟨d, hc⟩ := h.exists_derivation hy hf
  have hb := h.behindEach_blames last more hm (hf.suffix (List.suffix_append c us))
  have hb := hb.mono (W := fun e => Viable joined (c ++ e)) fun e ⟨ds, hd⟩ =>
    ⟨join d ds, by rw [hj, hc]; exact (prefix_append_right_inj c).mpr hd⟩
  exact hb.bind (fun k => (h.agrees k).behindEach) fun _ _ _ _ _ => .pure

end

theorem conjunction (h : Predicts (s := .factor) levels factor factor') :
    Predicts (s := .conjunction) levels (conjunction factor)
      (fun k => Grammar.conjunction (factor' k)) where
  sound  := conjunction_sound h.sound
  agrees := fun k => (h.agrees k).conjunction
  blames := fun _ =>
    h.joined_blames .lastConjunct .conjunct (fun _ _ _ => rfl) .conjunction (fun _ _ => rfl) _

theorem disjunction (h : Predicts (s := .factor) levels factor factor') :
    Predicts (s := .disjunction) levels (disjunction factor)
      (fun k => Grammar.disjunction (factor' k)) where
  sound  := disjunction_sound h.sound
  agrees := fun k => (h.agrees k).disjunction
  blames := fun _ =>
    h.conjunction.joined_blames .lastAlternative .alternative (fun _ _ _ => rfl) .disjunction
      (fun _ _ => rfl) _

theorem filter (h : Predicts (s := .factor) levels factor factor') :
    Predicts (s := .filter) levels (filter factor)
      (fun k => Grammar.filter (factor' k)) where
  sound  := filter_sound h.sound
  agrees := fun k => (h.agrees k).filter
  blames := by
    intro ts hf e he
    have hb := (h.disjunction.blames ts hf).mono (W := Viable .filter) fun c ⟨d, hd⟩ => ⟨.whole d, hd⟩
    have hn : ¬(ts = [] ∨ isNext [.rightParen, .rightBracket] ts = true) := fun hn =>
      (yields_filter_iff.mpr (.inl ⟨hn, rfl, rfl⟩)).not_fails he
    refine hb.of_head (fun e he => ?_) (fun k us m? ws hh hy => ?_) e he
    case refine_1 => rwa [Grammar.filter, fails_ahead_bind_iff, if_neg hn] at he
    case refine_2 =>
      have he : us = [] ↔ ts = [] := by
        rw [← List.head?_eq_none_iff, hh, List.head?_eq_none_iff]
      rw [← he, ← isNext_congr hh] at hn
      cases yields_filter_iff.mp hy
      case inl hy => exact absurd hy.left hn
      case inr hy => exact ⟨m?, ws, hy.right⟩

end Predicts

theorem fault_of_literalValue {e : Error} (h : literalValue t = .error e) : Fault t e := by
  unfold literalValue at h
  split at h
  case h_1 =>
    split at h
    case h_1 => cases h
    case h_2 => cases h; exact .unrecognized
  case h_2 =>
    split at h
    case h_1 => cases h
    case h_2 => cases h; exact .unrecognized
  case h_6 => cases h; exact .unexpected
  all_goals cases h

-- What a rule without recursion has taken where it fails.
theorem segment_blames {kinds : List Token.Kind} (hV : V []) :
    Blames (segment kinds) (fun _ => segment kinds) V ts :=
  .expect_bind hV fun _ _ _ _ => .pure

theorem literal_blames (hV : V []) : Blames literal (fun _ => literal) V ts := by
  refine .of_token hV fun e he => ?_
  cases fails_bind_iff.mp he
  case inl he =>
    refine (fails_expect_iff.mp he).imp_right ?_
    rintro ⟨t, us, hts, hk, rfl⟩
    refine ⟨t, us, hts, .unexpected, fun _ vs v ws hy => ?_⟩
    have ⟨_, hc, hk', _⟩ := yields_literal_iff.mp hy
    cases hc
    exact hk hk'
  case inr he =>
    have ⟨t, us, hy, he⟩ := he
    have ⟨hts, hk⟩ := yields_expect_iff.mp hy
    have he : literalValue t = .error e := he
    refine .inr ⟨t, us, hts, fault_of_literalValue he, fun _ vs v ws hy => ?_⟩
    have ⟨_, hc, _, hv⟩ := yields_literal_iff.mp hy
    cases hc
    cases he.symm.trans hv

theorem operator_blames (hV : V []) : Blames operator (fun _ => operator) V ts := by
  refine .of_token hV fun e he => ?_
  cases fails_bind_iff.mp he
  case inl he =>
    refine (fails_expect_iff.mp he).imp_right ?_
    rintro ⟨t, us, hts, hk, rfl⟩
    refine ⟨t, us, hts, .unexpected, fun _ vs v ws hy => ?_⟩
    have ⟨_, hc, hk', _⟩ := yields_operator_iff.mp hy
    cases hc
    exact hk (List.mem_singleton.mpr hk')
  case inr he =>
    have ⟨t, us, hy, he⟩ := he
    have ⟨hts, hk⟩ := yields_expect_iff.mp hy
    cases ho : Operator.ofWord? t.text
    case some o =>
      simp only [ho] at he
      exact absurd he not_fails_pure
    case none =>
      simp only [ho, fail, fails_ofExcept_iff, Except.error.injEq] at he
      refine .inr ⟨t, us, hts, he ▸ .unexpected, fun _ vs o ws hy => ?_⟩
      have ⟨_, hc, _, hw⟩ := yields_operator_iff.mp hy
      cases hc
      cases ho.symm.trans hw

theorem test_blames (hl : ∀ t ∈ ts, t.IsLexeme) :
    Blames test (fun _ => test) (fun c => ∃ d : Test, c <+: d.tokens) ts := by
  refine (operator_blames ⟨default, List.nil_prefix⟩).bind (fun _ => .operator) fun o c us hy hc => ?_
  have ⟨t, ht, hk, ho⟩ := yields_operator_iff.mp hy
  have hlt := hl t (hc ▸ ht ▸ List.mem_cons_self)
  cases ht' : o.takesValue
  case false => exact .pure
  case true =>
    have hn : o ≠ .present := by rintro rfl; cases ht'
    have hV : ∃ d : Test, c ++ [] <+: d.tokens := by
      have hc : c = [t] := List.append_cancel_right ht
      exact ⟨.relation (.ofToken hk hlt) o ho hn default, hc ▸ List.prefix_append [t] _⟩
    exact (literal_blames hV).bind (fun _ => .literal) fun _ _ _ _ _ => .pure

theorem subAttribute_blames (hV : V []) (hd : ∀ t us, ts = t :: us → t.kind = .dot → V [t]) :
    Blames subAttribute (fun _ => subAttribute) V ts :=
  .expect_bind hV fun t us hts hk => segment_blames (hd t us hts (List.mem_singleton.mp hk))

theorem members_blames (hf : Fits levels ts) :
    Blames (behindEach .dot (segment [.identifier])) (fun _ => behindEach .dot (segment [.identifier]))
      (fun c => ∃ ms : List Member, c <+: ms.flatMap Member.tokens) ts := by
  refine .behindEach (fun _ => .segment (by decide)) (U := (· = [])) (fun _ _ => segment_blames rfl)
    ?_ ?_ hf
  case refine_1 =>
    intro t c hk hl hc
    exact ⟨[⟨.ofToken hk hl, default⟩], hc ▸ List.prefix_append [t] _⟩
  case refine_2 =>
    intro t c a us d hk hf hy ⟨ms, hd⟩
    have ⟨n, hn, hkn, _⟩ := yields_segment_iff.mp hy
    have hc : c = [n] := List.append_cancel_right hn
    have hl := hf.lexemes n (by simp [hc])
    exact ⟨⟨.ofToken hk hf.head, ⟨n, hkn, hl⟩⟩ :: ms, hc ▸ (prefix_append_right_inj [t, n]).mpr hd⟩

-- The texts of lexemes make a path.
theorem ofSegments_not_fails {e : Error} {first : Text} {more : List Text} (hf : first ≠ [])
    (hy : (behindEach .dot (segment [.identifier])).Yields ts more us)
    (hl : ∀ t ∈ ts, t.IsLexeme) : Path.ofSegments (first :: more) ≠ .error e := by
  have ⟨ms, _, hm⟩ := members_sound hy hl
  have hs : ∀ s ∈ first :: more, s ≠ [] := by
    refine List.forall_mem_cons.mpr ⟨hf, fun s hs => ?_⟩
    have ⟨m, _, he⟩ := List.mem_map.mp (hm ▸ hs)
    exact he ▸ m.name.text_ne_nil
  rw [ofSegments_eq_ok (List.cons_ne_nil _ _) hs]
  nofun

-- What stands before the first segment begins a name, and so does it with the segment.
theorem begins_name {schema? : Option Text}
    (hy : (optional .schemaUri schema).Yields (c ++ us) schema? us)
    (hl : ∀ t ∈ c ++ us, t.IsLexeme) (ho : Opens .path (c ++ us)) :
    (∃ n : Name, c <+: n.tokens) ∧ ∀ t vs, us = t :: vs → t.kind ∈ [.identifier, .not] →
      ∀ ms : List Member, ∃ n : Name, n.tokens = c ++ t :: ms.flatMap Member.tokens := by
  cases yields_optional_iff.mp hy
  case inl hy =>
    have ⟨_, s, hs, _⟩ := hy
    have ⟨u, k, hu, hku, hkk, _⟩ := yields_schema_iff.mp hs
    have hc : c = [u, k] := List.append_cancel_right hu
    subst hc
    let uri : Terminal [.schemaUri] := .ofToken hku (hl u (by simp))
    let colon : Terminal [.colon] := .ofToken hkk (hl k (by simp))
    refine ⟨⟨.qualified uri colon default [], List.prefix_append [u, k] _⟩, ?_⟩
    intro t vs ht hk ms
    exact ⟨.qualified uri colon ⟨t, hk, hl t (by simp [ht])⟩ ms, rfl⟩
  case inr hy =>
    have hc : c = [] := List.append_left_eq_self.mp hy.right.right
    subst hc
    refine ⟨⟨.plain default [], List.nil_prefix⟩, ?_⟩
    intro t vs ht hk ms
    have hk : t.kind = .identifier := by simp_all [Opens]
    exact ⟨.plain (.ofToken hk (hl t (by simp [ht]))) ms, rfl⟩

theorem name_blames (hf : Fits levels ts) (ho : Opens .path ts) :
    Blames name (fun _ => name) (fun c => ∃ n : Name, c <+: n.tokens) ts := by
  have hs : Blames schema (fun _ => schema) (fun c => ∃ n : Name, c <+: n.tokens) ts := by
    refine .expect_bind ⟨.plain default [], List.nil_prefix⟩ fun t us hts hk => ?_
    have hl := hf.lexemes t (hts ▸ List.mem_cons_self)
    refine .expect_bind ?_ fun _ _ _ _ => .pure
    exact ⟨.qualified ⟨t, hk, hl⟩ default default [], List.prefix_append [t] _⟩
  refine (Blames.optional fun _ => hs).bind (fun _ => .optional .schema) fun schema? c us hy hc => ?_
  subst hc
  have ⟨hc, hn⟩ := begins_name hy hf.lexemes ho
  have hb : Blames (segment [.identifier, .not]) (fun _ => segment [.identifier, .not])
      (fun d => ∃ n : Name, c ++ d <+: n.tokens) us := segment_blames ((List.append_nil c).symm ▸ hc)
  refine hb.bind (fun _ => .segment (by decide)) fun first d vs hy hd => ?_
  have ⟨t, ht, hk, hft⟩ := yields_segment_iff.mp hy
  have hdt : d = [t] := List.append_cancel_right ht
  subst hd hdt
  have hf := hf.suffix (List.suffix_append c _)
  have hfirst : first ≠ [] := hft ▸ Token.Kind.Admits.ne_nil hf.head
  have hf := hf.suffix (List.suffix_cons t vs)
  have hm := members_blames hf
  have hb := hm.mono (W := fun e => ∃ n : Name, c ++ ([t] ++ e) <+: n.tokens) fun e ⟨ms, he⟩ =>
    have ⟨n, hn⟩ := hn t vs rfl hk ms
    ⟨n, hn ▸ (prefix_append_right_inj c).mpr ((prefix_append_right_inj [t]).mpr he)⟩
  refine hb.bind (fun _ => .behindEach (.segment (by decide))) fun more e ws hy he => .of_not_fails ?_
  intro error h
  cases fails_bind_iff.mp h
  case inl h =>
    exact ofSegments_not_fails hfirst hy (he ▸ hf.lexemes) h
  case inr h =>
    have ⟨_, _, _, h⟩ := h
    exact not_fails_pure h

end AttributeFilter.Grammar
