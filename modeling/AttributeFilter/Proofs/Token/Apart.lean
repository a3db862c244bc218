import AttributeFilter.Proofs.Token.Recognition
import AttributeFilter.Proofs.Token.Following

/-!
Texts with white space between them. No lexeme reaches across the white space, so scanning gives the tokens
of the first text and then what the second text gives alone, at the places that it has behind the first one.
-/

namespace AttributeFilter

open Text Lexeme

namespace Position

variable {p : Position}

-- A place in a text, when another text is put in front of it. The first line goes on where that text ends, so
-- the characters of its last line count there too.
def moved (front : Text) (p : Position) : Position where
  line   := p.line + front.count '\n'
  column := if p.line = 1 then p.column + (front.reverse.takeWhile (· ≠ '\n')).length else p.column

theorem step_moved (h : 0 < p.line) (front : Text) (c : Char) :
    (p.moved front).step c = (p.step c).moved front := by
  by_cases hc : c = '\n'
  case pos =>
    have hl : ¬p.line + 1 = 1 := by omega
    simp only [step, moved, hc, hl, if_true, if_false, Nat.add_right_comm]
  case neg =>
    simp only [step, moved, hc, if_false, mk.injEq, true_and]
    split <;> omega

theorem line_step (h : 0 < p.line) (c : Char) : 0 < (p.step c).line := by
  unfold step
  split
  case isTrue  => exact Nat.succ_pos _
  case isFalse => exact h

theorem after_moved (h : 0 < p.line) (front t : Text) : (p.moved front).after t = (p.after t).moved front := by
  induction t generalizing p
  case nil         => rfl
  case cons c t ih => rw [after_cons, after_cons, step_moved h, ih (line_step h c)]

theorem moved_behind (front t : Text) : (behind t).moved front = behind (front ++ t) := by
  have hn : (behind []).moved front = behind front := by simp [moved, behind, Nat.add_comm]
  have ht : (behind []).after t = behind t := after_behind [] t
  rw [← ht, ← after_moved Nat.one_pos, hn, after_behind]

end Position

namespace Token

-- The token without the white space around it.
def bare (t : Token) : Token :=
  .ofText t.kind t.text t.position

def moved (front : Text) (t : Token) : Token :=
  { t with position := t.position.moved front }

theorem bare_eq_iff {t u : Token} : t.bare = u.bare ↔ t.lexeme = u.lexeme ∧ t.position = u.position := by
  simp only [bare, ofText, lexeme, mk.injEq, Prod.mk.injEq]
  grind

end Token

def Error.moved (front : Text) : Error → Error
  | unrecognized w p => unrecognized w (p.moved front)
  | e => e

namespace Scan

-- What comes of scanning, without the white space around tokens.
def bare (s : Scan) : Scan where
  tokens   := s.tokens.map Token.bare
  failure? := s.failure?

def moved (front : Text) (s : Scan) : Scan where
  tokens   := s.tokens.map (Token.moved front)
  failure? := s.failure?.map (Error.moved front)

theorem bare_cons {s s' : Scan} {t t' : Token} {front : Text} (ht : t.bare = (t'.moved front).bare)
    (hs : s.bare = (s'.moved front).bare) :
    bare ⟨t :: s.tokens, s.failure?⟩ = bare (moved front ⟨t' :: s'.tokens, s'.failure?⟩) := by
  injection hs with hts hf
  simp only [bare, moved, List.map_cons, ht, hts, hf]

end Scan

namespace Scanner

variable {s s' s₁ : Scanner} {ts : List Token} {g r u w front : Text} {c : Char} {l : Lexeme}

theorem next?_of_nil (h : dropBlank s.rest = []) : s.next? = none := by
  simp only [next?, h]

theorem next?_of_error (hd : dropBlank s.rest = c :: r) (h : first c r = .error w) :
    s.next? = some (.error (.unrecognized w (s.position.after (leadingBlank s.rest))), s.finished) := by
  simp only [next?, hd, h]

theorem next?_of_first (hd : dropBlank s.rest = c :: r) (h : first c r = .ok l) :
    s.next? = some (.ok (token (s.position.after (leadingBlank s.rest)) (leadingBlank s.rest) l),
      ⟨(s.position.after (leadingBlank s.rest)).after l.text, l.rest⟩) := by
  simp only [next?, hd, h]

theorem Makes.scan_eq (h : s.Makes ts s') : s.scan = ⟨ts ++ s'.scan.tokens, s'.scan.failure?⟩ := by
  induction h
  case stay         => rfl
  case step hn _ ih => rw [scan_of_token hn, ih]; rfl

-- A scanner gives the same at another place before the same text, with more white space in front of it.
theorem bare_scan_moved (hg : g.Blank) (hr : s₁.rest = g ++ s.rest) (hs : s.position = .behind u)
    (hs₁ : s₁.position.after g = .behind (front ++ u)) : s₁.scan.bare = (s.scan.moved front).bare := by
  induction hn : s.rest.length using Nat.strongRecOn generalizing s s₁ g u
  case ind n ih =>
    have hd : dropBlank s₁.rest = dropBlank s.rest := by rw [hr, dropBlank_append hg]
    have hb : leadingBlank s₁.rest = g ++ leadingBlank s.rest := by
      rw [hr, leadingBlank, List.takeWhile_append_of_pos hg]
      rfl
    have hp : s.position.after (leadingBlank s.rest) = .behind (u ++ leadingBlank s.rest) := by
      rw [hs, Position.after_behind]
    have hp₁ : s₁.position.after (leadingBlank s₁.rest) = .behind (front ++ (u ++ leadingBlank s.rest)) := by
      rw [hb, Position.after_append, hs₁, Position.after_behind, List.append_assoc]
    cases hc : dropBlank s.rest
    case nil => rw [scan_of_none (next?_of_nil hc), scan_of_none (next?_of_nil (hd.trans hc))]; rfl
    case cons c r =>
      cases hf : first c r
      case error w =>
        rw [scan_of_error (next?_of_error hc hf), scan_of_error (next?_of_error (hd.trans hc) hf), hp, hp₁,
          ← Position.moved_behind]
        rfl
      case ok l =>
        have hx := next?_of_first hc hf
        have hx₁ := next?_of_first (hd.trans hc) hf
        have hlt := length_rest_lt_of_next? hx
        have hq : (s.position.after (leadingBlank s.rest)).after l.text =
            .behind (u ++ leadingBlank s.rest ++ l.text) := by
          rw [hp, Position.after_behind]
        have hq₁ : (s₁.position.after (leadingBlank s₁.rest)).after l.text =
            .behind (front ++ (u ++ leadingBlank s.rest ++ l.text)) := by
          rw [hp₁, Position.after_behind, List.append_assoc]
        have hl : (scan ⟨_, l.rest⟩).bare = _ := ih _ (hn ▸ hlt) .nil rfl hq hq₁ rfl
        have ht : (token (s₁.position.after (leadingBlank s₁.rest)) (leadingBlank s₁.rest) l).bare =
            ((token (s.position.after (leadingBlank s.rest)) (leadingBlank s.rest) l).moved front).bare :=
          Token.bare_eq_iff.mpr ⟨rfl, hp₁.trans (hp ▸ (Position.moved_behind front _).symm)⟩
        rw [scan_of_token hx, scan_of_token hx₁]
        exact Scan.bare_cons ht hl

-- A scan to the end of a text comes as far in front of more text that starts with white space.
theorem exists_makes_of_scan (h : s.scan.failure? = none) (hr : r.Stops isUriChar)
    (hs : s₁.rest = s.rest ++ r) (hp : s₁.position = s.position) :
    ∃ us s' g, us.map Token.bare = s.scan.tokens.map Token.bare ∧ s₁.Makes us s' ∧ g.Blank ∧
      s'.rest = g ++ r ∧ s'.position.after g = s.position.after s.rest := by
  fun_induction scan s generalizing s₁
  case case1 s hn =>
    have hb : s.rest.Blank := by
      rw [← leadingBlank_append_dropBlank s.rest, dropBlank_of_next?_none hn, List.append_nil]
      exact blank_leadingBlank
    exact ⟨[], s₁, s.rest, rfl, .stay s₁, hb, hs, by rw [hp]⟩
  case case2 => cases h
  case case3 s t s' hn _ ih =>
    obtain ⟨t₁, s₂, hn₁, ht, hr₂⟩ := next?_followed hn hr (.of_eq hs)
    obtain ⟨_, hq, hq', ha⟩ := token_of_next? hn
    obtain ⟨_, hq₁, hq₁', ha₁⟩ := token_of_next? hn₁
    have htext : t₁.text = t.text := congrArg Prod.snd ht
    have hb : leadingBlank s₁.rest = leadingBlank s.rest := by
      have hc : leadingBlank s₁.rest ++ (t.text ++ (s'.rest ++ r)) =
          leadingBlank s.rest ++ (t.text ++ (s'.rest ++ r)) := by
        rw [← htext, ← hr₂, ← ha₁, hs, htext, hr₂]
        conv => lhs; rw [ha]
        simp only [List.append_assoc]
      exact List.append_cancel_right hc
    have hpos : t₁.position = t.position := by rw [hq₁, hq, hb, hp]
    obtain ⟨us, s', g, hus, hm, hg, hrest, hafter⟩ := ih h hr₂ (by rw [hq₁', hq', hpos, htext])
    refine ⟨t₁ :: us, s', g, ?_, .step hn₁ hm, hg, hrest, ?_⟩
    case refine_1 => rw [List.map_cons, List.map_cons, hus, Token.bare_eq_iff.mpr ⟨ht, hpos⟩]
    case refine_2 =>
      rw [hafter, hq', hq, ← Position.after_append, ← Position.after_append, ← ha]

end Scanner

variable {a w : Text} {ts : List Token}

theorem Scan.result_eq_ok_iff {s : Scan} : s.result = .ok ts ↔ s = ⟨ts, none⟩ := by
  obtain ⟨us, f?⟩ := s
  cases f? <;> simp [result]

theorem Scan.result_eq_error_iff {s : Scan} {e : Error} : s.result = .error e ↔ s.failure? = some e := by
  obtain ⟨us, f?⟩ := s
  cases f? <;> simp [result]

theorem Scanner.scan_apart (h : (ofText a).scan = ⟨ts, none⟩) (hw : w.Blank) (hn : w ≠ []) (b : Text) :
    (ofText (a ++ w ++ b)).scan.bare =
      Scan.bare ⟨ts ++ ((ofText b).scan.moved (a ++ w)).tokens, ((ofText b).scan.moved (a ++ w)).failure?⟩ := by
  have hf : (ofText a).scan.failure? = none := by rw [h]
  have ha : (ofText (a ++ w ++ b)).rest = (ofText a).rest ++ (w ++ b) := List.append_assoc a w b
  have ⟨us, s, g, hus, hm, hg, hr, hp⟩ := exists_makes_of_scan hf (hw.stops_append hn b) ha rfl
  have hp' : s.position.after (g ++ w) = .behind (a ++ w ++ []) := by
    have hb : (ofText a).position.after (ofText a).rest = .behind a := Position.after_behind [] a
    rw [Position.after_append, hp, hb, Position.after_behind, List.append_nil]
  have hb := bare_scan_moved (s := ofText b) (hg.append hw) (by rw [hr, List.append_assoc]; rfl) rfl hp'
  injection hb with hts hf
  rw [h] at hus
  rw [hm.scan_eq]
  simp only [Scan.bare, List.map_append, hus, hts, hf]

-- Behind a text that has tokens, and white space, a text has the tokens that it has alone, or the same error.
-- All their places are moved.
theorem tokenize_apart (ha : tokenize a = .ok ts) (hw : w.Blank) (hn : w ≠ []) (b : Text) :
    ((∃ e, tokenize (a ++ w ++ b) = .error e) ↔ ∃ e, tokenize b = .error e) ∧
    (∀ e, tokenize b = .error e → ∃ t p, e = .unrecognized t p ∧
      tokenize (a ++ w ++ b) = .error (.unrecognized t (p.moved (a ++ w)))) ∧
    ∀ us, tokenize b = .ok us → ∃ vs, tokenize (a ++ w ++ b) = .ok vs ∧
      vs.map Token.bare = (ts ++ us.map (Token.moved (a ++ w))).map Token.bare := by
  have hs := Scanner.scan_apart (Scan.result_eq_ok_iff.mp ha) hw hn b
  have error (e : Error) (he : tokenize b = .error e) : ∃ t p, e = .unrecognized t p ∧
      tokenize (a ++ w ++ b) = .error (.unrecognized t (p.moved (a ++ w))) := by
    obtain ⟨t, p, rfl⟩ := exists_unrecognized_of_tokenize he
    refine ⟨t, p, rfl, Scan.result_eq_error_iff.mpr ?_⟩
    injection hs with _ hf
    rw [hf, Scan.moved, Scan.result_eq_error_iff.mp he]
    rfl
  have ok (us : List Token) (hu : tokenize b = .ok us) : ∃ vs, tokenize (a ++ w ++ b) = .ok vs ∧
      vs.map Token.bare = (ts ++ us.map (Token.moved (a ++ w))).map Token.bare := by
    rw [Scan.result_eq_ok_iff.mp hu] at hs
    injection hs with hts hf
    exact ⟨_, Scan.result_eq_ok_iff.mpr (congrArg (Scan.mk _) hf), hts⟩
  refine ⟨⟨?_, ?_⟩, error, ok⟩
  case refine_1 =>
    rintro ⟨e, he⟩
    cases hb : tokenize b
    case error e' => exact ⟨e', rfl⟩
    case ok us =>
      have ⟨_, hv, _⟩ := ok us hb
      cases hv.symm.trans he
  case refine_2 =>
    rintro ⟨e, he⟩
    have ⟨_, _, _, h⟩ := error e he
    exact ⟨_, h⟩

-- A text of two lines, and another one.
def upperText : Text :=
  "a\npr or".toList

def lowerText : Text :=
  "not\n b".toList

theorem tokenize_apart_upperText :
    ∃ vs, tokenize (upperText ++ "\n ".toList ++ lowerText) = .ok vs ∧
      vs.map Token.bare =
        [.ofText .identifier "a".toList ⟨1, 1⟩, .ofText .operator "pr".toList ⟨2, 1⟩,
          .ofText .or "or".toList ⟨2, 4⟩, .ofText .not "not".toList ⟨3, 2⟩,
          .ofText .identifier "b".toList ⟨4, 2⟩] := by
  let ts : List Token :=
    [⟨.identifier, "a".toList, "a\n".toList, ⟨1, 1⟩⟩, ⟨.operator, "pr".toList, "\npr ".toList, ⟨2, 1⟩⟩,
      ⟨.or, "or".toList, " or".toList, ⟨2, 4⟩⟩]
  let us : List Token :=
    [⟨.not, "not".toList, "not\n ".toList, ⟨1, 1⟩⟩, ⟨.identifier, "b".toList, "\n b".toList, ⟨2, 2⟩⟩]
  have hts : tokenize upperText = .ok ts := Scan.result_eq_ok_iff.mpr (by decide +kernel)
  have hus : tokenize lowerText = .ok us := Scan.result_eq_ok_iff.mpr (by decide +kernel)
  have hw : Blank "\n ".toList := by decide
  have ⟨vs, hv, hb⟩ := (tokenize_apart hts hw (by decide) lowerText).right.right us hus
  exact ⟨vs, hv, hb.trans (by decide)⟩

end AttributeFilter
