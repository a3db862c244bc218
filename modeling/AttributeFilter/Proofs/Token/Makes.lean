import AttributeFilter.Proofs.Grammar.Derivation
import AttributeFilter.Proofs.Token.Cuts

/-!
Scanning a text that is put together from lexemes. A scanner that stands before the text, or one blank
before it, makes the tokens of what the text spells.
-/

namespace AttributeFilter

open Text Lexeme

namespace Scanner

-- The scanner makes some tokens, and then stands where another one stands.
inductive Makes : Scanner → List Token → Scanner → Prop
  | stay (s : Scanner) : Makes s [] s
  | step : s.next? = some (.ok t, s') → Makes s' ts s'' → Makes s (t :: ts) s''

variable {s s' s'' : Scanner} {ts us : List Token} {w u r : Text} {k : Token.Kind}

theorem Makes.trans (h : s.Makes ts s') (h' : s'.Makes us s'') : s.Makes (ts ++ us) s'' := by
  induction h
  case stay         => exact h'
  case step hn _ ih => exact .step hn (ih h')

-- Every token takes at least one character.
theorem Makes.length_le (h : s.Makes ts s') : ts.length + s'.rest.length ≤ s.rest.length := by
  induction h
  case stay => simp
  case step hn _ ih =>
    have := length_rest_lt_of_next? hn
    rw [List.length_cons]
    omega

-- The scanner stands before a text, or before white space in front of it.
def Before (s : Scanner) (t : Text) : Prop :=
  ∃ g, g.Blank ∧ s.rest = g ++ t

namespace Before

theorem of_eq (h : s.rest = u) : s.Before u :=
  ⟨[], .nil, h⟩

theorem behind {g : Text} (h : s.Before (g ++ u)) (hg : g.Blank) : s.Before u :=
  have ⟨f, hf, hs⟩ := h
  ⟨f ++ g, hf.append hg, hs.trans (List.append_assoc ..).symm⟩

theorem dropBlank (h : s.Before u) : Text.dropBlank s.rest = Text.dropBlank u := by
  have ⟨_, hg, hs⟩ := h
  rw [hs, dropBlank_append hg]

end Before

theorem Makes.scan (h : s.Makes ts s') (hr : s'.Before []) : s.scan = ⟨ts, none⟩ := by
  induction h
  case stay         => exact scan_of_none (by simp only [next?, hr.dropBlank]; rfl)
  case step hn _ ih => rw [scan_of_token hn, ih hr]

theorem next?_of_cuts (hc : Cuts k w r) (hs : s.Before (w ++ r)) :
    ∃ t s', t.kind = k ∧ t.text = w ∧ s.next? = some (.ok t, s') ∧ s'.rest = r := by
  have ⟨c, u, hw, hl⟩ := hc
  have hd : dropBlank s.rest = c :: u := by
    rw [hs.dropBlank, hw]
    exact dropBlank_of_stops (.cons (isBlank_eq_false_of_first hl))
  have hn : s.next? = some (.ok (token (s.position.after (leadingBlank s.rest))
      (leadingBlank s.rest) ⟨k, w, r⟩),
      ⟨(s.position.after (leadingBlank s.rest)).after w, r⟩) := by
    simp only [next?, hd, hl]
  exact ⟨_, _, rfl, rfl, hn, rfl⟩

end Scanner

variable {α β : Type} {w u r : Text} {k : Token.Kind}

-- Whatever scanner stands before `w` makes the tokens of something that has a property, if `r` stands
-- behind `w`, and then stands before `r`.
def Spells (tokens : α → List Token) (P : α → Prop) (w r : Text) : Prop :=
  ∀ s : Scanner, s.Before (w ++ r) → ∃ a s', P a ∧ s.Makes (tokens a) s' ∧ s'.Before r

namespace Spells

variable {tokens : α → List Token} {P : α → Prop} {tokens' : β → List Token} {Q : β → Prop}

theorem terminal (kinds : List Token.Kind) (hk : k ∈ kinds) (hc : Cuts k w r) :
    Spells (fun t : Grammar.Terminal kinds => [t.token])
      (fun t => t.token.kind = k ∧ t.token.text = w) w r := by
  intro s hs
  have ⟨t, s', ht, hw, hn, hr⟩ := Scanner.next?_of_cuts hc hs
  exact ⟨⟨t, ht ▸ hk, Scanner.isLexeme_of_next? hn⟩, s', ⟨ht, hw⟩, .step hn (.stay s'), .of_eq hr⟩

theorem map (h : Spells tokens P w r) (hf : ∀ a, P a → ∃ b, Q b ∧ tokens' b = tokens a) :
    Spells tokens' Q w r := by
  intro s hs
  have ⟨a, s', ha, hm, hr⟩ := h s hs
  have ⟨b, hb, ht⟩ := hf a ha
  exact ⟨b, s', hb, ht ▸ hm, hr⟩

-- With white space between the two.
theorem andApart {g : Text} (hg : g.Blank) (h : Spells tokens P w (g ++ (u ++ r)))
    (h' : Spells tokens' Q u r) :
    Spells (fun p : α × β => tokens p.1 ++ tokens' p.2) (fun p => P p.1 ∧ Q p.2)
      (w ++ (g ++ u)) r := by
  intro s hs
  rw [List.append_assoc, List.append_assoc] at hs
  have ⟨a, s', ha, hm, hr⟩ := h s hs
  have ⟨b, s'', hb, hm', hr'⟩ := h' s' (hr.behind hg)
  exact ⟨(a, b), s'', ⟨ha, hb⟩, hm.trans hm', hr'⟩

theorem andThen (h : Spells tokens P w (u ++ r)) (h' : Spells tokens' Q u r) :
    Spells (fun p : α × β => tokens p.1 ++ tokens' p.2) (fun p => P p.1 ∧ Q p.2) (w ++ u) r :=
  andApart .nil h h'

theorem andBehind (h : Spells tokens P w (' ' :: (u ++ r))) (h' : Spells tokens' Q u r) :
    Spells (fun p : α × β => tokens p.1 ++ tokens' p.2) (fun p => P p.1 ∧ Q p.2)
      (w ++ ' ' :: u) r :=
  andApart (g := [' ']) (by decide) h h'

end Spells

-- The tokens of a text that is spelled, with white space before and behind it, and how many there are at
-- most.
theorem tokenize_of_spells {tokens : α → List Token} {P : α → Prop} {g g' : Text} (hg : g.Blank)
    (hg' : g'.Blank) (h : Spells tokens P w g') :
    ∃ a, P a ∧ tokenize (g ++ (w ++ g')) = .ok (tokens a) ∧
      (tokens a).length ≤ (g ++ (w ++ g')).length := by
  have ⟨a, s', ha, hm, hr⟩ := h (.ofText (g ++ (w ++ g'))) ⟨g, hg, rfl⟩
  have hr : s'.Before [] := ((List.append_nil g').symm ▸ hr).behind hg'
  refine ⟨a, ha, ?_, ?_⟩
  · simp [tokenize, hm.scan hr, Scan.result]
  · exact Nat.le_trans (Nat.le_add_right _ _) hm.length_le

theorem Text.length_le_byteLength (t : Text) : t.length ≤ byteLength t := by
  have hl (n : Nat) : n + t.length ≤ t.foldl (fun n c => n + c.utf8Size) n := by
    induction t generalizing n
    case nil => exact Nat.le_refl n
    case cons c t ih =>
      have := c.utf8Size_pos
      have := ih (n + c.utf8Size)
      rw [List.length_cons, List.foldl_cons]
      omega
  rw [← Nat.zero_add t.length]
  exact hl 0

end AttributeFilter
