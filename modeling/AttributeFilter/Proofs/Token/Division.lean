import AttributeFilter.Proofs.Token.Adjoining

/-!
How a scanner divides a text: into white space, tokens, and a remainder that it does not understand.
Nothing is lost, every token knows its place and the white space around it, and a scanner that is asked
again and again hands out the tokens, then the error at the front of the remainder, and then nothing.
-/

namespace AttributeFilter

open Text Lexeme

namespace Position

-- The place behind a text, counted in the text: its line feeds, and the characters behind the last one.
def behind (t : Text) : Position where
  line   := 1 + t.count '\n'
  column := 1 + (t.reverse.takeWhile (· ≠ '\n')).length

theorem step_behind (t : Text) (c : Char) : (behind t).step c = behind (t ++ [c]) := by
  by_cases h : c = '\n'
  case pos => simp [step, behind, h, List.count_append, Nat.add_assoc]
  case neg => simp [step, behind, h, List.count_append, Nat.add_assoc]

theorem after_behind (t u : Text) : (behind t).after u = behind (t ++ u) := by
  induction u generalizing t
  case nil         => rw [after_nil, List.append_nil]
  case cons c u ih => rw [after_cons, step_behind, ih, List.append_assoc, List.singleton_append]

end Position

namespace Lexeme

variable {c : Char} {r t w : Text}

-- A text is a beginning of another one, and not the empty one.
structure Heads (w t : Text) : Prop where
  prefixed : w <+: t
  nonempty : w ≠ []

theorem heads_of_string (h : string r = .error w) : Heads w ('"' :: r) := by
  unfold string at h
  split at h
  case h_1 => cases h; exact ⟨List.prefix_rfl, List.cons_ne_nil _ _⟩
  case h_2 hb =>
    split at h
    case isTrue  => cases h
    case isFalse =>
      cases h
      exact ⟨⟨_, congrArg ('"' :: ·) (Quoted.append_of_throughQuote? hb)⟩, List.cons_ne_nil _ _⟩

theorem Part.integer_cons_ne_nil (h : (c = '-' || isDigit c) = true) :
    (Part.integer (c :: r)).text ≠ [] := by
  unfold Part.integer
  split
  case h_1 => simp [Part.digitsAfter]
  case h_2 hn =>
    have hd : isDigit c = true := by
      cases (Bool.or_eq_true _ _).mp h
      case inl hc => cases hn r (congrArg (· :: r) (of_decide_eq_true hc))
      case inr hd => exact hd
    simp [Part.digitsAfter, hd]

theorem heads_of_number (hc : (c = '-' || isDigit c) = true) (h : number (c :: r) = .error w) :
    Heads w (c :: r) := by
  simp only [number] at h
  split at h
  case isTrue  => cases h
  case isFalse =>
    cases h
    constructor
    case prefixed =>
      refine ⟨(Part.exponent (Part.fraction (Part.integer (c :: r)).rest).rest).rest, ?_⟩
      rw [List.append_assoc, Part.exponent_append, List.append_assoc, Part.fraction_append,
        Part.integer_append]
    case nonempty =>
      exact List.append_ne_nil_of_left_ne_nil
        (List.append_ne_nil_of_left_ne_nil (Part.integer_cons_ne_nil hc) _) _

theorem heads_of_schemaUri (hs : startsUri t = true) (h : schemaUri t = .error w) : Heads w t := by
  have hr : Heads (t.takeWhile isUriChar) t := by
    refine ⟨List.takeWhile_prefix _, ?_⟩
    have ⟨a, b, c, u, ht, ha, _⟩ := of_startsUri hs
    have ha : isUriChar a = true := by simp [isUriChar, isWordChar_of_isLetter ha]
    rw [ht, List.takeWhile_cons_of_pos ha]
    exact List.cons_ne_nil _ _
  simp only [schemaUri] at h
  split at h
  case h_1 => cases h; exact hr
  case h_2 =>
    split at h
    case isTrue  => cases h
    case isFalse => cases h; exact hr

-- What is no lexeme is quoted from the front of the text.
theorem heads_of_first (h : first c r = .error w) : Heads w (c :: r) := by
  unfold first at h
  split at h
  case h_1 => cases h
  case h_2 =>
    split at h
    case isTrue hc => exact hc ▸ heads_of_string h
    case isFalse =>
      split at h
      case isTrue hc => exact heads_of_number hc h
      case isFalse =>
        split at h
        case isFalse => cases h; exact ⟨⟨r, rfl⟩, List.cons_ne_nil _ _⟩
        case isTrue =>
          split at h
          case isTrue hs => exact heads_of_schemaUri hs h
          case isFalse   => cases h

end Lexeme

namespace Scanner

variable {s s' : Scanner} {e : Error} {t : Token}

-- What a scanner hands out when it is asked for the `k`-th time after the first. At the end of the text
-- it stays where it is.
def answer? (s : Scanner) : Nat → Option (Except Error Token)
  | 0 => s.next?.map (·.1)
  | k + 1 =>
    match s.next? with
    | none         => s.answer? k
    | some (_, s') => s'.answer? k

theorem dropBlank_of_next?_none (h : s.next? = none) : dropBlank s.rest = [] := by
  unfold next? at h
  split at h
  case h_1 hd => exact hd
  case h_2 =>
    simp only at h
    split at h <;> cases h

theorem token_of_next? (h : s.next? = some (.ok t, s')) :
    t.text ≠ [] ∧ t.position = s.position.after (leadingBlank s.rest) ∧
      s'.position = t.position.after t.text ∧
      s.rest = leadingBlank s.rest ++ (t.text ++ s'.rest) := by
  unfold next? at h
  split at h
  case h_1 => cases h
  case h_2 hd =>
    simp only at h
    split at h
    case h_1 => cases h
    case h_2 hl =>
      cases h
      have hs := first_starts hl
      refine ⟨hs.nonempty, rfl, rfl, ?_⟩
      conv => lhs; rw [← leadingBlank_append_dropBlank s.rest, hd, ← hs.append]
      rfl

theorem error_of_next? (h : s.next? = some (.error e, s')) :
    ∃ w, e = .unrecognized w (s.position.after (leadingBlank s.rest)) ∧
      Heads w (dropBlank s.rest) ∧ s' = s.finished := by
  unfold next? at h
  split at h
  case h_1 => cases h
  case h_2 hd =>
    simp only at h
    split at h
    case h_2 => cases h
    case h_1 hl => cases h; exact ⟨_, rfl, hd ▸ heads_of_first hl, rfl⟩

theorem next?_finished (s : Scanner) : s.finished.next? = none :=
  rfl

theorem answer?_finished (s : Scanner) (k : Nat) : s.finished.answer? k = none := by
  induction k
  case zero      => rfl
  case succ k ih => rw [answer?, next?_finished, ih]

end Scanner

-- The answers of a scanner, in their order.
def Scan.answers (s : Scan) : List (Except Error Token) :=
  s.tokens.map .ok ++ s.failure?.toList.map .error

-- A scanner that is asked again and again answers what scanning makes, and then nothing any more.
theorem Scanner.answer?_eq (s : Scanner) (k : Nat) : s.answer? k = s.scan.answers[k]? := by
  induction k generalizing s
  case zero =>
    rw [answer?]
    rcases hn : s.next? with _ | ⟨e | t, s'⟩
    case none     => rw [scan_of_none hn]; rfl
    case some.error => rw [scan_of_error hn]; rfl
    case some.ok    => rw [scan_of_token hn]; rfl
  case succ k ih =>
    rw [answer?]
    rcases hn : s.next? with _ | ⟨e | t, s'⟩
    case none => exact (ih s).trans (by rw [scan_of_none hn]; rfl)
    case some.error =>
      have ⟨_, _, _, hs⟩ := error_of_next? hn
      rw [scan_of_error hn, hs]
      exact answer?_finished s k
    case some.ok => exact (ih s').trans (by rw [scan_of_token hn]; rfl)

-- Texts with gaps before, between and behind them. There is one gap more than there are texts.
def Text.weave : (gaps texts : List Text) → Text
  | gs, []           => gs.flatten
  | [], us           => us.flatten
  | g :: gs, u :: us => g ++ u ++ weave gs us

def Token.texts (ts : List Token) : List Text :=
  ts.map (·.text)

-- The text behind `before` is divided into tokens with gaps around them, and a remainder.
structure Divides (before t : Text) (gaps : List Text) (ts : List Token) (remainder : Text) : Prop where
  length   : gaps.length = ts.length + 1
  blank    : ∀ g ∈ gaps, g.Blank
  append   : weave gaps (Token.texts ts) ++ remainder = t
  nonempty : ∀ t ∈ ts, t.text ≠ []
  raw      : ∀ (i : Nat) (t : Token) (g g' : Text), ts[i]? = some t → gaps[i]? = some g →
    gaps[i + 1]? = some g' → t.raw = g ++ t.text ++ g'
  position : ∀ (i : Nat) (t : Token), ts[i]? = some t →
    t.position = .behind (before ++ weave (gaps.take (i + 1)) (Token.texts (ts.take i)))

namespace Divides

variable {before t g g' remainder : Text} {gaps : List Text} {ts : List Token} {u : Token}

theorem nil (hg : g.Blank) : Divides before (g ++ remainder) [g] [] remainder where
  length   := rfl
  blank    := List.forall_mem_singleton.mpr hg
  append   := by simp [weave, Token.texts]
  nonempty := nofun
  raw      := nofun
  position := nofun

theorem cons (h : Divides (before ++ g ++ u.text) t (g' :: gaps) ts remainder)
    (hg : g.Blank) (hu : u.text ≠ []) (hr : u.raw = g ++ u.text ++ g')
    (hp : u.position = .behind (before ++ g)) :
    Divides before (g ++ (u.text ++ t)) (g :: g' :: gaps) (u :: ts) remainder where
  length   := by rw [List.length_cons, h.length, List.length_cons]
  blank    := List.forall_mem_cons.mpr ⟨hg, h.blank⟩
  append   := by
    rw [← h.append]
    simp [weave, Token.texts]
  nonempty := List.forall_mem_cons.mpr ⟨hu, h.nonempty⟩
  raw      := by
    intro i v f f' hv hf hf'
    cases i
    case zero   => cases hv; cases hf; cases hf'; exact hr
    case succ i => exact h.raw i v f f' hv hf hf'
  position := by
    intro i v hv
    cases i
    case zero   => cases hv; simpa [weave, Token.texts] using hp
    case succ i =>
      rw [h.position i v hv]
      simp [weave, Token.texts]

end Divides

-- The error, if there is one, quotes the front of the remainder and stands where the remainder does.
def Scan.Explains (s : Scan) (position : Position) (remainder : Text) : Prop :=
  (s.failure? = none ∧ remainder = []) ∨
    (∃ w, s.failure? = some (.unrecognized w position) ∧ Heads w remainder)

theorem Scanner.exists_divides (s : Scanner) {before : Text} (hp : s.position = .behind before) :
    ∃ gaps remainder, Divides before s.rest (leadingBlank s.rest :: gaps) s.scan.tokens remainder ∧
      s.scan.Explains
        (.behind (before ++ weave (leadingBlank s.rest :: gaps) (Token.texts s.scan.tokens)))
        remainder := by
  have hg := blank_leadingBlank (t := s.rest)
  have hs := leadingBlank_append_dropBlank s.rest
  have hb : s.position.after (leadingBlank s.rest) = .behind (before ++ leadingBlank s.rest) := by
    rw [hp, Position.after_behind]
  induction hn : s.rest.length using Nat.strongRecOn generalizing s before
  case ind n ih =>
    rcases hq : s.next? with _ | ⟨e | t, s'⟩
    case none =>
      rw [dropBlank_of_next?_none hq] at hs
      rw [scan_of_none hq]
      have hd : Divides before (leadingBlank s.rest ++ []) _ [] [] := .nil hg
      rw [hs] at hd
      exact ⟨[], [], hd, .inl ⟨rfl, rfl⟩⟩
    case some.error =>
      have ⟨w, he, hw, _⟩ := error_of_next? hq
      rw [scan_of_error hq]
      have hd : Divides before (leadingBlank s.rest ++ dropBlank s.rest) _ [] _ := .nil hg
      rw [hs] at hd
      refine ⟨[], dropBlank s.rest, hd, .inr ⟨w, ?_, hw⟩⟩
      rw [he, hb]
      simp [weave, Token.texts]
    case some.ok =>
      have ⟨hne, hpos, hpos', hr⟩ := token_of_next? hq
      have hlt := length_rest_lt_of_next? hq
      have hp' : s'.position = .behind (before ++ leadingBlank s.rest ++ t.text) := by
        rw [hpos', hpos, hb, Position.after_behind]
      have ⟨gaps, remainder, hd, he⟩ := ih _ (hn ▸ hlt) s' hp' blank_leadingBlank
        (leadingBlank_append_dropBlank _) (by rw [hp', Position.after_behind]) rfl
      have hd := hd.cons hg hne (raw_of_next? hq) (hpos.trans hb)
      rw [← hr] at hd
      rw [scan_of_token hq]
      refine ⟨leadingBlank s'.rest :: gaps, remainder, hd, ?_⟩
      simpa [Scan.Explains, weave, Token.texts] using he

-- The scanner knows a single error.
theorem exists_unrecognized_of_tokenize {t : Text} {e : Error} (h : tokenize t = .error e) :
    ∃ w p, e = .unrecognized w p := by
  have hp : (Scanner.ofText t).position = .behind [] := rfl
  have ⟨_, _, _, hx⟩ := (Scanner.ofText t).exists_divides hp
  rw [tokenize, Scan.result] at h
  rcases hx with ⟨hf, _⟩ | ⟨w, hf, _⟩
  · rw [hf] at h
    cases h
  · rw [hf] at h
    cases h
    exact ⟨w, _, rfl⟩

-- Every text is divided, and a scanner answers the tokens, the error at the front of the remainder if
-- there is one, and nothing from then on.
theorem exists_division (t : Text) :
    ∃ gaps ts remainder failure?, Divides [] t gaps ts remainder ∧
      (∀ k, (Scanner.ofText t).answer? k = (Scan.mk ts failure?).answers[k]?) ∧
      tokenize t = (Scan.mk ts failure?).result ∧ (failure? = none ↔ remainder = []) ∧
      ∀ e ∈ failure?, ∃ w, e = .unrecognized w (.behind (weave gaps (Token.texts ts))) ∧
        w ≠ [] ∧ w <+: remainder := by
  have hp : (Scanner.ofText t).position = .behind [] := rfl
  have ⟨gaps, remainder, hd, he⟩ := (Scanner.ofText t).exists_divides hp
  refine ⟨_, _, remainder, (Scanner.ofText t).scan.failure?, hd, Scanner.answer?_eq _, rfl, ?_, ?_⟩
  case refine_1 =>
    cases he
    case inl h => simp [h.left, h.right]
    case inr h =>
      have ⟨w, hf, hw⟩ := h
      have hr : remainder ≠ [] := fun hr => hw.nonempty (List.prefix_nil.mp (hr ▸ hw.prefixed))
      simp [hf, hr]
  case refine_2 =>
    intro e hm
    cases he
    case inl h => rw [h.left] at hm; cases hm
    case inr h =>
      have ⟨w, hf, hw⟩ := h
      rw [hf] at hm
      cases hm
      exact ⟨w, rfl, hw.nonempty, hw.prefixed⟩

end AttributeFilter
