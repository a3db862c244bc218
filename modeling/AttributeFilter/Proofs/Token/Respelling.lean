import AttributeFilter.Proofs.Grammar.Agreement
import AttributeFilter.Proofs.Token.Recognition
import AttributeFilter.Proofs.Token.Sight

/-!
Spelling a text in another way: with other white space around its tokens, and its keywords in another case.
The scanner makes the same tokens of it.
-/

namespace AttributeFilter

open Text

namespace Lexeme

variable {r w w' : Text} {k : Token.Kind}

theorem isWord_of_lower_eq (h : lower w' = lower w) (hw : IsWord w) : IsWord w' := by
  have ⟨c, hc, hl⟩ := hw.head
  have ht : lower w'.tail = lower w.tail := by
    rw [lower, lower, List.map_tail, List.map_tail]
    exact congrArg List.tail h
  refine ⟨?_, (all_iff_of_lower_eq caseless_isWordChar ht).mpr hw.tail⟩
  cases w
  case nil => cases hc
  case cons d w =>
    cases hc
    cases w'
    case nil => cases h
    case cons d w' =>
      have hd : d.toLower = c.toLower := (List.cons.inj h).left
      refine ⟨d, rfl, ?_⟩
      rcases hl with hl | rfl
      · exact .inl (by rw [← isLetter_toLower, hd, isLetter_toLower, hl])
      · exact .inr (eq_of_toLower_eq hd rfl)

theorem ofWord_of_lower_eq (h : lower w' = lower w) : Token.Kind.ofWord w' = .ofWord w := by
  rw [Token.Kind.ofWord, Token.Kind.ofWord, ← Token.Kind.ofReserved?_lower w', h,
    Token.Kind.ofReserved?_lower]

theorem of_cuts_of_isWord (hw : IsWord w) (hk : k ≠ .schemaUri) (h : Cuts k w r) :
    k = .ofWord w ∧ startsUri (w ++ r) = false ∧ r.Stops isWordChar := by
  have ⟨c, u, he, hf⟩ := h
  have ⟨d, hd, hl⟩ := hw.head
  have hc : d = c := by
    cases w
    case nil => cases hd
    case cons => cases hd; exact (List.cons.inj he).left
  subst hc
  have hq : d ≠ '"' := by rintro rfl; revert hl; decide
  have hb := beginsNumber_eq_false hl
  have hm := ofMark?_eq_none (hl.imp_left isWordChar_of_isLetter)
  have hl : (isLetter d || d = '$') = true := by simpa using hl
  simp only [first, hm, hq, hb, hl, if_false, if_true, Bool.false_eq_true] at hf
  rw [he]
  split at hf
  case isTrue hs => exact absurd (isSchemaUri_of_schemaUri hs hf).left hk
  case isFalse hs =>
    cases hf
    exact ⟨rfl, Bool.eq_false_iff.mpr hs, stops_dropWhile isWordChar u⟩

theorem Cuts.admits (h : Cuts k w r) : k.Admits w :=
  have ⟨_, _, _, hf⟩ := h
  first_admits hf

-- A word in another case is cut off too.
theorem Cuts.inCase (h : Cuts k w r) (hk : k ∈ Token.Kind.caseless) (hw : lower w' = lower w) :
    Cuts k w' r := by
  have hs : k ≠ .schemaUri := by rintro rfl; revert hk; decide
  have hword : IsWord w := by
    have ha := h.admits
    revert hk
    simp only [Token.Kind.caseless, List.mem_cons, List.not_mem_nil, or_false]
    rintro (rfl | rfl | rfl | rfl | rfl | rfl) <;> exact isWord_of_reserves ha
  have ⟨ho, hu, hr⟩ := of_cuts_of_isWord hword hs h
  rw [ho, ← ofWord_of_lower_eq hw]
  refine cuts_word_of (isWord_of_lower_eq hw hword) ?_ hr
  rw [← hu]
  exact startsUri_congr (sight_append_congr hw rfl)

end Lexeme

open Lexeme

-- Another way of writing a token: as it is, or a keyword in another case.
def Token.Respelled (t : Token) (w : Text) : Prop :=
  w = t.text ∨ t.kind ∈ Token.Kind.caseless ∧ lower w = lower t.text

-- Another way of writing tokens with gaps around them. Between two tokens there is a gap where there was
-- one.
structure Respells (gaps : List Text) (ts : List Token) (gaps' texts : List Text) : Prop where
  gapCount  : gaps'.length = gaps.length
  textCount : texts.length = ts.length
  blank     : ∀ g ∈ gaps', g.Blank
  apart     : ∀ (i : Nat) (g g' : Text), 0 < i → i < ts.length → gaps[i]? = some g →
    gaps'[i]? = some g' → (g' = [] ↔ g = [])
  words     : ∀ (i : Nat) (t : Token) (w : Text), ts[i]? = some t → texts[i]? = some w → t.Respelled w

namespace Token.Respelled

variable {t : Token} {w r r' : Text}

theorem lower_eq (h : t.Respelled w) : lower w = lower t.text :=
  h.elim (congrArg lower) (·.right)

theorem cuts (h : t.Respelled w) (hc : Cuts t.kind t.text r) (hr : sight r' = sight r) :
    Cuts t.kind w r' := by
  cases h
  case inl h => exact h ▸ hc.congr hr
  case inr h => exact (hc.congr hr).inCase h.left h.right

theorem sense_eq {u : Token} (h : t.Respelled w) (hk : u.kind = t.kind) (hw : u.text = w) :
    u.sense = t.sense := by
  rw [Token.sense, Token.sense, hk, hw]
  cases h
  case inl h => rw [h]
  case inr h => rw [if_pos h.left, if_pos h.left, h.right]

end Token.Respelled

namespace Respells

variable {g g' f : Text} {gs gs' ws : List Text} {t : Token} {ts : List Token}

theorem nil (h : Respells [g] [] (g' :: gs') ws) : gs' = [] ∧ ws = [] ∧ g'.Blank :=
  ⟨List.length_eq_zero_iff.mp (Nat.succ.inj h.gapCount), List.length_eq_zero_iff.mp h.textCount,
    h.blank g' List.mem_cons_self⟩

theorem uncons (h : Respells (g :: f :: gs) (t :: ts) (g' :: gs') ws) :
    ∃ f' gs'' w ws', gs' = f' :: gs'' ∧ ws = w :: ws' ∧ g'.Blank ∧ t.Respelled w ∧
      (ts ≠ [] → (f' = [] ↔ f = [])) ∧ Respells (f :: gs) ts (f' :: gs'') ws' := by
  have hg := Nat.succ.inj h.gapCount
  have hw := h.textCount
  cases gs'
  case nil => cases hg
  case cons f' gs' =>
    cases ws
    case nil => cases hw
    case cons w ws =>
      have hb := List.forall_mem_cons.mp h.blank
      refine ⟨f', gs', w, ws, rfl, rfl, hb.left, h.words 0 t w rfl rfl, fun hn => ?_, ?_⟩
      case refine_1 =>
        have := List.length_pos_iff.mpr hn
        exact h.apart 1 f f' Nat.one_pos (by rw [List.length_cons]; omega) rfl rfl
      case refine_2 =>
        exact {
          gapCount  := hg
          textCount := Nat.succ.inj hw
          blank     := hb.right
          apart     := fun i e e' _ hl => h.apart (i + 1) e e' (Nat.succ_pos i) (Nat.succ_lt_succ hl)
          words     := fun i => h.words (i + 1)
        }

theorem single (hg : g'.Blank) : Respells [g] [] [g'] [] where
  gapCount  := rfl
  textCount := rfl
  blank     := List.forall_mem_singleton.mpr hg
  apart     := nofun
  words     := nofun

theorem cons {f' w : Text} (hg : g'.Blank) (hw : t.Respelled w) (hf : ts ≠ [] → (f' = [] ↔ f = []))
    (h : Respells (f :: gs) ts (f' :: gs') ws) :
    Respells (g :: f :: gs) (t :: ts) (g' :: f' :: gs') (w :: ws) where
  gapCount  := congrArg (· + 1) h.gapCount
  textCount := congrArg (· + 1) h.textCount
  blank     := List.forall_mem_cons.mpr ⟨hg, h.blank⟩
  apart     := by
    intro i e e' hi hl he he'
    match i with
    | 0 => cases hi
    | 1 =>
      cases he
      cases he'
      exact hf (List.length_pos_iff.mp (Nat.lt_of_succ_lt_succ hl))
    | i + 2 => exact h.apart (i + 1) e e' (Nat.succ_pos i) (Nat.lt_of_succ_lt_succ hl) he he'
  words     := by
    intro i u v hu hv
    cases i
    case zero   => cases hu; cases hv; exact hw
    case succ i => exact h.words i u v hu hv

-- Behind a gap that is there where it was, the texts look the same.
theorem sight_eq (h : Respells (g :: gs) ts (g' :: gs') ws) (hl : gs.length = ts.length)
    (hb : ∀ e ∈ g :: gs, e.Blank) (hg : ts ≠ [] → (g' = [] ↔ g = [])) :
    sight (weave (g' :: gs') ws) = sight (weave (g :: gs) (Token.texts ts)) := by
  have hs {e : Text} (he : e.Blank) : sight e = [] := sight_of_stops he.stops
  induction ts generalizing g gs g' gs' ws
  case nil =>
    cases List.length_eq_zero_iff.mp hl
    obtain ⟨rfl, rfl, hb'⟩ := h.nil
    simp [weave, Token.texts, hs hb', hs (hb g List.mem_cons_self)]
  case cons t ts ih =>
    cases gs
    case nil => cases hl
    case cons f gs =>
      obtain ⟨f', gs'', w, ws', rfl, rfl, hb', hw, hf, ht⟩ := h.uncons
      obtain ⟨hbg, hb⟩ := List.forall_mem_cons.mp hb
      have hg := hg (List.cons_ne_nil _ _)
      simp only [weave, Token.texts, List.map_cons, List.append_assoc]
      by_cases hn : g = []
      case pos =>
        rw [hn, hg.mpr hn, List.nil_append, List.nil_append]
        exact sight_append_congr hw.lower_eq (ih ht (Nat.succ.inj hl) hb hf)
      case neg =>
        rw [sight_of_stops (hbg.stops_append hn _), sight_of_stops (hb'.stops_append (mt hg.mp hn) _)]

end Respells

namespace Scanner

variable {s s' s₁ : Scanner} {g g' v : Text} {gs gs' ws : List Text} {t : Token} {ts : List Token}

-- A token that is made takes its text, and the white space before it.
theorem cuts_of_next? (h : s.next? = some (.ok t, s')) (hs : s.rest = g ++ (t.text ++ v)) (hg : g.Blank) :
    s'.rest = v ∧ Cuts t.kind t.text v := by
  have ⟨c, r, hd, hf⟩ := exists_first_of_next? h
  have ⟨happend, hne⟩ := first_starts hf
  have hstops : (t.text ++ v).Stops isBlank := by
    cases ht : t.text
    case nil => exact absurd ht hne
    case cons d u =>
      dsimp only at happend
      rw [ht] at happend
      cases happend
      exact .cons (isBlank_eq_false_of_first hf)
  rw [hs, dropBlank_append hg, dropBlank_of_stops hstops] at hd
  have hr : s'.rest = v := List.append_cancel_left (happend.trans hd.symm)
  exact ⟨hr, c, r, hd, hr ▸ hf⟩

-- The tokens of a text that is written in another way.
theorem scan_of_respells (hs : s.scan = ⟨ts, none⟩) (hrest : s.rest = weave (g :: gs) (Token.texts ts))
    (hl : gs.length = ts.length) (hb : ∀ e ∈ g :: gs, e.Blank) (h : Respells (g :: gs) ts (g' :: gs') ws)
    (hrest₁ : s₁.rest = weave (g' :: gs') ws) :
    ∃ ts', s₁.scan = ⟨ts', none⟩ ∧ ts'.map Token.sense = ts.map Token.sense ∧
      Token.texts ts' = ws := by
  induction ts generalizing s s₁ g gs g' gs' ws
  case nil =>
    cases List.length_eq_zero_iff.mp hl
    obtain ⟨rfl, rfl, hb'⟩ := h.nil
    exact ⟨[], (Makes.stay s₁).scan ⟨g', hb', hrest₁⟩, rfl, rfl⟩
  case cons t ts ih =>
    cases gs
    case nil => cases hl
    case cons f gs =>
      obtain ⟨f', gs'', w, ws', rfl, rfl, hb', hw, hf, ht⟩ := h.uncons
      obtain ⟨hbg, hb⟩ := List.forall_mem_cons.mp hb
      simp only [weave, Token.texts, List.map_cons, List.append_assoc] at hrest hrest₁
      obtain ⟨s', hn, _⟩ := exists_next?_of_scan (congrArg Scan.tokens hs)
      obtain ⟨htokens, hnone⟩ := Scan.mk.inj ((scan_of_token hn).symm.trans hs)
      have hs' : s'.scan = ⟨ts, none⟩ := by rw [← (List.cons.inj htokens).right, ← hnone]
      obtain ⟨hr', hc⟩ := cuts_of_next? hn hrest hbg
      have hsight := ht.sight_eq (Nat.succ.inj hl) hb hf
      obtain ⟨t₁, s₂, hk, hw₁, hn₁, hr₁⟩ := next?_of_cuts (hw.cuts hc hsight) ⟨g', hb', hrest₁⟩
      obtain ⟨ts', hts', hsense, htexts⟩ := ih hs' hr' (Nat.succ.inj hl) hb ht hr₁
      refine ⟨t₁ :: ts', by rw [scan_of_token hn₁, hts'], ?_, ?_⟩
      · rw [List.map_cons, List.map_cons, hsense, hw.sense_eq hk hw₁]
      · rw [Token.texts, List.map_cons, hw₁]
        exact congrArg (w :: ·) htexts

end Scanner

variable {input : Text} {gaps gaps' texts : List Text} {ts : List Token}

theorem scan_eq_of_tokenize (h : tokenize input = .ok ts) : (Scanner.ofText input).scan = ⟨ts, none⟩ := by
  unfold tokenize Scan.result at h
  split at h
  case h_1 hf => cases h; rw [← hf]
  case h_2    => cases h

-- A text that is written in another way has tokens that are alike.
theorem tokenize_of_respells (h : tokenize input = .ok ts) (hd : Divides [] input gaps ts [])
    (hr : Respells gaps ts gaps' texts) :
    ∃ ts', tokenize (weave gaps' texts) = .ok ts' ∧ ts'.map Token.sense = ts.map Token.sense ∧
      Token.texts ts' = texts := by
  have hl := hd.length
  have hl' := hr.gapCount.trans hl
  have ⟨g, gs, hg⟩ := List.exists_cons_of_length_eq_add_one hl
  have ⟨g', gs', hg'⟩ := List.exists_cons_of_length_eq_add_one hl'
  subst hg hg'
  have hrest := hd.append.symm.trans (List.append_nil _)
  have hrest' : (Scanner.ofText (weave (g' :: gs') texts)).rest = weave (g' :: gs') texts := rfl
  have ⟨ts', hts', hsense, htexts⟩ := Scanner.scan_of_respells (scan_eq_of_tokenize h) hrest
    (Nat.succ.inj hl) hd.blank hr hrest'
  exact ⟨ts', by rw [tokenize, hts', Scan.result], hsense, htexts⟩

end AttributeFilter
