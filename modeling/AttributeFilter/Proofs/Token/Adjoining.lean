import AttributeFilter.Proofs.Token.Cuts

/-!
What the scanner makes behind a schema URI: a colon, and directly behind it something that starts with a
character of the URI. A name that stands there starts with a letter.
-/

namespace AttributeFilter

open Text Lexeme

variable {c : Char} {r w : Text} {l : Lexeme}

namespace Token.Kind

theorem ofWord_ne_schemaUri (w : Text) : ofWord w ≠ schemaUri := by
  unfold ofWord
  cases hk : ofReserved? w
  case none => nofun
  case some k =>
    intro he
    cases he
    cases ofReserved?_eq_some_iff.mp hk
    case word hm _ => revert hm; simp [reservedWords]

end Token.Kind

namespace Lexeme

theorem rest_of_schemaUri {t : Text} (h : schemaUri t = .ok l) :
    ∃ c v, l.rest = ':' :: c :: v ∧ isUriChar c = true := by
  simp only [schemaUri] at h
  split at h
  case h_1 => cases h
  case h_2 uri name hn =>
    split at h
    case isFalse => cases h
    case isTrue hl =>
      cases h
      have hrun := append_of_splitLastColon? hn
      have ht : uri ++ (':' :: name ++ t.dropWhile isUriChar) = t := by
        rw [← List.append_assoc, hrun, List.takeWhile_append_dropWhile]
      cases name
      case nil => exact absurd rfl hl.right
      case cons c name =>
        have hc : c ∈ t.takeWhile isUriChar := by
          rw [← hrun]
          exact List.mem_append_right _ (List.mem_cons_of_mem _ List.mem_cons_self)
        have hd : t.drop uri.length = ':' :: c :: (name ++ t.dropWhile isUriChar) := by
          conv => lhs; rw [← ht, List.drop_left]
          rfl
        exact ⟨c, _, hd, List.all_eq_true.mp List.all_takeWhile c hc⟩

theorem rest_of_first (h : first c r = .ok l) (hk : l.kind = .schemaUri) :
    ∃ c v, l.rest = ':' :: c :: v ∧ isUriChar c = true := by
  unfold first at h
  split at h
  case h_1 hm =>
    cases h
    cases hk
    unfold Token.Kind.ofMark? at hm
    split at hm <;> cases hm
  case h_2 =>
    split at h
    case isTrue => cases (decode?_of_string h).left.symm.trans hk
    case isFalse =>
      split at h
      case isTrue => cases (isNumber_of_number h).left.symm.trans hk
      case isFalse =>
        split at h
        case isFalse => cases h
        case isTrue =>
          split at h
          case isTrue  => exact rest_of_schemaUri h
          case isFalse => cases h; exact absurd hk (Token.Kind.ofWord_ne_schemaUri _)

end Lexeme

-- The token is a word that can be the first segment of a path.
def Token.MayBegin (t : Token) : Prop :=
  t.kind = .identifier ∨ t.kind = .not

def Token.BeginsWithLetter (t : Token) : Prop :=
  ∃ c ∈ t.text.head?, isLetter c = true

-- What stands first behind a schema URI starts with a letter.
def Adjoining (ts : List Token) : Prop :=
  ∀ u c n, [u, c, n] <:+: ts → u.kind = .schemaUri → c.kind = .colon → n.MayBegin →
    n.BeginsWithLetter

namespace Adjoining

variable {ts us : List Token} {t : Token}

theorem within (h : Adjoining ts) (hi : us <:+: ts) : Adjoining us :=
  fun u c n hn => h u c n (hn.trans hi)

theorem left (h : Adjoining (ts ++ us)) : Adjoining ts :=
  h.within (List.prefix_append ts us).isInfix

theorem right (h : Adjoining (ts ++ us)) : Adjoining us :=
  h.within (List.suffix_append ts us).isInfix

theorem tail (h : Adjoining (t :: ts)) : Adjoining ts :=
  h.within (List.suffix_cons t ts).isInfix

end Adjoining

namespace Scanner

variable {s s' s'' : Scanner} {t t' : Token}

theorem exists_first_of_next? (h : s.next? = some (.ok t, s')) :
    ∃ c r, dropBlank s.rest = c :: r ∧ first c r = .ok ⟨t.kind, t.text, s'.rest⟩ := by
  unfold next? at h
  split at h
  case h_1 => cases h
  case h_2 c r hd =>
    simp only at h
    split at h
    case h_1 => cases h
    case h_2 hl => cases h; exact ⟨c, r, hd, hl⟩

theorem first_of_next? {r : Text} (hr : s.rest = c :: r) (hb : isBlank c = false)
    (h : s.next? = some (.ok t, s')) : first c r = .ok ⟨t.kind, t.text, s'.rest⟩ := by
  have ⟨d, u, hd, hl⟩ := exists_first_of_next? h
  have hr : dropBlank s.rest = c :: r := by
    rw [hr]
    exact List.dropWhile_cons_of_neg (by simp [hb])
  cases hr.symm.trans hd
  exact hl

theorem raw_of_next? (h : s.next? = some (.ok t, s')) :
    t.raw = leadingBlank s.rest ++ t.text ++ leadingBlank s'.rest := by
  unfold next? at h
  split at h
  case h_1 => cases h
  case h_2 =>
    simp only at h
    split at h
    case h_1 => cases h
    case h_2 => cases h; rfl

theorem exists_next?_of_scan {t : Token} {ts : List Token} (h : s.scan.tokens = t :: ts) :
    ∃ s', s.next? = some (.ok t, s') ∧ s'.scan.tokens = ts := by
  rw [scan] at h
  split at h
  case h_1 => cases h
  case h_2 => cases h
  case h_3 s' hn => cases h; exact ⟨s', hn, rfl⟩

-- A word that is read where a character of a URI stands starts with a letter.
theorem beginsWithLetter_of_next? {r : Text} (hr : s.rest = c :: r) (hc : isUriChar c = true)
    (h : s.next? = some (.ok t, s')) (ht : t.MayBegin) : t.BeginsWithLetter := by
  have hl := first_of_next? hr (isBlank_of_isUriChar hc) h
  have hs := (first_starts hl).append
  have hw : IsWord t.text := by
    have ha := isLexeme_of_next? h
    unfold Token.IsLexeme at ha
    cases ht
    case inl ht => rw [ht] at ha; exact ha.left
    case inr ht => rw [ht] at ha; exact isWord_of_reserves ha
  have ⟨d, hd, hl⟩ := hw.head
  refine ⟨d, hd, ?_⟩
  cases hl
  case inl hl => exact hl
  case inr hl =>
    cases ht : t.text
    case nil       => rw [ht] at hd; cases hd
    case cons e es =>
      rw [ht] at hd hs
      cases hd
      rw [← (List.cons.inj hs).left, hl] at hc
      cases hc

-- Behind a schema URI the scanner makes a colon, and it stands before a character of a URI then.
theorem colon_of_next? {u v : Token} (hn : s.next? = some (.ok u, s')) (hu : u.kind = .schemaUri)
    (hv : s'.next? = some (.ok v, s'')) :
    v.kind = .colon ∧ v.raw = v.text ∧ ∃ c r, s''.rest = c :: r ∧ isUriChar c = true := by
  have ⟨_, _, _, hf⟩ := exists_first_of_next? hn
  have ⟨d, w, hr, hd⟩ := rest_of_first hf hu
  have hr : s'.rest = ':' :: d :: w := hr
  have hf' := first_of_next? hr rfl hv
  have hm : first ':' (d :: w) = .ok ⟨.colon, [':'], d :: w⟩ := rfl
  have he := Except.ok.inj (hf'.symm.trans hm)
  have hk : v.kind = .colon := congrArg Lexeme.kind he
  have ht : v.text = [':'] := congrArg Lexeme.text he
  have hr' : s''.rest = d :: w := congrArg Lexeme.rest he
  refine ⟨hk, ?_, d, w, hr', hd⟩
  have hb : leadingBlank (d :: w) = [] := takeWhile_of_stops (.cons (isBlank_of_isUriChar hd))
  have hc : leadingBlank (':' :: d :: w) = [] := takeWhile_of_stops (.cons rfl)
  rw [raw_of_next? hv, hr, hr', hb, hc, List.nil_append, List.append_nil]

theorem beginsWithLetter_of_scan {u c n : Token} (hn : s.next? = some (.ok u, s'))
    (hs : [c, n] <+: s'.scan.tokens) (hu : u.kind = .schemaUri) (hb : n.MayBegin) :
    n.BeginsWithLetter := by
  have ⟨ts, hs⟩ := hs
  have ⟨s₁, hn₁, hs₁⟩ := exists_next?_of_scan hs.symm
  have ⟨s₂, hn₂, _⟩ := exists_next?_of_scan hs₁
  have ⟨_, _, _, _, hr, hd⟩ := colon_of_next? hn hu hn₁
  exact beginsWithLetter_of_next? hr hd hn₂ hb

theorem adjoining_of_scan (s : Scanner) : Adjoining s.scan.tokens := by
  fun_induction scan s
  case case1 => intro u c n h; cases h.length_le
  case case2 => intro u c n h; cases h.length_le
  case case3 s t s' hn _ ih =>
    intro u c n h hu hc hb
    cases List.infix_cons_iff.mp h
    case inl h =>
      have h := List.cons_prefix_cons.mp h
      cases h.left
      exact beginsWithLetter_of_scan hn h.right hu hb
    case inr h => exact ih u c n h hu hc hb

end Scanner

theorem adjoining_of_tokenize {t : Text} {ts : List Token} (h : tokenize t = .ok ts) :
    Adjoining ts := by
  unfold tokenize Scan.result at h
  split at h
  case h_1 => cases h; exact Scanner.adjoining_of_scan _
  case h_2 => cases h

end AttributeFilter
