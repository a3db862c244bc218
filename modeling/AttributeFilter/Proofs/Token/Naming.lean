import AttributeFilter.Proofs.Grammar.Qualifying
import AttributeFilter.Proofs.Token.Respelling

/-!
Texts that begin with a name. Up to the first character that cannot belong to a schema URI there is no colon
in them, so a schema that is put in front is cut off where it ends.
-/

namespace AttributeFilter

open Text Lexeme Grammar

theorem Text.mem_takeWhile_append {p : Char → Bool} {t u : Text} {c : Char}
    (h : c ∈ (t ++ u).takeWhile p) : c ∈ t ∨ c ∈ u.takeWhile p := by
  rw [List.takeWhile_append] at h
  split at h
  case isTrue  => exact List.mem_append.mp h
  case isFalse => exact .inl ((List.takeWhile_prefix p).mem h)

-- Of the characters of a schema URI, only the colon and the dot are not those of a word.
theorem Lexeme.eq_of_isUriChar {c : Char} (h : isUriChar c = true) (hw : isWordChar c = false) :
    c = ':' ∨ c = '.' := by
  simpa [isUriChar, hw] using h

namespace Scanner

variable {s s' : Scanner} {t u : Token} {c : Char} {r : Text}

-- Behind a name the scanner stands at no character of a word.
theorem name_of_next? (h : s.next? = some (.ok t, s')) (ht : t.kind = .identifier) :
    dropBlank s.rest = t.text ++ s'.rest ∧ IsWord t.text ∧ s'.rest.Stops isWordChar := by
  have ⟨c, r, hd, hf⟩ := exists_first_of_next? h
  have ha := isLexeme_of_next? h
  unfold Token.IsLexeme at ha
  rw [ht] at ha hf
  have he := (first_starts hf).append
  have hk : Token.Kind.identifier ≠ .schemaUri := nofun
  exact ⟨hd.trans he.symm, ha.left, (of_cuts_of_isWord ha.left hk ⟨c, r, he, hf⟩).right.right⟩

-- A colon in the run comes behind the name, as the next character or behind a dot.
theorem exists_mark_of_next? (h : s.next? = some (.ok t, s')) (ht : t.kind = .identifier)
    (hm : ':' ∈ s.rest.takeWhile isUriChar) :
    ∃ c r, s'.rest = c :: r ∧ (c = ':' ∨ c = '.' ∧ ':' ∈ r.takeWhile isUriChar) := by
  have ⟨hd, hw, hs⟩ := name_of_next? h ht
  have hrest : s.rest = t.text ++ s'.rest := by
    rw [← hd]
    refine (dropBlank_of_stops ?_).symm
    cases hr : s.rest
    case nil => exact nofun
    case cons c r =>
      apply Stops.cons
      rw [hr, List.takeWhile_cons] at hm
      split at hm
      case isTrue hc => exact isBlank_of_isUriChar hc
      case isFalse   => cases hm
  rw [hrest] at hm
  rcases mem_takeWhile_append hm with hm | hm
  · exact absurd rfl (ne_colon_of_isWord hw hm)
  · cases hr : s'.rest
    case nil => rw [hr] at hm; cases hm
    case cons c r =>
      rw [hr, List.takeWhile_cons] at hm
      split at hm
      case isFalse   => cases hm
      case isTrue hc =>
        refine ⟨c, r, rfl, ?_⟩
        rcases eq_of_isUriChar hc (hs c (hr ▸ rfl)) with rfl | rfl
        · exact .inl rfl
        · exact .inr ⟨rfl, (List.mem_cons.mp hm).resolve_left nofun⟩

-- The scanner makes a mark where it stands before one.
theorem exists_scan_of_mark {k : Token.Kind} (hr : s.rest = c :: r) (hm : Token.Kind.ofMark? c = some k) :
    ∃ (u : Token) (s' : Scanner), s.scan.tokens = u :: s'.scan.tokens ∧ u.kind = k ∧ s'.rest = r := by
  have ⟨u, s', hk, _, hn, hs⟩ := next?_of_cuts (cuts_mark hm r) (.of_eq hr)
  exact ⟨u, s', congrArg Scan.tokens (scan_of_token hn), hk, hs⟩

-- Names and dots alone have no colon in them.
theorem colon_notMem_of_scan {rest : List Token} (more : List Member)
    (hs : s.scan.tokens = t :: (more.flatMap Member.tokens ++ rest)) (ht : t.kind = .identifier)
    (hr : isNext [.dot, .colon] rest = false) : ':' ∉ s.rest.takeWhile isUriChar := by
  induction more generalizing s t
  all_goals
    intro hm
    obtain ⟨s₁, hn, hs₁⟩ := exists_next?_of_scan hs
    obtain ⟨c, r, hrest, hc⟩ := exists_mark_of_next? hn ht hm
  case nil =>
    have hk : ∃ k ∈ [Token.Kind.dot, .colon], Token.Kind.ofMark? c = some k := by
      rcases hc with rfl | ⟨rfl, _⟩
      · exact ⟨.colon, by simp, rfl⟩
      · exact ⟨.dot, by simp, rfl⟩
    obtain ⟨k, hk, hmark⟩ := hk
    obtain ⟨u, _, hu, rfl, _⟩ := exists_scan_of_mark hrest hmark
    have he : rest = u :: _ := hs₁.symm.trans hu
    rw [he, isNext_cons, decide_eq_false_iff_not] at hr
    exact hr hk
  case cons m more ih =>
    have hdot := m.dot.kind_eq
    rcases hc with rfl | ⟨rfl, hm⟩
    · obtain ⟨u, s₂, hu, hk, _⟩ := exists_scan_of_mark hrest (k := .colon) rfl
      have he : m.dot.token = u := (List.cons.inj (hs₁.symm.trans hu)).left
      cases hdot.symm.trans (he ▸ hk)
    · obtain ⟨u, s₂, hu, hk, rfl⟩ := exists_scan_of_mark hrest (k := .dot) rfl
      have hs₂ := (List.cons.inj (hs₁.symm.trans hu)).right.symm
      exact ih hs₂ m.name.kind_eq hm

end Scanner
end AttributeFilter
