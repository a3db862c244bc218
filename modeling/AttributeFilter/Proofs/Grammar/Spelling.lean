import AttributeFilter.Proofs.Token.Spelling
import AttributeFilter.Tree.Text

/-!
The text of a canonical tree spells a derivation that means the tree.
-/

namespace AttributeFilter.Grammar

open Text Lexeme

variable {w r s : Text} {ss : List Text} {k : Token.Kind} {p : Path}

-- The segments of a path behind the first one are names.
theorem spells_segments (kinds : List Token.Kind) (hk : k ∈ kinds)
    (hc : ∀ r, r.Stops continuesWord → Cuts k s r) (hs : ∀ s ∈ ss, s.IsName) (hr : r.Ends nameEnds) :
    Spells (fun n : Terminal kinds × List Member => n.1.token :: n.2.flatMap Member.tokens)
      (fun n => n.1.token.text = s ∧ n.2.map Member.text = ss) (joined ['.'] (s :: ss)) r := by
  induction ss generalizing k kinds s
  case nil =>
    have hr : r.Stops continuesWord := hr.stops (by decide)
    exact (Spells.terminal _ hk (hc r hr)).map fun t ⟨_, ht⟩ => ⟨(t, []), ⟨ht, rfl⟩, rfl⟩
  case cons s' ss ih =>
    have ⟨hs', hs⟩ := List.forall_mem_cons.mp hs
    have hm := ih [.identifier] List.mem_cons_self (fun _ => cuts_name hs') hs
    have hd := Spells.terminal [.dot] List.mem_cons_self
      (cuts_mark (c := '.') rfl (joined ['.'] (s' :: ss) ++ r))
    have hf := Spells.terminal _ hk (hc ('.' :: (joined ['.'] (s' :: ss) ++ r)) (.cons rfl))
    have he : joined ['.'] (s :: s' :: ss) = s ++ (['.'] ++ joined ['.'] (s' :: ss)) :=
      List.append_assoc ..
    rw [he]
    apply (hf.andThen (hd.andThen hm)).map
    intro ⟨t, d, n, ms⟩ ⟨⟨_, ht⟩, _, hn, hm⟩
    exact ⟨(t, ⟨d, n⟩ :: ms), ⟨ht, by rw [List.map_cons, hm, ← hn]; rfl⟩, rfl⟩

theorem mem_joined {c : Char} (h : c ∈ joined ['.'] ss) : c = '.' ∨ ∃ s ∈ ss, c ∈ s := by
  induction ss
  case nil => cases h
  case cons s ss ih =>
    cases ss
    case nil => exact .inr ⟨s, List.mem_cons_self, h⟩
    case cons s' ss =>
      have h : c ∈ s ++ ['.'] ++ joined ['.'] (s' :: ss) := h
      simp only [List.mem_append, List.mem_singleton] at h
      rcases h with (h | h) | h
      · exact .inr ⟨s, List.mem_cons_self, h⟩
      · exact .inl h
      · exact (ih h).imp_right fun ⟨t, ht, hc⟩ => ⟨t, List.mem_cons_of_mem _ ht, hc⟩

theorem isWord_of_isQualifiedName (h : s.IsQualifiedName) :
    IsWord s ∧ ∃ c ∈ s.head?, isLetter c = true := by
  cases h
  case inl h => exact ⟨h.left.left, h.right⟩
  case inr h =>
    have hw := isWord_of_reserves h
    have ⟨c, hc, _⟩ := hw.head
    exact ⟨hw, c, hc, letters_of_reserves h c (List.mem_of_head? hc)⟩

theorem cuts_qualifiedName (h : s.IsQualifiedName) :
    ∃ k ∈ [Token.Kind.identifier, .not], ∀ r, r.Stops continuesWord → Cuts k s r := by
  cases h
  case inl h => exact ⟨.identifier, by decide, fun _ => cuts_name h.left⟩
  case inr h => exact ⟨.not, by decide, fun _ => cuts_reserved h⟩

theorem exists_joined_eq_cons (ss : List Text) (h : c ∈ s.head?) :
    ∃ v, joined ['.'] (s :: ss) = c :: v := by
  cases s
  case nil => cases h
  case cons =>
    cases h
    cases ss
    case nil  => exact ⟨_, rfl⟩
    case cons => exact ⟨_, rfl⟩

theorem ne_colon_of_mem_joined {c : Char} (hw : IsWord s) (hm : ∀ s ∈ ss, s.IsName)
    (h : c ∈ joined ['.'] (s :: ss)) : c ≠ ':' := by
  cases mem_joined h
  case inl h => exact h ▸ by decide
  case inr h =>
    have ⟨t, ht, hc⟩ := h
    cases ht
    case head    => exact ne_colon_of_isWord hw hc
    case tail ht => exact ne_colon_of_isWord (hm t ht).left hc

theorem cuts_schema {u : Text} (hu : IsSchemaUri u) (hs : s.IsQualifiedName)
    (hm : ∀ s ∈ ss, s.IsName) (hr : r.Ends nameEnds) :
    Cuts .schemaUri u (':' :: (joined ['.'] (s :: ss) ++ r)) := by
  have ⟨hw, c, hc, hl⟩ := isWord_of_isQualifiedName hs
  have ⟨v, hv⟩ := exists_joined_eq_cons ss hc
  have hc : ∃ c ∈ (joined ['.'] (s :: ss)).head?, isUriChar c = true :=
    ⟨c, by rw [hv]; rfl, by simp [isUriChar, isWordChar_of_isLetter hl]⟩
  exact cuts_schemaUri_before hu hc (fun _ => ne_colon_of_mem_joined hw hm) (hr.stops (by decide))

-- The text of a path before its value filter.
def nameText (p : Path) : Text :=
  (p.schema?.elim [] fun s => s ++ [':']) ++ joined ['.'] p.segments

theorem spells_name (hp : p.IsNamed) (hr : r.Ends nameEnds) :
    Spells Name.tokens (fun n => n.schema? = p.schema? ∧ n.segments = p.segments) (nameText p) r := by
  rw [nameText, p.segments_eq]
  cases hs : p.schema?
  case none =>
    have hn := hp.plain hs
    refine (spells_segments [.identifier] List.mem_cons_self (fun _ => cuts_name hn)
      hp.more hr).map ?_
    intro ⟨t, ms⟩ ⟨ht, hm⟩
    exact ⟨.plain t ms, ⟨rfl, by rw [Name.segments, ht, hm]⟩, rfl⟩
  case some u =>
    have hn := hp.qualified (by simp [hs])
    have ⟨k, hk, hc⟩ := cuts_qualifiedName hn
    have hu := Spells.terminal [.schemaUri] List.mem_cons_self
      (cuts_schema (hp.schema u hs) hn hp.more hr)
    have hd := Spells.terminal [.colon] List.mem_cons_self
      (cuts_mark (c := ':') rfl (joined ['.'] (p.first :: p.segments.tail) ++ r))
    rw [Option.elim_some, List.append_assoc]
    apply (hu.andThen (hd.andThen (spells_segments _ hk hc hp.more hr))).map
    intro ⟨u', c, t, ms⟩ ⟨⟨_, hu'⟩, _, ht, hm⟩
    refine ⟨.qualified u' c t ms, ⟨congrArg some hu', ?_⟩, rfl⟩
    rw [Name.segments, ht, hm]

variable {P : Derivation .filter → Prop}

theorem spells_group (h : Spells (fun d => d.tokens) P w ([')'] ++ r)) :
    Spells (fun n : Terminal [.leftParen] × Derivation .filter × Terminal [.rightParen] =>
      (Derivation.group n.1 n.2.1 n.2.2).tokens) (fun n => P n.2.1) (Tree.inParens w) r := by
  have hl := Spells.terminal [.leftParen] List.mem_cons_self
    (cuts_mark (c := '(') rfl (w ++ [')'] ++ r))
  have hr := Spells.terminal [.rightParen] List.mem_cons_self (cuts_mark (c := ')') rfl r)
  apply (hl.andThen (h.andThen hr)).map
  intro n ⟨_, hn, _⟩
  exact ⟨n, hn, rfl⟩

theorem spells_brackets (hp : p.IsNamed) (h : Spells (fun d => d.tokens) P w ([']'] ++ r)) :
    Spells (fun n : Name × Terminal [.leftBracket] × Derivation .filter × Terminal [.rightBracket] =>
      n.1.tokens ++ ([n.2.1.token] ++ (n.2.2.1.tokens ++ [n.2.2.2.token])))
      (fun n => (n.1.schema? = p.schema? ∧ n.1.segments = p.segments) ∧ P n.2.2.1)
      (nameText p ++ (['['] ++ (w ++ [']']))) r := by
  have hn := spells_name (r := ['['] ++ (w ++ [']']) ++ r) hp (.cons (by decide))
  have hl := Spells.terminal [.leftBracket] List.mem_cons_self
    (cuts_mark (c := '[') rfl (w ++ [']'] ++ r))
  have hr := Spells.terminal [.rightBracket] List.mem_cons_self (cuts_mark (c := ']') rfl r)
  apply (hn.andThen (hl.andThen (h.andThen hr))).map
  intro n ⟨hn, _, ht, _⟩
  exact ⟨n, ⟨hn, ht⟩, rfl⟩

theorem spells_negation {P : Derivation .factor → Prop} (h : Spells (fun d => d.tokens) P w r) :
    Spells (fun n : Terminal [.not] × Derivation .factor => (Derivation.negation n.1 n.2).tokens)
      (fun n => P n.2) ("not".toList ++ ' ' :: w) r := by
  have hw : Token.Kind.Reserves .not "not".toList := .of_mem (by decide)
  have hn := Spells.terminal [.not] List.mem_cons_self
    (cuts_reserved hw (r := ' ' :: (w ++ r)) (.cons rfl))
  apply (hn.andBehind h).map
  intro n ⟨_, hn⟩
  exact ⟨n, hn, rfl⟩

-- Two texts with a word between them.
theorem spells_between {α β : Type} {tokens : α → List Token} {tokens' : β → List Token}
    {P : α → Prop} {Q : β → Prop} {u word : Text} (hw : k.Reserves word)
    (h : Spells tokens P w (' ' :: (word ++ ' ' :: u ++ r))) (h' : Spells tokens' Q u r) :
    Spells (fun n : α × Terminal [k] × β => tokens n.1 ++ n.2.1.token :: tokens' n.2.2)
      (fun n => P n.1 ∧ Q n.2.2) (w ++ ' ' :: (word ++ ' ' :: u)) r := by
  have hw := Spells.terminal [k] List.mem_cons_self
    (cuts_reserved hw (r := ' ' :: (u ++ r)) (.cons rfl))
  apply (h.andBehind (hw.andBehind h')).map
  intro n ⟨hn, _, hn'⟩
  exact ⟨n, ⟨hn, hn'⟩, rfl⟩

-- A text spells derivations of a symbol that mean something and have so many levels open at a time.
def Says (levels : Nat) (s : Symbol) (m : Meaning s) (w r : Text) : Prop :=
  Spells (fun d : Derivation s => d.tokens) (fun d => d.meaning = m ∧ d.depth = levels) w r

theorem says_bare (hp : p.IsNamed) (hs : p.sub? = none) (hr : r.Ends operandEnds) :
    Says 0 .path (p, none) (p.text []) r := by
  have he : p.text [] = nameText p := by simp [Path.text, nameText, hs]
  have hr : r.Ends nameEnds := hr.mono (by decide)
  rw [he]
  refine (spells_name hp hr).map fun n ⟨h₁, h₂⟩ => ⟨.bare n, ⟨?_, rfl⟩, rfl⟩
  rw [Derivation.meaning, Path.eq_of (p := n.path none) h₁ h₂ hs.symm]

theorem spells_sub {t : Text} (ht : t.IsName) (hr : r.Ends operandEnds) :
    Spells Member.tokens (fun m => m.text = t) (['.'] ++ t) r := by
  have hd := Spells.terminal [.dot] List.mem_cons_self (cuts_mark (c := '.') rfl (t ++ r))
  have hn := Spells.terminal [.identifier] List.mem_cons_self
    (cuts_name ht (hr.stops (by decide)))
  apply (hd.andThen hn).map
  intro ⟨d, n⟩ ⟨_, _, hn⟩
  exact ⟨⟨d, n⟩, hn, rfl⟩

theorem says_filtered {levels : Nat} {t : Tree} (hp : p.IsNamed) (ht : ∀ r, r.Ends operandEnds →
    Says levels .filter (some t) t.text r) (hr : r.Ends operandEnds) :
    Says (levels + 1) .path (p, some t) (p.text (Tree.filterText (some t))) r := by
  have hb (r : Text) := spells_brackets hp (ht ([']'] ++ r) (.cons (by decide)))
  have he : p.text (Tree.filterText (some t)) =
      nameText p ++ (['['] ++ (t.text ++ [']'])) ++ p.sub?.elim [] fun s => ['.'] ++ s := by
    simp [Path.text, nameText, Tree.filterText]
  rw [he]
  cases hs : p.sub?
  case none =>
    rw [Option.elim_none, List.append_nil]
    apply (hb r).map
    rintro n ⟨hn, hm, hl⟩
    refine ⟨.filtered n.1 n.2.1 n.2.2.1 n.2.2.2 none, ⟨?_, congrArg Nat.succ hl⟩,
      by simp [Derivation.tokens]⟩
    rw [Derivation.meaning, hm, Path.eq_of (p := n.1.path none) hn.left hn.right hs.symm]
  case some u =>
    rw [Option.elim_some]
    apply ((hb (['.'] ++ u ++ r)).andThen (spells_sub (hp.sub u hs) hr)).map
    rintro n ⟨⟨hn, hm, hl⟩, hu⟩
    refine ⟨.filtered n.1.1 n.1.2.1 n.1.2.2.1 n.1.2.2.2 (some n.2), ⟨?_, congrArg Nat.succ hl⟩,
      by simp [Derivation.tokens]⟩
    have hs : (n.1.1.path (some n.2)).sub? = p.sub? := hs ▸ congrArg some hu
    rw [Derivation.meaning, hm, Path.eq_of (p := n.1.1.path (some n.2)) hn.left hn.right hs]

end AttributeFilter.Grammar
