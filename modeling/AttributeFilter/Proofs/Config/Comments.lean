import AttributeFilter.Config.Settings
import AttributeFilter.Proofs.Config.Expansion

/-!
References and comments. The comment of a line begins with the first number sign that stands in no string. The expansion
looks for the first number sign whether it stands in a string or not, and takes it for the beginning of the comment. So
a reference is left as it is if and only if it stands in a comment, unless a number sign in a string stands before a
reference outside of comments.
-/

namespace AttributeFilter.Config

open Text

-- Where a character of a line stands: outside of strings and comments, in a string with escapes, behind the backslash
-- of an escape, in a string without escapes, or in the comment of the line.
inductive Quoting where
  | bare
  | basic
  | escaped
  | literal
  | comment
deriving DecidableEq

namespace Quoting

-- Where the next character stands.
def step : Quoting → Char → Quoting
  | bare, '"'     => basic
  | bare, '\''    => literal
  | bare, '#'     => comment
  | basic, '"'    => bare
  | basic, '\\'   => escaped
  | escaped, _    => basic
  | literal, '\'' => bare
  | q, _          => q

-- Where what follows a text stands, if that begins at some place.
def after (q : Quoting) (t : Text) : Quoting :=
  t.foldl step q

-- In a string.
def IsInside (q : Quoting) : Prop :=
  q = basic ∨ q = escaped ∨ q = literal

end Quoting

-- What follows on a line stands in its comment.
def inComment (before : Text) : Bool :=
  Quoting.bare.after before = .comment

-- There is a number sign in a string.
def HasQuotedSign (before : Text) : Prop :=
  ∃ u v, before = u ++ '#' :: v ∧ (Quoting.bare.after u).IsInside

namespace Pieces

-- The text of the line before each reference.
def places (before : Text) : Pieces → List Text
  | rest _                   => []
  | reference gap name later => (before ++ gap) :: later.places (before ++ gap ++ referenceTo name)

-- The names in all references.
def names : Pieces → List Text
  | rest _                 => []
  | reference _ name later => name :: later.names

-- A number sign in a string stands before a reference that is in no comment.
def IsMisleading (p : Pieces) : Prop :=
  ∃ before ∈ p.places [], HasQuotedSign before ∧ inComment before = false

end Pieces

variable {c : Char} {t before : Text} {p : Pieces} {ps : List Pieces} {q : Quoting} {env : Environment}

namespace Quoting

theorem step_eq_comment_iff : q.step c = comment ↔ q = comment ∨ q = bare ∧ c = '#' := by
  fun_cases step q c <;> simp_all

theorem after_comment (t : Text) : comment.after t = comment := by
  induction t
  case nil         => rfl
  case cons c t ih => exact ih

-- A comment begins with a number sign.
theorem mem_of_after_eq_comment (hq : q ≠ comment) (h : q.after t = comment) : '#' ∈ t := by
  induction t generalizing q
  case nil         => exact absurd h hq
  case cons c t ih =>
    by_cases hc : q.step c = comment
    case pos =>
      have ⟨_, hc⟩ := (step_eq_comment_iff.mp hc).resolve_left hq
      exact hc ▸ List.mem_cons_self
    case neg => exact List.mem_cons_of_mem _ (ih hc h)

-- A number sign begins a comment or stands in one, or it stands in a string.
theorem after_eq_comment_or (h : '#' ∈ t) :
    q.after t = comment ∨ ∃ u v, t = u ++ '#' :: v ∧ (q.after u).IsInside := by
  induction t generalizing q
  case nil         => cases h
  case cons c t ih =>
    cases h
    case head =>
      cases q
      case bare    => exact .inl (after_comment t)
      case comment => exact .inl (after_comment t)
      case basic   => exact .inr ⟨[], t, rfl, .inl rfl⟩
      case escaped => exact .inr ⟨[], t, rfl, .inr (.inl rfl)⟩
      case literal => exact .inr ⟨[], t, rfl, .inr (.inr rfl)⟩
    case tail h =>
      cases ih (q := q.step c) h
      case inl hc => exact .inl hc
      case inr hu =>
        have ⟨u, v, ht, hi⟩ := hu
        exact .inr ⟨c :: u, v, congrArg (c :: ·) ht, hi⟩

end Quoting

-- The first number sign is the beginning of the comment, unless it stands in a string.
theorem behindSign_eq_inComment_iff :
    behindSign before = inComment before ↔ (HasQuotedSign before → inComment before = true) := by
  constructor
  case mp =>
    rintro h ⟨u, v, rfl, _⟩
    rw [← h]
    simp [behindSign]
  case mpr =>
    intro h
    cases hc : inComment before
    case true =>
      have hm := Quoting.mem_of_after_eq_comment (by decide) (of_decide_eq_true hc)
      simpa [behindSign] using hm
    case false =>
      have hs : '#' ∉ before := by
        intro hm
        cases Quoting.after_eq_comment_or (q := .bare) hm
        case inl ha => exact absurd (decide_eq_true ha) (Bool.eq_false_iff.mp hc)
        case inr hq => cases hc.symm.trans (h hq)
      simpa [behindSign] using hs

namespace Pieces

theorem not_isMisleading_iff :
    ¬p.IsMisleading ↔ ∀ before ∈ p.places [], behindSign before = inComment before := by
  simp only [behindSign_eq_inComment_iff, IsMisleading, not_exists, not_and, Bool.not_eq_false]

variable {idle idle' : Text → Bool} {name : Text}

theorem filled_congr (h : ∀ b ∈ p.places before, idle b = idle' b) :
    p.filled idle env before = p.filled idle' env before := by
  induction p generalizing before
  case rest                        => rfl
  case reference gap name later ih =>
    have ⟨hb, hl⟩ := List.forall_mem_cons.mp h
    rw [filled, filled, hb, ih hl]

theorem mem_names_of_mem_activeNames (h : name ∈ p.activeNames idle before) : name ∈ p.names := by
  induction p generalizing before
  case rest                       => cases h
  case reference gap other later ih =>
    cases List.mem_append.mp h
    case inl h =>
      split at h
      case isTrue  => cases h
      case isFalse => exact List.mem_singleton.mp h ▸ List.mem_cons_self
    case inr h => exact List.mem_cons_of_mem _ (ih h)

end Pieces

-- All references but those in comments are replaced, and nothing else is, if no number sign in a string stands before a
-- reference outside of comments.
theorem expand_outside_comments (h : IsTakenApart t ps)
    (hs : ∀ p ∈ ps, ∀ name ∈ p.names, (env.find? name).isSome) (hm : ∀ p ∈ ps, ¬p.IsMisleading) :
    expand env t = .ok (filled inComment env t ps) := by
  have hf : filled behindSign env t ps = filled inComment env t ps := by
    have hp : ∀ p ∈ ps, p.filled behindSign env [] = p.filled inComment env [] :=
      fun p hp => Pieces.filled_congr (Pieces.not_isMisleading_iff.mp (hm p hp))
    rw [filled, filled, List.map_congr_left hp]
  rw [expand_eq env h, hf, Environment.requiring_eq_ok_iff]
  refine ⟨fun name hn => ?_, rfl⟩
  obtain ⟨p, hp, hn⟩ := List.mem_flatMap.mp hn
  exact hs p hp name (Pieces.mem_names_of_mem_activeNames hn)

-- One number sign stands in a string with no reference behind it, and one begins a comment.
def commentedText : Text :=
  "level = '#'\nfilter = \"$\x7bA\x7d\" # $\x7bB\x7d\n".toList

def commentedPieces : List Pieces :=
  [.rest "level = '#'".toList,
   .reference "filter = \"".toList "A".toList (.reference "\" # ".toList "B".toList (.rest []))]

def commentedEnvironment : Environment :=
  [("A".toList, "x".toList), ("B".toList, "y".toList)]

theorem expand_outside_comments_commentedText :
    expand commentedEnvironment commentedText = .ok "level = '#'\nfilter = \"x\" # $\x7bB\x7d\n".toList := by
  have h : IsTakenApart commentedText commentedPieces := isTakenApart_iff.mpr (by decide +kernel)
  have hs : ∀ p ∈ commentedPieces, ∀ name ∈ p.names, (commentedEnvironment.find? name).isSome := by decide
  have hm : ∀ p ∈ commentedPieces, ∀ before ∈ p.places [], behindSign before = inComment before := by decide
  rw [expand_outside_comments h hs fun p hp => Pieces.not_isMisleading_iff.mpr (hm p hp)]
  exact congrArg Except.ok (by decide)

-- A number sign stands in a string before a reference in the same string.
def misleadingText : Text :=
  "[logging]\nfilter = \"a#$\x7bX\x7d\"".toList

def misleadingPieces : List Pieces :=
  [.rest "[logging]".toList, .reference "filter = \"a#".toList "X".toList (.rest "\"".toList)]

def misleadingEnvironment : Environment :=
  [("X".toList, "b".toList)]

-- Such a sign leaves a reference outside of comments as it is, also where each line is TOML.
theorem not_expand_outside_comments_misleadingText :
    ¬∀ (env : Environment) (t : Text) (ps : List Pieces),
      (∀ l ∈ lines t, (Toml.ofText? l).isSome) → IsTakenApart t ps →
      (∀ p ∈ ps, ∀ name ∈ p.names, (env.find? name).isSome) →
      expand env t = .ok (filled inComment env t ps) := by
  intro h
  have ht : ∀ l ∈ lines misleadingText, (Toml.ofText? l).isSome := by decide +kernel
  have hp : IsTakenApart misleadingText misleadingPieces := isTakenApart_iff.mpr (by decide +kernel)
  have hs : ∀ p ∈ misleadingPieces, ∀ name ∈ p.names, (misleadingEnvironment.find? name).isSome := by decide
  have he := h misleadingEnvironment misleadingText misleadingPieces ht hp hs
  rw [expand_eq misleadingEnvironment hp, Environment.requiring_eq_ok_iff] at he
  exact absurd he.right (by decide)

-- The reference goes into the settings.
example :
    (Settings.decode misleadingEnvironment misleadingText).toOption.bind (·.logging.filter?) =
      some "a#$\x7bX\x7d".toList := by
  decide +kernel

end AttributeFilter.Config
