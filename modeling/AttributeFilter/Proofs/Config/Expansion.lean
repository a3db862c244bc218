import AttributeFilter.Config.Expansion
import AttributeFilter.Proofs.Text.Lines

/-!
What the expansion of a text is, line by line. A line is taken to pieces at its references, which are found as the
leftmost ones that do not overlap. The pieces tell which references are active, and what the line becomes; there is
one way to take a line to pieces.
-/

namespace AttributeFilter.Config

open Text

-- A name that can be referred to.
structure IsReferable (name : Text) : Prop where
  ne_nil : name ≠ []
  closed : '\x7d' ∉ name

-- The text of the reference to a name.
def referenceTo (name : Text) : Text :=
  '$' :: '\x7b' :: (name ++ ['\x7d'])

-- A reference stands at the front of a text.
def BeginsReference (t : Text) : Prop :=
  ∃ name r, IsReferable name ∧ t = referenceTo name ++ r

-- No reference begins inside `gap`, with `r` behind it.
def Clear (gap r : Text) : Prop :=
  ∀ u v, gap = u ++ v → v ≠ [] → ¬BeginsReference (v ++ r)

-- A line in pieces: the text before each reference and the name in it, and the text behind them all.
inductive Pieces where
  | rest (t : Text)
  | reference (gap name : Text) (later : Pieces)
deriving DecidableEq

namespace Pieces

-- The line itself.
def text : Pieces → Text
  | rest t => t
  | reference gap name later => gap ++ (referenceTo name ++ later.text)

-- The references are the leftmost ones that do not overlap.
def IsLeftmost : Pieces → Prop
  | rest t => Clear t []
  | reference gap name later =>
    Clear gap (referenceTo name ++ later.text) ∧ IsReferable name ∧ later.IsLeftmost

-- The names in the references that are not idle. The text of the line before a reference tells whether it is.
def activeNames (idle : Text → Bool) (before : Text) : Pieces → List Text
  | rest _ => []
  | reference gap name later =>
    (if idle (before ++ gap) then [] else [name])
      ++ later.activeNames idle (before ++ gap ++ referenceTo name)

-- The line with values in the place of the references that are not idle.
def filled (idle : Text → Bool) (env : Environment) (before : Text) : Pieces → Text
  | rest t => t
  | reference gap name later =>
    gap ++ (if idle (before ++ gap) then referenceTo name else (env.find? name).getD [])
      ++ later.filled idle env (before ++ gap ++ referenceTo name)

-- The same pieces with one more character before them.
def cons (c : Char) : Pieces → Pieces
  | rest t => rest (c :: t)
  | reference gap name later => reference (c :: gap) name later

-- Takes a line to pieces.
def ofLine (t : Text) : Pieces :=
  match _h : reference? t with
  | some (name, r) => reference [] name (ofLine r)
  | none =>
    match t with
    | [] => rest []
    | c :: r => (ofLine r).cons c
termination_by t.length
decreasing_by
  · exact length_lt_of_reference? _h
  · simp

end Pieces

variable {c : Char} {t r gap name before : Text} {p : Pieces}

theorem reference?_eq_some_iff :
    reference? t = some (name, r) ↔ IsReferable name ∧ t = referenceTo name ++ r := by
  constructor
  case mp =>
    intro h
    unfold reference? at h
    split at h
    case h_2 => cases h
    case h_1 u =>
      split at h
      case h_1 => cases h
      case h_2 => cases h
      case h_3 d r' hd hne =>
        cases h
        have hc : d = '\x7d' := by
          have hs := stops_dropWhile (· ≠ '\x7d') u d (by rw [hd]; rfl)
          exact Decidable.not_not.mp (of_decide_eq_false hs)
        have hu := takeWhile_append_dropWhile (· ≠ '\x7d') u
        rw [hd, hc] at hu
        refine ⟨⟨hne, fun hm => ?_⟩, ?_⟩
        case refine_1 =>
          have hp := List.all_eq_true.mp (List.all_takeWhile (p := (· ≠ '\x7d')) (l := u)) _ hm
          exact of_decide_eq_true hp rfl
        case refine_2 =>
          rw [referenceTo, List.cons_append, List.cons_append, List.append_assoc, List.singleton_append, hu]
  case mpr =>
    rintro ⟨hn, rfl⟩
    have hp : ∀ d ∈ name, decide (d ≠ '\x7d') = true := fun d hd => decide_eq_true fun he => hn.closed (he ▸ hd)
    have hs : Stops (· ≠ '\x7d') ('\x7d' :: r) := .cons rfl
    have ht := takeWhile_append hp hs
    have hd := dropWhile_append hp hs
    have hr : referenceTo name ++ r = '$' :: '\x7b' :: (name ++ '\x7d' :: r) := by simp [referenceTo]
    rw [hr, reference?, ht, hd]
    cases name
    case nil  => exact absurd rfl hn.ne_nil
    case cons => rfl

theorem reference?_eq_none_iff : reference? t = none ↔ ¬BeginsReference t where
  mp h := by
    rintro ⟨name, r, hr⟩
    cases h.symm.trans (reference?_eq_some_iff.mpr hr)
  mpr h := by
    cases hr : reference? t
    case none   => rfl
    case some a => exact absurd ⟨_, _, reference?_eq_some_iff.mp hr⟩ h

theorem Clear.nil : Clear [] r :=
  fun _ _ h hv _ => hv (List.append_eq_nil_iff.mp h.symm).right

theorem Clear.cons (h : Clear gap r) (hn : ¬BeginsReference (c :: (gap ++ r))) : Clear (c :: gap) r := by
  intro u v hg hv
  cases u
  case nil =>
    rw [List.nil_append] at hg
    exact hg ▸ hn
  case cons d u => exact h u v (List.cons.inj hg).right hv

theorem Clear.not_beginsReference (h : Clear (c :: gap) r) : ¬BeginsReference (c :: (gap ++ r)) :=
  h [] (c :: gap) rfl (List.cons_ne_nil _ _)

theorem Clear.tail (h : Clear (c :: gap) r) : Clear gap r :=
  fun u v hg hv => h (c :: u) v (congrArg (c :: ·) hg) hv

/-! ### Taking a line to pieces -/

namespace Pieces

theorem text_cons : (p.cons c).text = c :: p.text := by
  cases p <;> rfl

theorem IsLeftmost.cons (h : p.IsLeftmost) (hn : ¬BeginsReference (c :: p.text)) : (p.cons c).IsLeftmost := by
  cases p
  case rest t                   => exact Clear.cons h (by rwa [List.append_nil])
  case reference gap name later => exact ⟨h.left.cons hn, h.right⟩

theorem ofLine_of_some (h : reference? t = some (name, r)) : ofLine t = reference [] name (ofLine r) := by
  rw [ofLine]
  split
  case h_1 h' =>
    cases h.symm.trans h'
    rfl
  case h_2 h' => cases h.symm.trans h'

theorem ofLine_of_none (h : reference? (c :: t) = none) : ofLine (c :: t) = (ofLine t).cons c := by
  rw [ofLine]
  split
  case h_1 h' => cases h.symm.trans h'
  case h_2    => rfl

theorem text_ofLine (t : Text) : (ofLine t).text = t := by
  fun_induction ofLine t
  case case1 t name r h ih => rw [text, ih, List.nil_append, (reference?_eq_some_iff.mp h).right]
  case case2               => rfl
  case case3 c r _ ih      => rw [text_cons, ih]

theorem isLeftmost_ofLine (t : Text) : (ofLine t).IsLeftmost := by
  fun_induction ofLine t
  case case1 t name r h ih => exact ⟨.nil, (reference?_eq_some_iff.mp h).left, ih⟩
  case case2               => exact .nil
  case case3 c r h ih      => exact ih.cons (by rw [text_ofLine]; exact reference?_eq_none_iff.mp h)

theorem ofLine_rest (h : Clear t []) : ofLine t = rest t := by
  induction t
  case nil         => simp [ofLine, reference?]
  case cons c t ih =>
    have hn := h.not_beginsReference
    rw [List.append_nil] at hn
    rw [ofLine_of_none (reference?_eq_none_iff.mpr hn), ih h.tail]
    rfl

theorem ofLine_reference (h : Clear gap (referenceTo name ++ r)) (hn : IsReferable name) :
    ofLine (gap ++ (referenceTo name ++ r)) = reference gap name (ofLine r) := by
  induction gap
  case nil           => exact ofLine_of_some (reference?_eq_some_iff.mpr ⟨hn, rfl⟩)
  case cons c gap ih =>
    rw [List.cons_append, ofLine_of_none (reference?_eq_none_iff.mpr h.not_beginsReference), ih h.tail]
    rfl

-- There is one way to take a line to pieces.
theorem IsLeftmost.eq_ofLine (h : p.IsLeftmost) : p = ofLine p.text := by
  induction p
  case rest t                      => exact (ofLine_rest h).symm
  case reference gap name later ih =>
    have ⟨hg, hn, hl⟩ := h
    rw [text, ofLine_reference hg hn, ← ih hl]

end Pieces

-- The lines of a text, each in pieces.
structure IsTakenApart (t : Text) (ps : List Pieces) : Prop where
  lines    : IsLines t (ps.map Pieces.text)
  leftmost : ∀ p ∈ ps, p.IsLeftmost

theorem isTakenApart_iff {ps : List Pieces} : IsTakenApart t ps ↔ ps = (lines t).map Pieces.ofLine where
  mp h := by
    rw [← isLines_iff.mp h.lines, List.map_map]
    exact ((List.map_congr_left fun p hp => (h.leftmost p hp).eq_ofLine.symm).trans (List.map_id' ps)).symm
  mpr h := by
    constructor
    case lines =>
      rw [isLines_iff, h, List.map_map]
      exact List.map_id'' Pieces.text_ofLine (lines t)
    case leftmost =>
      rintro p hp
      rw [h] at hp
      have ⟨l, _, hl⟩ := List.mem_map.mp hp
      exact hl ▸ Pieces.isLeftmost_ofLine l

/-! ### Values -/

namespace Environment

-- Gives something if all names have a value. Fails with the first name that has none.
def requiring {α : Type} (env : Environment) (names : List Text) (a : α) : Except Text α :=
  match names.find? fun name => (env.find? name).isNone with
  | some name => .error name
  | none      => .ok a

variable {α β : Type} {env : Environment} {names : List Text} {a : α}

theorem requiring_nil : env.requiring [] a = .ok a :=
  rfl

theorem requiring_cons_none (h : env.find? name = none) : env.requiring (name :: names) a = .error name := by
  rw [requiring, List.find?_cons_of_pos (by rw [h]; rfl)]

theorem requiring_cons_some {value : Text} (h : env.find? name = some value) :
    env.requiring (name :: names) a = env.requiring names a := by
  rw [requiring, List.find?_cons_of_neg (by rw [h]; exact Bool.false_ne_true), requiring]

theorem requiring_bind {f : α → Except Text β} {more : List Text} {b : β} (h : f a = env.requiring more b) :
    env.requiring names a >>= f = env.requiring (names ++ more) b := by
  induction names
  case nil => exact h
  case cons name names ih =>
    rw [List.cons_append]
    cases hv : env.find? name
    case none   => rw [requiring_cons_none hv, requiring_cons_none hv]; rfl
    case some v => rw [requiring_cons_some hv, requiring_cons_some hv, ih]

theorem requiring_map (f : α → β) : (env.requiring names a).map f = env.requiring names (f a) := by
  unfold requiring
  split <;> rfl

theorem requiring_mapM {f : α → Except Text β} {need : α → List Text} {g : α → β}
    (h : ∀ a, f a = env.requiring (need a) (g a)) (as : List α) :
    as.mapM f = env.requiring (as.flatMap need) (as.map g) := by
  induction as
  case nil          => rfl
  case cons a as ih =>
    rw [List.mapM_cons, h, ih, List.flatMap_cons, List.map_cons]
    refine requiring_bind ?_
    rw [bind_pure_comp]
    exact requiring_map _

theorem requiring_eq_ok_iff {b : α} :
    env.requiring names a = .ok b ↔ (∀ name ∈ names, (env.find? name).isSome) ∧ b = a := by
  induction names
  case nil =>
    rw [requiring_nil, Except.ok.injEq, eq_comm]
    simp
  case cons name names ih =>
    cases hv : env.find? name
    case none   => simp [requiring_cons_none hv, hv]
    case some v => simp [requiring_cons_some hv, ih, hv]

theorem requiring_eq_error_iff :
    env.requiring names a = .error name ↔
      ∃ set more, names = set ++ name :: more ∧
        (∀ n ∈ set, (env.find? n).isSome) ∧ env.find? name = none := by
  have hf : env.requiring names a = .error name ↔ names.find? (fun n => (env.find? n).isNone) = some name := by
    unfold requiring
    split
    case h_1 h => rw [h, Except.error.injEq, Option.some.injEq]
    case h_2 h => simp [h]
  rw [hf, List.find?_eq_some_iff_append]
  simp only [Option.isNone_iff_eq_none, Option.not_isNone]
  constructor
  case mp  => exact fun ⟨hv, set, more, hn, hs⟩ => ⟨set, more, hn, hs, hv⟩
  case mpr => exact fun ⟨set, more, hn, hs, hv⟩ => ⟨hv, set, more, hn, hs⟩

end Environment

/-! ### Expansion -/

-- A number sign stands before a place on its line.
def behindSign (before : Text) : Bool :=
  before.contains '#'

namespace Pieces

variable {idle : Text → Bool} {env : Environment}

-- Where no reference is active, nothing is replaced.
theorem filled_eq_text (h : p.activeNames idle before = []) : p.filled idle env before = p.text := by
  induction p generalizing before
  case rest                        => rfl
  case reference gap name later ih =>
    have ⟨hi, hl⟩ := List.append_eq_nil_iff.mp h
    have hi : idle (before ++ gap) = true := by
      cases hb : idle (before ++ gap)
      case true  => rfl
      case false => simp [hb] at hi
    rw [filled, if_pos hi, ih hl, text, List.append_assoc]

-- No reference is active behind a number sign.
theorem activeNames_behindSign (h : '#' ∈ before) : p.activeNames behindSign before = [] := by
  induction p generalizing before
  case rest                        => rfl
  case reference gap name later ih =>
    have hg : '#' ∈ before ++ gap := List.mem_append_left _ h
    rw [activeNames, if_pos (by simpa [behindSign] using hg), ih (List.mem_append_left _ hg)]
    rfl

theorem activeNames_cons : (p.cons c).activeNames idle before = p.activeNames idle (before ++ [c]) := by
  cases p <;> simp [cons, activeNames]

theorem filled_cons : (p.cons c).filled idle env before = c :: p.filled idle env (before ++ [c]) := by
  cases p <;> simp [cons, filled]

theorem activeNames_of_active (h : idle before = false) :
    (reference [] name p).activeNames idle before = name :: p.activeNames idle (before ++ referenceTo name) := by
  rw [activeNames, List.append_nil, h, if_neg Bool.false_ne_true, List.singleton_append]

theorem filled_of_active {value : Text} (h : idle before = false) (hv : env.find? name = some value) :
    (reference [] name p).filled idle env before = value ++ p.filled idle env (before ++ referenceTo name) := by
  rw [filled, List.append_nil, h, if_neg Bool.false_ne_true, hv, Option.getD_some, List.nil_append]

end Pieces

-- What becomes of a line, told from its pieces.
theorem expandLine_eq (env : Environment) (hb : '#' ∉ before) :
    expandLine env t =
      env.requiring ((Pieces.ofLine t).activeNames behindSign before)
        ((Pieces.ofLine t).filled behindSign env before) := by
  have hs {before : Text} (hb : '#' ∉ before) : behindSign before = false := by simpa [behindSign] using hb
  fun_induction expandLine env t generalizing before
  case case1 t name r h hv =>
    rw [Pieces.ofLine_of_some h, Pieces.activeNames_of_active (hs hb), Environment.requiring_cons_none hv]
  case case2 t name r h v hv hn =>
    -- The number sign in the name leaves no reference behind it active.
    have hn : '#' ∈ before ++ referenceTo name := by
      simp [referenceTo, List.contains_iff_mem.mp hn]
    have ha := Pieces.activeNames_behindSign (p := Pieces.ofLine r) hn
    rw [Pieces.ofLine_of_some h, Pieces.activeNames_of_active (hs hb), Pieces.filled_of_active (hs hb) hv,
      ha, Pieces.filled_eq_text ha, Pieces.text_ofLine, Environment.requiring_cons_some hv,
      Environment.requiring_nil]
  case case3 t name r h v hv hn ih =>
    have hn : '#' ∉ before ++ referenceTo name := by
      simpa [referenceTo, hb] using hn
    rw [Pieces.ofLine_of_some h, Pieces.activeNames_of_active (hs hb), Pieces.filled_of_active (hs hb) hv,
      Environment.requiring_cons_some hv, ih hn, Environment.requiring_map]
  case case4 => rw [Pieces.ofLine_rest .nil]; rfl
  case case5 r h =>
    have ha : (Pieces.ofLine r).activeNames behindSign (before ++ ['#']) = [] :=
      Pieces.activeNames_behindSign (by simp)
    rw [Pieces.ofLine_of_none h, Pieces.activeNames_cons, Pieces.filled_cons, ha, Pieces.filled_eq_text ha,
      Pieces.text_ofLine, Environment.requiring_nil]
  case case6 c r h hc ih =>
    have hc : '#' ∉ before ++ [c] := by simpa [hb] using Ne.symm hc
    rw [Pieces.ofLine_of_none h, Pieces.activeNames_cons, Pieces.filled_cons, ih hc, Environment.requiring_map]

-- The names in the active references of a text, in order.
def activeNames (idle : Text → Bool) (ps : List Pieces) : List Text :=
  ps.flatMap (·.activeNames idle [])

-- The lines of a text with values in the place of their active references, put together again.
def filled (idle : Text → Bool) (env : Environment) (t : Text) (ps : List Pieces) : Text :=
  joined ['\n'] (ps.map (·.filled idle env [])) ++ finalFeed t

variable {ps : List Pieces} {idle : Text → Bool} {env : Environment}

theorem expand_eq (env : Environment) (h : IsTakenApart t ps) :
    expand env t = env.requiring (activeNames behindSign ps) (filled behindSign env t ps) := by
  have hl := Environment.requiring_mapM (fun l => expandLine_eq (t := l) env List.not_mem_nil) (lines t)
  rw [expand, hl, bind_pure_comp, isTakenApart_iff.mp h, activeNames, List.flatMap_map, filled, List.map_map]
  exact Environment.requiring_map _

theorem filled_of_activeNames_eq_nil (h : IsTakenApart t ps) (hn : activeNames idle ps = []) :
    filled idle env t ps = unifyEnds t := by
  have hp : ∀ p ∈ ps, p.filled idle env [] = p.text :=
    fun p hp => Pieces.filled_eq_text (List.flatMap_eq_nil_iff.mp hn p hp)
  rw [filled, List.map_congr_left hp, isLines_iff.mp h.lines, joined_lines]

-- The expansion of a text is told line by line. A text can be taken apart in one way. If the names in all its active
-- references have values, these take their place, and nothing else changes but the line ends; else the first name
-- without a value is the error.
theorem expand_linewise (env : Environment) (t : Text) :
    ∃ ps, (∀ qs, IsTakenApart t qs ↔ qs = ps) ∧
      (∀ out, expand env t = .ok out ↔
        (∀ name ∈ activeNames behindSign ps, (env.find? name).isSome) ∧ out = filled behindSign env t ps) ∧
      (∀ name, expand env t = .error name ↔
        ∃ set more, activeNames behindSign ps = set ++ name :: more ∧
          (∀ n ∈ set, (env.find? n).isSome) ∧ env.find? name = none) ∧
      (activeNames behindSign ps = [] → expand env t = .ok (unifyEnds t)) := by
  refine ⟨(lines t).map Pieces.ofLine, fun _ => isTakenApart_iff, ?_⟩
  have h : IsTakenApart t ((lines t).map Pieces.ofLine) := isTakenApart_iff.mpr rfl
  rw [expand_eq env h]
  refine ⟨fun _ => Environment.requiring_eq_ok_iff, fun _ => Environment.requiring_eq_error_iff, fun hn => ?_⟩
  rw [hn, Environment.requiring_nil, filled_of_activeNames_eq_nil h hn]

end AttributeFilter.Config
