import AttributeFilter.Proofs.Text.Runs
import AttributeFilter.Text.Lines

/-!
Lines, read and printed. What the lines of a text are, told from their ends, and what becomes of a text whose lines
are put together again. Lines that were printed, and from which white space at the end was cut off, are read back
if none of them holds a line feed or ends in white space.
-/

namespace AttributeFilter.Text

-- A text is made of lines, each with its end. The last line may have no end, but then it is not empty.
inductive IsLines : Text → List Text → Prop
  | nil : IsLines [] []
  | unended : t ≠ [] → '\n' ∉ t → IsLines t [t]
  | lineFeed : '\n' ∉ l → l.getLast? ≠ some '\r' → IsLines t ls → IsLines (l ++ '\n' :: t) (l :: ls)
  | carriageReturn : '\n' ∉ l → IsLines t ls → IsLines (l ++ '\r' :: '\n' :: t) (l :: ls)

-- The same text with line feeds for all line ends.
def unifyEnds : Text → Text
  | [] => []
  | '\r' :: '\n' :: t => '\n' :: unifyEnds t
  | c :: t => c :: unifyEnds t

variable {c : Char} {t l : Text} {ls : List Text}

theorem IsLines.eq_nil (h : IsLines t []) : t = [] := by
  cases h
  rfl

-- What stands before the first line is added to it, if it does not make a line end.
theorem IsLines.cons (h : IsLines t (l :: ls)) (hn : c ≠ '\n') (hr : c = '\r' → ∀ u, t ≠ '\n' :: u) :
    IsLines (c :: t) ((c :: l) :: ls) := by
  have hm {l : Text} (hl : '\n' ∉ l) : '\n' ∉ c :: l := List.not_mem_cons_of_ne_of_not_mem hn.symm hl
  cases h
  case unended ht hl        => exact .unended (List.cons_ne_nil _ _) (hm hl)
  case carriageReturn hl ht => exact .carriageReturn (hm hl) ht
  case lineFeed hl hc ht    =>
    refine .lineFeed (l := c :: l) (hm hl) ?_ ht
    cases l
    case nil  => exact fun he => hr (Option.some.inj he) _ rfl
    case cons => rwa [List.getLast?_cons_cons]

theorem isLines_lines (t : Text) : IsLines t (lines t) := by
  fun_induction lines t
  case case1 => exact .nil
  case case2 t ih => exact .lineFeed (l := []) List.not_mem_nil nofun ih
  case case3 t ih => exact .carriageReturn (l := []) List.not_mem_nil ih
  case case4 c t hn hr hl ih =>
    rw [hl] at ih
    rw [ih.eq_nil]
    exact .unended (List.cons_ne_nil _ _) (List.not_mem_cons_of_ne_of_not_mem (Ne.symm hn) List.not_mem_nil)
  case case5 c t hn hr l ls hl ih =>
    rw [hl] at ih
    exact ih.cons hn fun hc u hu => hr u hc hu

theorem lines_cons (hn : c ≠ '\n') (hr : c = '\r' → ∀ u, t ≠ '\n' :: u) (hl : lines t = l :: ls) :
    lines (c :: t) = (c :: l) :: ls := by
  rw [lines, hl]
  case x_1 => exact hn
  case x_2 => exact fun u hc hu => hr hc u hu

theorem lines_append (hn : '\n' ∉ l) (hr : l.getLast? = some '\r' → ∀ u, t ≠ '\n' :: u)
    (ht : lines t = [] :: ls) : lines (l ++ t) = l :: ls := by
  induction l
  case nil => exact ht
  case cons c l ih =>
    have hc : c ≠ '\n' := fun hc => hn (hc ▸ List.mem_cons_self)
    have hl : '\n' ∉ l := fun hl => hn (List.mem_cons_of_mem _ hl)
    have hr' : c = '\r' → ∀ u, l ++ t ≠ '\n' :: u := by
      intro he u hu
      cases l
      case nil      => exact hr (congrArg some he) u hu
      case cons d l => exact hl ((List.cons.inj hu).left ▸ List.mem_cons_self)
    refine lines_cons hc hr' (ih hl ?_)
    intro he
    cases l
    case nil  => cases he
    case cons => exact hr (by rwa [List.getLast?_cons_cons])

theorem lines_unended (hne : t ≠ []) (hn : '\n' ∉ t) : lines t = [t] := by
  induction t
  case nil => exact absurd rfl hne
  case cons c t ih =>
    have hc : c ≠ '\n' := fun hc => hn (hc ▸ List.mem_cons_self)
    have ht : '\n' ∉ t := fun ht => hn (List.mem_cons_of_mem _ ht)
    cases t
    case nil      => simp [lines]
    case cons d t =>
      refine lines_cons hc (fun _ u hu => ?_) (ih (List.cons_ne_nil _ _) ht)
      exact ht ((List.cons.inj hu).left ▸ List.mem_cons_self)

theorem isLines_iff : IsLines t ls ↔ ls = lines t := by
  constructor
  case mpr => exact fun h => h ▸ isLines_lines t
  case mp =>
    intro h
    induction h
    case nil                    => rfl
    case unended hne hn         => exact (lines_unended hne hn).symm
    case lineFeed hn hr _ ih    => exact (lines_append hn (absurd · hr) (by rw [lines, ih])).symm
    case carriageReturn hn _ ih =>
      have hr {t u : Text} : '\r' :: t ≠ '\n' :: u := fun h => absurd (List.cons.inj h).left (by decide)
      exact (lines_append hn (fun _ _ => hr) (by rw [lines, ih])).symm

theorem lines_ne_nil (c : Char) (t : Text) : lines (c :: t) ≠ [] := by
  intro h
  have hl := isLines_lines (c :: t)
  rw [h] at hl
  cases hl.eq_nil

-- A line feed for a text that ends with one.
def finalFeed (t : Text) : Text :=
  if t.getLast? = some '\n' then ['\n'] else []

theorem finalFeed_cons_cons (c d : Char) (t : Text) : finalFeed (c :: d :: t) = finalFeed (d :: t) := by
  rw [finalFeed, List.getLast?_cons_cons, finalFeed]

theorem joined_cons_lines (l t : Text) :
    joined ['\n'] (l :: lines t) ++ finalFeed ('\n' :: t) =
      l ++ '\n' :: (joined ['\n'] (lines t) ++ finalFeed t) := by
  cases t
  case nil => rfl
  case cons c t =>
    rw [finalFeed_cons_cons]
    cases hl : lines (c :: t)
    case nil  => exact absurd hl (lines_ne_nil c t)
    case cons => simp [joined]

-- Lines that are put together again have line feeds between them, and one behind them if there was one.
theorem joined_lines (t : Text) : joined ['\n'] (lines t) ++ finalFeed t = unifyEnds t := by
  fun_induction lines t
  case case1 => rfl
  case case2 t ih => rw [joined_cons_lines, ih]; rfl
  case case3 t ih => rw [finalFeed_cons_cons, joined_cons_lines, ih]; rfl
  case case4 c t hn hr hl ih =>
    cases t
    case nil  => simp [joined, finalFeed, unifyEnds, show c ≠ '\n' from hn]
    case cons => exact absurd hl (lines_ne_nil _ _)
  case case5 c t hn hr l ls hl ih =>
    have hu : unifyEnds (c :: t) = c :: unifyEnds t := by
      rw [unifyEnds]
      exact hr
    cases t
    case nil      => cases hl
    case cons d t =>
      rw [hu, ← ih, finalFeed_cons_cons, hl]
      cases ls <;> rfl

/-! ### Printed lines -/

-- The lines of a printed text. Where nothing is printed there is no line.
def printedLines (t : Text) : List Text :=
  if t = [] then [] else t.splitOn '\n'

-- A line that can be told from others, and of which nothing is cut off as white space at the end.
structure IsPrinted (l : Text) : Prop where
  unbroken : '\n' ∉ l
  closed   : ∃ c ∈ l.getLast?, isBlank c = false

theorem IsPrinted.append (ht : '\n' ∉ t) (h : l.IsPrinted) : IsPrinted (t ++ l) where
  unbroken hn := (List.mem_append.mp hn).elim ht h.unbroken
  closed      :=
    have ⟨c, hc, hb⟩ := h.closed
    ⟨c, by rw [List.getLast?_append, hc]; rfl, hb⟩

-- Nothing in a text is white space.
def Solid (t : Text) : Prop :=
  ∀ c ∈ t, isBlank c = false

instance : DecidablePred Solid :=
  fun t => inferInstanceAs (Decidable (∀ c ∈ t, isBlank c = false))

theorem Solid.singleton (h : isBlank c = false) : Solid [c] :=
  List.forall_mem_singleton.mpr h

theorem Solid.cons (h : isBlank c = false) (ht : t.Solid) : Solid (c :: t) :=
  List.forall_mem_cons.mpr ⟨h, ht⟩

theorem Solid.append (ht : t.Solid) (hl : l.Solid) : Solid (t ++ l) :=
  List.forall_mem_append.mpr ⟨ht, hl⟩

theorem Solid.notMem (h : t.Solid) (hc : isBlank c = true) : c ∉ t :=
  fun hm => Bool.false_ne_true ((h c hm).symm.trans hc)

theorem Solid.isPrinted (h : t.Solid) (hne : t ≠ []) : t.IsPrinted where
  unbroken    := h.notMem rfl
  closed      := ⟨_, List.getLast?_eq_some_getLast hne, h _ (List.getLast_mem hne)⟩

theorem dropBlankEnd_of_closed (h : ∃ c ∈ t.getLast?, isBlank c = false) : dropBlankEnd t = t := by
  have ⟨c, hc, hb⟩ := h
  have hs : Stops isBlank t.reverse := by
    intro d hd
    rw [List.head?_reverse] at hd
    cases hc.symm.trans hd
    exact hb
  rw [dropBlankEnd, dropWhile_of_stops hs, List.reverse_reverse]

theorem joined_eq_intercalate (s : Text) (ls : List Text) : joined s ls = s.intercalate ls := by
  fun_induction joined s ls
  case case1 => rfl
  case case2 => simp
  case case3 ih => simp [ih]

theorem closed_joined {s : Text} (hne : ls ≠ []) (h : ∀ l ∈ ls, l.IsPrinted) :
    ∃ c ∈ (joined s ls).getLast?, isBlank c = false := by
  fun_induction joined s ls
  case case1 => exact absurd rfl hne
  case case2 => exact (h _ List.mem_cons_self).closed
  case case3 l m ls ih =>
    have ⟨c, hc, hb⟩ := ih (List.cons_ne_nil _ _) fun l hl => h l (List.mem_cons_of_mem _ hl)
    exact ⟨c, by rw [List.getLast?_append, hc]; rfl, hb⟩

theorem dropBlankEnd_joined {s : Text} (h : ∀ l ∈ ls, l.IsPrinted) :
    dropBlankEnd (joined s ls) = joined s ls := by
  cases ls
  case nil  => rfl
  case cons => exact dropBlankEnd_of_closed (closed_joined (List.cons_ne_nil _ _) h)

-- What is printed line by line is read back line by line.
theorem printedLines_joined (h : ∀ l ∈ ls, l.IsPrinted) :
    printedLines (dropBlankEnd (joined ['\n'] ls)) = ls := by
  rw [dropBlankEnd_joined h, printedLines]
  by_cases hne : ls = []
  case pos => rw [hne]; rfl
  case neg =>
    have ⟨c, hc, _⟩ := closed_joined (s := ['\n']) hne h
    have hj : joined ['\n'] ls ≠ [] := fun hj => by rw [hj] at hc; cases hc
    rw [if_neg hj, joined_eq_intercalate]
    exact List.splitOn_intercalate '\n' (fun l hl => (h l hl).unbroken) hne

-- Cuts a text at the first place of a character, which belongs to neither side.
def cut (c : Char) (t : Text) : Text × Text :=
  (t.takeWhile (· ≠ c), (t.dropWhile (· ≠ c)).tail)

theorem cut_append (h : c ∉ t) (l : Text) : cut c (t ++ c :: l) = (t, l) := by
  have ht : ∀ d ∈ t, decide (d ≠ c) = true := fun d hd => decide_eq_true fun he => h (he ▸ hd)
  have hs : Stops (· ≠ c) (c :: l) := .cons (decide_eq_false fun hc => hc rfl)
  rw [cut, takeWhile_append ht hs, dropWhile_append ht hs, List.tail_cons]

end AttributeFilter.Text
