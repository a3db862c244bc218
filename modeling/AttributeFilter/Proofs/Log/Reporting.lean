import AttributeFilter.Log.Record
import AttributeFilter.Proofs.Token.Division

/-!
Parsing that reports events as they happen. The scanner reports each token that it makes, parsing reports that all
tokens are made, and the span around it reports its own ends and the result. What fails leaves out the reports of
all that would have come behind it. Such a run gives the result of parsing a text, and its trace.
-/

namespace AttributeFilter

open Text

-- A step that may fail. It adds events to those that were reported before it, also where it fails.
abbrev Reporting (α : Type) : Type :=
  ExceptT Error (StateM (List Event)) α

def report (e : Event) : StateM (List Event) Unit :=
  modify (· ++ [e])

-- Makes tokens up to the end of the text or to the first error, and reports each one that is made.
def Scanner.collect (s : Scanner) : Reporting (List Token) :=
  match _h : s.next? with
  | none => return []
  | some (.error e, _) => throw e
  | some (.ok t, s') => do
    report (.token t)
    return t :: (← s'.collect)
termination_by s.rest.length
decreasing_by exact length_rest_lt_of_next? _h

-- Parses a text. No token is made of a text that is too long.
def parseStepwise (l : Limits) (t : Text) : Reporting (Option Filter) := do
  if l.maxLength < byteLength t then
    throw (.tooLong (byteLength t) l.maxLength)
  let ts ← (Scanner.ofText t).collect
  report (.tokenized ts.length)
  parseTokens l ts

-- Parses a text inside a span, whose ends are reported whatever comes of it.
def parseSpanned (l : Limits) (t : Text) : StateM (List Event) (Except Error (Option Filter)) := do
  report (.enter (byteLength t))
  let result ← (parseStepwise l t).run
  report (.ofResult result)
  report .exit
  return result

namespace Reporting

variable {α β : Type} {x : Reporting α} {f : α → Reporting β} {es es' : List Event} {a : α} {e : Error}

theorem run_report_bind (e : Event) (x : Reporting α) (es : List Event) :
    (do report e; x : Reporting α).run.run es = x.run.run (es ++ [e]) :=
  rfl

theorem run_bind_ok (h : x.run.run es = (.ok a, es')) :
    (x >>= f).run.run es = (f a).run.run es' := by
  rw [ExceptT.run_bind, StateT.run_bind, h]
  rfl

-- Nothing is reported behind a failure.
theorem run_bind_error (h : x.run.run es = (.error e, es')) :
    (x >>= f).run.run es = (.error e, es') := by
  rw [ExceptT.run_bind, StateT.run_bind, h]
  rfl

end Reporting

theorem Scan.result_of_none {s : Scan} (h : s.failure? = none) : s.result = .ok s.tokens := by
  rw [result, h]

theorem Scan.result_of_some {s : Scan} {e : Error} (h : s.failure? = some e) :
    s.result = .error e := by
  rw [result, h]

namespace Scanner

variable {s s' : Scanner} {t : Token} {e : Error}

theorem collect_of_none (h : s.next? = none) : s.collect = pure [] := by
  rw [collect]
  split
  case h_1    => rfl
  case h_2 hn => cases h.symm.trans hn
  case h_3 hn => cases h.symm.trans hn

theorem collect_of_error (h : s.next? = some (.error e, s')) : s.collect = throw e := by
  rw [collect]
  split
  case h_1 hn => cases h.symm.trans hn
  case h_2 hn => cases h.symm.trans hn; rfl
  case h_3 hn => cases h.symm.trans hn

theorem collect_of_token (h : s.next? = some (.ok t, s')) :
    s.collect = do report (.token t); return t :: (← s'.collect) := by
  rw [collect]
  split
  case h_1 hn => cases h.symm.trans hn
  case h_2 hn => cases h.symm.trans hn
  case h_3 hn => cases h.symm.trans hn; rfl

-- The tokens that are made are the tokens that are reported, whether an error ends the making or not.
theorem run_collect (s : Scanner) (es : List Event) :
    s.collect.run.run es = (s.scan.result, es ++ s.scan.tokens.map .token) := by
  fun_induction scan s generalizing es
  case case1 hn => rw [collect_of_none hn, List.map_nil, List.append_nil]; rfl
  case case2 hn => rw [collect_of_error hn, List.map_nil, List.append_nil]; rfl
  case case3 t s' hn later ih =>
    have ih := ih (es ++ [.token t])
    rw [List.append_assoc, List.singleton_append] at ih
    rw [collect_of_token hn, Reporting.run_report_bind, List.map_cons]
    cases hf : s'.scan.failure?
    case none =>
      rw [Scan.result_of_none hf] at ih
      rw [Reporting.run_bind_ok ih]
      rfl
    case some e =>
      rw [Scan.result_of_some hf] at ih
      rw [Reporting.run_bind_error ih]
      rfl

end Scanner

variable {l : Limits} {t : Text}

theorem parseReporting_of_long (h : l.maxLength < byteLength t) :
    parseReporting l t = (.error (.tooLong (byteLength t) l.maxLength), []) :=
  if_pos h

theorem parseReporting_of_error {e : Error} (h : ¬l.maxLength < byteLength t)
    (hf : (Scanner.ofText t).scan.failure? = some e) :
    parseReporting l t = (.error e, (Scanner.ofText t).scan.tokens.map .token) := by
  simp only [parseReporting, h, hf, if_false]

theorem parseReporting_of_tokens (h : ¬l.maxLength < byteLength t)
    (hf : (Scanner.ofText t).scan.failure? = none) :
    parseReporting l t = (parseTokens l (Scanner.ofText t).scan.tokens,
      (Scanner.ofText t).scan.tokens.map .token
        ++ [.tokenized (Scanner.ofText t).scan.tokens.length]) := by
  simp only [parseReporting, h, hf, if_false]

theorem run_parseStepwise (l : Limits) (t : Text) (es : List Event) :
    (parseStepwise l t).run.run es = ((parseReporting l t).1, es ++ (parseReporting l t).2) := by
  rw [parseStepwise]
  by_cases h : l.maxLength < byteLength t
  case pos => rw [if_pos h, parseReporting_of_long h, List.append_nil]; rfl
  case neg =>
    have hc := (Scanner.ofText t).run_collect es
    rw [if_neg h]
    cases hf : (Scanner.ofText t).scan.failure?
    case none =>
      rw [Scan.result_of_none hf] at hc
      rw [parseReporting_of_tokens h hf, ← List.append_assoc]
      refine (Reporting.run_bind_ok hc).trans ?_
      rfl
    case some e =>
      rw [Scan.result_of_some hf] at hc
      rw [parseReporting_of_error h hf]
      exact Reporting.run_bind_error hc

theorem trace_eq (l : Limits) (t : Text) : trace l t =
    .enter (byteLength t) :: ((parseReporting l t).2 ++ [.ofResult (parse l t), .exit]) :=
  rfl

theorem run_parseSpanned (l : Limits) (t : Text) (es : List Event) :
    (parseSpanned l t).run es = (parse l t, es ++ trace l t) := by
  have h := run_parseStepwise l t (es ++ [.enter (byteLength t)])
  have hs : (parseSpanned l t).run es =
      ((parseReporting l t).1, es ++ [.enter (byteLength t)] ++ (parseReporting l t).2
        ++ [.ofResult (parseReporting l t).1] ++ [.exit]) := by
    simp only [parseSpanned, report, StateT.run_bind, StateT.run_modify, pure_bind, h]
    rfl
  rw [hs, trace_eq]
  simp [parse]

namespace Log.Record

-- The record of a token: its kind, its text and its place.
def ofToken (t : Token) : Record where
  level   := .trace
  target  := tokenTarget
  message := "token".toList
  fields  := [("kind".toList, .text t.kind.name), ("text".toList, .text t.text),
    ("position".toList, .text t.position.text)]

-- The record of the number of all tokens.
def ofCount (n : Nat) : Record where
  level   := .trace
  target  := parserTarget
  message := "Tokenized SCIM filter".toList
  fields  := [("tokens".toList, .count n)]

-- A record tells the result of a parse: the number of nodes of the filter, that there is no filter, or the
-- text of the error.
inductive Concludes : Record → Except Error (Option Filter) → Prop
  | parsed : Concludes ⟨.debug, parserTarget, "Parsed SCIM filter".toList,
      [("nodes".toList, .count f.size)]⟩ (.ok (some f))
  | empty : Concludes ⟨.debug, parserTarget, "Parsed empty SCIM filter".toList, []⟩ (.ok none)
  | rejected : Concludes ⟨.debug, parserTarget, "Rejected SCIM filter".toList,
      [("error".toList, .text e.message)]⟩ (.error e)

theorem Concludes.level {r : Record} {x : Except Error (Option Filter)} (h : r.Concludes x) :
    r.level = .debug := by
  cases h <;> rfl

theorem exists_concludes (x : Except Error (Option Filter)) :
    ∃ r, ofEvent? (.ofResult x) = some r ∧ r.Concludes x :=
  match x with
  | .ok (some _) => ⟨_, rfl, .parsed⟩
  | .ok none     => ⟨_, rfl, .empty⟩
  | .error _     => ⟨_, rfl, .rejected⟩

end Log.Record

namespace Scan

open Log

-- The records of making tokens. Their number is told only if no error has ended it.
def records (s : Scan) : List Record :=
  s.tokens.map .ofToken ++ if s.failure? = none then [.ofCount s.tokens.length] else []

theorem level_of_mem_records {s : Scan} {r : Record} (h : r ∈ s.records) : r.level = .trace := by
  rw [records, List.mem_append, List.mem_map] at h
  cases h
  case inl h =>
    have ⟨_, _, hr⟩ := h
    rw [← hr]
    rfl
  case inr h =>
    split at h
    case isTrue  => rw [List.mem_singleton.mp h]; rfl
    case isFalse => cases h

end Scan

open Log in
-- The events between the beginning of a parse and its result are recorded as tokens, and their number.
theorem map_ofEvent?_parseReporting (l : Limits) (t : Text) :
    (parseReporting l t).2.map Record.ofEvent? =
      (if byteLength t ≤ l.maxLength then (Scanner.ofText t).scan.records else []).map some := by
  by_cases h : l.maxLength < byteLength t
  case pos => rw [parseReporting_of_long h, if_neg (Nat.not_le.mpr h)]; rfl
  case neg =>
    rw [if_pos (Nat.le_of_not_lt h), Scan.records]
    cases hf : (Scanner.ofText t).scan.failure?
    case none   => simp [parseReporting_of_tokens h hf, Record.ofEvent?, Record.ofToken, Record.ofCount]
    case some e => simp [parseReporting_of_error h hf, Record.ofEvent?, Record.ofToken]

open Log in
-- The trace tells what happens: the length of the text, the tokens that the scanner hands out before it ends or
-- fails, their number if it does not fail, and the result. Nothing else is told, and nothing of the tokens of a text
-- that is too long.
theorem trace_mirrors_parse (l : Limits) (t : Text) :
    (parseSpanned l t).run [] = (parse l t, trace l t) ∧
    ∃ (s : Scan) (events : List Event) (conclusion : Record),
      (∀ k, (Scanner.ofText t).answer? k = s.answers[k]?) ∧ tokenize t = s.result ∧
      trace l t = .enter (byteLength t) :: (events ++ [.exit]) ∧
      events.map Record.ofEvent? =
        ((if byteLength t ≤ l.maxLength then s.records else []) ++ [conclusion]).map some ∧
      conclusion.Concludes (parse l t) ∧
      (events.filterMap Record.ofEvent?).filter (·.level = .debug) = [conclusion] := by
  have ⟨r, hr, hc⟩ := Record.exists_concludes (parse l t)
  let made := if byteLength t ≤ l.maxLength then (Scanner.ofText t).scan.records else []
  let events := (parseReporting l t).2 ++ [Event.ofResult (parse l t)]
  have he : events.map Record.ofEvent? = (made ++ [r]).map some := by
    rw [List.map_append, map_ofEvent?_parseReporting, List.map_append, List.map_singleton, hr]
    rfl
  have hl : ∀ r ∈ made, r.level = .trace := by
    intro r hr
    simp only [made] at hr
    split at hr
    case isTrue  => exact Scan.level_of_mem_records hr
    case isFalse => cases hr
  refine ⟨run_parseSpanned l t [], (Scanner.ofText t).scan, events, r, Scanner.answer?_eq _, rfl, ?_, he,
    hc, ?_⟩
  case refine_1 => rw [trace_eq, List.append_assoc]; rfl
  case refine_2 =>
    have hm : events.filterMap Record.ofEvent? = made ++ [r] := by
      rw [← Function.id_comp Record.ofEvent?, ← List.filterMap_map, he, List.filterMap_map]
      exact List.filterMap_some
    rw [hm, List.filter_append, List.filter_eq_nil_iff.mpr fun r hr => by simp [hl r hr]]
    simp [hc.level]

end AttributeFilter
