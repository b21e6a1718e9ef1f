import Calx.Proofs.Eval.Outcome
import Calx.Proofs.Session.Line

/-!
# Sessions of many lines

A transcript is what a session answers to some lines in a row. A line that is answered with a report
leaves no trace in it: it can be taken out, and the answers to the other lines and the session at the
end are the same (`transcript_without`). The environment at the end is the one that the programs of
the lines answered with a value leave, run as one program (`runUnder_succeeding`).
-/

namespace Calx

/-- A line, what has been reported on the way, and what was shown. -/
structure Entry where
  /-- The line. -/
  text : String
  /-- The events, in order. -/
  trace : List Event
  /-- What was shown, unless the machine was exhausted. -/
  shown : Except Exhaustion String

namespace Entry

/-- The line was answered with a report. -/
def fails (e : Entry) : Bool :=
  match e.shown with
  | .ok shown =>
    Session.reported.any fun family => (family.name ++ ": ").toList.isPrefixOf shown.toList
  | .error _ => false

/-- The line was answered with a value. -/
def succeeds (e : Entry) : Bool :=
  match e.shown with
  | .ok shown => "=> ".toList.isPrefixOf shown.toList
  | .error _ => false

/-- The entries but for those failing ones that are chosen by their places. -/
def without (chosen : Nat → Bool) : List Entry → List Entry
  | [] => []
  | e :: rest =>
    let kept := without (fun i => chosen (i + 1)) rest
    if chosen 0 && e.fails then kept else e :: kept

theorem fails_value (text : String) (trace : List Event) (v : Value) :
    fails ⟨text, trace, .ok ("=> " ++ v.display)⟩ = false := by
  simp only [fails, Session.reported, Family.name, String.toList_append]
  rfl

theorem succeeds_value (text : String) (trace : List Event) (v : Value) :
    succeeds ⟨text, trace, .ok ("=> " ++ v.display)⟩ = true := by
  simp [succeeds, String.toList_append]

theorem fails_report (text : String) (trace : List Event) {r : Report}
    (h : r.family ∈ Session.reported) : fails ⟨text, trace, .ok (r.display none)⟩ = true := by
  refine List.any_eq_true.2 ⟨r.family, h, ?_⟩
  rw [List.isPrefixOf_iff_prefix]
  exact ⟨r.message.toList, by simp [Report.display, String.toList_append]⟩

theorem succeeds_report (text : String) (trace : List Event) (r : Report) :
    succeeds ⟨text, trace, .ok (r.display none)⟩ = false := by
  simp only [succeeds, Report.display, String.toList_append]
  cases r.family <;> rfl

end Entry

/-! ## Programs in a row -/

section Programs

variable [Machine] {w : Run.Watch} {depth : Nat} {last v : Value} {env next : Environment}
  {p : Program}

/-- What is left to run goes on from where the first part ends. -/
theorem outcome_runFrom_append (h : (runFrom w depth last env p).outcome = .ok (v, next))
    (q : Program) :
    (runFrom w depth last env (p ++ q)).outcome = (runFrom w depth v next q).outcome := by
  rw [runFrom_append, Run.outcome_bind_ok h]

/-- The value so far does not matter to the environment at the end. -/
theorem outcome_runFrom_of_last (h : (runFrom w depth last env p).outcome = .ok (v, next))
    (other : Value) : ∃ u, (runFrom w depth other env p).outcome = .ok (u, next) := by
  cases p with
  | nil =>
    cases h
    exact ⟨other, rfl⟩
  | cons => exact ⟨v, h⟩

end Programs

namespace Session

variable [Machine]

/-- Two programs run one after the other leave the environment that they leave as one. -/
theorem runUnder_append {s : Session} {p q : Program} {v u : Value} {env next : Environment}
    (hp : s.runUnder p = .ok (v, env)) (hq : ({ s with env } : Session).runUnder q = .ok (u, next)) :
    ∃ u, s.runUnder (p ++ q) = .ok (u, next) := by
  obtain ⟨u, hu⟩ := outcome_runFrom_of_last hq v
  exact ⟨u, (outcome_runFrom_append hp q).trans hu⟩

/-! ## Transcripts -/

/-- What a session answers to some lines in a row, and the session at the end. -/
def transcript (s : Session) : List String → List Entry × Session
  | [] => ([], s)
  | text :: rest =>
    let (entries, final) := transcript (s.line text).2.2 rest
    (⟨text, (s.line text).1, (s.line text).2.1⟩ :: entries, final)

variable {s : Session} {text : String} {shown : Except Exhaustion String} {next : Session}

theorem transcript_cons (s : Session) (text : String) (rest : List String) :
    s.transcript (text :: rest) =
      (⟨text, (s.line text).1, (s.line text).2.1⟩ :: ((s.line text).2.2.transcript rest).1,
        ((s.line text).2.2.transcript rest).2) := rfl

/-- A line that fails leaves the session as it is. -/
theorem Answered.eq_of_fails (h : Answered s text shown next) {trace : List Event}
    (hfails : Entry.fails ⟨text, trace, shown⟩ = true) : next = s := by
  cases h with
  | value => simp [Entry.fails_value] at hfails
  | unread | failed | nothing => rfl

/-- A line that is answered either fails or succeeds. -/
theorem Answered.fails_xor_succeeds (h : Answered s text shown next) (trace : List Event) :
    (Entry.fails ⟨text, trace, shown⟩ ^^ Entry.succeeds ⟨text, trace, shown⟩) = shown.isOk := by
  cases h with
  | value => rw [Entry.fails_value, Entry.succeeds_value]; rfl
  | unread => rw [Entry.fails_report _ _ (family_rejection_mem _), Entry.succeeds_report]; rfl
  | failed _ _ hr => rw [Entry.fails_report _ _ (family_failure_mem hr), Entry.succeeds_report]; rfl
  | nothing => rfl

theorem text_transcript (s : Session) (lines : List String) :
    (s.transcript lines).1.map Entry.text = lines := by
  induction lines generalizing s with
  | nil => rfl
  | cons text rest ih => rw [transcript_cons, List.map_cons, ih]

theorem fails_xor_succeeds_of_mem {lines : List String} {e : Entry}
    (h : e ∈ (s.transcript lines).1) : (e.fails ^^ e.succeeds) = e.shown.isOk := by
  induction lines generalizing s with
  | nil => cases h
  | cons text rest ih =>
    rcases List.mem_cons.1 h with rfl | h
    · exact (line_answered s text).fails_xor_succeeds _
    · exact ih h

/-- The lines that are kept are answered as before. -/
theorem transcript_without (s : Session) (lines : List String) (chosen : Nat → Bool) :
    s.transcript ((Entry.without chosen (s.transcript lines).1).map Entry.text) =
      (Entry.without chosen (s.transcript lines).1, (s.transcript lines).2) := by
  induction lines generalizing s chosen with
  | nil => rfl
  | cons text rest ih =>
    rw [transcript_cons, Entry.without]
    split
    · rename_i hout
      have hsame : (s.line text).2.2 = s :=
        (line_answered s text).eq_of_fails ((Bool.and_eq_true _ _).mp hout).2
      rw [hsame]
      exact ih s _
    · rw [List.map_cons, transcript_cons, ih]

/-- The programs of the lines that succeed, and the environment that they leave as one program. -/
theorem runUnder_succeeding (s : Session) (lines : List String) : ∃ (ps : List Program) (v : Value),
    ((s.transcript lines).1.filter Entry.succeeds).map (fun e => (s.read e.text).outcome) =
      ps.map Except.ok ∧
    s.runUnder ps.flatten = .ok (v, (s.transcript lines).2.env) ∧
    (s.transcript lines).2 = { s with env := (s.transcript lines).2.env } := by
  induction lines generalizing s with
  | nil => exact ⟨[], .unit, rfl, rfl, rfl⟩
  | cons text rest ih =>
    rw [transcript_cons]
    have h := line_answered s text
    generalize (s.line text).2.1 = shown, (s.line text).2.2 = next at h
    obtain ⟨ps, v, hread, hrun, hfinal⟩ := ih next
    cases h with
    | value hp hv =>
      obtain ⟨u, hu⟩ := runUnder_append hv hrun
      refine ⟨_ :: ps, u, ?_, hu, hfinal⟩
      rw [List.filter_cons_of_pos (Entry.succeeds_value ..), List.map_cons, List.map_cons, hp]
      exact congrArg _ hread
    | unread | failed =>
      refine ⟨ps, v, ?_, hrun, hfinal⟩
      rwa [List.filter_cons_of_neg (by simp [Entry.succeeds_report])]
    | nothing => exact ⟨ps, v, hread, hrun, hfinal⟩

/-- **Failing lines leave no trace.** Every line that is answered either fails or succeeds. Whichever
of the failing lines are taken out, the others are answered as before, with the same events, and the
session at the end is the same. Its environment is the one that the programs of the lines that
succeed leave, run as one program at the start. -/
theorem transcript_without_failing (s : Session) (lines : List String) :
    let (entries, final) := s.transcript lines
    entries.map Entry.text = lines ∧
    (∀ e ∈ entries, (e.fails ^^ e.succeeds) = e.shown.isOk) ∧
    (∀ chosen, s.transcript ((Entry.without chosen entries).map Entry.text) =
      (Entry.without chosen entries, final)) ∧
    ∃ (ps : List Program) (v : Value),
      (entries.filter Entry.succeeds).map (fun e => (s.read e.text).outcome) = ps.map Except.ok ∧
      s.runUnder ps.flatten = .ok (v, final.env) ∧ final = { s with env := final.env } :=
  ⟨text_transcript s lines, fun _ => fails_xor_succeeds_of_mem, transcript_without s lines,
    runUnder_succeeding s lines⟩

end Session

end Calx
