import Calx.Proofs.Eval.BigStep
import Calx.Proofs.Eval.Origin
import Calx.Proofs.Session.Transcript

/-!
# Where values and functions come from

Unit is the value of statements that only bind a name, and it gets nowhere else; functions come from
definitions (`Calx.Proofs.Eval.Origin`). So in a session that starts without bindings every function
that is called stands as a definition in an earlier line, which succeeded, or further in front in the
same line. A call is an event, so the line is looked at as it is with tracing on, up to any depth of
the trees that are reported (`Session.traced`); what a line calls does not depend on that.
-/

namespace Calx

namespace Run

variable {w : Watch}

theorem mem_trace_report {e e' : Event} (h : e' ∈ (report w e).trace) : e' = e := by
  unfold report at h
  split at h
  · split at h
    · exact List.mem_singleton.1 h
    · cases h
  · cases h

/-- Only the given events are reported. -/
theorem mem_of_mem_trace_reportAll {events : List Event} {e : Event}
    (h : e ∈ (reportAll w events).trace) : e ∈ events := by
  induction events with
  | nil => cases h
  | cons e' events ih =>
    rw [reportAll] at h
    rcases trace_bind_cases (report w e') fun _ => reportAll w events with
      ⟨_, -, htrace⟩ | ⟨_, -, htrace⟩ <;> rw [htrace] at h
    · exact List.mem_cons.2 (.inl (mem_trace_report h))
    · rcases List.mem_append.1 h with h | h
      · exact List.mem_cons.2 (.inl (mem_trace_report h))
      · exact List.mem_cons_of_mem _ (ih h)

end Run

namespace Session

variable {s : Session} {text : String}

/-- Reading reports no call. -/
theorem call_not_mem_trace_read (s : Session) (text : String) (f : Function) :
    .call f ∉ (s.read text).trace := by
  intro h
  unfold read Reading.announce at h
  split at h
  · cases h
  · rename_i p _
    split at h <;> rename_i hreport
    all_goals
      have hmem : .call f ∈ (Run.reportAll s.watch (p.map .read)).trace := by rw [hreport]; exact h
      have hread := Run.mem_of_mem_trace_reportAll hmem
      simp at hread

/-- The session with tracing on, up to a depth of the trees that are reported. -/
def traced (s : Session) (writing : Nat) : Session :=
  { s with tracing := true, limits := { s.limits with writing } }

variable [Machine]

/-- The events of a line: those of reading it, and those of running it if it is read. -/
theorem trace_line_cases (s : Session) (text : String) :
    (s.line text).1 = (s.read text).trace ∨ ∃ p, (s.read text).outcome = .ok p ∧
      (s.line text).1 = (s.read text).trace ++
        (Calx.runAll s.watch s.limits.evaluation s.env p).trace := by
  show (s.run text).trace = _ ∨ ∃ p, _ ∧ (s.run text).trace = _
  simp only [← trace_runProgram]
  unfold run perform
  split
  · rename_i hread
    exact .inl (by rw [hread])
  · rename_i p hread
    refine .inr ⟨p, by rw [hread], ?_⟩
    rw [hread]
    split <;> rename_i hrun <;> rw [hrun]

/-- A function that a line calls could be seen before the line, or the line has defined it. -/
theorem called_of_line (henv : s.env.Unitless) {writing : Nat} {f : Function}
    {pre post : List Event} (h : ((s.traced writing).line text).1 = pre ++ .call f :: post) :
    f.VisibleIn s.env ∨ ∃ p, ((s.traced writing).read text).outcome = .ok p ∧ f.definition ∈ p ∧
      .statement f.definition ∈ pre := by
  rcases trace_line_cases (s.traced writing) text with htrace | ⟨p, hread, htrace⟩ <;> rw [htrace] at h
  · exact absurd (by simp [h]) (call_not_mem_trace_read (s.traced writing) text f)
  rcases split_append h with ⟨rest, hrest⟩ | ⟨later, rfl, hlater⟩
  · exact absurd (by simp [hrest]) (call_not_mem_trace_read (s.traced writing) text f)
  · have hwatch : (s.traced writing).watch.tracing = true := rfl
    exact (called_of_trace henv hwatch hlater).imp_right fun ⟨hdef, hmem⟩ =>
      ⟨p, hread, hdef, List.mem_append_right _ hmem⟩

/-- What can be seen after some lines comes from a definition in one of them that succeeded. -/
theorem visible_of_transcript (tracing : Bool) (limits : Limits) (lines : List String) :
    ((fresh tracing limits).transcript lines).2.env.Unitless ∧
    ∀ f : Function, f.VisibleIn ((fresh tracing limits).transcript lines).2.env →
      ∃ e ∈ ((fresh tracing limits).transcript lines).1, e.succeeds = true ∧
        ∃ p, ((fresh tracing limits).read e.text).outcome = .ok p ∧ f.definition ∈ p := by
  obtain ⟨ps, v, hread, hrun, -⟩ := runUnder_succeeding (fresh tracing limits) lines
  have hempty : Environment.empty.Unitless := fun _ => nofun
  obtain ⟨_, heq, -, -, hfinal⟩ :=
    (runProgram_sourced hempty (fresh tracing limits).watch limits.evaluation ps.flatten).of_ok hrun
  obtain rfl := Except.ok.inj (hrun.symm.trans heq)
  refine ⟨hfinal.unitless, fun f hf => ?_⟩
  rcases hfinal.source hf with ⟨n, hn⟩ | hdef
  · cases hn
  · obtain ⟨p, hp, hdef⟩ := List.mem_flatten.1 hdef
    have hmem : .ok p ∈ ps.map (Except.ok : Program → Except Rejection Program) :=
      List.mem_map_of_mem hp
    rw [← hread] at hmem
    obtain ⟨e, he, hok⟩ := List.mem_map.1 hmem
    obtain ⟨he, hsucceeds⟩ := List.mem_filter.1 he
    exact ⟨e, he, hsucceeds, p, hok, hdef⟩

end Session

/-- **Where values come from.** Let no name mean unit. If a program succeeds, the statements that give
unit are those that only bind a name, no name means unit afterwards, and every function that it gives
or that can be seen afterwards could be seen before or is defined by the program. If it fails, the
error does not name the type of unit. So every function that is called in a session without bindings
at its start has been defined by the same line, further in front, or by an earlier one that
succeeded. -/
theorem functions_are_defined [Machine] :
    (∀ (w : Run.Watch) (depth : Nat) (env : Environment) (p : Program), env.Unitless →
      (∀ vs final, (runAll w depth env p).outcome = .ok (vs, final) →
        List.Forall₂ (fun s v => v = .unit ↔ s.binds = true) p vs ∧ final.Unitless ∧
        ∀ f : Function, .function f ∈ vs ∨ f.VisibleIn final →
          f.VisibleIn env ∨ .define f.name f.params f.body ∈ p) ∧
      (∀ v final, (runProgram w depth env p).outcome = .ok (v, final) →
        (v = .unit ↔ ∀ s ∈ p.getLast?, s.binds = true) ∧ final.Unitless ∧
        ∀ f : Function, v = .function f ∨ f.VisibleIn final →
          f.VisibleIn env ∨ .define f.name f.params f.body ∈ p) ∧
      ∀ e, (runAll w depth env p).outcome = .error (.error e) ∨
        (runProgram w depth env p).outcome = .error (.error e) → .unit ∉ e.types) ∧
    ∀ (tracing : Bool) (limits : Limits) (lines : List String) (writing : Nat) (text : String)
      (pre post : List Event) (f : Function),
      let (entries, s) := (Session.fresh tracing limits).transcript lines
      ((s.traced writing).line text).1 = pre ++ .call f :: post →
      (∃ p, ((s.traced writing).read text).outcome = .ok p ∧
        .define f.name f.params f.body ∈ p ∧ .statement (.define f.name f.params f.body) ∈ pre) ∨
      ∃ e ∈ entries, e.succeeds = true ∧
        ∃ p, ((Session.fresh tracing limits).read e.text).outcome = .ok p ∧
          .define f.name f.params f.body ∈ p := by
  refine ⟨fun w depth env p henv => ⟨fun _ _ => origin_of_runAll henv,
    fun _ _ => origin_of_runProgram henv, fun _ => unit_not_mem_types henv⟩, ?_⟩
  intro tracing limits lines writing text pre post f hcall
  obtain ⟨hunitless, hvisible⟩ := Session.visible_of_transcript tracing limits lines
  exact (Session.called_of_line hunitless hcall).symm.imp_right (hvisible f)

/-- A function that is called with itself, and gives its argument. -/
theorem function_of_itself_is_defined :
    let f : Function := ⟨"f", ["n"], .var "n"⟩
    let p : Program := [.define "f" ["n"] (.var "n"), .expr (.apply (.var "f") [.var "f"])]
    let final : Environment := ⟨[("f", .function f)]⟩
    Environment.empty.Unitless ∧
      (runProgram ⟨false, 0⟩ 9 .empty p).outcome = .ok (.function f, final) ∧ final.Unitless ∧
      (f.VisibleIn .empty ∨ .define f.name f.params f.body ∈ p) := by
  intro f p final
  have hempty : Environment.empty.Unitless := fun _ => nofun
  have hrun : (runProgram ⟨false, 0⟩ 9 .empty p).outcome = .ok (.function f, final) := rfl
  obtain ⟨-, hfinal, hsource⟩ :=
    (functions_are_defined.1 ⟨false, 0⟩ 9 .empty p hempty).2.1 _ _ hrun
  exact ⟨hempty, hrun, hfinal, hsource f (.inl rfl)⟩

end Calx
