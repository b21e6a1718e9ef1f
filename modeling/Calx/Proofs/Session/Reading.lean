import Calx.Proofs.Eval.Outcome
import Calx.Session

/-!
# What a session reads

A session that reports events writes out what it reads, so it can read a program and still find it
too deep (`Session.read_cases`). The statements of a program are written out one by one; what counts
is the deepest of them (`Program.depth_le_iff`).
-/

namespace Calx

theorem Program.depth_le_iff {p : Program} {n : Nat} : p.depth ≤ n ↔ ∀ st ∈ p, st.depth ≤ n := by
  have hfold (m : Nat) : p.foldl (fun k st => max k st.depth) m ≤ n ↔
      m ≤ n ∧ ∀ st ∈ p, st.depth ≤ n := by
    induction p generalizing m with
    | nil => simp
    | cons st p ih => rw [List.foldl_cons, ih, Nat.max_le, List.forall_mem_cons, and_assoc]
  rw [Program.depth, hfold]
  exact and_iff_right (Nat.zero_le n)

namespace Run

variable {w : Watch}

theorem outcome_report_iff {e : Event} :
    (report w e).outcome = .ok () ↔ (w.tracing = true → e.depth ≤ w.writing) := by
  unfold report
  by_cases htracing : w.tracing = true
  · by_cases hdepth : e.depth ≤ w.writing
    · simp [htracing, hdepth]
    · simp [htracing, hdepth, fail]
  · simp [htracing, done]

/-- Events are reported if each of them can be written out. -/
theorem outcome_reportAll_iff {es : List Event} : (reportAll w es).outcome = .ok () ↔
    (w.tracing = true → ∀ e ∈ es, e.depth ≤ w.writing) := by
  induction es with
  | nil => simp [reportAll, done]
  | cons e es ih =>
    have hcons : (reportAll w (e :: es)).outcome = .ok () ↔
        (report w e).outcome = .ok () ∧ (reportAll w es).outcome = .ok () := by
      rw [reportAll]
      constructor
      · intro h
        rcases outcome_bind_cases h with ⟨_, _, ⟨⟩⟩ | ⟨_, he, hes⟩
        exact ⟨he, hes⟩
      · rintro ⟨he, hes⟩
        exact (outcome_bind_ok he _).trans hes
    rw [hcons, outcome_report_iff, ih, List.forall_mem_cons, imp_and]

end Run

namespace Session

variable {s : Session} {text : String} {p q : Program}

/-- The session can report that it has read the program. -/
def Announces (s : Session) (p : Program) : Prop :=
  s.tracing = true → p.depth ≤ s.limits.writing

theorem announces_append : s.Announces (p ++ q) ↔ s.Announces p ∧ s.Announces q := by
  simp only [Announces, Program.depth_le_iff, List.forall_mem_append, imp_and]

theorem outcome_reportAll_read_iff :
    (Run.reportAll s.watch (p.map .read)).outcome = .ok () ↔ s.Announces p := by
  rw [Run.outcome_reportAll_iff, List.forall_mem_map, Announces, Program.depth_le_iff]
  rfl

/-- A program is read by a session that can report it; any other finds it nested too deep. -/
theorem read_cases (h : Program.ofText s.limits.nesting text = .ok p) :
    s.Announces p ∧ (s.read text).outcome = .ok p ∨
      ¬s.Announces p ∧ (s.read text).outcome = .error .tooDeep := by
  unfold read
  rw [h, ← outcome_reportAll_read_iff]
  dsimp only
  unfold Reading.announce
  split
  · rename_i hreport
    exact .inl ⟨congrArg Run.outcome hreport, rfl⟩
  · rename_i hreport
    refine .inr ⟨?_, rfl⟩
    rw [hreport]
    exact nofun

end Session

end Calx
