import Calx.Proofs.Eval.BigStep
import Calx.Proofs.Eval.Binding
import Calx.Session

/-!
# Running modes

A program can be run for its last value or for all of them. The two report the same, fail alike and
leave the same environment, and the session behind a text does not depend on which of them it was
(`modes_agree`).
-/

namespace Calx

/-- A session does the same with a text for the last value and for all values, but for the value. -/
theorem Session.run_eq_runAll [Machine] (s : Session) (text : String) :
    s.run text =
      ⟨(s.runAll text).trace, (s.runAll text).outcome.map (·.getLastD .unit),
        (s.runAll text).session⟩ := by
  unfold run Session.runAll perform
  split
  · rfl
  · rename_i events p _
    rw [runProgram, runFrom_eq_bind]
    cases hrun : Calx.runAll s.watch s.limits.evaluation s.env p with
    | mk trace outcome =>
      cases outcome with
      | error err => rfl
      | ok x => simp [Run.bind_eq, Run.andThen, Except.map, pure, Run.done]

/-- **The two modes agree, and bind what the statements bind.** Run for its last value and for all of
them, a program reports the same, fails in the same way, or leaves the same environment; the last
value is unit if there is none. There is one value for each statement, and one binding for each that
binds a name, with the function that it defines or the value that its expression has there; the
environment is the one before with these bindings on top, in order. So it has no other name anew, and
names that no statement binds mean what they meant. A program in two parts is one part and then the
other. All this holds of texts in a session, too. -/
theorem modes_agree [Machine] :
    (∀ w depth env p,
      (runProgram w depth env p).trace = (runAll w depth env p).trace ∧
      (∀ err, (runProgram w depth env p).outcome = .error err ↔
        (runAll w depth env p).outcome = .error err) ∧
      (∀ v final, (runProgram w depth env p).outcome = .ok (v, final) ↔
        ∃ vs, (runAll w depth env p).outcome = .ok (vs, final) ∧ v = vs.getLastD .unit) ∧
      ∀ vs final, (runAll w depth env p).outcome = .ok (vs, final) →
        vs.length = p.length ∧
        (∃ bs, p.Adds w depth env vs bs ∧ bs.map Prod.fst = p.bound ∧
          final.chain = bs.reverse ++ env.chain) ∧
        ∀ n, n ∉ p.bound → final.lookup? n = env.lookup? n) ∧
    (∀ w depth env p q,
      runAll w depth env (p ++ q) = (do
        let (vs, next) ← runAll w depth env p
        let (us, final) ← runAll w depth next q
        return (vs ++ us, final)) ∧
      runProgram w depth env (p ++ q) = (do
        let (v, next) ← runProgram w depth env p
        let (u, final) ← runProgram w depth next q
        return (if q = [] then v else u, final))) ∧
    ∀ (s : Session) (text : String),
      (s.run text).trace = (s.runAll text).trace ∧
      (s.run text).outcome = (s.runAll text).outcome.map (·.getLastD .unit) ∧
      (s.run text).session = (s.runAll text).session := by
  have hlast (w : Run.Watch) (depth : Nat) (env : Environment) (p : Program) :
      (runProgram w depth env p).outcome =
        (runAll w depth env p).outcome.map fun x => (x.1.getLastD .unit, x.2) :=
    outcome_runFrom w depth .unit env p
  refine ⟨fun w depth env p => ⟨trace_runProgram w depth env p,
      fun err => outcome_runProgram_eq_error_iff, fun v final => ?_, fun vs final h => ?_⟩,
    fun w depth env p q => ⟨runAll_append p q, runProgram_append p q⟩, fun s text => ?_⟩
  · rw [hlast]
    cases (runAll w depth env p).outcome with
    | error err => simp [Except.map]
    | ok x =>
      constructor
      · rintro ⟨⟩
        exact ⟨x.1, rfl, rfl⟩
      · rintro ⟨vs, ⟨⟩, rfl⟩
        rfl
  · obtain ⟨bs, hadds, rfl⟩ := adds_of_runAll h
    have hnames : bs.map Prod.fst = p.bound := hadds.map_fst
    refine ⟨hadds.length_eq, ⟨bs, hadds, hnames, Environment.chain_bindAll env bs⟩, fun n hn => ?_⟩
    exact Environment.lookup?_bindAll_of_not_mem (hnames ▸ hn)
  · rw [Session.run_eq_runAll]
    exact ⟨rfl, rfl, rfl⟩

/-- Neither the parameter nor the name that only its body sees is left. -/
theorem modes_agree_call :
    let p : Program := [.define "f" ["a"] (.letIn "b" (.var "a") (.var "b")),
      .bind "x" (.apply (.var "f") [.text "t"]), .expr (.var "x")]
    ∃ final, (runAll ⟨false, 0⟩ 9 .empty p).outcome = .ok ([.unit, .unit, .text "t"], final) ∧
      (runProgram ⟨false, 0⟩ 9 .empty p).outcome = .ok (.text "t", final) ∧
      p.bound = ["f", "x"] ∧ final.lookup? "a" = none ∧ final.lookup? "b" = none := by
  intro p
  obtain ⟨final, hall⟩ : ∃ final,
      (runAll ⟨false, 0⟩ 9 .empty p).outcome = .ok ([.unit, .unit, .text "t"], final) := ⟨_, rfl⟩
  obtain ⟨-, -, hlast, hleaves⟩ := modes_agree.1 ⟨false, 0⟩ 9 .empty p
  obtain ⟨-, -, hkept⟩ := hleaves _ _ hall
  exact ⟨final, hall, (hlast _ _).2 ⟨_, hall, rfl⟩, rfl, hkept "a" (by decide),
    hkept "b" (by decide)⟩

end Calx
