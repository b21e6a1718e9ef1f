import Mathlib.Data.Set.Insert
import Calx.Proofs.Eval.Alike
import Calx.Proofs.Eval.BigStep

/-!
# Only mentioned names matter

Under dynamic scoping the body of a function sees all the bindings of its caller. All the same a
program only depends on what the names are bound to that stand as variables in it, or in the functions
that these names are bound to (`runProgram_of_agree`). Bindings of other names, older bindings of the
same names and the order of bindings make no difference.
-/

namespace Calx

/-- Only names of `S` stand as variables in the body of a function; other values have none. -/
def Value.MentionsOnly (S : Set String) : Value → Prop
  | .function f => f.body.MentionsOnly S
  | .unit | .number _ | .text _ => True

variable {S : Set String} {env₁ env₂ : Environment} {p : Program}

theorem Value.kept_mentionsOnly (S : Set String) : Kept S (MentionsOnly S) where
  number _ := trivial
  text _ := trivial
  body _ hf := hf

theorem Environment.Agree.symm {P : Value → Prop} (h : env₁.Agree S P env₂) :
    env₂.Agree S P env₁ where
  lookup? n hn := (h.lookup? n hn).symm
  holds n hn v hv := h.holds n hn v ((h.lookup? n hn).trans hv)

/-- The variables of the statements are those of the program. -/
theorem Program.mem_of_mem_vars (hp : ∀ n ∈ p.vars, n ∈ S) {s : Stmt} (hs : s ∈ p) :
    ∀ n ∈ s.vars, n ∈ S :=
  fun n hn => hp n (List.mem_flatMap.2 ⟨s, hs, hn⟩)

section Agree

variable [Machine]

/-- A program that ends under one of two environments that agree ends under the other. -/
theorem exists_executesAll_of_agree (hp : ∀ n ∈ p.vars, n ∈ S)
    (h : env₁.Agree S (Value.MentionsOnly S) env₂) (hres : ∃ res, ExecutesAll env₁ p res) :
    ∃ res, ExecutesAll env₂ p res := by
  obtain ⟨res, hres⟩ := hres
  obtain ⟨w, depth, hrun⟩ := hres.endsIn.run_eq
  have halike := runAll_alike (Value.kept_mentionsOnly S) h
    (fun _ => Program.mem_of_mem_vars hp) (fun _ => Program.mem_of_mem_vars hp) w depth
  cases res with
  | error e =>
    exact ⟨_, executesAll_of_outcome (halike.of_error hrun).1 (error_ne_tooDeep hres.ne_tooDeep)⟩
  | ok x =>
    obtain ⟨y, hy, -⟩ := halike.of_ok hrun
    exact ⟨_, executesAll_of_outcome hy nofun⟩

/-- **Evaluation sees only the names that it mentions.** Let `S` hold the variables of a program, and
let two environments bind the names in `S` alike, to values that mention only names in `S`
themselves. Then the program does the same under both, with any limits: it reports the same events
and fails in the same way, or it gives the same value and leaves environments that agree on `S`
again. Without limits it ends under both or under neither. -/
theorem runProgram_of_agree (hp : ∀ n ∈ p.vars, n ∈ S)
    (h : env₁.Agree S (Value.MentionsOnly S) env₂) :
    (∀ w depth,
      (runProgram w depth env₁ p).trace = (runProgram w depth env₂ p).trace ∧
      ((∃ e, (runProgram w depth env₁ p).outcome = .error e ∧
          (runProgram w depth env₂ p).outcome = .error e) ∨
        ∃ v final₁ final₂, (runProgram w depth env₁ p).outcome = .ok (v, final₁) ∧
          (runProgram w depth env₂ p).outcome = .ok (v, final₂) ∧
          final₁.Agree S (Value.MentionsOnly S) final₂)) ∧
    ((∃ res, ExecutesAll env₁ p res) ↔ ∃ res, ExecutesAll env₂ p res) := by
  refine ⟨fun w depth => ?_, exists_executesAll_of_agree hp h, exists_executesAll_of_agree hp h.symm⟩
  have halike := runProgram_alike (Value.kept_mentionsOnly S) h
    (fun _ => Program.mem_of_mem_vars hp) (fun _ => Program.mem_of_mem_vars hp) w depth
  refine ⟨halike.trace, ?_⟩
  cases hrun : (runProgram w depth env₁ p).outcome with
  | error e => exact .inl ⟨e, rfl, (halike.of_error hrun).1⟩
  | ok x =>
    obtain ⟨y, hy, hvalue, -, hfinal⟩ := halike.of_ok hrun
    exact .inr ⟨x.1, x.2, y.2, rfl, by rw [hy, hvalue], hfinal⟩

end Agree

/-- A function that asks for a name of its caller. The environments bind the same two names in
another order, one of them twice, and a third name only in one. -/
theorem agree_shadowed_unmentioned :
    let asks : Function := ⟨"f", ["n"], .binary .add (.var "n") (.var "x")⟩
    let p : Program := [.bind "y" (.apply (.var "f") [.var "x"]), .expr (.var "y")]
    let env₁ : Environment := ⟨[("x", .text "a"), ("f", .function asks)]⟩
    let env₂ : Environment :=
      ⟨[("f", .function asks), ("z", .text "c"), ("x", .text "a"), ("x", .text "b")]⟩
    let S : Set String := {"f", "n", "x", "y"}
    (∀ n ∈ p.vars, n ∈ S) ∧ env₁.Agree S (Value.MentionsOnly S) env₂ ∧
      (runProgram ⟨true, 9⟩ 9 env₁ p).trace = (runProgram ⟨true, 9⟩ 9 env₂ p).trace ∧
      ((runProgram ⟨true, 9⟩ 9 env₁ p).outcome.map Prod.fst =
        (runProgram ⟨true, 9⟩ 9 env₂ p).outcome.map Prod.fst) := by
  intro asks p env₁ env₂ S
  have hp : ∀ n ∈ p.vars, n ∈ S := by
    simp [p, S, Program.vars, Stmt.vars, Expr.vars, Expr.varsList]
  have hasks : asks.body.MentionsOnly S := by
    simp [asks, S, Expr.MentionsOnly, Expr.vars]
  have hagree : env₁.Agree S (Value.MentionsOnly S) env₂ := by
    refine ⟨?_, ?_⟩
    · rintro n (rfl | rfl | rfl | rfl) <;> decide
    · rintro n (rfl | rfl | rfl | rfl) v ⟨_⟩
      · exact hasks
      · trivial
  obtain ⟨htrace, ⟨e, h₁, h₂⟩ | ⟨v, final₁, final₂, h₁, h₂, -⟩⟩ :=
    (runProgram_of_agree hp hagree).1 ⟨true, 9⟩ 9
  · exact ⟨hp, hagree, htrace, by rw [h₁, h₂]⟩
  · exact ⟨hp, hagree, htrace, by rw [h₁, h₂]; rfl⟩

end Calx
