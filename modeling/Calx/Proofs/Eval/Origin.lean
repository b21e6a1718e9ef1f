import Calx.Proofs.Eval.Alike

/-!
# Where values come from

Only a statement that binds a name gives unit, and only a definition makes a function. So where no
name means unit, no expression does, and no error is about it; and a function that a program gives,
binds or calls is one that could be seen before, or one that the program defines
(`runAll_sourced`, `runProgram_sourced`). A program that is traced enters the definition before it
calls the function (`called_of_trace`).
-/

namespace Calx

/-- Some name means the function. -/
def Function.VisibleIn (f : Function) (env : Environment) : Prop :=
  ∃ n, env.lookup? n = some (.function f)

/-- No name means unit. -/
def Environment.Unitless (env : Environment) : Prop :=
  ∀ n, env.lookup? n ≠ some .unit

/-- Whether a statement only binds a name. -/
def Stmt.binds : Stmt → Bool
  | .expr _ => false
  | .define .. | .bind .. => true

/-- The value is not unit. If it is a function, it could be seen in `env`, or `p` defines it. -/
structure Value.Sourced (env : Environment) (p : Program) (v : Value) : Prop where
  /-- The value is not unit. -/
  ne_unit : v ≠ .unit
  /-- Where a function comes from. -/
  source : ∀ f, v = .function f → f.VisibleIn env ∨ f.definition ∈ p

/-! ## Values -/

section Values

variable {env final : Environment} {p : Program} {P : Value → Prop}

theorem Value.kept_sourced (env : Environment) (p : Program) :
    Kept Set.univ (Sourced env p) where
  number _ := ⟨nofun, nofun⟩
  text _ := ⟨nofun, nofun⟩
  body _ _ _ _ := trivial

theorem Value.sourced_definition {f : Function} (h : f.definition ∈ p) :
    Sourced env p (.function f) := by
  refine ⟨nofun, ?_⟩
  rintro _ ⟨_⟩
  exact .inr h

theorem Environment.Unitless.agree (h : env.Unitless) (p : Program) :
    env.Agree Set.univ (Value.Sourced env p) env where
  lookup? _ _ := rfl
  holds n _ v hv := by
    refine ⟨fun hunit => h n (hunit ▸ hv), ?_⟩
    rintro f rfl
    exact .inl ⟨n, hv⟩

theorem Environment.Agree.unitless (h : final.Agree Set.univ (Value.Sourced env p) final) :
    final.Unitless :=
  fun n hn => (h.holds n trivial .unit hn).ne_unit rfl

theorem Environment.Agree.source (h : final.Agree Set.univ (Value.Sourced env p) final)
    {f : Function} (hf : f.VisibleIn final) : f.VisibleIn env ∨ f.definition ∈ p := by
  obtain ⟨n, hn⟩ := hf
  exact (h.holds n trivial _ hn).source f rfl

/-- An error about values that are not unit does not name the type of unit. -/
theorem Failure.About.unit_not_mem {e : EvalError}
    (h : (Failure.error e).About (Value.Sourced env p)) : .unit ∉ e.types := by
  intro hmem
  obtain ⟨v, hv, htype⟩ := h _ hmem
  cases v with
  | unit => exact hv.ne_unit rfl
  | number | text | function => cases htype

theorem Stmt.Yields.eq_unit_iff {s : Stmt} {v : Value} (h : s.Yields (Value.Sourced env p) v) :
    v = .unit ↔ s.binds = true := by
  cases s with
  | expr e => exact ⟨fun hv => absurd hv h.ne_unit, nofun⟩
  | define | bind => exact ⟨fun _ => rfl, fun _ => h⟩

theorem Stmt.Yields.source {s : Stmt} {f : Function}
    (h : s.Yields (Value.Sourced env p) (.function f)) : f.VisibleIn env ∨ f.definition ∈ p := by
  cases s with
  | expr e => exact Value.Sourced.source h f rfl
  | define | bind => cases h

/-- Every value of a program is the value of one of its statements. -/
theorem exists_yields_of_mem {q : Program} {vs : List Value}
    (h : List.Forall₂ (Stmt.Yields P) q vs) {v : Value} (hv : v ∈ vs) :
    ∃ s ∈ q, s.Yields P v := by
  induction h with
  | nil => cases hv
  | cons hs _ ih =>
    rcases List.mem_cons.1 hv with rfl | hv
    · exact ⟨_, List.mem_cons_self, hs⟩
    · obtain ⟨s, hmem, hyields⟩ := ih hv
      exact ⟨s, List.mem_cons_of_mem _ hmem, hyields⟩

/-- The last value of a program is that of its last statement, and unit if there is none. -/
theorem yields_getLastD {q : Program} {vs : List Value} (h : List.Forall₂ (Stmt.Yields P) q vs) :
    (q = [] ∧ vs.getLastD .unit = .unit) ∨
      ∃ s, q.getLast? = some s ∧ s.Yields P (vs.getLastD .unit) := by
  induction h with
  | nil => exact .inl ⟨rfl, rfl⟩
  | @cons s v q vs hs hrest ih =>
    right
    rcases ih with ⟨rfl, -⟩ | ⟨s', hlast, hyields⟩
    · cases hrest
      exact ⟨s, rfl, hs⟩
    · cases hrest with
      | nil => cases hlast
      | cons => exact ⟨s', hlast, hyields⟩

end Values

/-! ## Programs -/

section Programs

variable [Machine] {env : Environment}

theorem runStmt_sourced (henv : env.Unitless) (w : Run.Watch) (depth : Nat) (s : Stmt) :
    (runStmt w depth env s).Alike (Value.Sourced env [s])
      (fun x y => x.1 = y.1 ∧ s.Yields (Value.Sourced env [s]) x.1 ∧
        x.2.Agree Set.univ (Value.Sourced env [s]) y.2)
      (runStmt w depth env s) :=
  runStmt_alike (Value.kept_sourced env [s]) (henv.agree [s]) (fun _ _ => trivial)
    (fun _ hf => Value.sourced_definition (hf ▸ List.mem_singleton_self _)) w depth

theorem runAll_sourced (henv : env.Unitless) (w : Run.Watch) (depth : Nat) (p : Program) :
    (runAll w depth env p).Alike (Value.Sourced env p)
      (fun x y => x.1 = y.1 ∧ List.Forall₂ (Stmt.Yields (Value.Sourced env p)) p x.1 ∧
        x.2.Agree Set.univ (Value.Sourced env p) y.2)
      (runAll w depth env p) :=
  runAll_alike (Value.kept_sourced env p) (henv.agree p) (fun _ _ _ _ => trivial)
    (fun _ => Value.sourced_definition) w depth

theorem runProgram_sourced (henv : env.Unitless) (w : Run.Watch) (depth : Nat) (p : Program) :
    (runProgram w depth env p).Alike (Value.Sourced env p)
      (fun x y => x.1 = y.1 ∧
        (∃ vs, List.Forall₂ (Stmt.Yields (Value.Sourced env p)) p vs ∧ x.1 = vs.getLastD .unit) ∧
        x.2.Agree Set.univ (Value.Sourced env p) y.2)
      (runProgram w depth env p) :=
  runProgram_alike (Value.kept_sourced env p) (henv.agree p) (fun _ _ _ _ => trivial)
    (fun _ => Value.sourced_definition) w depth

variable {w : Run.Watch} {depth : Nat} {p : Program} {final : Environment}

/-- What a program gives and leaves, with the values of all its statements. -/
theorem origin_of_runAll (henv : env.Unitless) {vs : List Value}
    (h : (runAll w depth env p).outcome = .ok (vs, final)) :
    List.Forall₂ (fun s v => v = .unit ↔ s.binds = true) p vs ∧ final.Unitless ∧
      ∀ f : Function, .function f ∈ vs ∨ f.VisibleIn final →
        f.VisibleIn env ∨ f.definition ∈ p := by
  obtain ⟨_, heq, -, hvs, hfinal⟩ := (runAll_sourced henv w depth p).of_ok h
  obtain rfl := Except.ok.inj (h.symm.trans heq)
  refine ⟨hvs.imp fun _ _ => Stmt.Yields.eq_unit_iff, hfinal.unitless, fun f hf => ?_⟩
  rcases hf with hf | hf
  · obtain ⟨_, -, hyields⟩ := exists_yields_of_mem hvs hf
    exact hyields.source
  · exact hfinal.source hf

/-- What a program gives and leaves, with the value of its last statement. -/
theorem origin_of_runProgram (henv : env.Unitless) {v : Value}
    (h : (runProgram w depth env p).outcome = .ok (v, final)) :
    (v = .unit ↔ ∀ s ∈ p.getLast?, s.binds = true) ∧ final.Unitless ∧
      ∀ f : Function, v = .function f ∨ f.VisibleIn final →
        f.VisibleIn env ∨ f.definition ∈ p := by
  obtain ⟨_, heq, -, ⟨vs, hvs, hv⟩, hfinal⟩ := (runProgram_sourced henv w depth p).of_ok h
  obtain rfl := Except.ok.inj (h.symm.trans heq)
  have hlast := yields_getLastD hvs
  rw [← hv] at hlast
  rcases hlast with ⟨rfl, hunit⟩ | ⟨s, hs, hyields⟩
  · refine ⟨⟨fun _ _ => nofun, fun _ => hunit⟩, hfinal.unitless, fun f hf => ?_⟩
    exact hfinal.source (hf.resolve_left fun hf => by cases hunit.symm.trans hf)
  · refine ⟨?_, hfinal.unitless, fun f hf => hf.elim (fun hf => ?_) hfinal.source⟩
    · rw [hs]
      exact hyields.eq_unit_iff.trans (by simp)
    · exact (show s.Yields _ (.function f) from hf ▸ hyields).source

/-- An error of a program does not name the type of unit. -/
theorem unit_not_mem_types (henv : env.Unitless) {e : EvalError}
    (h : (runAll w depth env p).outcome = .error (.error e) ∨
      (runProgram w depth env p).outcome = .error (.error e)) : .unit ∉ e.types := by
  rcases h with h | h
  · exact ((runAll_sourced henv w depth p).of_error h).2.unit_not_mem
  · exact ((runProgram_sourced henv w depth p).of_error h).2.unit_not_mem

end Programs

/-! ## Calls -/

section Calls

/-- An event of two traces in a row is one of the first trace, or it stands behind it. -/
theorem split_append {first second pre post : List Event} {e : Event}
    (h : first ++ second = pre ++ e :: post) : (∃ rest, first = pre ++ e :: rest) ∨
      ∃ later, pre = first ++ later ∧ second = later ++ e :: post := by
  rcases List.append_eq_append_iff.1 h with ⟨later, hpre, hsecond⟩ | ⟨rest, hfirst, hpost⟩
  · exact .inr ⟨later, hpre, hsecond⟩
  · cases rest with
    | nil =>
      rw [List.append_nil] at hfirst
      exact .inr ⟨[], by rw [hfirst, List.append_nil], hpost.symm⟩
    | cons x rest =>
      cases hpost
      exact .inl ⟨rest, hfirst⟩

variable [Machine] {w : Run.Watch} {depth : Nat} {env : Environment}

/-- A traced statement is entered first, or it is too deep to be reported and nothing is done. -/
theorem trace_runStmt (hw : w.tracing = true) (s : Stmt) :
    (runStmt w depth env s).trace = [] ∧ (runStmt w depth env s).outcome = .error .tooDeep ∨
      ∃ rest, (runStmt w depth env s).trace = .statement s :: rest := by
  unfold runStmt Run.report
  rw [if_pos hw]
  split
  · right
    rw [Run.bind_eq]
    exact ⟨_, rfl⟩
  · exact .inl ⟨rfl, rfl⟩

/-- A call that a traced statement makes is of a function that could be seen before, or that the
statement defines. -/
theorem called_of_mem_trace (henv : env.Unitless) (hw : w.tracing = true) {s : Stmt} {f : Function}
    {pre post : List Event} (h : (runStmt w depth env s).trace = pre ++ .call f :: post) :
    f.VisibleIn env ∨ f.definition = s ∧ .statement s ∈ pre := by
  have hcall : .call f ∈ (runStmt w depth env s).trace := by simp [h]
  refine (((runStmt_sourced henv w depth s).calls f hcall).source f rfl).imp_right fun hdef => ?_
  refine ⟨List.mem_singleton.1 hdef, ?_⟩
  rcases trace_runStmt hw s with ⟨hnil, -⟩ | ⟨rest, htrace⟩
  · rw [hnil] at hcall
    cases hcall
  · rw [htrace] at h
    cases pre with
    | nil => cases h
    | cons e pre =>
      cases h
      exact List.mem_cons_self

/-- **Only what has been defined is called.** A function that a traced program calls could be seen
before the program, or it is the program's own, and its definition has been entered. -/
theorem called_of_trace (henv : env.Unitless) (hw : w.tracing = true) {p : Program} {f : Function}
    {pre post : List Event} (h : (runAll w depth env p).trace = pre ++ .call f :: post) :
    f.VisibleIn env ∨ f.definition ∈ p ∧ .statement f.definition ∈ pre := by
  induction p generalizing env pre with
  | nil =>
    have hnil : pre ++ .call f :: post = [] := h.symm
    simp at hnil
  | cons s p ih =>
    have hfirst {pre post : List Event}
        (hs : (runStmt w depth env s).trace = pre ++ .call f :: post) :
        f.VisibleIn env ∨ f.definition ∈ s :: p ∧ .statement f.definition ∈ pre :=
      (called_of_mem_trace henv hw hs).imp_right fun ⟨hdef, hmem⟩ =>
        ⟨hdef ▸ List.mem_cons_self, hdef ▸ hmem⟩
    rw [runAll] at h
    rcases Run.trace_bind_cases (runStmt w depth env s) _ with ⟨e, -, htrace⟩ | ⟨⟨v, next⟩, hs, htrace⟩
    · exact hfirst (htrace.symm.trans h)
    rw [htrace, Run.trace_bind_pure] at h
    rcases split_append h with ⟨rest, hrest⟩ | ⟨later, rfl, hlater⟩
    · exact hfirst hrest
    -- A later statement makes the call, under the environment that the first one leaves.
    obtain ⟨_, heq, -, -, hnext⟩ := (runStmt_sourced henv w depth s).of_ok hs
    obtain rfl : (v, next) = _ := Except.ok.inj (hs.symm.trans heq)
    rcases ih hnext.unitless hlater with hvisible | ⟨hdef, hmem⟩
    · refine (hnext.source hvisible).imp_right fun hdef => ?_
      obtain rfl := List.mem_singleton.1 hdef
      refine ⟨List.mem_cons_self, List.mem_append_left _ ?_⟩
      rcases trace_runStmt hw f.definition with ⟨-, hdeep⟩ | ⟨rest, hfirst⟩
      · rw [hs] at hdeep
        cases hdeep
      · rw [hfirst]
        exact List.mem_cons_self
    · exact .inr ⟨List.mem_cons_of_mem _ hdef, List.mem_append_right _ hmem⟩

end Calls

end Calx
