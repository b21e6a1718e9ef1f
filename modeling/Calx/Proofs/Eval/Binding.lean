import Calx.Proofs.Eval.Outcome

/-!
# What a program binds

Evaluation binds names all the time, for bodies and for calls, and all of these bindings are gone when
it ends: an expression gives a value and nothing else. So a statement adds one binding if it is one
that binds a name, and none otherwise (`Stmt.Adds`), a program adds those of its statements in order
(`Program.Adds`), and the environment that it leaves is its own with these on top
(`adds_of_runAll`). Names that no statement binds mean what they meant before.
-/

namespace Calx

/-- The name that a statement binds, if it does so. -/
def Stmt.bound? : Stmt → Option String
  | .expr _ => none
  | .define n _ _ | .bind n _ => some n

/-- The names that the statements of a program bind, in order. -/
def Program.bound (p : Program) : List String :=
  p.filterMap Stmt.bound?

/-- The value that a statement gives under an environment, and the binding that it adds. -/
inductive Stmt.Adds [Machine] (w : Run.Watch) (depth : Nat) (env : Environment) :
    Stmt → Value → Option (String × Value) → Prop where
  /-- An expression gives its value and adds nothing. -/
  | expr {e : Expr} {v : Value} (h : (eval w depth env e).outcome = .ok v) :
      Adds w depth env (.expr e) v none
  /-- A definition binds its name to the function. -/
  | define (n : String) (ps : List String) (body : Expr) :
      Adds w depth env (.define n ps body) .unit (some (n, .function ⟨n, ps, body⟩))
  /-- A binding binds its name to what the expression comes to. -/
  | bind {n : String} {e : Expr} {v : Value} (h : (eval w depth env e).outcome = .ok v) :
      Adds w depth env (.bind n e) .unit (some (n, v))

/-- The values that the statements of a program give, and the bindings that they add, in order. Each
statement is run under the environment with the bindings of those before it. -/
inductive Program.Adds [Machine] (w : Run.Watch) (depth : Nat) :
    Environment → Program → List Value → List (String × Value) → Prop where
  | nil (env : Environment) : Adds w depth env [] [] []
  | cons {env : Environment} {s : Stmt} {p : Program} {v : Value} {vs : List Value}
      {b : Option (String × Value)} {bs : List (String × Value)} (hs : s.Adds w depth env v b)
      (hp : Adds w depth (env.bindAll b.toList) p vs bs) :
      Adds w depth env (s :: p) (v :: vs) (b.toList ++ bs)

/-! ## Environments -/

namespace Environment

theorem bindAll_append (env : Environment) (bs bs' : List (String × Value)) :
    env.bindAll (bs ++ bs') = (env.bindAll bs).bindAll bs' :=
  List.foldl_append

theorem chain_bindAll (env : Environment) (bs : List (String × Value)) :
    (env.bindAll bs).chain = bs.reverse ++ env.chain := by
  induction bs generalizing env with
  | nil => rfl
  | cons b bs ih =>
    rw [List.reverse_cons, List.append_assoc]
    exact ih (env.bind b.1 b.2)

/-- A name that is not bound anew means what it meant before. -/
theorem lookup?_bindAll_of_not_mem {env : Environment} {bs : List (String × Value)} {n : String}
    (h : n ∉ bs.map Prod.fst) : (env.bindAll bs).lookup? n = env.lookup? n := by
  induction bs generalizing env with
  | nil => rfl
  | cons b bs ih =>
    rw [List.map_cons, List.mem_cons, not_or] at h
    have hrest : (env.bindAll (b :: bs)).lookup? n = (env.bind b.1 b.2).lookup? n := ih h.2
    rw [hrest, lookup?_bind, if_neg h.1]

end Environment

/-! ## Statements -/

section Statements

variable [Machine] {w : Run.Watch} {depth : Nat} {env : Environment}

/-- The name of the binding is the one that the statement binds. -/
theorem Stmt.Adds.map_fst {s : Stmt} {v : Value} {b : Option (String × Value)}
    (h : s.Adds w depth env v b) : b.map Prod.fst = s.bound? := by
  cases h <;> rfl

/-- **A statement leaves the environment with its own binding on top**, if it has one. -/
theorem adds_of_runStmt {s : Stmt} {v : Value} {next : Environment}
    (h : (runStmt w depth env s).outcome = .ok (v, next)) :
    ∃ b, s.Adds w depth env v b ∧ next = env.bindAll b.toList := by
  unfold runStmt at h
  rcases Run.outcome_bind_cases h with ⟨_, -, ⟨⟩⟩ | ⟨-, -, h⟩
  cases s with
  | expr e =>
    rcases Run.outcome_bind_cases h with ⟨_, -, ⟨⟩⟩ | ⟨u, he, ⟨⟩⟩
    exact ⟨none, .expr he, rfl⟩
  | define n ps body =>
    cases h
    exact ⟨_, .define n ps body, rfl⟩
  | bind n e =>
    rcases Run.outcome_bind_cases h with ⟨_, -, ⟨⟩⟩ | ⟨u, he, ⟨⟩⟩
    exact ⟨some (n, u), .bind he, rfl⟩

end Statements

/-! ## Programs -/

section Programs

variable [Machine] {w : Run.Watch} {depth : Nat} {env : Environment} {p : Program} {vs : List Value}

/-- There is one value for each statement. -/
theorem Program.Adds.length_eq {bs : List (String × Value)} (h : p.Adds w depth env vs bs) :
    vs.length = p.length := by
  induction h with
  | nil => rfl
  | cons _ _ ih => rw [List.length_cons, List.length_cons, ih]

/-- The names of the bindings are those that the statements bind. -/
theorem Program.Adds.map_fst {bs : List (String × Value)} (h : p.Adds w depth env vs bs) :
    bs.map Prod.fst = p.bound := by
  induction h with
  | nil => rfl
  | @cons env s p v vs b bs hs hp ih =>
    have hcons : bound (s :: p) = s.bound?.toList ++ bound p := by
      rw [bound, List.filterMap_cons]
      cases s.bound? <;> rfl
    rw [hcons, List.map_append, ih, ← hs.map_fst]
    cases b <;> rfl

/-- **A program leaves its environment with the bindings of its statements on top.** -/
theorem adds_of_runAll {final : Environment} (h : (runAll w depth env p).outcome = .ok (vs, final)) :
    ∃ bs, p.Adds w depth env vs bs ∧ final = env.bindAll bs := by
  induction p generalizing env vs with
  | nil =>
    cases h
    exact ⟨[], .nil _, rfl⟩
  | cons s p ih =>
    rcases Run.outcome_bind_cases h with ⟨_, -, ⟨⟩⟩ | ⟨⟨v, next⟩, hs, h⟩
    rcases Run.outcome_bind_cases h with ⟨_, -, ⟨⟩⟩ | ⟨⟨us, last⟩, hp, ⟨⟩⟩
    obtain ⟨b, hadds, rfl⟩ := adds_of_runStmt hs
    obtain ⟨bs, hrest, rfl⟩ := ih hp
    exact ⟨b.toList ++ bs, .cons hadds hrest, (Environment.bindAll_append env _ bs).symm⟩

/-! ## Parts -/

/-- All the values of a program in two parts. -/
theorem runAll_append (p q : Program) : runAll w depth env (p ++ q) =
    runAll w depth env p >>= fun x => runAll w depth x.2 q >>= fun y =>
      pure (x.1 ++ y.1, y.2) := by
  induction p generalizing env with
  | nil => simp [runAll]
  | cons s p ih => simp only [List.cons_append, runAll, ih, bind_assoc, pure_bind]

/-- The last value of a program in two parts is that of the second one, if it has a statement. -/
theorem runProgram_append (p q : Program) : runProgram w depth env (p ++ q) =
    runProgram w depth env p >>= fun x => runProgram w depth x.2 q >>= fun y =>
      pure (if q = [] then x.1 else y.1, y.2) := by
  rw [runProgram, runFrom_append]
  refine congrArg _ (funext fun x => ?_)
  cases q with
  | nil => simp [runProgram, runFrom]
  | cons s q => simp [runProgram, runFrom]

end Programs

end Calx
