import Mathlib.Data.List.Forall2
import Calx.Proofs.Eval.Outcome
import Calx.Proofs.Expr.Variables

/-!
# Runs side by side

`Run.Alike P R r₁ r₂` says that two runs report the same events and end alike: in results that `R`
relates, or in the same failure. On the way they meet only values of which `P` holds: every function
that is called is one, and an error names the types of such values alone.

A property of values is kept by evaluation if it holds of numbers and texts, and if the functions of
which it holds ask only for names in a set `S` (`Value.Kept`). Two environments that agree on `S`,
where they bind only such values, are then as good as one another for an expression, a statement or a
program whose variables are in `S` (`eval_alike`, `runStmt_alike`, `runAll_alike`). With one
environment on both sides this says what a run meets and what it leaves behind.
-/

namespace Calx

/-- The types that an error names: those of the operands, or that of the callee. -/
def EvalError.types : EvalError → List ValueType
  | badOperands _ types => types
  | uncallable t => [t]
  | undefinedVariable _ | wrongArity _ _ => []

/-- The failure names no types but those of values of which `P` holds. -/
def Failure.About (P : Value → Prop) : Failure → Prop
  | error e => ∀ t ∈ e.types, ∃ v, P v ∧ v.type = t
  | exhausted _ | tooDeep => True

namespace Run

variable {α β γ δ : Type}

/-! ## Two runs -/

/-- Two runs end alike: in results that `R` relates, or in the same failure, about values of which
`P` holds. -/
inductive EndAlike (P : Value → Prop) (R : α → β → Prop) :
    Except Failure α → Except Failure β → Prop where
  | ok {a : α} {b : β} : R a b → EndAlike P R (.ok a) (.ok b)
  | error {e : Failure} : e.About P → EndAlike P R (.error e) (.error e)

/-- Two runs do the same: they report the same events, of which the calls are of functions of which
`P` holds, and they end alike. -/
structure Alike (P : Value → Prop) (R : α → β → Prop) (r₁ : Run α) (r₂ : Run β) : Prop where
  /-- They report the same events. -/
  trace : r₁.trace = r₂.trace
  /-- The functions that are called. -/
  calls : ∀ f, .call f ∈ r₁.trace → P (.function f)
  /-- They end alike. -/
  outcome : EndAlike P R r₁.outcome r₂.outcome

namespace Alike

variable {P : Value → Prop} {R : α → β → Prop} {T : γ → δ → Prop}

theorem ofExcept {x : Except Failure α} {y : Except Failure β} (h : EndAlike P R x y) :
    (ofExcept x).Alike P R (ofExcept y) :=
  ⟨rfl, nofun, h⟩

protected theorem pure {a : α} {b : β} (h : R a b) :
    (pure a : Run α).Alike P R (pure b) :=
  .ofExcept (.ok h)

theorem fail {e : Failure} (h : e.About P) : (fail e : Run α).Alike P R (fail e) :=
  .ofExcept (.error h)

theorem report (w : Watch) {e : Event} (h : ∀ f, e = .call f → P (.function f)) :
    (report w e).Alike P Eq (report w e) := by
  unfold Run.report
  split
  · split
    · exact ⟨rfl, fun f hf => h f (List.mem_singleton.1 hf).symm, .ok rfl⟩
    · exact .fail trivial
  · exact .pure rfl

protected theorem bind {r₁ : Run α} {r₂ : Run β} {f₁ : α → Run γ} {f₂ : β → Run δ}
    (h : r₁.Alike P R r₂) (hf : ∀ a b, R a b → (f₁ a).Alike P T (f₂ b)) :
    (r₁ >>= f₁).Alike P T (r₂ >>= f₂) := by
  obtain ⟨trace, outcome₁⟩ := r₁
  obtain ⟨trace₂, outcome₂⟩ := r₂
  obtain rfl : trace = trace₂ := h.trace
  have houtcome : EndAlike P R outcome₁ outcome₂ := h.outcome
  cases houtcome with
  | error he => exact ⟨rfl, h.calls, .error he⟩
  | @ok a b hab =>
    have hrest := hf a b hab
    refine ⟨congrArg (trace ++ ·) hrest.trace, fun f hf => ?_, hrest.outcome⟩
    rcases List.mem_append.1 hf with hf | hf
    · exact h.calls f hf
    · exact hrest.calls f hf

variable {r₁ : Run α} {r₂ : Run β}

theorem of_ok (h : r₁.Alike P R r₂) {a : α} (ha : r₁.outcome = .ok a) :
    ∃ b, r₂.outcome = .ok b ∧ R a b := by
  have houtcome := h.outcome
  generalize r₂.outcome = outcome₂ at houtcome
  rw [ha] at houtcome
  cases houtcome with
  | ok hab => exact ⟨_, rfl, hab⟩

theorem of_error (h : r₁.Alike P R r₂) {e : Failure} (he : r₁.outcome = .error e) :
    r₂.outcome = .error e ∧ e.About P := by
  have houtcome := h.outcome
  generalize r₂.outcome = outcome₂ at houtcome
  rw [he] at houtcome
  cases houtcome with
  | error hp => exact ⟨rfl, hp⟩

end Alike

end Run

/-! ## Values and environments -/

/-- A property of values that evaluation keeps, as long as it only asks for names in `S`. -/
structure Value.Kept (S : Set String) (P : Value → Prop) : Prop where
  /-- Numbers have it. -/
  number : ∀ x, P (.number x)
  /-- Texts have it. -/
  text : ∀ s, P (.text s)
  /-- The functions that have it ask for names in `S`. -/
  body : ∀ f, P (.function f) → f.body.MentionsOnly S

/-- The same value on both sides, of which `P` holds. -/
def Value.Same (P : Value → Prop) (v v' : Value) : Prop := v = v' ∧ P v

/-- Two environments bind the names in `S` alike, and to values of which `P` holds. -/
structure Environment.Agree (S : Set String) (P : Value → Prop) (env₁ env₂ : Environment) :
    Prop where
  /-- They bind them alike. -/
  lookup? : ∀ n ∈ S, env₁.lookup? n = env₂.lookup? n
  /-- What they bind them to. -/
  holds : ∀ n ∈ S, ∀ v, env₁.lookup? n = some v → P v

section Evaluation

variable {S : Set String} {P : Value → Prop} {env₁ env₂ : Environment}

theorem Environment.Agree.bind (h : env₁.Agree S P env₂) (n : String) {v : Value} (hv : P v) :
    (env₁.bind n v).Agree S P (env₂.bind n v) where
  lookup? m hm := by rw [lookup?_bind, lookup?_bind, h.lookup? m hm]
  holds m hm u hu := by
    rw [lookup?_bind] at hu
    split at hu
    · cases hu
      exact hv
    · exact h.holds m hm u hu

/-! ## Operators -/

theorem Value.neg_alike (hP : Kept S P) {v : Value} (hv : P v) :
    (Run.ofExcept v.neg).Alike P (Same P) (Run.ofExcept v.neg) := by
  refine .ofExcept ?_
  cases v with
  | number x => exact .ok ⟨rfl, hP.number _⟩
  | unit | text | function => exact .error fun t ht => ⟨_, hv, (List.mem_singleton.1 ht).symm⟩

/-- What an operator can end in: a number, a text, or a refusal of its operands; or the machine is
exhausted. -/
inductive BinaryOperator.Applied (op : BinaryOperator) (x y : Value) :
    Except Failure Value → Prop where
  | number (z : Float) : Applied op x y (.ok (.number z))
  | text (s : String) : Applied op x y (.ok (.text s))
  | refused : Applied op x y (Value.refuse op x y)
  | exhausted (e : Exhaustion) : Applied op x y (.error (.exhausted e))

theorem BinaryOperator.applied [Machine] (op : BinaryOperator) (x y : Value) :
    op.Applied x y (op.apply x y) := by
  cases op with
  | mul =>
    show Applied .mul x y (x.mul y)
    unfold Value.mul Value.repeatText
    split
    · exact .number _
    · split_ifs
      · exact .text _
      · exact .refused
      · exact .exhausted _
      · exact .exhausted _
      · exact .text _
    · exact .refused
  | add =>
    show Applied .add x y (x.add y)
    unfold Value.add
    split
    · exact .number _
    · exact .text _
    · exact .refused
  | sub =>
    show Applied .sub x y (x.sub y)
    unfold Value.sub
    split
    · exact .number _
    · exact .refused
  | div =>
    show Applied .div x y (x.div y)
    unfold Value.div
    split
    · exact .number _
    · exact .refused

theorem BinaryOperator.apply_alike [Machine] (hP : Value.Kept S P) (op : BinaryOperator)
    {x y : Value} (hx : P x) (hy : P y) :
    (Run.ofExcept (op.apply x y)).Alike P (Value.Same P) (Run.ofExcept (op.apply x y)) := by
  refine .ofExcept ?_
  have happlied := op.applied x y
  generalize op.apply x y = res at happlied
  cases happlied with
  | number z => exact .ok ⟨rfl, hP.number z⟩
  | text s => exact .ok ⟨rfl, hP.text s⟩
  | refused =>
    refine .error fun t ht => ?_
    rcases List.mem_pair.1 ht with rfl | rfl
    · exact ⟨x, hx, rfl⟩
    · exact ⟨y, hy, rfl⟩
  | exhausted e => exact .error trivial

/-! ## Expressions -/

theorem bindArguments_alike {evaluate₁ evaluate₂ : Expr → Run Value} {bs : List (String × Expr)}
    {to₁ to₂ : Environment}
    (hargs : ∀ b ∈ bs, (evaluate₁ b.2).Alike P (Value.Same P) (evaluate₂ b.2))
    (h : to₁.Agree S P to₂) : (bindArguments evaluate₁ bs to₁).Alike P (Environment.Agree S P)
      (bindArguments evaluate₂ bs to₂) := by
  induction bs generalizing to₁ to₂ with
  | nil => exact .pure h
  | cons b bs ih =>
    refine (hargs b List.mem_cons_self).bind ?_
    rintro v _ ⟨rfl, hv⟩
    exact ih (fun b' hb' => hargs b' (List.mem_cons_of_mem _ hb')) (h.bind _ hv)

/-- **An expression does the same under environments that agree on its variables**, with any
limits. -/
theorem eval_alike [Machine] (hP : Value.Kept S P) (henv : env₁.Agree S P env₂) {e : Expr}
    (he : e.MentionsOnly S) (w : Run.Watch) (depth : Nat) :
    (eval w depth env₁ e).Alike P (Value.Same P) (eval w depth env₂ e) := by
  induction depth generalizing env₁ env₂ e with
  | zero => exact .fail trivial
  | succ depth ih =>
    unfold eval
    refine (Run.Alike.report w (by simp)).bind fun _ _ _ => ?_
    cases e with
    | number x => exact .pure ⟨rfl, hP.number x⟩
    | text s => exact .pure ⟨rfl, hP.text s⟩
    | negate e =>
      dsimp only
      refine (ih henv (Expr.mentionsOnly_negate.1 he)).bind ?_
      rintro v _ ⟨rfl, hv⟩
      exact Value.neg_alike hP hv
    | binary op l r =>
      dsimp only
      obtain ⟨hl, hr⟩ := Expr.mentionsOnly_binary.1 he
      refine (ih henv hl).bind ?_
      rintro x _ ⟨rfl, hx⟩
      refine (ih henv hr).bind ?_
      rintro y _ ⟨rfl, hy⟩
      exact op.apply_alike hP hx hy
    | var n =>
      have hn : n ∈ S := Expr.mentionsOnly_var.1 he
      simp only [← henv.lookup? n hn]
      cases hv : env₁.lookup? n with
      | none => exact .fail fun t ht => by cases ht
      | some v => exact .pure ⟨rfl, henv.holds n hn v hv⟩
    | letIn n b body =>
      dsimp only
      obtain ⟨hb, hbody⟩ := Expr.mentionsOnly_letIn.1 he
      refine (ih henv hb).bind ?_
      rintro v _ ⟨rfl, hv⟩
      exact ih (henv.bind n hv) hbody
    | apply callee args =>
      dsimp only
      obtain ⟨hcallee, hargs⟩ := Expr.mentionsOnly_apply.1 he
      refine (ih henv hcallee).bind ?_
      rintro v _ ⟨rfl, hv⟩
      cases v with
      | function f =>
        dsimp only
        split
        · refine (bindArguments_alike (fun b hb => ?_) henv).bind fun to₁ to₂ hto => ?_
          · exact ih henv (hargs b.2 (List.of_mem_zip hb).2)
          · refine (Run.Alike.report w ?_).bind fun _ _ _ => ih hto (hP.body f hv)
            rintro _ ⟨_⟩
            exact hv
        · exact .fail fun t ht => by cases ht
      | unit | number | text =>
        exact .fail fun t ht => ⟨_, hv, (List.mem_singleton.1 ht).symm⟩

end Evaluation

/-! ## Programs -/

/-- The statement that defines a function. -/
def Function.definition (f : Function) : Stmt :=
  .define f.name f.params f.body

/-- What a statement gives: a value of which `P` holds if it is an expression, and unit if it only
binds a name. -/
def Stmt.Yields (P : Value → Prop) : Stmt → Value → Prop
  | .expr _, v => P v
  | .define .., v | .bind .., v => v = .unit

section Programs

variable [Machine] {S : Set String} {P : Value → Prop} {env₁ env₂ : Environment}

theorem runStmt_alike (hP : Value.Kept S P) (henv : env₁.Agree S P env₂) {s : Stmt}
    (hs : ∀ n ∈ s.vars, n ∈ S) (hdef : ∀ f, s = Function.definition f → P (.function f))
    (w : Run.Watch) (depth : Nat) :
    (runStmt w depth env₁ s).Alike P
      (fun x y => x.1 = y.1 ∧ s.Yields P x.1 ∧ x.2.Agree S P y.2) (runStmt w depth env₂ s) := by
  unfold runStmt
  refine (Run.Alike.report w (by simp)).bind fun _ _ _ => ?_
  cases s with
  | expr e =>
    refine (eval_alike hP henv hs w depth).bind ?_
    rintro v _ ⟨rfl, hv⟩
    exact .pure ⟨rfl, hv, henv⟩
  | define n ps body => exact .pure ⟨rfl, rfl, henv.bind n (hdef ⟨n, ps, body⟩ rfl)⟩
  | bind n e =>
    refine (eval_alike hP henv hs w depth).bind ?_
    rintro v _ ⟨rfl, hv⟩
    exact .pure ⟨rfl, rfl, henv.bind n hv⟩

/-- **A program does the same under environments that agree on its variables**, with any limits. Its
statements give the same values, and leave environments that agree. -/
theorem runAll_alike (hP : Value.Kept S P) (henv : env₁.Agree S P env₂) {p : Program}
    (hp : ∀ s ∈ p, ∀ n ∈ s.vars, n ∈ S)
    (hdef : ∀ f, Function.definition f ∈ p → P (.function f)) (w : Run.Watch) (depth : Nat) :
    (runAll w depth env₁ p).Alike P
      (fun x y => x.1 = y.1 ∧ List.Forall₂ (Stmt.Yields P) p x.1 ∧ x.2.Agree S P y.2)
      (runAll w depth env₂ p) := by
  induction p generalizing env₁ env₂ with
  | nil => exact .pure ⟨rfl, .nil, henv⟩
  | cons s p ih =>
    have hs := runStmt_alike hP henv (hp s List.mem_cons_self)
      (fun f hf => hdef f (hf ▸ List.mem_cons_self)) w depth
    refine hs.bind ?_
    rintro ⟨v, next₁⟩ ⟨_, next₂⟩ ⟨rfl, hv, hnext⟩
    have hrest := ih hnext (fun s' hs' => hp s' (List.mem_cons_of_mem _ hs'))
      fun f hf => hdef f (List.mem_cons_of_mem _ hf)
    refine hrest.bind ?_
    rintro ⟨vs, final₁⟩ ⟨_, final₂⟩ ⟨rfl, hvs, hfinal⟩
    exact .pure ⟨rfl, .cons hv hvs, hfinal⟩

theorem runProgram_alike (hP : Value.Kept S P) (henv : env₁.Agree S P env₂) {p : Program}
    (hp : ∀ s ∈ p, ∀ n ∈ s.vars, n ∈ S)
    (hdef : ∀ f, Function.definition f ∈ p → P (.function f)) (w : Run.Watch) (depth : Nat) :
    (runProgram w depth env₁ p).Alike P
      (fun x y => x.1 = y.1 ∧ (∃ vs, List.Forall₂ (Stmt.Yields P) p vs ∧ x.1 = vs.getLastD .unit) ∧
        x.2.Agree S P y.2)
      (runProgram w depth env₂ p) := by
  rw [runProgram, runProgram, runFrom_eq_bind, runFrom_eq_bind]
  refine (runAll_alike hP henv hp hdef w depth).bind ?_
  rintro ⟨vs, final₁⟩ ⟨_, final₂⟩ ⟨rfl, hvs, hfinal⟩
  exact .pure ⟨rfl, ⟨vs, hvs, rfl⟩, hfinal⟩

end Programs

end Calx
