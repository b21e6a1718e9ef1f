import Calx.Proofs.Eval.BigStep

/-!
# The trace of an evaluation

What an evaluation enters is a tree: within an expression its operands, in order, up to the first
that fails, and within a call its callee, its arguments and then the body (`Visits`). There is one
such tree (`Visits.unique`), and a traced evaluation that is not cut short reports it in preorder
(`exists_visits`). Without tracing the same is computed and nothing is reported (`Run.Silences`).
-/

namespace Calx

/-! ## Trees of events -/

/-- An event, and what happens within it, in order. -/
inductive Visit where
  | node (entered : Event) (inner : List Visit)

namespace Visit

mutual

/-- The events of a tree: each comes before those within it. -/
def preorder : Visit → List Event
  | node entered inner => entered :: preorderAll inner

/-- The events of some trees, one tree after the other. -/
def preorderAll : List Visit → List Event
  | [] => []
  | t :: ts => t.preorder ++ preorderAll ts

end

theorem preorderAll_append (ts us : List Visit) :
    preorderAll (ts ++ us) = preorderAll ts ++ preorderAll us := by
  induction ts with
  | nil => rfl
  | cons t ts ih => rw [List.cons_append, preorderAll, preorderAll, ih, List.append_assoc]

theorem preorderAll_singleton (t : Visit) : preorderAll [t] = t.preorder :=
  List.append_nil _

end Visit

/-! ## What is entered -/

section Entered

variable [Machine]

mutual

/-- What the evaluation of an expression enters: the expression, and what is within it. -/
inductive Visits : Environment → Expr → Visit → Prop where
  | enter {env : Environment} {e : Expr} {ts : List Visit} (h : Within env e ts) :
      Visits env e (.node (.expression e) ts)

/-- What is entered within an expression, in order. -/
inductive Within : Environment → Expr → List Visit → Prop where
  | number {env : Environment} (x : Float) : Within env (.number x) []
  | text {env : Environment} (s : String) : Within env (.text s) []
  | var {env : Environment} (n : String) : Within env (.var n) []
  | negate {env : Environment} {e : Expr} {ts : List Visit} (h : VisitsAll env [e] ts) :
      Within env (.negate e) ts
  | binary {env : Environment} {op : BinaryOperator} {l r : Expr} {ts : List Visit}
      (h : VisitsAll env [l, r] ts) : Within env (.binary op l r) ts
  | boundFails {env : Environment} {n : String} {b body : Expr} {err : Failure} {t : Visit}
      (hb : Evaluates env b (.error err)) (ht : Visits env b t) : Within env (.letIn n b body) [t]
  | letIn {env : Environment} {n : String} {b body : Expr} {v : Value} {t u : Visit}
      (hb : Evaluates env b (.ok v)) (ht : Visits env b t) (hu : Visits (env.bind n v) body u) :
      Within env (.letIn n b body) [t, u]
  /-- The callee fails, is no function or takes another number of arguments. -/
  | refused {env : Environment} {callee : Expr} {args : List Expr} {res : Except Failure Value}
      {t : Visit} (hc : Evaluates env callee res)
      (hf : ∀ f, res = .ok (.function f) → args.length ≠ f.params.length)
      (ht : Visits env callee t) : Within env (.apply callee args) [t]
  | argumentFails {env : Environment} {callee : Expr} {args : List Expr} {f : Function}
      {err : Failure} {t : Visit} {us : List Visit} (hc : Evaluates env callee (.ok (.function f)))
      (hlen : args.length = f.params.length) (hargs : EvaluatesAll env args (.error err))
      (ht : Visits env callee t) (hus : VisitsAll env args us) :
      Within env (.apply callee args) (t :: us)
  | apply {env : Environment} {callee : Expr} {args : List Expr} {f : Function} {vs : List Value}
      {t u : Visit} {us : List Visit} (hc : Evaluates env callee (.ok (.function f)))
      (hlen : args.length = f.params.length) (hargs : EvaluatesAll env args (.ok vs))
      (ht : Visits env callee t) (hus : VisitsAll env args us)
      (hu : Visits (env.bindAll (f.params.zip vs)) f.body u) :
      Within env (.apply callee args) (t :: us ++ [.node (.call f) [u]])

/-- What is entered of some expressions, from left to right, up to the first that fails. -/
inductive VisitsAll : Environment → List Expr → List Visit → Prop where
  | nil {env : Environment} : VisitsAll env [] []
  | cons {env : Environment} {e : Expr} {es : List Expr} {v : Value} {t : Visit} {ts : List Visit}
      (he : Evaluates env e (.ok v)) (ht : Visits env e t) (hts : VisitsAll env es ts) :
      VisitsAll env (e :: es) (t :: ts)
  | headFails {env : Environment} {e : Expr} {es : List Expr} {err : Failure} {t : Visit}
      (he : Evaluates env e (.error err)) (ht : Visits env e t) : VisitsAll env (e :: es) [t]

end

/-- What a statement enters: itself, and its expression unless that is only kept. -/
inductive StmtVisits : Environment → Stmt → Visit → Prop where
  | expr {env : Environment} {e : Expr} {t : Visit} (h : Visits env e t) :
      StmtVisits env (.expr e) (.node (.statement (.expr e)) [t])
  | define {env : Environment} (n : String) (ps : List String) (body : Expr) :
      StmtVisits env (.define n ps body) (.node (.statement (.define n ps body)) [])
  | bind {env : Environment} {n : String} {e : Expr} {t : Visit} (h : Visits env e t) :
      StmtVisits env (.bind n e) (.node (.statement (.bind n e)) [t])

/-- What a program enters: its statements, up to the first that fails. -/
inductive ProgramVisits : Environment → Program → List Visit → Prop where
  | nil {env : Environment} : ProgramVisits env [] []
  | cons {env next : Environment} {s : Stmt} {p : Program} {v : Value} {t : Visit}
      {ts : List Visit} (hs : Executes env s (.ok (v, next))) (ht : StmtVisits env s t)
      (hts : ProgramVisits next p ts) : ProgramVisits env (s :: p) (t :: ts)
  | headFails {env : Environment} {s : Stmt} {p : Program} {err : Failure} {t : Visit}
      (hs : Executes env s (.error err)) (ht : StmtVisits env s t) : ProgramVisits env (s :: p) [t]

/-! ## There is one tree -/

-- Where two rules are about one expression, they differ in what a part of it ends in, and a part ends
-- in one thing only.
mutual

theorem Visits.unique : ∀ {env : Environment} {e : Expr} {t u : Visit},
    Visits env e t → Visits env e u → t = u
  | _, _, _, _, .enter h, .enter h' => by rw [h.unique h']

theorem Within.unique : ∀ {env : Environment} {e : Expr} {ts us : List Visit},
    Within env e ts → Within env e us → ts = us
  | _, _, _, _, .number _, .number _ => rfl
  | _, _, _, _, .text _, .text _ => rfl
  | _, _, _, _, .var _, .var _ => rfl
  | _, _, _, _, .negate h, .negate h' => h.unique h'
  | _, _, _, _, .binary h, .binary h' => h.unique h'
  | _, _, _, _, .boundFails _ ht, .boundFails _ ht' => by rw [ht.unique ht']
  | _, _, _, _, .boundFails hb _, .letIn hb' _ _ => nomatch hb.unique hb'
  | _, _, _, _, .letIn hb _ _, .boundFails hb' _ => nomatch hb.unique hb'
  | _, _, _, _, .letIn hb ht hu, .letIn hb' ht' hu' => by
    cases hb.unique hb'
    rw [ht.unique ht', hu.unique hu']
  | _, _, _, _, .refused _ _ ht, .refused _ _ ht' => by rw [ht.unique ht']
  | _, _, _, _, .refused hc hf _, .argumentFails hc' hlen _ _ _
  | _, _, _, _, .refused hc hf _, .apply hc' hlen _ _ _ _ => absurd hlen (hf _ (hc.unique hc'))
  | _, _, _, _, .argumentFails hc' hlen _ _ _, .refused hc hf _
  | _, _, _, _, .apply hc' hlen _ _ _ _, .refused hc hf _ => absurd hlen (hf _ (hc.unique hc'))
  | _, _, _, _, .argumentFails _ _ _ ht hus, .argumentFails _ _ _ ht' hus' => by
    rw [ht.unique ht', hus.unique hus']
  | _, _, _, _, .argumentFails _ _ hargs _ _, .apply _ _ hargs' _ _ _ => nomatch hargs.unique hargs'
  | _, _, _, _, .apply _ _ hargs _ _ _, .argumentFails _ _ hargs' _ _ => nomatch hargs.unique hargs'
  | _, _, _, _, .apply hc _ hargs ht hus hu, .apply hc' _ hargs' ht' hus' hu' => by
    cases hc.unique hc'
    cases hargs.unique hargs'
    rw [ht.unique ht', hus.unique hus', hu.unique hu']

theorem VisitsAll.unique : ∀ {env : Environment} {es : List Expr} {ts us : List Visit},
    VisitsAll env es ts → VisitsAll env es us → ts = us
  | _, _, _, _, .nil, .nil => rfl
  | _, _, _, _, .cons _ ht hts, .cons _ ht' hts' => by rw [ht.unique ht', hts.unique hts']
  | _, _, _, _, .cons he _ _, .headFails he' _ => nomatch he.unique he'
  | _, _, _, _, .headFails he _, .cons he' _ _ => nomatch he.unique he'
  | _, _, _, _, .headFails _ ht, .headFails _ ht' => by rw [ht.unique ht']

end

theorem StmtVisits.unique {env : Environment} {s : Stmt} {t u : Visit} (h : StmtVisits env s t)
    (h' : StmtVisits env s u) : t = u := by
  cases h with
  | expr h => cases h' with | expr h' => rw [h.unique h']
  | define => cases h' with | define => rfl
  | bind h => cases h' with | bind h' => rw [h.unique h']

theorem ProgramVisits.unique {env : Environment} {p : Program} {ts us : List Visit}
    (h : ProgramVisits env p ts) (h' : ProgramVisits env p us) : ts = us := by
  induction h generalizing us with
  | nil => cases h' with | nil => rfl
  | cons hs ht _ ih =>
    cases h' with
    | cons hs' ht' hts' =>
      cases hs.unique hs'
      rw [ht.unique ht', ih hts']
    | headFails hs' => cases hs.unique hs'
  | headFails hs ht =>
    cases h' with
    | cons hs' => cases hs.unique hs'
    | headFails _ ht' => rw [ht.unique ht']

end Entered

/-! ## The tree is reported -/

open Visit

section Traced

variable {w : Run.Watch}

/-- A report stands in front of what comes after it, in a traced run that is not cut short. -/
theorem report_bind_eq {α : Type} {ev : Event} {f : Unit → Run α} (hw : w.tracing = true)
    (h : (Run.report w ev >>= f).outcome ≠ .error .tooDeep) :
    Run.report w ev >>= f = ⟨ev :: (f ()).trace, (f ()).outcome⟩ := by
  have hreport : Run.report w ev = ⟨[ev], .ok ()⟩ := by
    rw [Run.report, if_pos hw] at h ⊢
    by_cases hdepth : ev.depth ≤ w.writing
    · rw [if_pos hdepth]
    · rw [if_neg hdepth] at h
      exact absurd rfl h
  rw [hreport]
  rfl

/-- A traced run that enters something: its events are that, and then those of what is left. -/
theorem trace_enter {α : Type} {run inner : Run α} {ev : Event} {res : Except Failure α}
    (hw : w.tracing = true) (heq : run = Run.report w ev >>= fun _ => inner)
    (h : run.outcome = res) (hres : res ≠ .error .tooDeep) :
    inner.outcome = res ∧ run.trace = ev :: inner.trace := by
  subst heq
  have hreport := report_bind_eq hw (h ▸ hres)
  rw [hreport] at h ⊢
  exact ⟨h, rfl⟩

variable [Machine]

/-- Every evaluation through at most `depth` nested ones reports its tree. -/
def ReportsVisits (w : Run.Watch) (depth : Nat) : Prop :=
  ∀ {env : Environment} {e : Expr} {res : Except Failure Value},
    (eval w depth env e).outcome = res → res ≠ .error .tooDeep →
    ∃ t, Visits env e t ∧ (eval w depth env e).trace = t.preorder

section Step

variable {depth : Nat} {env : Environment} (hreports : ReportsVisits w depth)

include hreports

/-- One more expression in front of some that report their trees. -/
theorem exists_visitsAll_cons {α : Type} {e : Expr} {es : List Expr} {f : Value → Run α}
    {res : Except Failure α} (h : (eval w depth env e >>= f).outcome = res)
    (hres : res ≠ .error .tooDeep)
    (hf : ∀ v, (f v).outcome = res → ∃ ts, VisitsAll env es ts ∧ (f v).trace = preorderAll ts) :
    ∃ ts, VisitsAll env (e :: es) ts ∧ (eval w depth env e >>= f).trace = preorderAll ts := by
  rcases Run.outcome_bind_cases h with ⟨err, he, rfl⟩ | ⟨v, he, hrest⟩
  · obtain ⟨t, ht, htrace⟩ := hreports he (error_ne_tooDeep hres)
    refine ⟨[t], .headFails (evaluates_of_outcome he (error_ne_tooDeep hres)) ht, ?_⟩
    rw [Run.trace_bind_error he, htrace, preorderAll_singleton]
  · obtain ⟨t, ht, htrace⟩ := hreports he ok_ne_tooDeep
    obtain ⟨ts, hts, hrestTrace⟩ := hf v hrest
    refine ⟨t :: ts, .cons (evaluates_of_outcome he ok_ne_tooDeep) ht hts, ?_⟩
    rw [Run.trace_bind_ok he, htrace, hrestTrace, preorderAll]

theorem exists_visitsAll_arguments {params : List String} {args : List Expr} {inner : Environment}
    {res : Except Failure Environment} (hlen : args.length = params.length)
    (h : (bindArguments (eval w depth env) (params.zip args) inner).outcome = res)
    (hres : res ≠ .error .tooDeep) :
    ∃ ts, VisitsAll env args ts ∧
      (bindArguments (eval w depth env) (params.zip args) inner).trace = preorderAll ts := by
  induction params generalizing args inner with
  | nil =>
    obtain rfl := List.length_eq_zero_iff.1 hlen
    exact ⟨[], .nil, rfl⟩
  | cons n params ih =>
    obtain ⟨e, args, rfl⟩ := List.exists_cons_of_length_eq_add_one hlen
    exact exists_visitsAll_cons hreports h hres fun v hv => ih (Nat.succ.inj hlen) hv

/-- A call whose callee is a function of as many parameters. -/
theorem exists_within_call (hw : w.tracing = true) {callee : Expr} {args : List Expr}
    {f : Function} {t : Visit} {res : Except Failure Value}
    (hc : Evaluates env callee (.ok (.function f))) (hlen : args.length = f.params.length)
    (ht : Visits env callee t)
    (h : (bindArguments (eval w depth env) (f.params.zip args) env >>= fun inner =>
      Run.report w (.call f) >>= fun _ => eval w depth inner f.body).outcome = res)
    (hres : res ≠ .error .tooDeep) :
    ∃ ts, Within env (.apply callee args) (t :: ts) ∧
      (bindArguments (eval w depth env) (f.params.zip args) env >>= fun inner =>
        Run.report w (.call f) >>= fun _ => eval w depth inner f.body).trace = preorderAll ts := by
  have hbind := @outcome_bindArguments (eval w depth env) f.params args env hlen
  have hall {res : Except Failure (List Value)} (hargs : evaluateAll (eval w depth env) args = res)
      (hres : res ≠ .error .tooDeep) : EvaluatesAll env args res :=
    evaluatesAll_of_evaluateAll (fun _ _ => evaluates_of_outcome) hargs hres
  cases hargs : evaluateAll (eval w depth env) args with
  | error err =>
    rw [hargs] at hbind
    obtain rfl := (Run.outcome_bind_error hbind _).symm.trans h
    obtain ⟨us, hus, htrace⟩ :=
      exists_visitsAll_arguments hreports hlen hbind (error_ne_tooDeep hres)
    refine ⟨us, .argumentFails hc hlen (hall hargs (error_ne_tooDeep hres)) ht hus, ?_⟩
    rw [Run.trace_bind_error hbind, htrace]
  | ok vs =>
    rw [hargs] at hbind
    rw [Run.outcome_bind_ok hbind] at h
    have hbody := report_bind_eq hw (h ▸ hres)
    obtain ⟨us, hus, htrace⟩ := exists_visitsAll_arguments hreports hlen hbind ok_ne_tooDeep
    rw [hbody] at h
    obtain ⟨u, hu, hbodyTrace⟩ := hreports h hres
    have hwithin := Within.apply hc hlen (hall hargs ok_ne_tooDeep) ht hus hu
    refine ⟨us ++ [node (.call f) [u]], hwithin, ?_⟩
    rw [Run.trace_bind_ok hbind, htrace, hbody, hbodyTrace, preorderAll_append,
      preorderAll_singleton, preorder, preorderAll_singleton]

end Step

/-- Entering an expression: its report, and then what is within it. -/
theorem exists_visits_enter {depth : Nat} {env : Environment} {e : Expr} {inner : Run Value}
    {res : Except Failure Value} (hw : w.tracing = true)
    (heq : eval w (depth + 1) env e = Run.report w (.expression e) >>= fun _ => inner)
    (h : (eval w (depth + 1) env e).outcome = res) (hres : res ≠ .error .tooDeep)
    (hinner : inner.outcome = res → ∃ ts, Within env e ts ∧ inner.trace = preorderAll ts) :
    ∃ t, Visits env e t ∧ (eval w (depth + 1) env e).trace = t.preorder := by
  obtain ⟨h, htrace⟩ := trace_enter hw heq h hres
  obtain ⟨ts, hts, hinnerTrace⟩ := hinner h
  exact ⟨.node (.expression e) ts, .enter hts, by rw [htrace, hinnerTrace, preorder]⟩

/-- **A traced evaluation reports its tree**, if it is not cut short. -/
theorem reportsVisits (hw : w.tracing = true) (depth : Nat) : ReportsVisits w depth := by
  -- What is within an expression is evaluated one level further in, whatever tree it is in.
  induction depth with
  | zero =>
    intro env e res h hres
    exact absurd h.symm hres
  | succ depth ih =>
    intro env e res h hres
    cases e with
    | number x => exact exists_visits_enter hw rfl h hres fun _ => ⟨[], .number x, rfl⟩
    | text s => exact exists_visits_enter hw rfl h hres fun _ => ⟨[], .text s, rfl⟩
    | var n =>
      refine exists_visits_enter hw rfl h hres fun _ => ⟨[], .var n, ?_⟩
      dsimp only
      cases env.lookup? n <;> rfl
    | negate e =>
      refine exists_visits_enter hw rfl h hres fun h => ?_
      obtain ⟨ts, hts, htrace⟩ :=
        exists_visitsAll_cons ih h hres fun v _ => ⟨[], .nil, rfl⟩
      exact ⟨ts, .negate hts, htrace⟩
    | binary op l r =>
      refine exists_visits_enter hw rfl h hres fun h => ?_
      obtain ⟨ts, hts, htrace⟩ := exists_visitsAll_cons ih h hres fun x hx =>
        exists_visitsAll_cons ih hx hres fun y _ => ⟨[], .nil, rfl⟩
      exact ⟨ts, .binary hts, htrace⟩
    | letIn n b body =>
      refine exists_visits_enter hw rfl h hres fun h => ?_
      rcases Run.outcome_bind_cases h with ⟨err, hb, rfl⟩ | ⟨v, hb, hbody⟩
      · obtain ⟨t, ht, htrace⟩ := ih hb hres
        refine ⟨[t], .boundFails (evaluates_of_outcome hb hres) ht, ?_⟩
        rw [Run.trace_bind_error hb, htrace, preorderAll_singleton]
      · obtain ⟨t, ht, htrace⟩ := ih hb ok_ne_tooDeep
        obtain ⟨u, hu, hbodyTrace⟩ := ih hbody hres
        refine ⟨[t, u], .letIn (evaluates_of_outcome hb ok_ne_tooDeep) ht hu, ?_⟩
        rw [Run.trace_bind_ok hb, htrace, hbodyTrace, preorderAll, preorderAll_singleton]
    | apply callee args =>
      refine exists_visits_enter hw rfl h hres fun h => ?_
      rcases Run.outcome_bind_cases h with ⟨err, hc, rfl⟩ | ⟨v, hc, hcall⟩
      · obtain ⟨t, ht, htrace⟩ := ih hc hres
        refine ⟨[t], .refused (evaluates_of_outcome hc hres) (by rintro f ⟨⟩) ht, ?_⟩
        rw [Run.trace_bind_error hc, htrace, preorderAll_singleton]
      · obtain ⟨t, ht, htrace⟩ := ih hc ok_ne_tooDeep
        have hcallee := evaluates_of_outcome hc ok_ne_tooDeep
        -- A callee that is refused is all that is entered.
        have hrefused (hf : ∀ f, v = .function f → args.length ≠ f.params.length) :
            Within env (.apply callee args) [t] :=
          .refused hcallee (fun f hok => hf f (Except.ok.inj hok)) ht
        rw [Run.trace_bind_ok hc, htrace]
        cases v with
        | function f =>
          by_cases hlen : args.length = f.params.length
          · simp only [if_pos hlen] at hcall ⊢
            obtain ⟨ts, hts, hcallTrace⟩ := exists_within_call ih hw hcallee hlen ht hcall hres
            exact ⟨t :: ts, hts, by rw [hcallTrace, preorderAll]⟩
          · simp only [if_neg hlen]
            refine ⟨[t], hrefused ?_, rfl⟩
            rintro _ ⟨⟩
            exact hlen
        | _ => exact ⟨[t], hrefused (by rintro f ⟨⟩), rfl⟩

section Programs

variable {depth : Nat} {env : Environment} (hw : w.tracing = true)

include hw

theorem exists_visits_of_bind {α : Type} {e : Expr} {f : Value → α} {res : Except Failure α}
    (h : (eval w depth env e >>= fun v => pure (f v)).outcome = res) (hres : res ≠ .error .tooDeep) :
    ∃ t, Visits env e t ∧ (eval w depth env e >>= fun v => pure (f v)).trace = t.preorder := by
  rw [Run.trace_bind_pure]
  rcases Run.outcome_bind_cases h with ⟨err, he, rfl⟩ | ⟨v, he, -⟩
  · exact reportsVisits hw depth he (error_ne_tooDeep hres)
  · exact reportsVisits hw depth he ok_ne_tooDeep

theorem exists_stmtVisits {s : Stmt} {res : Except Failure (Value × Environment)}
    (h : (runStmt w depth env s).outcome = res) (hres : res ≠ .error .tooDeep) :
    ∃ t, StmtVisits env s t ∧ (runStmt w depth env s).trace = t.preorder := by
  cases s with
  | expr e =>
    obtain ⟨h, htrace⟩ := trace_enter hw rfl h hres
    obtain ⟨t, ht, hexpr⟩ := exists_visits_of_bind hw h hres
    refine ⟨_, .expr ht, htrace.trans ?_⟩
    rw [preorder, preorderAll_singleton, ← hexpr]
  | define n ps body =>
    obtain ⟨-, htrace⟩ := trace_enter hw rfl h hres
    exact ⟨_, .define n ps body, htrace⟩
  | bind n e =>
    obtain ⟨h, htrace⟩ := trace_enter hw rfl h hres
    obtain ⟨t, ht, hexpr⟩ := exists_visits_of_bind hw h hres
    refine ⟨_, .bind ht, htrace.trans ?_⟩
    rw [preorder, preorderAll_singleton, ← hexpr]

theorem exists_programVisits {p : Program} {res : Except Failure (List Value × Environment)}
    (h : (runAll w depth env p).outcome = res) (hres : res ≠ .error .tooDeep) :
    ∃ ts, ProgramVisits env p ts ∧ (runAll w depth env p).trace = preorderAll ts := by
  induction p generalizing env res with
  | nil => exact ⟨[], .nil, rfl⟩
  | cons s p ih =>
    rw [runAll]
    rcases Run.outcome_bind_cases h with ⟨err, hs, rfl⟩ | ⟨⟨v, next⟩, hs, hrest⟩
    · obtain ⟨t, ht, htrace⟩ := exists_stmtVisits hw hs (error_ne_tooDeep hres)
      refine ⟨[t], .headFails (executes_of_outcome hs (error_ne_tooDeep hres)) ht, ?_⟩
      rw [Run.trace_bind_error hs, htrace, preorderAll_singleton]
    · obtain ⟨t, ht, htrace⟩ := exists_stmtVisits hw hs ok_ne_tooDeep
      have hrest : ∃ ts, ProgramVisits next p ts ∧
          (runAll w depth next p).trace = preorderAll ts := by
        rcases Run.outcome_bind_cases hrest with ⟨err, hp, rfl⟩ | ⟨x, hp, -⟩
        · exact ih hp (error_ne_tooDeep hres)
        · exact ih hp ok_ne_tooDeep
      obtain ⟨ts, hts, hrestTrace⟩ := hrest
      refine ⟨t :: ts, .cons (executes_of_outcome hs ok_ne_tooDeep) ht hts, ?_⟩
      rw [Run.trace_bind_ok hs, Run.trace_bind_pure, htrace, hrestTrace, preorderAll]

end Programs

end Traced

/-! ## Without a report -/

/-- The second run ends as the first does and reports nothing, if the first is not cut short. -/
def Run.Silences {α : Type} (r r' : Run α) : Prop :=
  r.outcome ≠ .error .tooDeep → r' = ⟨[], r.outcome⟩

namespace Run.Silences

variable {α β : Type}

theorem ofExcept (x : Except Failure α) : Silences (Run.ofExcept x) (Run.ofExcept x) :=
  fun _ => rfl

protected theorem bind {r r' : Run α} {f f' : α → Run β} (h : r.Silences r')
    (hf : ∀ a, (f a).Silences (f' a)) : (r >>= f).Silences (r' >>= f') := by
  intro hne
  cases hr : r.outcome with
  | error err =>
    rw [outcome_bind_error hr] at hne ⊢
    rw [h (hr ▸ error_ne_tooDeep hne), hr]
    rfl
  | ok a =>
    rw [outcome_bind_ok hr] at hne ⊢
    rw [h (hr ▸ ok_ne_tooDeep), hr]
    show (⟨[] ++ (f' a).trace, (f' a).outcome⟩ : Run β) = _
    rw [hf a hne, List.nil_append]

protected theorem pure (a : α) : (pure a : Run α).Silences (pure a) :=
  ofExcept (.ok a)

theorem report (w w' : Watch) (hw' : w'.tracing = false) (ev : Event) :
    (Run.report w ev).Silences (Run.report w' ev) := by
  intro hne
  rw [(outcome_report w ev).resolve_right hne, Run.report, hw']
  rfl

end Run.Silences

section Silent

variable {w w' : Run.Watch} (hw' : w'.tracing = false)

theorem bindArguments_silences {evaluate evaluate' : Expr → Run Value}
    (h : ∀ e, (evaluate e).Silences (evaluate' e)) (bs : List (String × Expr)) (env : Environment) :
    (bindArguments evaluate bs env).Silences (bindArguments evaluate' bs env) := by
  induction bs generalizing env with
  | nil => exact .pure env
  | cons b bs ih => exact (h b.2).bind fun v => ih (env.bind b.1 v)

include hw'

theorem eval_silences [Machine] (depth : Nat) (env : Environment) (e : Expr) :
    (eval w depth env e).Silences (eval w' depth env e) := by
  induction depth generalizing env e with
  | zero => exact .ofExcept _
  | succ depth ih =>
    refine (Run.Silences.report w w' hw' _).bind fun _ => ?_
    cases e with
    | number | text => exact .pure _
    | var n =>
      dsimp only
      cases env.lookup? n with
      | none => exact .ofExcept _
      | some v => exact .pure v
    | negate e => exact (ih env e).bind fun v => .ofExcept _
    | binary op l r => exact (ih env l).bind fun x => (ih env r).bind fun y => .ofExcept _
    | letIn n b body => exact (ih env b).bind fun v => ih (env.bind n v) body
    | apply callee args =>
      refine (ih env callee).bind fun v => ?_
      cases v with
      | function f =>
        dsimp only
        split
        · exact (bindArguments_silences (ih env) _ env).bind fun inner =>
            (Run.Silences.report w w' hw' _).bind fun _ => ih inner f.body
        · exact .ofExcept _
      | _ => exact .ofExcept _

theorem runStmt_silences [Machine] (depth : Nat) (env : Environment) (s : Stmt) :
    (runStmt w depth env s).Silences (runStmt w' depth env s) := by
  refine (Run.Silences.report w w' hw' _).bind fun _ => ?_
  cases s with
  | expr e => exact (eval_silences hw' depth env e).bind fun v => .pure _
  | define => exact .pure _
  | bind n e => exact (eval_silences hw' depth env e).bind fun v => .pure _

theorem runAll_silences [Machine] (depth : Nat) (env : Environment) (p : Program) :
    (runAll w depth env p).Silences (runAll w' depth env p) := by
  induction p generalizing env with
  | nil => exact .pure _
  | cons s p ih =>
    exact (runStmt_silences hw' depth env s).bind fun x => (ih x.2).bind fun y => .pure _

theorem runProgram_silences [Machine] (depth : Nat) (env : Environment) (p : Program) :
    (runProgram w depth env p).Silences (runProgram w' depth env p) := by
  rw [runProgram, runProgram, runFrom_eq_bind, runFrom_eq_bind]
  exact (runAll_silences hw' depth env p).bind fun x => .pure _

end Silent

/-! ## Tracing -/

/-- **Tracing only adds a report**, in preorder. A traced evaluation that is not cut short enters one
tree, and its events are those of the tree, each in front of those within it: on a failure, what has
been entered up to then. The same holds of a program, whether it is run for its last value or for all
of them. Untraced, through as many nested evaluations, they end alike and report nothing. An event is
shown as the tree that is entered, or the function that is called. -/
theorem tracing_reports_preorder [Machine] :
    (∀ writing depth env e, (eval ⟨true, writing⟩ depth env e).outcome ≠ .error .tooDeep →
      (∃ t, (∀ u, Visits env e u ↔ u = t) ∧
        (eval ⟨true, writing⟩ depth env e).trace = t.preorder) ∧
      ∀ writing', eval ⟨false, writing'⟩ depth env e =
        ⟨[], (eval ⟨true, writing⟩ depth env e).outcome⟩) ∧
    (∀ writing depth env p, (runAll ⟨true, writing⟩ depth env p).outcome ≠ .error .tooDeep →
      (∃ ts, (∀ us, ProgramVisits env p us ↔ us = ts) ∧
        (runAll ⟨true, writing⟩ depth env p).trace = preorderAll ts ∧
        (runProgram ⟨true, writing⟩ depth env p).trace = preorderAll ts) ∧
      ∀ writing',
        runAll ⟨false, writing'⟩ depth env p =
          ⟨[], (runAll ⟨true, writing⟩ depth env p).outcome⟩ ∧
        runProgram ⟨false, writing'⟩ depth env p =
          ⟨[], (runProgram ⟨true, writing⟩ depth env p).outcome⟩) ∧
    (∀ s, (Event.statement s).display = "Evaluating: " ++ s.render) ∧
    (∀ e, (Event.expression e).display = "Evaluating: " ++ e.render) ∧
    ∀ f, (Event.call f).display = "Calling: " ++ f.signature := by
  refine ⟨fun writing depth env e hne => ⟨?_, fun writing' => eval_silences rfl depth env e hne⟩,
    fun writing depth env p hne => ⟨?_, fun writing' => ⟨runAll_silences rfl depth env p hne,
      runProgram_silences rfl depth env p (mt outcome_runProgram_eq_error_iff.1 hne)⟩⟩,
    fun _ => rfl, fun _ => rfl, fun _ => rfl⟩
  · obtain ⟨t, ht, htrace⟩ := reportsVisits rfl depth rfl hne
    exact ⟨t, fun u => ⟨fun hu => hu.unique ht, fun hu => hu ▸ ht⟩, htrace⟩
  · obtain ⟨ts, hts, htrace⟩ := exists_programVisits rfl rfl hne
    refine ⟨ts, fun us => ⟨fun hus => hus.unique hts, fun hus => hus ▸ hts⟩, htrace, ?_⟩
    rw [trace_runProgram, htrace]

/-- A definition is not entered further; the body of a function comes behind its call. -/
example : Event.log (runProgram ⟨true, 9⟩ 9 .empty
    [.define "f" ["a"] (.var "a"), .expr (.apply (.var "f") [.text "x"])]).trace =
    "Evaluating: def f(a) = a;\nEvaluating: f(\"x\");\nEvaluating: f(\"x\")\nEvaluating: f\n" ++
      "Evaluating: \"x\"\nCalling: f(a)\nEvaluating: a\n" := by
  decide +kernel

end Calx
