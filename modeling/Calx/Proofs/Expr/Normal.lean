import Calx.Program.Basic

/-!
# Normal forms

A minus sign in front of a callee is written without parentheses, so it reads as one in front of the
whole call. `norm` moves it there, from the inside out, and leaves all else as it is. It changes
nothing in how a tree is written (`render_norm`), and it changes the tree exactly if some call in it
has a negation for its callee (`norm_eq_self_iff`).
-/

namespace Calx

namespace Expr

/-- A call with a normal callee: the minus signs in front of the callee move out of the call. -/
def applied : Expr → List Expr → Expr
  | negate g, args => negate (applied g args)
  | f, args => apply f args

mutual

/-- An expression with no minus sign in front of a callee. -/
def norm : Expr → Expr
  | number x => number x
  | text s => text s
  | negate e => negate e.norm
  | binary op l r => binary op l.norm r.norm
  | var n => var n
  | apply f args => applied f.norm (normList args)
  | letIn n b e => letIn n b.norm e.norm

/-- Each of some expressions with no minus sign in front of a callee. -/
def normList : List Expr → List Expr
  | [] => []
  | e :: es => e.norm :: normList es

end

/-- Whether an expression is a negation. -/
def isNegation : Expr → Bool
  | negate _ => true
  | _ => false

mutual

/-- Whether some call in an expression has a negation for its callee. -/
def callsNegation : Expr → Bool
  | number _ | text _ | var _ => false
  | negate e => e.callsNegation
  | binary _ l r => l.callsNegation || r.callsNegation
  | apply f args => f.isNegation || f.callsNegation || callsNegationList args
  | letIn _ b e => b.callsNegation || e.callsNegation

/-- Whether some call in one of some expressions has a negation for its callee. -/
def callsNegationList : List Expr → Bool
  | [] => false
  | e :: es => e.callsNegation || callsNegationList es

end

theorem applied_of_isNegation {f : Expr} (h : f.isNegation = false) (args : List Expr) :
    applied f args = apply f args := by
  cases f with
  | negate g => cases h
  | _ => rfl

theorem normList_eq_map (es : List Expr) : normList es = es.map norm := by
  induction es with
  | nil => rfl
  | cons e es ih => rw [normList, ih, List.map_cons]

/-! ## Normal expressions -/

theorem norm_applied {f : Expr} {args : List Expr} (hf : f.norm = f)
    (hargs : normList args = args) : (applied f args).norm = applied f args := by
  fun_induction applied f args with
  | case1 g args ih =>
    have hg : g.norm = g := by
      rw [norm] at hf
      exact Expr.negate.inj hf
    rw [norm, ih hg hargs]
  | case2 f args hne =>
    rw [norm, hf, hargs, applied]
    exact hne

mutual

theorem norm_norm : (e : Expr) → e.norm.norm = e.norm
  | number _ | text _ | var _ => rfl
  | negate e => by rw [norm, norm, norm_norm e]
  | binary _ l r => by rw [norm, norm, norm_norm l, norm_norm r]
  | apply f args => norm_applied (norm_norm f) (normList_normList args)
  | letIn _ b e => by rw [norm, norm, norm_norm b, norm_norm e]

theorem normList_normList : (es : List Expr) → normList (normList es) = normList es
  | [] => rfl
  | e :: es => by rw [normList, normList, norm_norm e, normList_normList es]

end

/-- A minus sign in front of a callee is one in front of the call. -/
theorem norm_apply_of_negate {f g : Expr} (h : f.norm = negate g) (args : List Expr) :
    (apply f args).norm = negate (apply g args).norm := by
  have hg : g.norm = g := by
    have hidem := norm_norm f
    rw [h, norm] at hidem
    exact Expr.negate.inj hidem
  rw [norm, norm, h, hg, applied]

theorem norm_apply_of_isNegation {f : Expr} (h : f.norm.isNegation = false) (args : List Expr) :
    (apply f args).norm = apply f.norm (args.map norm) := by
  rw [norm, applied_of_isNegation h, normList_eq_map]

theorem applied_eq_apply_iff {f g : Expr} {args args' : List Expr} :
    applied f args = apply g args' ↔ f.isNegation = false ∧ f = g ∧ args = args' := by
  cases f with
  | negate f => simp [applied, isNegation]
  | _ => simp [applied, isNegation]

mutual

/-- An expression is normal exactly if no call in it has a negation for its callee. -/
theorem norm_eq_self_iff : (e : Expr) → (e.norm = e ↔ e.callsNegation = false)
  | number _ | text _ | var _ => by simp [norm, callsNegation]
  | negate e => by rw [norm, callsNegation, ← norm_eq_self_iff e, negate.injEq]
  | binary _ l r => by
    simp only [norm, callsNegation, binary.injEq, true_and, Bool.or_eq_false_iff,
      norm_eq_self_iff l, norm_eq_self_iff r]
  | apply f args => by
    rw [norm, applied_eq_apply_iff, callsNegation, Bool.or_eq_false_iff, Bool.or_eq_false_iff,
      normList_eq_self_iff args, ← norm_eq_self_iff f]
    constructor
    · rintro ⟨hneg, hf, hargs⟩
      rw [hf] at hneg
      exact ⟨⟨hneg, hf⟩, hargs⟩
    · rintro ⟨⟨hneg, hf⟩, hargs⟩
      rw [hf]
      exact ⟨hneg, rfl, hargs⟩
  | letIn _ b e => by
    simp only [norm, callsNegation, letIn.injEq, true_and, Bool.or_eq_false_iff,
      norm_eq_self_iff b, norm_eq_self_iff e]

theorem normList_eq_self_iff : (es : List Expr) →
    (normList es = es ↔ callsNegationList es = false)
  | [] => by simp [normList, callsNegationList]
  | e :: es => by
    rw [normList, callsNegationList, List.cons.injEq, Bool.or_eq_false_iff, norm_eq_self_iff e,
      normList_eq_self_iff es]

end

/-! ## How normal expressions are written -/

theorem render_applied (f : Expr) (args : List Expr) :
    (applied f args).render = (apply f args).render := by
  fun_induction applied f args with
  | case1 g args ih => simp only [render, ih, String.append_assoc]
  | case2 => rfl

mutual

/-- An expression is written like its normal form. -/
theorem render_norm : (e : Expr) → e.norm.render = e.render
  | number _ | text _ | var _ => rfl
  | negate e => by rw [norm, render, render, render_norm e]
  | binary _ l r => by rw [norm, render, render, render_norm l, render_norm r]
  | apply f args => by
    rw [norm, render_applied, render, render, render_norm f, renderList_normList args]
  | letIn _ b e => by rw [norm, render, render, render_norm b, render_norm e]

theorem renderList_normList : (es : List Expr) → renderList (normList es) = renderList es
  | [] => rfl
  | e :: es => by rw [normList, renderList, renderList, render_norm e, renderList_normList es]

end

end Expr

/-! ## Statements and programs -/

namespace Stmt

/-- A statement with its expression in normal form. -/
def norm : Stmt → Stmt
  | expr e => expr e.norm
  | define n ps e => define n ps e.norm
  | bind n e => bind n e.norm

/-- Whether some call in a statement has a negation for its callee. -/
def callsNegation : Stmt → Bool
  | expr e | define _ _ e | bind _ e => e.callsNegation

theorem norm_eq_self_iff (s : Stmt) : s.norm = s ↔ s.callsNegation = false := by
  cases s <;> simp [norm, callsNegation, Expr.norm_eq_self_iff]

theorem render_norm (s : Stmt) : s.norm.render = s.render := by
  cases s <;> simp only [norm, render, Expr.render_norm]

end Stmt

namespace Program

/-- A program with every statement in normal form. -/
def norm (p : Program) : Program :=
  p.map Stmt.norm

/-- Whether some call in a program has a negation for its callee. -/
def callsNegation (p : Program) : Bool :=
  p.any Stmt.callsNegation

theorem norm_eq_self_iff (p : Program) : norm p = p ↔ callsNegation p = false := by
  induction p with
  | nil => simp [norm, callsNegation]
  | cons s p ih =>
    rw [norm, List.map_cons, ← norm, List.cons.injEq, callsNegation, List.any_cons, ← callsNegation,
      Bool.or_eq_false_iff, s.norm_eq_self_iff, ih]

theorem render_norm (p : Program) : render (norm p) = render p := by
  have hmap : (norm p).map Stmt.render = p.map Stmt.render := by
    rw [norm, List.map_map]
    exact List.map_congr_left fun s _ => s.render_norm
  rw [render, hmap, render]

end Program

end Calx
