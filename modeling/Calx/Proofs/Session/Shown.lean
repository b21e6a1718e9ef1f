import Calx.Proofs.Grammar.Reparse
import Calx.Proofs.Number.Sign
import Calx.Proofs.Session.Quoted

/-!
# Shown values typed in again

A text and a finite number are shown as expressions that come to them. A negative number is shown as
the negation of its magnitude (`Expr.ofNumber`), which is what comes back. So a session that is given
what it shows for such a value shows the same again and stays as it is (`Session.line_display`).
-/

namespace Calx

open Number

/-- The expression that a number is shown as: a negative one is a negation. -/
def Expr.ofNumber (x : Float) : Expr :=
  if isNegative x then .negate (.number x.abs) else .number x

/-- The values that are shown as expressions: texts and finite numbers. -/
inductive Value.IsLiteral : Value → Prop
  | text (s : String) : IsLiteral (.text s)
  | number {x : Float} (hnan : x.isNaN = false) (hinf : x.isInf = false) : IsLiteral (.number x)

section Number

variable {x : Float}

theorem write_of_finite (hnan : x.isNaN = false) (hinf : x.isInf = false) : write x =
    (if isNegative x then "-" else "") ++ String.ofList (Numeral.ofFloat x.abs).text := by
  rw [write, hnan, hinf]
  rfl

theorem renderNumber_of_finite (hinf : x.isInf = false) : Expr.renderNumber x = write x := by
  rw [Expr.renderNumber, hinf]
  rfl

/-- A finite number is shown as the expression is written. -/
theorem display_number (hnan : x.isNaN = false) (hinf : x.isInf = false) :
    (Value.number x).display = (Expr.ofNumber x).render := by
  have hdisplay : (Value.number x).display = write x := by
    rw [Value.display, Value.displayNumber, hnan]
    rfl
  obtain ⟨hmagnitude, habsInf⟩ := isMagnitude_abs hnan
  rw [hinf] at habsInf
  obtain ⟨habsNaN, habsNegative⟩ := isMagnitude_iff.1 hmagnitude
  have habs : x.abs.abs = x.abs := by
    obtain ⟨bits, hbits, heq⟩ := hmagnitude
    rw [heq, abs_ofBits hbits]
  rw [hdisplay, Expr.ofNumber]
  split
  · rename_i hneg
    rw [Expr.render, Expr.render, renderNumber_of_finite habsInf, write_of_finite hnan hinf,
      write_of_finite habsNaN habsInf, hneg, habsNegative, habs]
    simp
  · rw [Expr.render, renderNumber_of_finite hinf]

theorem readable_ofNumber (hnan : x.isNaN = false) : (Expr.ofNumber x).Readable := by
  rw [Expr.ofNumber]
  split
  · exact (isMagnitude_abs hnan).1
  · rename_i hneg
    exact isMagnitude_iff.2 ⟨hnan, Bool.not_eq_true _ ▸ hneg⟩

theorem norm_ofNumber : (Expr.ofNumber x).norm = Expr.ofNumber x := by
  rw [Expr.ofNumber]
  split <;> rfl

theorem length_written_ofNumber : (Expr.ofNumber x).written.length ≤ 2 := by
  rw [Expr.ofNumber]
  split <;> simp [Expr.written]

theorem depth_ofNumber : (Expr.ofNumber x).depth ≤ 2 := by
  rw [Expr.ofNumber]
  split <;> simp [Expr.depth]

/-- What a number is shown as is read as that expression. -/
theorem ofText_ofNumber (hnan : x.isNaN = false) {depth : Nat} (hdepth : 2 < depth) :
    Program.ofText depth (Expr.ofNumber x).render = .ok [.expr (Expr.ofNumber x)] := by
  have htokens : (Stream.ofText (Expr.ofNumber x).render).tokens? = .ok (Expr.ofNumber x).written :=
    (cuts_render _ (readable_ofNumber hnan)).tokens?_eq nofun
  have hexpr := isExpr_written (Expr.ofNumber x)
  rw [norm_ofNumber] at hexpr
  exact ofText_of_tokens htokens (.bare (.present (.one (.expr hexpr))))
    (Nat.lt_of_le_of_lt length_written_ofNumber hdepth)

/-- The expression comes to the number. -/
theorem outcome_eval_ofNumber [Machine] (hnan : x.isNaN = false) {w : Run.Watch} {depth : Nat}
    (hdepth : 1 < depth) (hw : w.tracing = true → 2 ≤ w.writing) (env : Environment) :
    (eval w depth env (Expr.ofNumber x)).outcome = .ok (.number x) := by
  obtain ⟨depth, rfl⟩ := Nat.exists_eq_add_of_le' hdepth
  have hreport {e : Expr} (he : e.depth ≤ 2) :
      (Run.report w (.expression e)).outcome = .ok () :=
    Run.outcome_report_of_le fun htracing => Nat.le_trans he (hw htracing)
  have hnumber (n : Nat) (y : Float) :
      (eval w (n + 1) env (.number y)).outcome = .ok (.number y) := by
    rw [eval, Run.outcome_bind_ok (hreport (by simp [Expr.depth]))]
    rfl
  rw [Expr.ofNumber]
  split
  · rename_i hneg
    have hminus : (Value.number x.abs).neg = .ok (.number x) := by
      rw [Value.neg, neg_abs_of_isNegative hnan hneg]
    rw [eval, Run.outcome_bind_ok (hreport (by simp [Expr.depth]))]
    rw [Run.outcome_bind_ok (hnumber _ _)]
    exact hminus
  · exact hnumber _ _

/-- A session that is given what it shows for a finite number comes to that number, and stays as it
is. -/
theorem Session.run_number [Machine] {session : Session} (hnan : x.isNaN = false)
    (hinf : x.isInf = false) (hnesting : 2 < session.limits.nesting)
    (hevaluation : 1 < session.limits.evaluation)
    (hwriting : session.tracing = true → 2 < session.limits.writing) :
    (session.run (Value.number x).display).outcome = .ok (.number x) ∧
      (session.run (Value.number x).display).session = session := by
  rw [display_number hnan hinf]
  exact run_of_eval (ofText_ofNumber hnan hnesting)
    (fun htracing => Nat.lt_of_le_of_lt depth_ofNumber (hwriting htracing))
    (outcome_eval_ofNumber hnan hevaluation (fun htracing => Nat.le_of_lt (hwriting htracing)) _)

end Number

/-- **What is shown can be typed in.** Given what it shows for a text or a finite number, a session
comes to the same text or the same double, its sign included, answers with what it was given, and
stays as it is. -/
theorem Session.line_display [Machine] {session : Session} {v : Value} (hv : v.IsLiteral)
    (hnesting : 2 < session.limits.nesting) (hevaluation : 1 < session.limits.evaluation)
    (hwriting : session.tracing = true → 2 < session.limits.writing) :
    (session.line v.display).2.1 = .ok ("=> " ++ v.display) ∧
    (session.run v.display).outcome = .ok v ∧
    (session.run v.display).session = session ∧
    (session.line v.display).2.2 = session := by
  have hrun : (session.run v.display).outcome = .ok v ∧
      (session.run v.display).session = session := by
    cases hv with
    | text s =>
      exact run_quote (by omega) (by omega) (fun htracing => Nat.le_of_lt (hwriting htracing)) s
    | number hnan hinf => exact run_number hnan hinf hnesting hevaluation hwriting
  refine ⟨?_, hrun.1, hrun.2, hrun.2⟩
  rw [line, hrun.1]
  rfl

/-- Zero with a sign keeps it. -/
theorem Session.line_display_negative_zero :
    Value.IsLiteral (.number (-0.0)) ∧
    2 < (fresh true .standard).limits.nesting ∧ 1 < (fresh true .standard).limits.evaluation ∧
    2 < (fresh true .standard).limits.writing ∧
    ((fresh true .standard).line "-0.0").2.1 = .ok "=> -0.0" ∧
    ((fresh true .standard).run "-0.0").outcome = .ok (.number (-0.0)) := by
  have hv : Value.IsLiteral (.number (-0.0)) := .number (by decide +kernel) (by decide +kernel)
  have hdisplay : (Value.number (-0.0)).display = "-0.0" := by decide +kernel
  obtain ⟨hline, hrun, -⟩ :=
    @line_display _ (fresh true .standard) _ hv (by decide) (by decide) (fun _ => by decide)
  rw [hdisplay] at hline hrun
  exact ⟨hv, by decide, by decide, by decide, hline, hrun⟩

end Calx
