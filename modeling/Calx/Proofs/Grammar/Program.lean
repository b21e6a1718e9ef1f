import Calx.Grammar.Program
import Calx.Proofs.Grammar.Expr

/-!
# The rules for programs

Statements and programs, on top of the rules for expressions. A semicolon behind the last statement
is met twice: first as the start of one more round, which fails because no statement follows, and
then as the semicolon that closes the program.
-/

namespace Calx

open Rule Phrase

theorem takes_identifier (n : Nat) : Takes n identifier IsIdentifier Anything := by
  rintro fault ts rest x ⟨_⟩ - -
  rfl

theorem refuses_identifier {fault : Option LexError} {ts : List Token}
    (h : Clear [.identifier] fault ts) : Refuses identifier fault ts :=
  refuses_next h fun t ht => by cases t <;> first | rfl | exact absurd (List.mem_cons_self) ht

/-! ## Statements -/

/-- The parameters of a definition. -/
abbrev IsParams : Phrase (List String) :=
  Between (Perhaps (Separated .comma IsIdentifier))

/-- The kinds that go on after a statement. -/
def stmtBlocked : List Token.Kind := .inWord :: sumBlocked

/-- The kinds of token that a statement can start with. -/
def stmtStarters : List Token.Kind := .defWord :: exprStarters

theorem IsStmt.head {ts : List Token} {s : Stmt} (h : IsStmt ts s) : StartsIn stmtStarters ts := by
  cases h with
  | define => exact ⟨_, _, rfl, by simp [stmtStarters, Token.kind]⟩
  | bind => exact ⟨_, _, rfl, by simp [stmtStarters, exprStarters, Token.kind]⟩
  | expr he => exact he.head.mono (List.subset_cons_self _ _)

section Statements

variable {n : Nat} {nested : Rule Expr}

theorem reads_params (n : Nat) : Reads (n + 1) Grammar.params IsParams :=
  reads_parenthesized (reads_list (reads_separated rfl (.identifier n)))

theorem takes_params (n : Nat) : Takes (n + 1) Grammar.params IsParams Anything := by
  have hname : Takes n identifier IsIdentifier (Clear []) :=
    (takes_identifier n).weaken fun _ => trivial
  exact takes_parenthesized
    (takes_list hname (by decide) fun hc _ => refuses_identifier hc) (by decide)

theorem steady_params : Steady Grammar.params :=
  steady_parenthesized ((steady_separated _ steady_identifier).optional _)

/-- The phrase of a definition, in the order in which it is read. -/
theorem isDefinition_iff {ts : List Token} {s : Stmt} :
    after .defWord (named fun x => followedBy IsParams fun ps => after .equals fun us s =>
      ∃ e, IsExpr us e ∧ s = .define x ps e) ts s ↔
    ∃ x ps e us vs, ts = .defWord :: .identifier x :: (us ++ .equals :: vs) ∧ IsParams us ps ∧
      IsExpr vs e ∧ s = .define x ps e := by
  constructor
  · rintro ⟨_, rfl, x, _, rfl, us, ps, _, rfl, hps, vs, rfl, e, he, rfl⟩
    exact ⟨x, ps, e, us, vs, rfl, hps, he, rfl⟩
  · rintro ⟨x, ps, e, us, vs, rfl, hps, he, rfl⟩
    exact ⟨_, rfl, x, _, rfl, us, ps, _, rfl, hps, vs, rfl, e, he, rfl⟩

theorem reads_definition (h : Reads n nested IsExpr) :
    Reads n (Grammar.definition nested) IsStmt := by
  have hbody (x : String) (ps : List String) := Reads.mark_bind (k := .equals)
    (f := fun _ => nested >>= fun e => pure (Stmt.define x ps e)) rfl (h.map (Stmt.define x ps))
  have hparams (x : String) := (reads_params n).andThen (hbody x)
  refine ((Reads.mark_bind rfl (Reads.identifier_bind hparams)).mono fun hts => ?_).of_le (by omega)
  obtain ⟨x, ps, e, us, vs, rfl, hps, he, rfl⟩ := isDefinition_iff.1 hts
  exact .define hps he

theorem takes_definition (h : Takes n nested IsExpr (Clear sumBlocked)) {x : String}
    {ps : List String} {e : Expr} {us vs rest : List Token} {fault : Option LexError}
    (hps : IsParams us ps) (he : IsExpr vs e) (hc : Clear sumBlocked fault rest)
    (hlt : (.defWord :: .identifier x :: (us ++ .equals :: vs) ++ rest).length < n) :
    Grammar.definition nested fault (.defWord :: .identifier x :: (us ++ .equals :: vs) ++ rest) =
      .fits (.define x ps e) rest := by
  have hbody (x : String) (ps : List String) := Takes.mark_bind (k := .equals)
    (f := fun _ => nested >>= fun e => pure (Stmt.define x ps e)) rfl (h.map (Stmt.define x ps))
  have hparams (x : String) := (takes_params n).bind (hbody x)
    fun _ _ _ => ⟨trivial, Nat.le_add_right _ _⟩
  exact Takes.mark_bind rfl (Takes.identifier_bind hparams)
    (isDefinition_iff.2 ⟨x, ps, e, us, vs, rfl, hps, he, rfl⟩) hc (by omega)

theorem steady_definition (h : Steady nested) : Steady (Grammar.definition nested) :=
  (steady_mark _).bind fun _ => steady_identifier.bind fun _ => steady_params.bind fun _ =>
    (steady_mark _).bind fun _ => h.map _

/-- The body of a binding, if there is one. -/
def IsPerhapsBody : Phrase (Option Expr) :=
  orNothing (fun ts o => ∃ e, after .inWord IsExpr ts e ∧ o = some e) none

/-- What a binding with or without a body stands for. -/
def bindingStmt (x : String × Expr) : Option Expr → Stmt
  | none => .bind x.1 x.2
  | some body => .expr (.letIn x.1 x.2 body)

theorem letStatement_eq (nested : Rule Expr) : Grammar.letStatement nested =
    Grammar.binding nested >>= fun x =>
      optional (some <$> Grammar.inBody nested) none >>= fun o => pure (bindingStmt x o) := by
  funext fault ts
  simp only [Grammar.letStatement, bind_apply]
  cases Grammar.binding nested fault ts with
  | fits x rest =>
    simp only []
    cases optional (some <$> Grammar.inBody nested) none fault rest with
    | fits o rest' => cases o <;> rfl
    | _ => rfl
  | _ => rfl

theorem reads_letStatement (h : Reads n nested IsExpr) :
    Reads n (Grammar.letStatement nested) IsStmt := by
  have hbody : Reads n (optional (some <$> Grammar.inBody nested) none) IsPerhapsBody :=
    (((reads_inBody h).map some).optional).of_le (Nat.le_succ n)
  rw [letStatement_eq]
  refine ((((reads_binding h).of_le (Nat.le_succ n)).andThen
    fun x => hbody.map (bindingStmt x))).mono ?_
  rintro ts s ⟨_, x, vs, rfl, ⟨us, rfl, hb⟩, o, (⟨e, ⟨ws, rfl, he⟩, rfl⟩ | ⟨rfl, rfl⟩), rfl⟩
  · exact .expr (.letIn hb he)
  · exact .bind (by simpa using hb)

theorem takes_letStatement (h : Takes n nested IsExpr (Clear sumBlocked)) :
    Takes n (Grammar.letStatement nested)
      (followedBy IsBinding fun x ts s => ∃ o, IsPerhapsBody ts o ∧ s = bindingStmt x o)
      (Clear stmtBlocked) := by
  have hin : Takes n (some <$> Grammar.inBody nested)
      (fun ts o => ∃ e, after .inWord IsExpr ts e ∧ o = some e) (Clear stmtBlocked) :=
    (((takes_inBody h).map some).of_le (Nat.le_succ n)).weaken
      fun hc => hc.mono (List.subset_cons_self _ _)
  have hbody : Takes n (optional (some <$> Grammar.inBody nested) none) IsPerhapsBody
      (Clear stmtBlocked) := by
    refine hin.optional fun hc _ => ?_
    have hmark := refuses_mark (hc.mono (show [Token.Kind.inWord] ⊆ stmtBlocked by decide))
    exact (hmark.bind _).bind _
  rw [letStatement_eq]
  refine ((takes_binding h).of_le (Nat.le_succ n)).bind (m := n)
    (fun x => hbody.map (bindingStmt x)) ?_
  -- What follows the bound expression is the body or what follows the statement.
  rintro us x vs s fault rest - ⟨o, (⟨e, ⟨ws, rfl, -⟩, -⟩ | ⟨rfl, -⟩), -⟩ hc
  · have hword : Token.Kind.inWord ∉ sumBlocked := by decide
    exact ⟨hword, Nat.le_add_right _ _⟩
  · exact ⟨hc.mono (List.subset_cons_self _ _), Nat.le_add_right _ _⟩

theorem steady_letStatement (h : Steady nested) : Steady (Grammar.letStatement nested) := by
  rw [letStatement_eq]
  exact (steady_binding h).bind fun x => (((steady_inBody h).map some).optional none).map _

theorem reads_exprStatement (h : Reads n nested IsExpr) :
    Reads n (Stmt.expr <$> nested) IsStmt := by
  refine (h.map Stmt.expr).mono ?_
  rintro ts s ⟨e, he, rfl⟩
  exact .expr he

theorem reads_statement (h : Reads n nested IsExpr) :
    Reads n (Grammar.statement nested) IsStmt := by
  refine Reads.onNext fun t => ?_
  split
  · exact reads_definition h
  · exact reads_letStatement h
  · exact reads_exprStatement h

/-- A statement that starts with neither `def` nor `let` is an expression. -/
theorem statement_eq_expr {fault : Option LexError} {ts : List Token}
    (hdef : ts.head? ≠ some .defWord) (hlet : ts.head? ≠ some .letWord) :
    Grammar.statement nested fault ts = (Stmt.expr <$> nested) fault ts := by
  cases ts with
  | nil => rfl
  | cons t ts =>
    cases t with
    | defWord => exact absurd rfl hdef
    | letWord => exact absurd rfl hlet
    | _ => rfl

theorem takes_statement (h : Takes n nested IsExpr (Clear sumBlocked)) :
    Takes n (Grammar.statement nested) IsStmt (Clear stmtBlocked) := by
  have hsub : sumBlocked ⊆ stmtBlocked := List.subset_cons_self _ _
  rintro fault ts rest s (@⟨us, vs, x, ps, e, hps, he⟩ | @⟨us, x, e, he⟩ | @⟨_, _, he⟩) hc hlt
  · exact takes_definition h hps he (hc.mono hsub) hlt
  · exact takes_letStatement h ⟨_ :: _ :: _ :: us, (x, e), [], by simp, ⟨us, rfl, he⟩, none,
      .inr ⟨rfl, rfl⟩, rfl⟩ hc hlt
  · cases he with
    | @letIn us vs x b e hb he =>
      exact takes_letStatement h ⟨_ :: _ :: _ :: us, (x, b), .inWord :: vs, rfl, ⟨us, rfl, hb⟩,
        some e, .inl ⟨e, ⟨vs, rfl, he⟩, rfl⟩, rfl⟩ hc hlt
    | sum hs =>
      have hhead := (IsSum.head hs).append rest
      rw [statement_eq_expr (hhead.head?_ne (by decide)) (hhead.head?_ne (by decide))]
      exact h.map Stmt.expr ⟨_, .sum hs, rfl⟩ (hc.mono hsub) hlt

theorem refuses_statement {fault : Option LexError} {ts : List Token}
    (h : Clear stmtStarters fault ts) (hno : Refuses nested fault ts) :
    Refuses (Grammar.statement nested) fault ts := by
  have hexpr : Refuses (Stmt.expr <$> nested) fault ts := hno.bind _
  obtain ⟨rest, e, hr⟩ := hexpr
  exact ⟨rest, e, by rw [statement_eq_expr (h.head?_ne (by decide)) (h.head?_ne (by decide)), hr]⟩

theorem steady_statement (h : Steady nested) (hneedy : Needy nested) :
    Steady (Grammar.statement nested) := by
  refine Steady.onNext (fun t => ?_) (hneedy.bind _)
  split
  · exact steady_definition h
  · exact steady_letStatement h
  · exact h.map _

end Statements

/-! ## Programs -/

section Programs

variable {n : Nat} {nested : Rule Expr}

/-- The statements of a program. -/
def statements (nested : Rule Expr) : Rule Program :=
  optional (separated .semicolon (Grammar.statement nested)) []

/-- What closes a program. -/
def closing (p : Program) : Rule Program :=
  optional (mark .semicolon) () >>= fun _ => finish >>= fun _ => pure p

theorem program_eq (nested : Rule Expr) :
    Grammar.program nested = statements nested >>= closing := rfl

theorem reads_finish (n : Nat) : Reads n finish (nothing ()) where
  inhabited := ⟨[], (), rfl, rfl⟩
  sound {fault ts a rest} h := by
    unfold finish at h
    split at h
    · cases h
      exact ⟨[], rfl, rfl, rfl⟩
    · cases h
  viable {fault ts e} h := by
    unfold finish at h
    split at h <;> cases h
  shallow {fault ts} _ h := by
    unfold finish at h
    split at h <;> cases h

theorem reads_closing (n : Nat) (p : Program) : Reads n (closing p)
    (fun ts q => (ts = [] ∨ ts = [.semicolon]) ∧ q = p) := by
  have hmark : Reads n (optional (mark .semicolon) ()) _ := (Reads.mark n rfl).optional
  refine (hmark.andThen fun _ => (reads_finish n).map fun _ => p).mono ?_
  rintro ts q ⟨us, _, _, rfl, hus, _, ⟨rfl, -⟩, rfl⟩
  rcases hus with rfl | ⟨rfl, -⟩
  · exact ⟨.inr rfl, rfl⟩
  · exact ⟨.inl rfl, rfl⟩

theorem reads_program (h : Reads n nested IsExpr) :
    Reads n (Grammar.program nested) IsProgram := by
  have hstmts := reads_list (reads_separated (k := .semicolon) rfl (reads_statement h))
  refine (hstmts.andThen (reads_closing n)).mono ?_
  rintro ts q ⟨us, p, vs, rfl, hp, rfl | rfl, rfl⟩
  · simpa using IsProgram.bare hp
  · exact .closed hp

/-- What may follow the statements of a program: nothing, or a semicolon. -/
def AtEnd (fault : Option LexError) (ts : List Token) : Prop :=
  fault = none ∧ (ts = [] ∨ ts = [.semicolon])

theorem AtEnd.clear {fault : Option LexError} {ts : List Token} (h : AtEnd fault ts)
    {blocked : List Token.Kind} (hb : .semicolon ∉ blocked) : Clear blocked fault ts := by
  obtain ⟨rfl, rfl | rfl⟩ := h
  · rfl
  · exact hb

/-- No statement follows at the end, with or without one more semicolon. -/
theorem AtEnd.refuses {fault : Option LexError} {ts : List Token} (h : AtEnd fault ts)
    (hno : ∀ {fault ts}, Clear exprStarters fault ts → ts.length < n → Refuses nested fault ts)
    (hlt : ts.length < n) :
    Refuses (Grammar.statement nested) fault ts ∧
      Refuses (mark .semicolon >>= fun _ => Grammar.statement nested) fault ts := by
  refine ⟨refuses_statement (h.clear (by decide)) (hno (h.clear (by decide)) hlt), ?_⟩
  obtain ⟨rfl, rfl | rfl⟩ := h
  · exact (refuses_mark (show Clear [.semicolon] none [] from rfl)).bind _
  · have hend : Clear stmtStarters none [] := rfl
    have hnested : Refuses nested none [] := hno rfl (Nat.zero_lt_of_lt hlt)
    obtain ⟨rest, e, hr⟩ := refuses_statement hend hnested
    exact ⟨rest, e, hr⟩

theorem program_eq_of_isProgram {ts : List Token} {p : Program} (hp : IsProgram ts p)
    (h : Takes n nested IsExpr (Clear sumBlocked))
    (hno : ∀ {fault ts}, Clear exprStarters fault ts → ts.length < n → Refuses nested fault ts)
    (hlt : ts.length < n) : Grammar.program nested none ts = .fits p [] := by
  have hitems : Takes n (separated .semicolon (Grammar.statement nested))
      (Separated .semicolon IsStmt) AtEnd :=
    takes_separated rfl (takes_statement h) (by decide) fun hend hts =>
      ⟨hend.clear (by decide), (hend.refuses hno hts).2⟩
  have hstmts : Takes n (optional (separated .semicolon (Grammar.statement nested)) [])
      (Perhaps (Separated .semicolon IsStmt)) AtEnd :=
    (hitems.optional fun hend hts => (hend.refuses hno hts).1.bind _).mono perhaps_iff.1
  cases hp with
  | bare hs =>
    have hend : AtEnd none [] := ⟨rfl, .inl rfl⟩
    have hfit := hstmts hs hend (by simpa using hlt)
    rw [List.append_nil] at hfit
    rw [Grammar.program, bind_apply, hfit]
    rfl
  | closed hs =>
    rw [Grammar.program, bind_apply, hstmts hs ⟨rfl, .inr rfl⟩ hlt]
    rfl

theorem end_of_finish {fault : Option LexError} {ts rest : List Token} {u : Unit}
    (h : finish fault ts = .fits u rest) : fault = none ∧ rest = [] := by
  unfold finish at h
  split at h <;> cases h
  exact ⟨rfl, rfl⟩

/-- A program is only read to the clean end of its tokens. -/
theorem end_of_program {fault : Option LexError} {ts rest : List Token} {p : Program}
    (h : Grammar.program nested fault ts = .fits p rest) : fault = none ∧ rest = [] := by
  simp only [Grammar.program, bind_apply] at h
  split at h <;> try cases h
  split at h <;> try cases h
  split at h <;> try cases h
  exact end_of_finish ‹_›

theorem steady_program (h : Steady nested) (hneedy : Needy nested) :
    Steady (Grammar.program nested) :=
  ((steady_separated _ (steady_statement h hneedy)).optional _).bind fun _ =>
    ((steady_mark _).optional _).bind fun _ => Steady.finish.bind fun _ => .pure _

end Programs

end Calx
