import Calx.Proofs.Grammar.Blame
import Calx.Proofs.Grammar.Join

/-!
# What a misfit points at

A rule that needs a token points at one of the tokens where it misfits, or at the end of the text. It
never points at what cannot be cut: there it abandons the text (`Rule.Points`). The rule for the end
of the text needs no token. But an expression looks at what follows it, so the end is only expected
where a token is left or none can be (`misfits_wholeExpression`). A program does so as well, unless
it is a lone semicolon (`misfits_program_expression`).
-/

namespace Calx

/-- Whatever is left are the last ones of the tokens. A misfit has some left, or the text ends
there. -/
def Outcome.PointsInto {α : Type} (fault : Option LexError) (ts : List Token) : Outcome α → Prop
  | .fits _ rest => rest <:+ ts
  | .misfits rest _ => rest <:+ ts ∧ (rest ≠ [] ∨ fault = none)
  | .abandoned _ => True

theorem Outcome.PointsInto.of_suffix {α : Type} {fault : Option LexError} {ts us : List Token}
    {o : Outcome α} (h : o.PointsInto fault us) (hus : us <:+ ts) : o.PointsInto fault ts := by
  cases o with
  | fits a rest => exact List.IsSuffix.trans h hus
  | misfits rest e => exact ⟨h.1.trans hus, h.2⟩
  | abandoned why => trivial

namespace Rule

variable {α β : Type}

/-- The rule reads from the front, and where it misfits it points at a token or at the end of the
text. -/
def Points (r : Rule α) : Prop :=
  ∀ fault ts, (r fault ts).PointsInto fault ts

/-- A rule in front passes on what it points at. -/
theorem pointsInto_bind {r : Rule α} {f : α → Rule β} {fault : Option LexError}
    {ts us : List Token} (h : (r fault ts).PointsInto fault us) (hf : ∀ a, Points (f a)) :
    ((r >>= f) fault ts).PointsInto fault us := by
  rw [bind_apply]
  cases hout : r fault ts with
  | fits a rest =>
    rw [hout] at h
    exact (hf a fault rest).of_suffix h
  | misfits rest e => rwa [hout] at h
  | abandoned why => trivial

namespace Points

variable {r : Rule α}

protected theorem pure (a : α) : Points (pure a) := fun _ _ => List.suffix_rfl

theorem tooDeep : Points (tooDeep : Rule α) := fun _ _ => trivial

theorem next (expected : Expectation) (pick : Token → Option α) :
    Points (Rule.next expected pick) := by
  intro fault ts
  cases ts with
  | nil =>
    cases fault with
    | none => exact ⟨List.suffix_rfl, .inr rfl⟩
    | some e => trivial
  | cons t ts =>
    dsimp only [Rule.next]
    cases pick t with
    | some a => exact List.suffix_cons t ts
    | none => exact ⟨List.suffix_rfl, .inl (List.cons_ne_nil t ts)⟩

protected theorem bind {f : α → Rule β} (h : Points r) (hf : ∀ a, Points (f a)) :
    Points (r >>= f) :=
  fun fault ts => pointsInto_bind (h fault ts) hf

theorem map (f : α → β) (h : Points r) : Points (f <$> r) := by
  rw [map_eq_bind]
  exact h.bind fun a => .pure (f a)

theorem onNext {choose : Option Token → Rule α} (h : ∀ t, Points (choose t)) :
    Points (onNext choose) :=
  fun fault ts => h ts.head? fault ts

theorem optional (h : Points r) (default : α) : Points (optional r default) := by
  intro fault ts
  have hr := h fault ts
  unfold Rule.optional
  cases hout : r fault ts with
  | fits a rest => rwa [hout] at hr
  | misfits rest e => exact List.suffix_rfl
  | abandoned why => trivial

theorem many (h : Points r) : Points (many r) := by
  intro fault ts
  have hr := h fault ts
  fun_induction Rule.many r fault ts with
  | case1 => exact List.suffix_rfl
  | case2 => trivial
  | case3 ts a rest hout hlt as rest' hmany ih =>
    rw [hout] at hr
    rw [hmany] at ih
    exact (ih (h fault rest)).trans hr
  | case4 ts a rest hout hlt hno ih =>
    rw [hout] at hr
    exact (ih (h fault rest)).of_suffix hr
  | case5 ts a rest hout hge => rwa [hout] at hr

theorem separated (k : Token.Kind) (h : Points r) : Points (separated k r) :=
  h.bind fun _ => ((Points.next _ _).bind fun _ => h).many.bind fun _ => .pure _

theorem parenthesized (h : Points r) : Points (parenthesized r) :=
  (Points.next _ _).bind fun _ => h.bind fun _ => (Points.next _ _).bind fun _ => .pure _

end Points

end Rule

open Rule

/-! ## Expressions -/

section Levels

variable {operand nested : Rule Expr}

theorem points_unary (h : Points operand) (h' : Points nested) :
    Points (Grammar.unary operand nested) := by
  refine .onNext fun t => ?_
  split
  · exact (Points.next _ _).bind fun _ => h.bind fun _ => .pure _
  · have hprimary : Points (Grammar.primary nested) := by
      refine .onNext fun t => ?_
      split
      · exact h'.parenthesized
      · exact .next _ _
    have harguments : Points (Grammar.arguments nested) :=
      ((h'.separated _).optional _).parenthesized
    exact hprimary.bind fun _ => harguments.many.bind fun _ => .pure _

theorem points_chain (operator? : Token → Option BinaryOperator) (h : Points operand) :
    Points (Grammar.chain operator? operand) :=
  h.bind fun _ => ((Points.next _ _).bind fun op => h.map (Prod.mk op)).many.bind fun _ => .pure _

theorem points_inBody (h : Points nested) : Points (Grammar.inBody nested) :=
  (Points.next _ _).bind fun _ => h

theorem points_expr (h : Points operand) (h' : Points nested) :
    Points (Grammar.expr operand nested) := by
  refine .onNext fun t => ?_
  split
  · have hbinding : Points (Grammar.binding nested) :=
      (Points.next _ _).bind fun _ => (Points.next _ _).bind fun _ =>
        (Points.next _ _).bind fun _ => h'.bind fun _ => .pure _
    exact hbinding.bind fun _ => (points_inBody h').bind fun _ => .pure _
  · exact points_chain _ (points_chain _ h)

theorem points_level (depth : Nat) :
    Points (Grammar.level depth).unary ∧ Points (Grammar.level depth).expr := by
  induction depth with
  | zero => exact ⟨.tooDeep, .tooDeep⟩
  | succ depth ih =>
    have hunary := points_unary ih.1 ih.2
    exact ⟨hunary, points_expr hunary ih.2⟩

theorem points_expression (depth : Nat) : Points (Grammar.expression depth) :=
  (points_level depth).2

end Levels

section Expressions

variable {depth : Nat} {e : LexError} {fault : Option LexError} {ts rest : List Token}
  {expected : Expectation}

/-- An expression looks at what follows it. -/
theorem expression_ne_fits_nil {a : Expr} :
    Grammar.expression depth (some e) ts ≠ .fits a [] := by
  intro hfits
  obtain ⟨us, hts, ha⟩ := (reads_level depth).2.sound hfits
  rw [List.append_nil] at hts
  subst hts
  obtain ⟨a', ha'⟩ := ha.exists_sum
  -- A sum is read to its end, but what follows the expression would change nothing.
  let deep := max depth (ts ++ [Token.plus, .identifier "x"]).length + 1
  have hle : depth ≤ deep := by omega
  have hwhole : Grammar.expression deep none (ts ++ [.plus, .identifier "x"]) = .fits a' [] := by
    have htakes := (takes_level deep).2 ha' (show Clear sumBlocked none [] from rfl)
      (by rw [List.append_nil]; omega)
    rwa [List.append_nil] at htakes
  rcases (steady_level depth).2 e ts with hab | hext
  · cases hab.symm.trans hfits
  · have hsame : Grammar.expression depth none (ts ++ [.plus, .identifier "x"]) =
        .fits a [.plus, .identifier "x"] := by
      rw [Grammar.expression, hext none _ (by simp), ← Grammar.expression, hfits]
      rfl
    rcases (approximates_level hle).2 none (ts ++ [.plus, .identifier "x"]) with hab | heq
    · cases hsame.symm.trans hab
    · cases hsame.symm.trans (heq.trans hwhole)

/-- A whole expression is blamed on a token or on the end of the text. -/
theorem misfits_wholeExpression
    (h : Grammar.wholeExpression (Grammar.expression depth) fault ts = .misfits rest expected) :
    rest <:+ ts ∧ (rest ≠ [] ∨ fault = none) := by
  have hpoints := points_expression depth fault ts
  rw [Grammar.wholeExpression, bind_apply] at h
  cases hexpr : Grammar.expression depth fault ts with
  | abandoned why =>
    rw [hexpr] at h
    cases h
  | misfits rest' e' =>
    rw [hexpr] at h hpoints
    cases h
    exact hpoints
  | fits a rest' =>
    rw [hexpr] at h hpoints
    cases rest' with
    | cons t rest' =>
      cases h
      exact ⟨hpoints, .inl (by simp)⟩
    | nil =>
      cases fault with
      | none => cases h
      | some e => exact absurd hexpr expression_ne_fits_nil

end Expressions

/-! ## Programs -/

section Programs

variable {depth : Nat} {e : LexError} {fault : Option LexError} {ts rest : List Token}
  {expected : Expectation}

/-- Only behind a lone semicolon is a program blamed on what cannot be cut. -/
theorem eq_semicolon_of_misfits
    (h : Grammar.program (Grammar.expression depth) (some e) ts = .misfits [] expected) :
    ts = [.semicolon] := by
  have hno (us : List Token) {p : Program} (hus : us ≠ []) : ¬IsProgram (ts ++ us) p := by
    intro hp
    let deep := max depth ts.length + 1
    have hle : depth ≤ deep := by omega
    have hab : Grammar.program (Grammar.expression deep) (some e) ts = .abandoned (.lexical e) :=
      program_eq_lexical (by omega) hus hp
    cases ((approximates_program_expression hle).misfits h).symm.trans hab
  have hx : Separated .semicolon IsStmt [.identifier "x"] [.expr (.var "x")] :=
    .one (.expr (isExpr_identifier "x"))
  obtain ⟨us, p, hts, hp⟩ := isProgram_of_misfits (reads_level depth).2 h
  rw [List.append_nil] at hts
  subst hts
  cases hp with
  | bare hs =>
    cases hs with
    | absent => exact absurd (.bare (.present hx)) (hno [.identifier "x"] (by simp))
    | present hs => exact absurd (.closed (.present hs)) (hno [.semicolon] (by simp))
  | closed hs =>
    cases hs with
    | absent => rfl
    | @present us p hs =>
      have hmore := IsProgram.after hs (.bare (.present hx)) (by simp)
      rw [List.append_cons] at hmore
      exact absurd hmore (hno _ (by simp))

/-- A program is blamed on a token, or on what cannot be cut behind a lone semicolon. -/
theorem misfits_program_expression
    (h : Grammar.program (Grammar.expression depth) fault ts = .misfits rest expected) :
    rest <:+ ts ∧ (rest ≠ [] ∨ fault ≠ none ∧ ts = [.semicolon]) := by
  obtain ⟨us, p, rfl, -⟩ := isProgram_of_misfits (reads_level depth).2 h
  obtain ⟨q, between, -, hclosing⟩ := misfits_program h
  obtain ⟨-, hend, -⟩ := misfits_closing hclosing
  refine ⟨List.suffix_append us rest, ?_⟩
  by_cases hrest : rest = []
  · subst hrest
    have hfault := hend.resolve_left (not_not_intro rfl)
    obtain ⟨e, rfl⟩ := Option.ne_none_iff_exists'.1 hfault
    exact .inr ⟨hfault, eq_semicolon_of_misfits h⟩
  · exact .inl hrest

end Programs

end Calx
