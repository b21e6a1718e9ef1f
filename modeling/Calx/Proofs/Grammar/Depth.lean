import Calx.Grammar.Program
import Calx.Proofs.Grammar.Reading

/-!
# How deep a level reads

The rules of a level do what those of a deeper level do, unless they find the text nested too deep.
So a text that a level reads, refuses or blames on its cutting is read, refused or blamed alike by
every deeper level.
-/

namespace Calx

namespace Rule

variable {α β : Type}

/-- The rule `r` does what `s` does, unless it finds the text nested too deep. -/
def Approximates (r s : Rule α) : Prop :=
  ∀ fault ts, r fault ts = .abandoned .tooDeep ∨ r fault ts = s fault ts

namespace Approximates

variable {r s : Rule α}

/-- A text that the rule `r` does not fit is not fitted by `s` either. -/
theorem misfits {fault : Option LexError} {ts rest : List Token} {expected : Expectation}
    (h : Approximates r s) (hr : r fault ts = .misfits rest expected) :
    s fault ts = .misfits rest expected := by
  rcases h fault ts with hdeep | heq
  · cases hr.symm.trans hdeep
  · exact heq.symm.trans hr

theorem refl (r : Rule α) : Approximates r r := fun _ _ => .inr rfl

theorem tooDeep (s : Rule α) : Approximates tooDeep s := fun _ _ => .inl rfl

protected theorem bind {f g : α → Rule β} (h : Approximates r s)
    (hf : ∀ a, Approximates (f a) (g a)) : Approximates (r >>= f) (s >>= g) := by
  intro fault ts
  simp only [bind_apply]
  rcases h fault ts with hdeep | heq
  · exact .inl (by rw [hdeep])
  · rw [← heq]
    cases r fault ts with
    | fits a rest => exact hf a fault rest
    | _ => exact .inr rfl

theorem map (f : α → β) (h : Approximates r s) : Approximates (f <$> r) (f <$> s) := by
  rw [map_eq_bind, map_eq_bind]
  exact h.bind fun _ => refl _

theorem onNext {choose choose' : Option Token → Rule α}
    (h : ∀ t, Approximates (choose t) (choose' t)) :
    Approximates (onNext choose) (onNext choose') :=
  fun fault ts => h ts.head? fault ts

theorem optional (h : Approximates r s) (default : α) :
    Approximates (optional r default) (optional s default) := by
  intro fault ts
  unfold Rule.optional
  rcases h fault ts with hdeep | heq
  · exact .inl (by rw [hdeep])
  · exact .inr (by rw [heq])

theorem many (h : Approximates r s) : Approximates (many r) (many s) := by
  intro fault ts
  fun_induction Rule.many r fault ts with
  | case1 ts _ _ hr =>
    rcases h fault ts with hdeep | heq
    · rw [hr] at hdeep
      cases hdeep
    · right
      rw [Rule.many, ← heq, hr]
  | case2 ts why hr =>
    rcases h fault ts with hdeep | heq
    · rw [hr] at hdeep
      cases hdeep
      exact .inl rfl
    · right
      rw [Rule.many, ← heq, hr]
  | case3 ts a rest hr hlt as rest' hmany ih =>
    have heq := (h fault ts).resolve_left (by simp [hr])
    have hrest := ih.resolve_left (by simp [hmany])
    right
    rw [Rule.many, ← heq, hr]
    simp only [if_pos hlt, ← hrest, hmany]
  | case4 ts a rest hr hlt hno ih =>
    have heq := (h fault ts).resolve_left (by simp [hr])
    rcases ih with hdeep | hrest
    · exact .inl hdeep
    · refine .inr (Eq.symm ?_)
      rw [Rule.many, ← heq, hr]
      simp only [if_pos hlt, ← hrest]
  | case5 ts a rest hr hge =>
    have heq := (h fault ts).resolve_left (by simp [hr])
    right
    rw [Rule.many, ← heq, hr]
    simp only [if_neg hge]

theorem separated (k : Token.Kind) (h : Approximates r s) :
    Approximates (separated k r) (separated k s) :=
  h.bind fun _ => ((refl _).bind fun _ => h).many.bind fun _ => refl _

theorem parenthesized (h : Approximates r s) :
    Approximates (parenthesized r) (parenthesized s) :=
  (refl _).bind fun _ => h.bind fun _ => refl _

end Approximates

end Rule

open Rule

section Levels

variable {operand operand' nested nested' : Rule Expr}

theorem approximates_unary (h : Approximates operand operand') (h' : Approximates nested nested') :
    Approximates (Grammar.unary operand nested) (Grammar.unary operand' nested') := by
  refine .onNext fun t => ?_
  split
  · exact (Approximates.refl _).bind fun _ => h.bind fun _ => .refl _
  · have hprimary : Approximates (Grammar.primary nested) (Grammar.primary nested') := by
      refine .onNext fun t => ?_
      split
      · exact h'.parenthesized
      · exact .refl _
    have harguments : Approximates (Grammar.arguments nested) (Grammar.arguments nested') :=
      ((h'.separated _).optional _).parenthesized
    exact hprimary.bind fun _ => harguments.many.bind fun _ => .refl _

theorem approximates_chain (operator? : Token → Option BinaryOperator)
    (h : Approximates operand operand') :
    Approximates (Grammar.chain operator? operand) (Grammar.chain operator? operand') :=
  h.bind fun _ => ((Approximates.refl _).bind fun op => h.map (Prod.mk op)).many.bind fun _ =>
    .refl _

theorem approximates_binding (h : Approximates nested nested') :
    Approximates (Grammar.binding nested) (Grammar.binding nested') :=
  (Approximates.refl _).bind fun _ => (Approximates.refl _).bind fun _ =>
    (Approximates.refl _).bind fun _ => h.bind fun _ => .refl _

theorem approximates_inBody (h : Approximates nested nested') :
    Approximates (Grammar.inBody nested) (Grammar.inBody nested') :=
  (Approximates.refl _).bind fun _ => h

theorem approximates_expr (h : Approximates operand operand') (h' : Approximates nested nested') :
    Approximates (Grammar.expr operand nested) (Grammar.expr operand' nested') := by
  refine .onNext fun t => ?_
  split
  · exact (approximates_binding h').bind fun _ => (approximates_inBody h').bind fun _ => .refl _
  · exact approximates_chain _ (approximates_chain _ h)

theorem approximates_level {m n : Nat} (h : m ≤ n) :
    Approximates (Grammar.level m).unary (Grammar.level n).unary ∧
      Approximates (Grammar.level m).expr (Grammar.level n).expr := by
  induction m generalizing n with
  | zero => exact ⟨.tooDeep _, .tooDeep _⟩
  | succ m ih =>
    obtain ⟨n, rfl⟩ : ∃ k, n = k + 1 := ⟨n - 1, by omega⟩
    obtain ⟨hunary, hexpr⟩ := ih (Nat.le_of_succ_le_succ h)
    have houter := approximates_unary hunary hexpr
    exact ⟨houter, approximates_expr houter hexpr⟩

theorem approximates_definition (h : Approximates nested nested') :
    Approximates (Grammar.definition nested) (Grammar.definition nested') :=
  (Approximates.refl _).bind fun _ => (Approximates.refl _).bind fun _ =>
    (Approximates.refl _).bind fun _ => (Approximates.refl _).bind fun _ =>
      h.bind fun _ => .refl _

theorem approximates_letStatement (h : Approximates nested nested') :
    Approximates (Grammar.letStatement nested) (Grammar.letStatement nested') :=
  (approximates_binding h).bind fun _ =>
    (((approximates_inBody h).map some).optional _).bind fun _ => .refl _

theorem approximates_statement (h : Approximates nested nested') :
    Approximates (Grammar.statement nested) (Grammar.statement nested') := by
  refine .onNext fun t => ?_
  split
  · exact approximates_definition h
  · exact approximates_letStatement h
  · exact h.map _

theorem approximates_program (h : Approximates nested nested') :
    Approximates (Grammar.program nested) (Grammar.program nested') :=
  (((approximates_statement h).separated _).optional _).bind fun _ => .refl _

end Levels

/-- The programs of a deeper level are read the same, unless the text nests too deep. -/
theorem approximates_program_expression {m n : Nat} (h : m ≤ n) :
    Approximates (Grammar.program (Grammar.expression m))
      (Grammar.program (Grammar.expression n)) :=
  approximates_program (approximates_level h).2

end Calx
