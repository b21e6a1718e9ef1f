import Calx.Grammar.Expr
import Calx.Proofs.Grammar.Greedy

/-!
# The rules for expressions

Each rule of the grammar of expressions reads its phrase, takes it whole, and is steady. The rules
nest by levels, so all three are shown of one level from the level inside it, and then of every
level by induction (`reads_level`, `takes_level`, `steady_level`). A level that is `depth` levels
deep reads everything that has fewer than `depth` tokens, since every level takes a token.
-/

namespace Calx

open Rule Phrase

/-! ## Repeated shapes as rounds -/

/-- One more operand with the operator in front. -/
def OperatorThen (operator : Token → BinaryOperator → Prop) (operand : Phrase Expr) :
    Phrase (BinaryOperator × Expr) :=
  fun ts x => ∃ t us, ts = t :: us ∧ operator t x.1 ∧ operand us x.2

/-- What operands with operators between them stand for. -/
def foldOperators (first : Expr) (more : List (BinaryOperator × Expr)) : Expr :=
  more.foldl (fun left (op, right) => .binary op left right) first

theorem leftAssociated_iff {operator : Token → BinaryOperator → Prop} {operand : Phrase Expr}
    {ts : List Token} {e : Expr} : LeftAssociated operator operand ts e ↔
      rounds operand (OperatorThen operator operand) foldOperators ts e := by
  constructor
  · intro h
    induction h with
    | operand h => exact ⟨_, _, [], [], by simp, h, .nil, rfl⟩
    | @binary us₂ vs t op l r _ hop hr ih =>
      obtain ⟨us, a, ws, more, rfl, ha, hmore, rfl⟩ := ih
      refine ⟨us, a, ws ++ t :: vs, more ++ [(op, r)], by simp, ha, ?_, by simp [foldOperators]⟩
      exact hmore.snoc ⟨t, vs, rfl, hop, hr⟩
  · rintro ⟨us, a, vs, more, rfl, ha, hmore, rfl⟩
    have hfirst : LeftAssociated operator operand us a := .operand ha
    clear ha
    induction hmore generalizing us a with
    | nil => simpa [foldOperators] using hfirst
    | @cons us' vs' x more hx _ ih =>
      obtain ⟨t, us'', rfl, hop, hr⟩ := hx
      rw [← List.append_assoc]
      exact ih _ _ (.binary hfirst hop hr)

theorem isCall_iff {nested : Phrase Expr} {ts : List Token} {e : Expr} : IsCall nested ts e ↔
    rounds (IsPrimary nested) (Between (Perhaps (Separated .comma nested)))
      (fun f calls => calls.foldl .apply f) ts e := by
  constructor
  · intro h
    induction h with
    | primary h => exact ⟨_, _, [], [], by simp, h, .nil, rfl⟩
    | @apply us₂ vs f args _ hargs ih =>
      obtain ⟨us, a, ws, calls, rfl, ha, hcalls, rfl⟩ := ih
      exact ⟨us, a, ws ++ vs, calls ++ [args], by simp, ha, hcalls.snoc hargs, by simp⟩
  · rintro ⟨us, a, vs, calls, rfl, ha, hcalls, rfl⟩
    have hfirst := IsCall.primary ha
    clear ha
    induction hcalls generalizing us a with
    | nil => simpa using hfirst
    | cons hargs _ ih =>
      rw [← List.append_assoc]
      exact ih _ _ (.apply hfirst hargs)

theorem separated_iff {α : Type} {u : Token} {item : Phrase α} {ts : List Token} {as : List α} :
    Separated u item ts as ↔ rounds item (after u item) List.cons ts as := by
  constructor
  · intro h
    induction h with
    | one h => exact ⟨_, _, [], [], by simp, h, .nil, rfl⟩
    | more ha _ ih =>
      obtain ⟨us, b, vs, bs, rfl, hb, hbs, rfl⟩ := ih
      exact ⟨_, _, _, _, rfl, ha, .cons ⟨us, rfl, hb⟩ hbs, rfl⟩
  · rintro ⟨us, a, vs, as, rfl, ha, has, rfl⟩
    induction has generalizing us a with
    | nil => simpa using Separated.one ha
    | @cons ws vs' b bs hb _ ih =>
      obtain ⟨ws', rfl, hb⟩ := hb
      exact .more ha (ih _ _ hb)

theorem perhaps_iff {α : Type} {items : Phrase (List α)} {ts : List Token} {as : List α} :
    Perhaps items ts as ↔ orNothing items [] ts as := by
  constructor
  · rintro (_ | h)
    · exact .inr ⟨rfl, rfl⟩
    · exact .inl h
  · rintro (h | ⟨rfl, rfl⟩)
    · exact .present h
    · exact .absent

theorem between_iff {α : Type} {inner : Phrase α} {ts : List Token} {a : α} :
    Between inner ts a ↔
      after .openParen (followedBy inner fun b => after .closeParen (nothing b)) ts a := by
  constructor
  · rintro ⟨h⟩
    exact ⟨_, rfl, _, _, _, rfl, h, [], rfl, rfl, rfl⟩
  · rintro ⟨us, rfl, vs, b, ws, rfl, h, ws', rfl, rfl, rfl⟩
    exact .intro h

/-! ## Rules of one shape -/

section Shapes

variable {α : Type} {n : Nat} {r : Rule α} {p : Phrase α} {k : Token.Kind} {u : Token}

theorem reads_parenthesized (h : Reads n r p) : Reads (n + 1) (parenthesized r) (Between p) := by
  refine (Reads.mark_bind rfl (h.andThen fun a => ?_)).mono between_iff.2
  exact (Reads.mark_bind rfl (.pure n a)).of_le (Nat.le_succ n)

theorem takes_parenthesized {blocked : List Token.Kind} (h : Takes n r p (Clear blocked))
    (hk : .closeParen ∉ blocked) : Takes (n + 1) (parenthesized r) (Between p) Anything := by
  refine (Takes.mark_bind rfl (h.bind (m := n) (fun a => ?_) ?_)).mono between_iff.1
  · exact (Takes.mark_bind rfl (.pure n a _)).of_le (Nat.le_succ n)
  · rintro us a vs b fault rest - ⟨ws, rfl, -⟩ -
    exact ⟨hk, Nat.le_add_right _ _⟩

theorem steady_mark (k : Token.Kind) : Steady (mark k) := .next _ _

theorem steady_parenthesized (h : Steady r) : Steady (parenthesized r) :=
  (steady_mark _).bind fun _ => h.bind fun a => (steady_mark _).bind fun _ => .pure a

theorem reads_separated (hk : k.token? = some u) (h : Reads n r p) :
    Reads n (separated k r) (Separated u p) := by
  have hround := (Reads.mark_bind hk (f := fun _ => r) h).of_le (Nat.le_succ n)
  exact (h.rounds hround List.cons).mono separated_iff.2

theorem takes_separated {blocked : List Token.Kind} {clear : Option LexError → List Token → Prop}
    (hk : k.token? = some u) (h : Takes n r p (Clear blocked)) (hb : k ∉ blocked)
    (hno : ∀ {fault ts}, clear fault ts → ts.length < n →
      Clear blocked fault ts ∧ Refuses (mark k >>= fun _ => r) fault ts) :
    Takes n (separated k r) (Separated u p) clear := by
  have hu : u.kind = k := (Token.kind_eq_iff hk u).2 rfl
  have hround := (Takes.mark_bind hk (f := fun _ => r) h).of_le (Nat.le_succ n)
  have hstart : ∀ {ts b}, after u p ts b → StartsIn [k] ts := by
    rintro ts b ⟨us, rfl, -⟩
    exact ⟨u, us, rfl, by simp [hu]⟩
  exact (h.rounds hround hstart (by simpa using hb) hno List.cons).mono separated_iff.1

/-- Items with commas between them, in a list that neither an item nor a comma follows. -/
theorem takes_list {blocked starts : List Token.Kind} (h : Takes n r p (Clear blocked))
    (hb : .comma ∉ blocked)
    (hno : ∀ {fault ts}, Clear starts fault ts → ts.length < n → Refuses r fault ts) :
    Takes n (optional (separated .comma r) []) (Perhaps (Separated .comma p))
      (Clear (.comma :: (starts ++ blocked))) := by
  have hitems : Takes n (separated .comma r) (Separated .comma p)
      (Clear (.comma :: (starts ++ blocked))) := by
    refine takes_separated rfl h hb fun hc _ => ⟨hc.mono ?_, ?_⟩
    · exact List.subset_cons_of_subset _ (List.subset_append_right _ _)
    · exact (refuses_mark (hc.mono (by simp))).bind _
  refine (hitems.optional fun hc hlt => (hno (hc.mono ?_) hlt).bind _).mono perhaps_iff.1
  exact List.subset_cons_of_subset _ (List.subset_append_left _ _)

theorem steady_separated (k : Token.Kind) (h : Steady r) : Steady (separated k r) :=
  h.rounds ((steady_mark k).bind fun _ => h) List.cons

theorem reads_list {q : Phrase (List α)} {s : Rule (List α)} (h : Reads n s q) :
    Reads n (optional s []) (Perhaps q) :=
  h.optional.mono perhaps_iff.2

end Shapes

/-! ## Operators -/

theorem isSumOperator_iff {t : Token} {op : BinaryOperator} :
    IsSumOperator t op ↔ Grammar.sumOperator? t = some op := by
  constructor
  · rintro (_ | _) <;> rfl
  · intro h
    cases t <;> cases h
    · exact .add
    · exact .sub

theorem isProductOperator_iff {t : Token} {op : BinaryOperator} :
    IsProductOperator t op ↔ Grammar.productOperator? t = some op := by
  constructor
  · rintro (_ | _) <;> rfl
  · intro h
    cases t <;> cases h
    · exact .mul
    · exact .div

theorem kind_mem_iff_sumOperator? {t : Token} :
    t.kind ∈ [Token.Kind.plus, .minus] ↔ Grammar.sumOperator? t ≠ none := by
  cases t <;> simp [Token.kind, Grammar.sumOperator?]

theorem kind_mem_iff_productOperator? {t : Token} :
    t.kind ∈ [Token.Kind.asterisk, .slash] ↔ Grammar.productOperator? t ≠ none := by
  cases t <;> simp [Token.kind, Grammar.productOperator?]

section Chains

variable {n : Nat} {operand : Rule Expr} {p : Phrase Expr}
  {operator? : Token → Option BinaryOperator} {operator : Token → BinaryOperator → Prop}

/-- One round of a chain. -/
def operatorThen (operator? : Token → Option BinaryOperator) (operand : Rule Expr) :
    Rule (BinaryOperator × Expr) :=
  next .alternatives operator? >>= fun op => operand >>= fun r => pure (op, r)

theorem chain_eq (operator? : Token → Option BinaryOperator) (operand : Rule Expr) :
    Grammar.chain operator? operand = operand >>= fun first =>
      many (operatorThen operator? operand) >>= fun more => pure (foldOperators first more) := rfl

theorem reads_operatorThen (hop : ∀ {t op}, operator t op ↔ operator? t = some op)
    (hne : ∃ t op, operator? t = some op) (h : Reads n operand p) :
    Reads n (operatorThen operator? operand) (OperatorThen operator p) := by
  refine ((Reads.next n _ hne).andThen fun op => h.map (Prod.mk op)).mono ?_
  rintro ts x ⟨us, op, vs, rfl, ⟨t, rfl, ht⟩, r, hr, rfl⟩
  exact ⟨t, vs, rfl, hop.2 ht, hr⟩

theorem reads_chain (hop : ∀ {t op}, operator t op ↔ operator? t = some op)
    (hne : ∃ t op, operator? t = some op) (h : Reads n operand p) :
    Reads n (Grammar.chain operator? operand) (LeftAssociated operator p) := by
  rw [chain_eq]
  exact (h.rounds (reads_operatorThen @hop hne h) foldOperators).mono leftAssociated_iff.2

/-- A round of a chain starts with its operator. -/
theorem OperatorThen.head {starts : List Token.Kind}
    (hop : ∀ {t op}, operator t op ↔ operator? t = some op)
    (hstart : ∀ {t : Token}, t.kind ∈ starts ↔ operator? t ≠ none) {ts : List Token}
    {x : BinaryOperator × Expr} (h : OperatorThen operator p ts x) : StartsIn starts ts := by
  obtain ⟨t, us, rfl, ht, -⟩ := h
  exact ⟨t, us, rfl, hstart.2 (by simp [hop.1 ht])⟩

theorem takes_operatorThen {blocked : List Token.Kind}
    (hop : ∀ {t op}, operator t op ↔ operator? t = some op) (h : Takes n operand p (Clear blocked)) :
    Takes n (operatorThen operator? operand) (OperatorThen operator p) (Clear blocked) := by
  rintro fault ts rest ⟨op, r⟩ ⟨t, us, rfl, ht, hr⟩ hc hlt
  have hnext : next .alternatives operator? fault (t :: us ++ rest) = .fits op (us ++ rest) := by
    simp [next, hop.1 ht]
  rw [operatorThen, bind_apply, hnext]
  rw [List.cons_append, List.length_cons] at hlt
  exact h.map (Prod.mk op) ⟨r, hr, rfl⟩ hc (Nat.lt_of_succ_lt hlt)

theorem takes_chain {blocked starts : List Token.Kind}
    (hop : ∀ {t op}, operator t op ↔ operator? t = some op)
    (hstart : ∀ {t : Token}, t.kind ∈ starts ↔ operator? t ≠ none)
    (hdisj : ∀ k ∈ starts, k ∉ blocked) (h : Takes n operand p (Clear blocked)) :
    Takes n (Grammar.chain operator? operand) (LeftAssociated operator p)
      (Clear (starts ++ blocked)) := by
  rw [chain_eq]
  refine (h.rounds_of_starts (takes_operatorThen @hop h) (OperatorThen.head @hop @hstart) hdisj ?_
    foldOperators).mono leftAssociated_iff.1
  exact fun hc => (refuses_next hc fun t ht => Classical.not_not.1 (mt hstart.2 ht)).bind _

theorem steady_chain (operator? : Token → Option BinaryOperator) (h : Steady operand) :
    Steady (Grammar.chain operator? operand) :=
  h.rounds ((Steady.next _ _).bind fun op => h.bind fun r => .pure (op, r)) foldOperators

end Chains

/-! ## Calls -/

/-- The kinds that go on after a call: one more call. -/
def callBlocked : List Token.Kind := [.openParen]

/-- The kinds that go on after a product. -/
def productBlocked : List Token.Kind := [.asterisk, .slash] ++ callBlocked

/-- The kinds that go on after a sum, and so after an expression. -/
def sumBlocked : List Token.Kind := [.plus, .minus] ++ productBlocked

section Calls

variable {n : Nat} {nested : Rule Expr} {p : Phrase Expr}

theorem isPrimary_of_atom? {t : Token} {e : Expr} (h : Grammar.atom? t = some e) :
    IsPrimary p [t] e := by
  cases t <;> cases h
  · exact .number _
  · exact .string _
  · exact .identifier _

theorem reads_primary (h : Reads n nested p) :
    Reads (n + 1) (Grammar.primary nested) (IsPrimary p) := by
  have hatom : Reads (n + 1) (next .alternatives Grammar.atom?) (IsPrimary p) := by
    refine (Reads.next _ _ ⟨.identifier "x", .var "x", rfl⟩).mono ?_
    rintro ts e ⟨t, rfl, ht⟩
    exact isPrimary_of_atom? ht
  refine Reads.onNext fun t => ?_
  split
  · exact (reads_parenthesized h).mono .parenthesized
  · exact hatom

theorem takes_primary {blocked : List Token.Kind} (h : Takes n nested p (Clear blocked))
    (hb : .closeParen ∉ blocked) :
    Takes (n + 1) (Grammar.primary nested) (IsPrimary p) Anything := by
  rintro fault ts rest e (x | s | x | hp) hc hlt
  · rfl
  · rfl
  · rfl
  · obtain ⟨hp'⟩ := id hp
    exact takes_parenthesized h hb hp hc hlt

/-- A primary expression that does not start with a parenthesis is one token. -/
theorem primary_eq_next {fault : Option LexError} {ts : List Token}
    (h : ts.head? ≠ some .openParen) :
    Grammar.primary nested fault ts = next .alternatives Grammar.atom? fault ts := by
  cases ts with
  | nil => rfl
  | cons t ts =>
    cases t with
    | openParen => exact absurd rfl h
    | _ => rfl

theorem needy_primary (nested : Rule Expr) : Needy (Grammar.primary nested) := fun _ => rfl

theorem refuses_primary {fault : Option LexError} {ts : List Token}
    (h : Clear callStarters fault ts) : Refuses (Grammar.primary nested) fault ts := by
  have hno : Refuses (next .alternatives Grammar.atom?) fault ts :=
    refuses_next h fun t ht => by cases t <;> simp [callStarters, Token.kind] at ht <;> rfl
  obtain ⟨rest, e, hr⟩ := hno
  exact ⟨rest, e, by rw [primary_eq_next (h.head?_ne (by decide)), hr]⟩

theorem steady_primary (h : Steady nested) : Steady (Grammar.primary nested) := by
  refine Steady.onNext (fun t => ?_) (needy_next _ _)
  split
  · exact steady_parenthesized h
  · exact .next _ _

theorem reads_arguments (h : Reads n nested p) :
    Reads (n + 1) (Grammar.arguments nested) (Between (Perhaps (Separated .comma p))) :=
  reads_parenthesized (reads_list (reads_separated rfl h))

theorem takes_arguments (h : Takes n nested p (Clear sumBlocked))
    (hno : ∀ {fault ts}, Clear exprStarters fault ts → ts.length < n → Refuses nested fault ts) :
    Takes (n + 1) (Grammar.arguments nested) (Between (Perhaps (Separated .comma p))) Anything := by
  exact takes_parenthesized (takes_list h (by decide) hno) (by decide)

theorem reads_call (h : Reads n nested p) : Reads (n + 1) (Grammar.call nested) (IsCall p) :=
  ((reads_primary h).rounds (reads_arguments h) _).mono isCall_iff.2

theorem takes_call (h : Takes n nested p (Clear sumBlocked))
    (hno : ∀ {fault ts}, Clear exprStarters fault ts → ts.length < n → Refuses nested fault ts) :
    Takes (n + 1) (Grammar.call nested) (IsCall p) (Clear callBlocked) := by
  have hprimary : Takes (n + 1) (Grammar.primary nested) (IsPrimary p) (Clear []) :=
    (takes_primary h (by decide)).weaken fun _ => trivial
  have harguments : Takes (n + 1) (Grammar.arguments nested) _ (Clear []) :=
    (takes_arguments h hno).weaken fun _ => trivial
  have hrounds := hprimary.rounds_of_starts harguments Between.head (by decide)
    (fun hc => (refuses_mark hc).bind _) fun f calls => calls.foldl .apply f
  exact hrounds.mono isCall_iff.1

theorem steady_call (h : Steady nested) : Steady (Grammar.call nested) :=
  (steady_primary h).rounds (steady_parenthesized ((steady_separated _ h).optional _)) _

end Calls

/-! ## One level -/

section Levels

variable {n : Nat} {operand nested : Rule Expr}

theorem reads_unary (h : Reads n operand IsUnary) (h' : Reads n nested IsExpr) :
    Reads (n + 1) (Grammar.unary operand nested) IsUnary := by
  refine Reads.onNext fun t => ?_
  split
  · refine (Reads.mark_bind rfl (h.map Expr.negate)).mono ?_
    rintro ts e ⟨us, rfl, e, he, rfl⟩
    exact .negate he
  · exact (reads_call h').mono .call

/-- A unary expression that does not start with a minus sign is a call. -/
theorem unary_eq_call {fault : Option LexError} {ts : List Token} (h : ts.head? ≠ some .minus) :
    Grammar.unary operand nested fault ts = Grammar.call nested fault ts := by
  cases ts with
  | nil => rfl
  | cons t ts =>
    cases t with
    | minus => exact absurd rfl h
    | _ => rfl

theorem takes_unary (h : Takes n operand IsUnary (Clear callBlocked))
    (h' : Takes n nested IsExpr (Clear sumBlocked))
    (hno : ∀ {fault ts}, Clear exprStarters fault ts → ts.length < n → Refuses nested fault ts) :
    Takes (n + 1) (Grammar.unary operand nested) IsUnary (Clear callBlocked) := by
  rintro fault ts rest e (hneg | hcall) hc hlt
  · exact Takes.mark_bind rfl (h.map Expr.negate) ⟨_, rfl, _, hneg, rfl⟩ hc hlt
  · rw [unary_eq_call ((hcall.head.append rest).head?_ne (by decide))]
    exact takes_call h' hno hcall hc hlt

theorem needy_unary (operand nested : Rule Expr) : Needy (Grammar.unary operand nested) :=
  (needy_primary nested).bind _

theorem refuses_unary {fault : Option LexError} {ts : List Token} (h : Clear sumStarters fault ts) :
    Refuses (Grammar.unary operand nested) fault ts := by
  have hprimary : Refuses (Grammar.primary nested) fault ts :=
    refuses_primary (h.mono (List.subset_cons_self _ _))
  have hcall : Refuses (Grammar.call nested) fault ts := hprimary.bind _
  obtain ⟨rest, e, hr⟩ := hcall
  exact ⟨rest, e, by rw [unary_eq_call (h.head?_ne (by decide)), hr]⟩

theorem steady_unary (h : Steady operand) (h' : Steady nested) :
    Steady (Grammar.unary operand nested) := by
  refine Steady.onNext (fun t => ?_) ((needy_primary nested).bind _)
  split
  · exact (steady_mark _).bind fun _ => h.map _
  · exact steady_call h'

theorem reads_product (h : Reads n operand IsUnary) :
    Reads n (Grammar.chain Grammar.productOperator? operand) IsProduct :=
  reads_chain isProductOperator_iff ⟨.asterisk, .mul, rfl⟩ h

theorem takes_product (h : Takes n operand IsUnary (Clear callBlocked)) :
    Takes n (Grammar.chain Grammar.productOperator? operand) IsProduct (Clear productBlocked) :=
  takes_chain isProductOperator_iff kind_mem_iff_productOperator? (by decide) h

theorem reads_sum (h : Reads n operand IsUnary) : Reads n (Grammar.sum operand) IsSum :=
  reads_chain isSumOperator_iff ⟨.plus, .add, rfl⟩ (reads_product h)

theorem takes_sum (h : Takes n operand IsUnary (Clear callBlocked)) :
    Takes n (Grammar.sum operand) IsSum (Clear sumBlocked) :=
  takes_chain isSumOperator_iff kind_mem_iff_sumOperator? (by decide) (takes_product h)

/-- A name and the expression bound to it. -/
def IsBinding : Phrase (String × Expr) := fun ts x =>
  ∃ us, ts = .letWord :: .identifier x.1 :: .equals :: us ∧ IsExpr us x.2

theorem isBinding_iff {ts : List Token} {x : String × Expr} : IsBinding ts x ↔
    after .letWord
      (named fun n => after .equals fun us y => ∃ b, IsExpr us b ∧ y = (n, b)) ts x := by
  constructor
  · rintro ⟨us, rfl, h⟩
    exact ⟨_, rfl, x.1, _, rfl, us, rfl, x.2, h, rfl⟩
  · rintro ⟨_, rfl, n, _, rfl, us, rfl, b, h, rfl⟩
    exact ⟨us, rfl, h⟩

theorem reads_binding (h : Reads n nested IsExpr) :
    Reads (n + 1) (Grammar.binding nested) IsBinding := by
  have hbound := Reads.identifier_bind fun x =>
    Reads.mark_bind (k := .equals) (f := fun _ => nested >>= fun b => pure (x, b)) rfl
      (h.map (Prod.mk x))
  exact ((Reads.mark_bind rfl hbound).mono isBinding_iff.2).of_le (by omega)

theorem takes_binding (h : Takes n nested IsExpr (Clear sumBlocked)) :
    Takes (n + 1) (Grammar.binding nested) IsBinding (Clear sumBlocked) := by
  have hbound := Takes.identifier_bind fun x =>
    Takes.mark_bind (k := .equals) (f := fun _ => nested >>= fun b => pure (x, b)) rfl
      (h.map (Prod.mk x))
  exact ((Takes.mark_bind rfl hbound).mono isBinding_iff.1).of_le (by omega)

theorem steady_identifier : Steady identifier := .next _ _

theorem steady_binding (h : Steady nested) : Steady (Grammar.binding nested) :=
  (steady_mark _).bind fun _ => steady_identifier.bind fun _ =>
    (steady_mark _).bind fun _ => h.map _

theorem reads_inBody (h : Reads n nested IsExpr) :
    Reads (n + 1) (Grammar.inBody nested) (after .inWord IsExpr) :=
  Reads.mark_bind rfl h

theorem takes_inBody (h : Takes n nested IsExpr (Clear sumBlocked)) :
    Takes (n + 1) (Grammar.inBody nested) (after .inWord IsExpr) (Clear sumBlocked) :=
  Takes.mark_bind rfl h

theorem steady_inBody (h : Steady nested) : Steady (Grammar.inBody nested) :=
  (steady_mark _).bind fun _ => h

/-- An expression that does not start with `let` is a sum. -/
theorem expr_eq_sum {fault : Option LexError} {ts : List Token} (h : ts.head? ≠ some .letWord) :
    Grammar.expr operand nested fault ts = Grammar.sum operand fault ts := by
  cases ts with
  | nil => rfl
  | cons t ts =>
    cases t with
    | letWord => exact absurd rfl h
    | _ => rfl

theorem reads_expr (h : Reads (n + 1) operand IsUnary) (h' : Reads n nested IsExpr) :
    Reads (n + 1) (Grammar.expr operand nested) IsExpr := by
  refine Reads.onNext fun t => ?_
  split
  · have hbody := fun (x : String × Expr) => (reads_inBody h').map (Expr.letIn x.1 x.2)
    refine ((reads_binding h').andThen hbody).mono ?_
    rintro ts e ⟨us, x, vs, rfl, ⟨ws, rfl, hb⟩, e', ⟨vs', rfl, he⟩, rfl⟩
    exact .letIn hb he
  · exact (reads_sum h).mono .sum

theorem takes_expr (h : Takes (n + 1) operand IsUnary (Clear callBlocked))
    (h' : Takes n nested IsExpr (Clear sumBlocked)) :
    Takes (n + 1) (Grammar.expr operand nested) IsExpr (Clear sumBlocked) := by
  rintro fault ts rest e (@⟨us, vs, x, b, e, hb, he⟩ | hs) hc hlt
  · have hbody : Takes (n + 1)
        (Grammar.binding nested >>= fun y => Grammar.inBody nested >>= fun e =>
          pure (Expr.letIn y.1 y.2 e))
        (followedBy IsBinding fun y ts e =>
          ∃ e', after .inWord IsExpr ts e' ∧ e = .letIn y.1 y.2 e') (Clear sumBlocked) := by
      refine (takes_binding h').bind (fun y => (takes_inBody h').map (Expr.letIn y.1 y.2)) ?_
      rintro us y vs e fault rest - ⟨e', ⟨vs', rfl, -⟩, -⟩ -
      have hin : Token.Kind.inWord ∉ sumBlocked := by decide
      exact ⟨hin, Nat.le_add_right _ _⟩
    refine hbody ⟨_ :: _ :: _ :: us, (x, b), .inWord :: vs, rfl, ⟨us, rfl, hb⟩, e, ?_, rfl⟩ hc hlt
    exact ⟨vs, rfl, he⟩
  · rw [expr_eq_sum ((((IsSum.head hs).append rest).head?_ne (by decide)))]
    exact takes_sum h hs hc hlt

theorem needy_sum (h : Needy operand) : Needy (Grammar.sum operand) :=
  (h.bind _).bind _

theorem refuses_expr {fault : Option LexError} {ts : List Token}
    (h : ∀ {ts}, Clear sumStarters fault ts → Refuses operand fault ts)
    (hts : Clear exprStarters fault ts) : Refuses (Grammar.expr operand nested) fault ts := by
  have hsum : Refuses (Grammar.sum operand) fault ts :=
    ((h (hts.mono (List.subset_cons_self _ _))).bind _).bind _
  obtain ⟨rest, e, hr⟩ := hsum
  exact ⟨rest, e, by rw [expr_eq_sum (hts.head?_ne (by decide)), hr]⟩

theorem steady_expr (h : Steady operand) (hneedy : Needy operand) (h' : Steady nested) :
    Steady (Grammar.expr operand nested) := by
  refine Steady.onNext (fun t => ?_) (needy_sum hneedy)
  split
  · exact (steady_binding h').bind fun _ => (steady_inBody h').map _
  · exact steady_chain _ (steady_chain _ h)

end Levels

/-! ## All levels -/

theorem isUnary_identifier (n : String) : IsUnary [.identifier n] (.var n) :=
  .call (.primary (.identifier n))

theorem isExpr_identifier (n : String) : IsExpr [.identifier n] (.var n) :=
  .sum (.operand (.operand (isUnary_identifier n)))

theorem reads_level (depth : Nat) : Reads depth (Grammar.level depth).unary IsUnary ∧
    Reads depth (Grammar.level depth).expr IsExpr := by
  induction depth with
  | zero => exact ⟨.tooDeep ⟨_, _, isUnary_identifier "x"⟩, .tooDeep ⟨_, _, isExpr_identifier "x"⟩⟩
  | succ depth ih =>
    have hunary := reads_unary ih.1 ih.2
    exact ⟨hunary, reads_expr hunary ih.2⟩

/-- A level that is deep enough for a token does not fit where no expression can start. -/
theorem refuses_expression {depth : Nat} {fault : Option LexError} {ts : List Token}
    (h : Clear exprStarters fault ts) (hlt : ts.length < depth) :
    Refuses (Grammar.expression depth) fault ts := by
  cases depth with
  | zero => exact absurd hlt (Nat.not_lt_zero _)
  | succ depth => exact refuses_expr refuses_unary h

theorem takes_level (depth : Nat) :
    Takes depth (Grammar.level depth).unary IsUnary (Clear callBlocked) ∧
    Takes depth (Grammar.level depth).expr IsExpr (Clear sumBlocked) := by
  induction depth with
  | zero => exact ⟨fun _ _ _ _ _ _ h => absurd h (Nat.not_lt_zero _),
      fun _ _ _ _ _ _ h => absurd h (Nat.not_lt_zero _)⟩
  | succ depth ih =>
    have hunary := takes_unary ih.1 ih.2 refuses_expression
    exact ⟨hunary, takes_expr hunary ih.2⟩

theorem steady_level (depth : Nat) : Steady (Grammar.level depth).unary ∧
    Steady (Grammar.level depth).expr := by
  induction depth with
  | zero => exact ⟨.tooDeep, .tooDeep⟩
  | succ depth ih =>
    have hunary := steady_unary ih.1 ih.2
    exact ⟨hunary, steady_expr hunary (needy_unary _ _) ih.2⟩

theorem needy_expression (depth : Nat) : Needy (Grammar.expression (depth + 1)) :=
  needy_sum (needy_unary _ _)

end Calx
