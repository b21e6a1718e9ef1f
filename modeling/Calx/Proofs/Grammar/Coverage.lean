import Calx.Proofs.Grammar.Program

/-!
# Rules cover phrases

`Rule.Takes` needs to know what follows a phrase. `Rule.Covers` does not: whatever follows, a rule
reads at least the phrase where one stands. It may go on behind the phrase, and give up a round that
it began there, but it never ends before the phrase does and never misfits. So no longer beginning
of the tokens is a program than the one that a program is blamed behind (`length_le_of_misfits`).
-/

namespace Calx

namespace Rule

open Phrase

variable {α β γ : Type}

/-- The rule needs a token where none can be cut, or it fits and leaves no more than `ws`. -/
def Passes (r : Rule α) (fault : Option LexError) (ts ws : List Token) : Prop :=
  (∃ e, r fault ts = .abandoned (.lexical e)) ∨ ∃ a rest, r fault ts = .fits a rest ∧ rest <:+ ws

/-- The rule never misfits on fewer than `n` tokens. -/
def Yields (n : Nat) (r : Rule α) : Prop :=
  ∀ ⦃fault ts⦄, ts.length < n → Passes r fault ts ts

/-- The rule reads at least the phrase wherever one of `p` stands among fewer than `n` tokens. -/
def Covers (n : Nat) (r : Rule α) (p : Phrase β) : Prop :=
  ∀ ⦃fault us ws b⦄, p us b → (us ++ ws).length < n → Passes r fault (us ++ ws) ws

namespace Passes

variable {r : Rule α} {fault : Option LexError} {ts ws : List Token}

theorem mono {ws' : List Token} (h : Passes r fault ts ws) (hws : ws <:+ ws') :
    Passes r fault ts ws' := by
  rcases h with hab | ⟨a, rest, hr, hrest⟩
  · exact .inl hab
  · exact .inr ⟨a, rest, hr, hrest.trans hws⟩

theorem bind {f : α → Rule β} (h : Passes r fault ts ws)
    (hf : ∀ a rest, rest <:+ ws → Passes (f a) fault rest ws) : Passes (r >>= f) fault ts ws := by
  rcases h with ⟨e, hab⟩ | ⟨a, rest, hr, hrest⟩
  · exact .inl ⟨e, by rw [bind_apply, hab]⟩
  · simpa only [Passes, bind_apply, hr] using hf a rest hrest

theorem bind_yields {f : α → Rule β} {n : Nat} (h : Passes r fault ts ws)
    (hf : ∀ a, Yields n (f a)) (hlt : ws.length < n) : Passes (r >>= f) fault ts ws :=
  h.bind fun a _ hrest => (hf a (Nat.lt_of_le_of_lt hrest.length_le hlt)).mono hrest

theorem suffix {a : α} {rest : List Token} (h : Passes r fault ts ws)
    (hr : r fault ts = .fits a rest) : rest <:+ ws := by
  rcases h with ⟨e, hab⟩ | ⟨a', rest', hfits, hrest⟩
  · rw [hab] at hr
    cases hr
  · rw [hfits] at hr
    cases hr
    exact hrest

/-- One more round, which takes a token. -/
theorem many_cons {rest : List Token} {a : α} (hr : r fault ts = .fits a rest)
    (hlt : rest.length < ts.length) (h : Passes (many r) fault rest ws) :
    Passes (many r) fault ts ws := by
  rw [Passes, Rule.many, hr]
  simp only [if_pos hlt]
  rcases h with ⟨e, hab⟩ | ⟨as, rest', hfits, hrest'⟩
  · exact .inl ⟨e, by rw [hab]⟩
  · exact .inr ⟨a :: as, rest', by rw [hfits], hrest'⟩

end Passes

/-! ## Rules that never misfit -/

/-- A rule that reads phrases passes unless it misfits. -/
theorem Reads.passes {n : Nat} {r : Rule α} {p : Phrase α} (h : Reads n r p)
    {fault : Option LexError} {ts : List Token} (hlt : ts.length < n)
    (hno : ¬Refuses r fault ts) : Passes r fault ts ts := by
  cases hr : r fault ts with
  | fits a rest =>
    obtain ⟨us, rfl, -⟩ := h.sound hr
    exact .inr ⟨a, rest, hr, List.suffix_append us rest⟩
  | misfits rest e => exact absurd ⟨rest, e, hr⟩ hno
  | abandoned why =>
    cases why with
    | lexical e => exact .inl ⟨e, hr⟩
    | tooDeep => exact absurd hr (h.shallow hlt)

theorem not_refuses_optional (r : Rule α) (default : α) (fault : Option LexError)
    (ts : List Token) : ¬Refuses (optional r default) fault ts := by
  rintro ⟨rest, e, h⟩
  unfold optional at h
  split at h
  · cases h
  · rename_i hno
    exact hno _ _ h

theorem not_refuses_many (r : Rule α) (fault : Option LexError) (ts : List Token) :
    ¬Refuses (many r) fault ts := by
  rintro ⟨rest, e, h⟩
  fun_induction many r fault ts with
  | case1 | case2 | case3 | case5 => cases h
  | case4 _ _ _ _ _ _ ih => exact ih h

namespace Yields

variable {n : Nat} {r : Rule α} {p : Phrase α}

protected theorem pure (n : Nat) (a : α) : Yields n (pure a) :=
  fun _ ts _ => .inr ⟨a, ts, rfl, List.suffix_refl ts⟩

theorem optional (h : Reads n r p) (default : α) : Yields n (optional r default) :=
  fun _ _ hlt => h.optional.passes hlt (not_refuses_optional r default _ _)

theorem many (h : Reads n r p) : Yields n (many r) :=
  fun _ _ hlt => h.many.passes hlt (not_refuses_many r _ _)

theorem map (h : Yields n r) (f : α → β) : Yields n (r >>= fun a => pure (f a)) :=
  fun _ _ hlt => (h hlt).bind_yields (fun a => .pure n (f a)) hlt

end Yields

/-! ## Rules that cover phrases -/

namespace Covers

variable {m n : Nat} {r : Rule α} {p : Phrase β}

theorem mono {q : Phrase γ} (h : Covers n r p) (hqp : ∀ {ts c}, q ts c → ∃ b, p ts b) :
    Covers n r q := by
  intro fault us ws c hq hlt
  obtain ⟨b, hp⟩ := hqp hq
  exact h hp hlt

theorem of_le (h : Covers n r p) (hmn : m ≤ n) : Covers m r p :=
  fun _ _ _ _ hp hlt => h hp (Nat.lt_of_lt_of_le hlt hmn)

theorem of_takes {p : Phrase α} (h : Takes n r p Anything) : Covers n r p :=
  fun _ _ ws _ hp hlt => .inr ⟨_, ws, h hp trivial hlt, List.suffix_refl ws⟩

/-- What comes behind the phrase never misfits. -/
theorem bind_yields {f : α → Rule γ} (h : Covers n r p) (hf : ∀ a, Yields n (f a)) :
    Covers n (r >>= f) p := by
  intro fault us ws b hp hlt
  refine (h hp hlt).bind_yields hf ?_
  rw [List.length_append] at hlt
  omega

theorem map (h : Covers n r p) (f : α → γ) : Covers n (r >>= fun a => pure (f a)) p :=
  h.bind_yields fun a => .pure n (f a)

/-- Two rules in a row. The first one stops where the phrase of the second begins. -/
protected theorem bind {δ : Type} {f : α → Rule γ} {p : Phrase α} {q : α → Phrase δ}
    {clear : Option LexError → List Token → Prop} (hr : Takes n r p clear)
    (hf : ∀ a, Covers m (f a) (q a))
    (hnext : ∀ {us a vs d fault rest}, p us a → q a vs d →
      clear fault (vs ++ rest) ∧ n ≤ m + us.length) :
    Covers n (r >>= f) (followedBy p q) := by
  rintro fault ts ws d ⟨us, a, vs, rfl, hp, hq⟩ hlt
  obtain ⟨hc, hlen⟩ := @hnext us a vs d fault ws hp hq
  rw [List.append_assoc] at hlt ⊢
  simp only [Passes, bind_apply, hr hp hc hlt]
  refine hf a hq ?_
  rw [List.length_append] at hlt
  omega

/-- A mark in front: the rule behind it is one token further from nesting too deep. -/
theorem mark_bind {k : Token.Kind} {u : Token} (hk : k.token? = some u) {f : Unit → Rule α}
    (hf : Covers n (f ()) p) : Covers (n + 1) (mark k >>= f) (after u p) := by
  rintro fault ts ws b ⟨us, rfl, hp⟩ hlt
  have hu : u.kind = k := (Token.kind_eq_iff hk u).2 rfl
  have hmark : mark k fault (u :: us ++ ws) = .fits () (us ++ ws) := by
    simp [mark, Rule.next, hu]
  simp only [Passes, bind_apply, hmark]
  exact hf hp (by simpa using hlt)

/-- An identifier in front. -/
theorem identifier_bind {q : String → Phrase β} {f : String → Rule α}
    (hf : ∀ x, Covers n (f x) (q x)) : Covers (n + 1) (identifier >>= f) (named q) := by
  rintro fault ts ws b ⟨x, us, rfl, hq⟩ hlt
  have hid : identifier fault (.identifier x :: us ++ ws) = .fits x (us ++ ws) := rfl
  simp only [Passes, bind_apply, hid]
  exact hf x hq (by simpa using hlt)

/-- An optional rule covers the phrase where it is present. -/
theorem optional (h : Covers n r p) (default : α) : Covers n (optional r default) p := by
  intro fault us ws b hp hlt
  rcases h hp hlt with ⟨e, hab⟩ | ⟨a, rest, hfits, hrest⟩
  · exact .inl ⟨e, by rw [Rule.optional, hab]⟩
  · exact .inr ⟨a, rest, by rw [Rule.optional, hfits], hrest⟩

/-- Rounds: each but the last one stops where the next begins, and behind the last one there may be
more. -/
theorem many {p : Phrase α} {blocked starts : List Token.Kind} (ht : Takes n r p (Clear blocked))
    (h : Covers n r p) (hy : Yields n (many r))
    (hstart : ∀ {ts a}, p ts a → StartsIn starts ts) (hdisj : ∀ k ∈ starts, k ∉ blocked) :
    Covers n (many r) (Repeated p) := by
  intro fault ts ws as hps hlt
  induction hps with
  | nil => exact hy hlt
  | @cons us vs a as hp hps ih =>
    obtain ⟨t, us, rfl, -⟩ := hstart hp
    rw [List.append_assoc] at hlt ⊢
    have hlen : (t :: us ++ (vs ++ ws)).length = us.length + 1 + (vs ++ ws).length := by
      rw [List.length_append, List.length_cons]
    cases hps with
    | nil =>
      rw [List.nil_append] at hlt hlen ⊢
      rcases h hp hlt with ⟨e, hab⟩ | ⟨a', rest, hfits, hrest⟩
      · exact .inl ⟨e, by rw [Rule.many, hab]⟩
      · have hle := hrest.length_le
        exact .many_cons hfits (by omega) ((hy (by omega)).mono hrest)
    | @cons us' vs' _ _ hp' hps' =>
      have hclear := clear_of_startsIn ((hstart hp').append vs') hdisj fault ws
      exact .many_cons (ht hp hclear hlt) (by omega) (ih (by omega))

theorem rounds {δ : Type} {round : Rule β} {p : Phrase α} {step : Phrase β}
    {blocked starts : List Token.Kind} (ht : Takes n r p (Clear blocked)) (h : Covers n r p)
    (hround : Takes n round step (Clear blocked)) (hround' : Covers n round step)
    (hy : Yields n (Rule.many round)) (hstart : ∀ {ts b}, step ts b → StartsIn starts ts)
    (hdisj : ∀ k ∈ starts, k ∉ blocked) (g : α → List β → δ) :
    Covers n (r >>= fun a => Rule.many round >>= fun bs => pure (g a bs))
      (Phrase.rounds p step g) := by
  have hmany := Covers.many hround hround' hy hstart hdisj
  rintro fault ts ws c ⟨us, a, vs, bs, rfl, hp, hbs, rfl⟩ hlt
  cases hbs with
  | nil =>
    rw [List.append_nil] at hlt ⊢
    exact h.bind_yields (fun a => hy.map (g a)) hp hlt
  | @cons us' vs' _ _ hp' hps' =>
    have hclear := clear_of_startsIn ((hstart hp').append vs') hdisj fault ws
    rw [List.append_assoc] at hlt ⊢
    simp only [Passes, bind_apply, ht hp hclear hlt]
    refine (hmany.map (g a)) (.cons hp' hps') ?_
    rw [List.length_append] at hlt
    omega

end Covers

end Rule

open Rule Phrase

/-! ## Expressions -/

section Expressions

variable {n : Nat} {operand nested : Rule Expr}

theorem covers_separated {α : Type} {r : Rule α} {p : Phrase α} {k : Token.Kind} {u : Token}
    {blocked : List Token.Kind} (hk : k.token? = some u) (h : Covers n r p)
    (hr : Reads n r p) (ht : Takes n r p (Clear blocked)) (hb : k ∉ blocked) :
    Covers n (separated k r) (Separated u p) := by
  have hu : u.kind = k := (Token.kind_eq_iff hk u).2 rfl
  have hcovers := (Covers.mark_bind hk (f := fun _ => r) h).of_le (Nat.le_succ n)
  have hreads := (Reads.mark_bind hk (f := fun _ => r) hr).of_le (Nat.le_succ n)
  have htakes := (Takes.mark_bind hk (f := fun _ => r) ht).of_le (Nat.le_succ n)
  have hstart : ∀ {ts b}, after u p ts b → StartsIn [k] ts := by
    rintro ts b ⟨us, rfl, -⟩
    exact ⟨u, us, rfl, by simp [hu]⟩
  have hrounds := h.rounds ht htakes hcovers (.many hreads) hstart (by simpa using hb) List.cons
  exact hrounds.mono fun hq => ⟨_, separated_iff.1 hq⟩

theorem covers_chain {p : Phrase Expr} {operator? : Token → Option BinaryOperator}
    {operator : Token → BinaryOperator → Prop} {blocked starts : List Token.Kind}
    (hop : ∀ {t op}, operator t op ↔ operator? t = some op) (hne : ∃ t op, operator? t = some op)
    (hstart : ∀ {t : Token}, t.kind ∈ starts ↔ operator? t ≠ none)
    (hdisj : ∀ k ∈ starts, k ∉ blocked) (h : Covers n operand p) (hr : Reads n operand p)
    (ht : Takes n operand p (Clear blocked)) :
    Covers n (Grammar.chain operator? operand) (LeftAssociated operator p) := by
  have hround : Covers n (operatorThen operator? operand) (OperatorThen operator p) := by
    rintro fault ts ws x ⟨t, us, rfl, htop, hp⟩ hlt
    have hnext : next .alternatives operator? fault (t :: us ++ ws) = .fits x.1 (us ++ ws) := by
      simp [next, hop.1 htop]
    simp only [operatorThen, Passes, bind_apply, hnext]
    rw [List.cons_append, List.length_cons] at hlt
    exact h.map (Prod.mk x.1) hp (Nat.lt_of_succ_lt hlt)
  rw [chain_eq]
  have hrounds := h.rounds ht (takes_operatorThen @hop ht) hround
    (.many (reads_operatorThen @hop hne hr)) (OperatorThen.head @hop @hstart) hdisj foldOperators
  exact hrounds.mono fun hq => ⟨_, leftAssociated_iff.1 hq⟩

/-- Whatever follows a call, no more of it is left than that. -/
theorem covers_call {p : Phrase Expr} (hr : Reads n nested p)
    (ht : Takes n nested p (Clear sumBlocked))
    (hno : ∀ {fault ts}, Clear exprStarters fault ts → ts.length < n → Refuses nested fault ts) :
    Covers (n + 1) (Grammar.call nested) (IsCall p) := by
  have hprimary := takes_primary ht (by decide)
  have hprimary' : Takes (n + 1) (Grammar.primary nested) (IsPrimary p) (Clear []) :=
    hprimary.weaken fun _ => trivial
  have harguments := takes_arguments ht hno
  have hrounds := (Covers.of_takes hprimary).rounds hprimary' (harguments.weaken fun _ => trivial)
    (.of_takes harguments) (.many (reads_arguments hr)) Between.head (by decide)
    fun f calls => calls.foldl .apply f
  exact hrounds.mono fun hq => ⟨_, isCall_iff.1 hq⟩

theorem covers_unary (h : Covers n operand IsUnary) (hr : Reads n nested IsExpr)
    (ht : Takes n nested IsExpr (Clear sumBlocked))
    (hno : ∀ {fault ts}, Clear exprStarters fault ts → ts.length < n → Refuses nested fault ts) :
    Covers (n + 1) (Grammar.unary operand nested) IsUnary := by
  rintro fault ts ws e (hneg | hcall) hlt
  · exact Covers.mark_bind rfl (h.map Expr.negate) ⟨_, rfl, hneg⟩ hlt
  · rw [Passes, unary_eq_call ((hcall.head.append ws).head?_ne (by decide))]
    exact covers_call hr ht hno hcall hlt

theorem covers_sum (h : Covers n operand IsUnary) (hr : Reads n operand IsUnary)
    (ht : Takes n operand IsUnary (Clear callBlocked)) :
    Covers n (Grammar.sum operand) IsSum := by
  have hproduct : Covers n (Grammar.chain Grammar.productOperator? operand) IsProduct :=
    covers_chain isProductOperator_iff ⟨.asterisk, .mul, rfl⟩ kind_mem_iff_productOperator?
      (by decide) h hr ht
  exact covers_chain isSumOperator_iff ⟨.plus, .add, rfl⟩ kind_mem_iff_sumOperator? (by decide)
    hproduct (reads_product hr) (takes_product ht)

theorem covers_binding (h : Covers n nested IsExpr) :
    Covers (n + 1) (Grammar.binding nested) IsBinding := by
  have hbound := Covers.identifier_bind fun x =>
    Covers.mark_bind (k := .equals) (f := fun _ => nested >>= fun b => pure (x, b)) rfl
      (h.map (Prod.mk x))
  refine ((Covers.mark_bind rfl hbound).mono ?_).of_le (by omega)
  rintro ts x ⟨us, rfl, hb⟩
  exact ⟨x.2, _, rfl, x.1, _, rfl, us, rfl, hb⟩

theorem covers_inBody (h : Covers n nested IsExpr) :
    Covers (n + 1) (Grammar.inBody nested) (after .inWord IsExpr) :=
  Covers.mark_bind rfl h

theorem covers_expr (h : Covers (n + 1) operand IsUnary) (hr : Reads (n + 1) operand IsUnary)
    (ht : Takes (n + 1) operand IsUnary (Clear callBlocked)) (h' : Covers n nested IsExpr)
    (ht' : Takes n nested IsExpr (Clear sumBlocked)) :
    Covers (n + 1) (Grammar.expr operand nested) IsExpr := by
  rintro fault ts ws e (@⟨us, vs, x, b, e, hb, he⟩ | hs) hlt
  · have hbody : Covers (n + 1)
        (Grammar.binding nested >>= fun y => Grammar.inBody nested >>= fun e =>
          pure (Expr.letIn y.1 y.2 e))
        (followedBy IsBinding fun _ => after .inWord IsExpr) := by
      refine Covers.bind (takes_binding ht')
        (fun y => (covers_inBody h').map (Expr.letIn y.1 y.2)) ?_
      rintro us y vs e fault rest - ⟨vs', rfl, -⟩
      have hin : Token.Kind.inWord ∉ sumBlocked := by decide
      exact ⟨hin, Nat.le_add_right _ _⟩
    exact hbody (b := e) ⟨_ :: _ :: _ :: us, (x, b), .inWord :: vs, rfl, ⟨us, rfl, hb⟩, vs, rfl, he⟩
      hlt
  · rw [Passes, expr_eq_sum (((IsSum.head hs).append ws).head?_ne (by decide))]
    exact covers_sum h hr ht hs hlt

end Expressions

/-- Every level covers its phrases. -/
theorem covers_level (depth : Nat) : Covers depth (Grammar.level depth).unary IsUnary ∧
    Covers depth (Grammar.level depth).expr IsExpr := by
  induction depth with
  | zero => exact ⟨fun _ _ _ _ _ h => absurd h (Nat.not_lt_zero _),
      fun _ _ _ _ _ h => absurd h (Nat.not_lt_zero _)⟩
  | succ depth ih =>
    obtain ⟨hreads, hreads'⟩ := reads_level depth
    obtain ⟨htakes, htakes'⟩ := takes_level depth
    have hunary := covers_unary ih.1 hreads' htakes' refuses_expression
    exact ⟨hunary, covers_expr hunary (reads_unary hreads hreads')
      (takes_unary htakes htakes' refuses_expression) ih.2 htakes'⟩

/-! ## Programs -/

section Programs

variable {n : Nat} {nested : Rule Expr}

theorem covers_definition (h : Covers n nested IsExpr) {x : String} {ps : List String} {e : Expr}
    {us vs ws : List Token} {fault : Option LexError} (hps : IsParams us ps) (he : IsExpr vs e)
    (hlt : (.defWord :: .identifier x :: (us ++ .equals :: vs) ++ ws).length < n) :
    Passes (Grammar.definition nested) fault
      (.defWord :: .identifier x :: (us ++ .equals :: vs) ++ ws) ws := by
  have hbody (x : String) (ps : List String) := Covers.mark_bind (k := .equals)
    (f := fun _ => nested >>= fun e => pure (Stmt.define x ps e)) rfl (h.map (Stmt.define x ps))
  have hparams (x : String) := Covers.bind (takes_params n) (hbody x)
    fun _ _ => ⟨trivial, Nat.le_add_right _ _⟩
  have hall : Covers (n + 3) (Grammar.definition nested)
      (after .defWord (named fun _ => followedBy IsParams fun _ => after .equals IsExpr)) :=
    Covers.mark_bind rfl (Covers.identifier_bind hparams)
  refine hall (b := e) ⟨_, rfl, x, _, rfl, us, ps, _, rfl, hps, vs, rfl, he⟩ ?_
  exact Nat.lt_add_right 3 hlt

/-- A binding is covered, and so is a binding with its body. -/
theorem covers_letStatement (h : Covers n nested IsExpr) (hr : Reads n nested IsExpr)
    (ht : Takes n nested IsExpr (Clear sumBlocked)) :
    Covers n (Grammar.letStatement nested) IsBinding ∧
    Covers n (Grammar.letStatement nested)
      (followedBy IsBinding fun _ => after .inWord IsExpr) := by
  have hyields : Yields n (optional (some <$> Grammar.inBody nested) none) :=
    .optional (((reads_inBody hr).of_le (Nat.le_succ n)).map some) none
  have hbody : Covers n (optional (some <$> Grammar.inBody nested) none) (after .inWord IsExpr) :=
    (((covers_inBody h).of_le (Nat.le_succ n)).map some).optional none
  rw [letStatement_eq]
  constructor
  · exact ((covers_binding h).of_le (Nat.le_succ n)).bind_yields fun x => hyields.map (bindingStmt x)
  · refine Covers.bind ((takes_binding ht).of_le (Nat.le_succ n)) (m := n)
      (fun x => hbody.map (bindingStmt x)) ?_
    rintro us x vs e fault rest - ⟨vs', rfl, -⟩
    have hin : Token.Kind.inWord ∉ sumBlocked := by decide
    exact ⟨hin, Nat.le_add_right _ _⟩

theorem covers_statement (h : Covers n nested IsExpr) (hr : Reads n nested IsExpr)
    (ht : Takes n nested IsExpr (Clear sumBlocked)) :
    Covers n (Grammar.statement nested) IsStmt := by
  obtain ⟨hbinding, hletIn⟩ := covers_letStatement h hr ht
  rintro fault ts ws s (@⟨us, vs, x, ps, e, hps, he⟩ | @⟨us, x, e, he⟩ | @⟨_, _, he⟩) hlt
  · exact covers_definition h hps he hlt
  · exact hbinding (b := (x, e)) ⟨us, rfl, he⟩ hlt
  · cases he with
    | @letIn us vs x b e hb he =>
      exact hletIn (b := e) ⟨_ :: _ :: _ :: us, (x, b), .inWord :: vs, rfl, ⟨us, rfl, hb⟩, vs, rfl,
        he⟩ hlt
    | sum hs =>
      have hhead := (IsSum.head hs).append ws
      rw [Passes, statement_eq_expr (hhead.head?_ne (by decide)) (hhead.head?_ne (by decide))]
      exact h.map Stmt.expr (.sum hs) hlt

theorem covers_statements (h : Covers n nested IsExpr) (hr : Reads n nested IsExpr)
    (ht : Takes n nested IsExpr (Clear sumBlocked)) :
    Covers n (statements nested) (Perhaps (Separated .semicolon IsStmt)) := by
  rintro fault us ws p (_ | hs) hlt
  · exact Yields.optional (reads_separated rfl (reads_statement hr)) [] hlt
  · have hitems : Covers n (separated .semicolon (Grammar.statement nested))
        (Separated .semicolon IsStmt) :=
      covers_separated rfl (covers_statement h hr ht) (reads_statement hr) (takes_statement ht)
        (by decide)
    exact hitems.optional [] hs hlt

/-- What closes a program misfits behind a semicolon, if there is one, at a place that is not the
clean end of the tokens. -/
theorem misfits_closing {fault : Option LexError} {ts rest : List Token} {expected : Expectation}
    {p : Program} (h : closing p fault ts = .misfits rest expected) :
    expected = .endOfText ∧ (rest ≠ [] ∨ fault ≠ none) ∧
      optional (mark .semicolon) () fault ts = .fits () rest := by
  rw [closing, bind_apply] at h
  cases hmark : optional (mark .semicolon) () fault ts with
  | abandoned why => rw [hmark] at h; cases h
  | misfits rest' e => exact absurd ⟨rest', e, hmark⟩ (not_refuses_optional _ _ _ _)
  | fits u rest' =>
    rw [hmark] at h
    cases rest' with
    | nil =>
      cases fault with
      | none => cases h
      | some e => cases h; exact ⟨rfl, .inr (by simp), rfl⟩
    | cons t rest' => cases h; exact ⟨rfl, .inl (by simp), rfl⟩

/-- A program that does not fit misfits behind its statements, where it is closed. -/
theorem misfits_program {fault : Option LexError} {ts rest : List Token} {expected : Expectation}
    (h : Grammar.program nested fault ts = .misfits rest expected) :
    ∃ p between, statements nested fault ts = .fits p between ∧
      closing p fault between = .misfits rest expected := by
  rw [program_eq, bind_apply] at h
  cases hstmts : statements nested fault ts with
  | abandoned why => rw [hstmts] at h; cases h
  | misfits rest' e => exact absurd ⟨rest', e, hstmts⟩ (not_refuses_optional _ _ _ _)
  | fits p between =>
    rw [hstmts] at h
    exact ⟨p, between, rfl, h⟩

/-- **No longer beginning of the tokens is a program** than the one that a program is blamed
behind. -/
theorem length_le_of_misfits {fault : Option LexError} {us ws rest : List Token} {p : Program}
    {expected : Expectation} (hc : Covers n nested IsExpr) (hr : Reads n nested IsExpr)
    (ht : Takes n nested IsExpr (Clear sumBlocked)) (hp : IsProgram us p)
    (hlt : (us ++ ws).length < n)
    (h : Grammar.program nested fault (us ++ ws) = .misfits rest expected) :
    rest.length ≤ ws.length := by
  obtain ⟨q, between, hstmts, hclosing⟩ := misfits_program h
  obtain ⟨-, -, hmark⟩ := misfits_closing hclosing
  have hcovers := covers_statements hc hr ht
  have hsuffix : rest <:+ between := by
    obtain ⟨us, rfl, -⟩ := (Reads.mark n rfl).optional.sound hmark
    exact List.suffix_append _ _
  cases hp with
  | bare hs => exact (hsuffix.trans ((hcovers hs hlt).suffix hstmts)).length_le
  | @closed us _ hs =>
    rw [List.append_assoc, List.singleton_append] at hlt hstmts
    -- Either the statements stop before the semicolon, which is taken then, or they go on.
    rcases List.suffix_cons_iff.1 ((hcovers hs hlt).suffix hstmts) with rfl | hbetween
    · cases hmark
      exact Nat.le_refl _
    · exact (hsuffix.trans hbetween).length_le

end Programs

end Calx
