import Calx.Proofs.Grammar.Depth
import Calx.Proofs.Grammar.Program

/-!
# Where the tokens end

What a rule does at the end of the tokens depends on whether they end there, or cannot be cut
further. A rule that needs one more token abandons the text in the second case, but in the first case
it misfits, and what it was part of may be given up and reading go on in front of it. `Rule.EndsAt`
says that nothing comes of that: where the two runs of a rule differ, the one to the clean end
misfits or leaves what no rule goes on with. So tokens that end do not nest too deep unless they do
so without an end as well (`program_ne_tooDeep`).
-/

namespace Calx

/-- The outcome is a misfit, or it leaves tokens of which `jam` holds. -/
def Outcome.HaltsAt {α : Type} (jam : List Token → Prop) : Outcome α → Prop
  | .fits _ rest => jam rest
  | .misfits _ _ => True
  | .abandoned _ => False

theorem Outcome.HaltsAt.mono {α : Type} {jam jam' : List Token → Prop} {o : Outcome α}
    (h : o.HaltsAt jam) (hjam : ∀ {ts}, jam ts → jam' ts) : o.HaltsAt jam' := by
  cases o with
  | fits a rest => exact hjam h
  | misfits => trivial
  | abandoned => exact h

namespace Rule

variable {α β : Type}

/-- Nothing is left, or what starts with a token of one of the kinds. -/
def Before (kinds : List Token.Kind) (ts : List Token) : Prop :=
  ∀ t ∈ ts.head?, t.kind ∈ kinds

/-- No tokens are left so. -/
def Never (_ : List Token) : Prop := False

theorem Before.mono {kinds more : List Token.Kind} {ts : List Token} (h : Before kinds ts)
    (hsub : kinds ⊆ more) : Before more ts :=
  fun t ht => hsub (h t ht)

theorem Before.clear {kinds blocked : List Token.Kind} {ts : List Token} (h : Before kinds ts)
    (hdisj : ∀ k ∈ kinds, k ∉ blocked) : Clear blocked none ts := by
  cases ts with
  | nil => rfl
  | cons t ts => exact hdisj _ (h t rfl)

/-- A mark does not fit before tokens of other kinds. -/
theorem Before.refuses_mark {kinds : List Token.Kind} {ts : List Token} (h : Before kinds ts)
    {k : Token.Kind} (hk : k ∉ kinds) : Refuses (mark k) none ts := by
  refine Rule.refuses_mark (h.clear fun k' hk' heq => ?_)
  rw [List.mem_singleton.1 heq] at hk'
  exact hk hk'

theorem Refuses.haltsAt {r : Rule α} {ts : List Token} (h : Refuses r none ts)
    (jam : List Token → Prop) : (r none ts).HaltsAt jam := by
  obtain ⟨rest, e, hr⟩ := h
  rw [hr]
  trivial

/-! ## Rules that start with certain tokens -/

/-- The rule fits only where there is a token of one of the kinds, and it does not look further
where there is another one. -/
def Guarded (kinds : List Token.Kind) (r : Rule α) : Prop :=
  ∀ ⦃t ts⦄, t.kind ∉ kinds →
    (∀ fault, Refuses r fault (t :: ts)) ∨ ∀ fault, r fault (t :: ts) = .abandoned .tooDeep

namespace Guarded

variable {kinds : List Token.Kind} {r : Rule α}

theorem of_refuses
    (h : ∀ {fault ts}, Clear kinds fault ts → Refuses r fault ts) : Guarded kinds r :=
  fun _ _ ht => .inl fun _ => h ht

theorem mark (k : Token.Kind) : Guarded [k] (mark k) :=
  of_refuses refuses_mark

protected theorem bind (h : Guarded kinds r) (f : α → Rule β) : Guarded kinds (r >>= f) := by
  intro t ts ht
  rcases h ht with hno | hdeep
  · exact .inl fun fault => (hno fault).bind f
  · exact .inr fun fault => by rw [bind_apply, hdeep fault]

/-- Where a guarded rule does not fit before the clean end, it misfits before every end, or one of
the kinds is there. -/
theorem before_or_refuses (h : Guarded kinds r) {ts : List Token} (hr : Refuses r none ts) :
    Before kinds ts ∨ ∀ fault, Refuses r fault ts := by
  cases ts with
  | nil => exact .inl fun t ht => by cases ht
  | cons t ts =>
    by_cases ht : t.kind ∈ kinds
    · exact .inl fun u hu => by cases hu; exact ht
    · refine .inr ((h ht).resolve_right fun hdeep => ?_)
      obtain ⟨rest, e, hr⟩ := hr
      rw [hdeep none] at hr
      cases hr

end Guarded

/-! ## Two runs -/

/-- The run of the rule to the clean end of the tokens is the one to where no token can be cut, or it
ends in a misfit, or it leaves tokens of which `jam` holds. -/
def EndsAt (jam : List Token → Prop) (r : Rule α) : Prop :=
  ∀ e ts, r none ts = r (some e) ts ∨ (r none ts).HaltsAt jam

namespace EndsAt

variable {jam jam' : List Token → Prop} {r : Rule α}

theorem mono (h : EndsAt jam r) (hjam : ∀ {ts}, jam ts → jam' ts) : EndsAt jam' r :=
  fun e ts => (h e ts).imp_right fun hhalts => hhalts.mono hjam

protected theorem pure (a : α) (jam : List Token → Prop) : EndsAt jam (pure a) :=
  fun _ _ => .inl rfl

theorem tooDeep (jam : List Token → Prop) : EndsAt jam (tooDeep : Rule α) :=
  fun _ _ => .inl rfl

theorem next (expected : Expectation) (pick : Token → Option α) (jam : List Token → Prop) :
    EndsAt jam (Rule.next expected pick) := by
  intro e ts
  cases ts with
  | nil => exact .inr trivial
  | cons t ts => exact .inl rfl

/-- Two rules in a row. The second one has to halt where the first one leaves a jam. -/
protected theorem bind {f : α → Rule β} (h : EndsAt jam r) (hf : ∀ a, EndsAt jam' (f a))
    (hjam : ∀ a {ts}, jam ts → (f a none ts).HaltsAt jam') : EndsAt jam' (r >>= f) := by
  intro e ts
  simp only [bind_apply]
  rcases h e ts with heq | hhalts
  · rw [← heq]
    cases r none ts with
    | fits a rest => exact hf a e rest
    | misfits | abandoned => exact .inl rfl
  · right
    cases hr : r none ts with
    | fits a rest => rw [hr] at hhalts; exact hjam a hhalts
    | misfits => trivial
    | abandoned => rw [hr] at hhalts; exact hhalts

/-- A rule that leaves no jam, and another one behind it. -/
theorem andThen {f : α → Rule β} (h : EndsAt Never r) (hf : ∀ a, EndsAt jam (f a)) :
    EndsAt jam (r >>= f) :=
  h.bind hf fun _ _ hnever => hnever.elim

theorem map (h : EndsAt jam r) (f : α → β) : EndsAt jam (r >>= fun a => pure (f a)) :=
  h.bind (fun a => .pure (f a) jam) fun _ _ hts => hts

theorem onNext {choose : Option Token → Rule α} (h : ∀ t, EndsAt jam (choose t)) :
    EndsAt jam (onNext choose) :=
  fun e ts => h ts.head? e ts

/-- An optional rule is given up in front of a token that it starts with. -/
theorem optional {starts : List Token.Kind} (h : EndsAt jam r) (hg : Guarded starts r)
    (hstarts : ∀ {ts}, Before starts ts → jam ts) (default : α) :
    EndsAt jam (optional r default) := by
  intro e ts
  rcases h e ts with heq | hhalts
  · exact .inl (by rw [Rule.optional, Rule.optional, heq])
  cases hr : r none ts with
  | fits a rest =>
    rw [hr] at hhalts
    rw [Rule.optional, hr]
    exact .inr hhalts
  | abandoned => rw [hr] at hhalts; exact hhalts.elim
  | misfits rest expected =>
    have hrefuses : Refuses r none ts := ⟨rest, expected, hr⟩
    rw [hrefuses.optional_eq]
    exact (hg.before_or_refuses hrefuses).symm.imp (fun hno => ((hno (some e)).optional_eq _).symm)
      hstarts

/-- Rounds are given up in front of a token that a round starts with, or in front of what the last
one leaves, where no further round fits. -/
theorem many {starts : List Token.Kind} (h : EndsAt jam r) (hg : Guarded starts r)
    (hno : ∀ {ts}, jam ts → Refuses r none ts) (hjam : ∀ {ts}, jam ts → jam' ts)
    (hstarts : ∀ {ts}, Before starts ts → jam' ts) : EndsAt jam' (many r) := by
  intro e ts
  -- The rounds left have fewer tokens.
  induction hn : ts.length using Nat.strongRecOn generalizing ts with
  | ind n ih =>
  subst hn
  rcases h e ts with heq | hhalts
  · rw [Rule.many, Rule.many, ← heq]
    cases r none ts with
    | misfits | abandoned => exact .inl rfl
    | fits a rest =>
      by_cases hlt : rest.length < ts.length
      · simp only [if_pos hlt]
        rcases ih _ hlt rest rfl with heq' | hhalts'
        · exact .inl (by rw [heq'])
        · right
          cases hmany : Rule.many r none rest with
          | fits as rest' => rw [hmany] at hhalts'; exact hhalts'
          | misfits => trivial
          | abandoned => rw [hmany] at hhalts'; exact hhalts'
      · exact .inl (by simp only [if_neg hlt])
  · cases hr : r none ts with
    | abandoned => rw [hr] at hhalts; exact hhalts.elim
    | misfits rest expected =>
      have hrefuses : Refuses r none ts := ⟨rest, expected, hr⟩
      rw [hrefuses.many_eq]
      exact (hg.before_or_refuses hrefuses).symm.imp (fun hno => (hno (some e)).many_eq.symm) hstarts
    | fits a rest =>
      rw [hr] at hhalts
      rw [Rule.many, hr]
      simp only [(hno hhalts).many_eq]
      right
      split <;> exact hjam hhalts

theorem rounds {γ : Type} {round : Rule β} {starts : List Token.Kind} (h : EndsAt jam r)
    (hround : EndsAt jam round) (hg : Guarded starts round)
    (hno : ∀ {ts}, jam ts → Refuses round none ts) (hjam : ∀ {ts}, jam ts → jam' ts)
    (hstarts : ∀ {ts}, Before starts ts → jam' ts) (g : α → List β → γ) :
    EndsAt jam' (r >>= fun a => Rule.many round >>= fun bs => pure (g a bs)) := by
  refine h.bind (fun a => (hround.many hg hno hjam hstarts).map (g a)) fun a ts hts => ?_
  rw [bind_apply, (hno hts).many_eq]
  exact hjam hts

end EndsAt

end Rule

open Rule

/-! ## Expressions -/

section Shapes

variable {α : Type} {r : Rule α} {kinds : List Token.Kind}

theorem endsAt_mark (k : Token.Kind) (jam : List Token → Prop) : EndsAt jam (mark k) :=
  .next _ _ jam

theorem endsAt_parenthesized (h : EndsAt (Before kinds) r) (hk : .closeParen ∉ kinds) :
    EndsAt Never (parenthesized r) := by
  refine (endsAt_mark _ Never).andThen fun _ => h.bind (fun a => ?_) fun a ts hts => ?_
  · exact (endsAt_mark _ Never).map fun _ => a
  · exact ((hts.refuses_mark hk).bind _).haltsAt _

theorem endsAt_separated {k : Token.Kind} (h : EndsAt (Before kinds) r) (hk : k ∉ kinds) :
    EndsAt (Before (k :: kinds)) (separated k r) :=
  h.rounds ((endsAt_mark k Never).andThen fun _ => h) ((Guarded.mark k).bind _)
    (fun hts => (hts.refuses_mark hk).bind _) (fun hts => hts.mono (List.subset_cons_self _ _))
    (fun hts => hts.mono (by simp)) List.cons

/-- Items with commas between them, in parentheses. -/
theorem endsAt_list {starts : List Token.Kind} (h : EndsAt (Before kinds) r)
    (hg : Guarded starts r) (hcomma : .comma ∉ kinds)
    (hclose : .closeParen ∉ starts ++ .comma :: kinds) :
    EndsAt Never (parenthesized (optional (separated .comma r) [])) := by
  have hitems : EndsAt (Before (starts ++ .comma :: kinds)) (separated .comma r) :=
    (endsAt_separated h hcomma).mono fun hts => hts.mono (List.subset_append_right _ _)
  have hlist := hitems.optional (hg.bind _) (fun hts => hts.mono (List.subset_append_left _ _)) []
  exact endsAt_parenthesized hlist hclose

end Shapes

section Levels

variable {operand nested : Rule Expr}

theorem endsAt_call (h : EndsAt (Before sumBlocked) nested) (hg : Guarded exprStarters nested) :
    EndsAt (Before callBlocked) (Grammar.call nested) := by
  have hprimary : EndsAt Never (Grammar.primary nested) := by
    refine EndsAt.onNext fun t => ?_
    split
    · exact endsAt_parenthesized h (by decide)
    · exact .next _ _ Never
  have harguments : EndsAt Never (Grammar.arguments nested) :=
    endsAt_list h hg (by decide) (by decide)
  exact hprimary.rounds harguments ((Guarded.mark _).bind _) (fun hts => hts.elim)
    (fun hts => hts.elim) id _

theorem endsAt_unary (h : EndsAt (Before callBlocked) operand)
    (h' : EndsAt (Before sumBlocked) nested) (hg : Guarded exprStarters nested) :
    EndsAt (Before callBlocked) (Grammar.unary operand nested) := by
  refine EndsAt.onNext fun t => ?_
  split
  · exact (endsAt_mark _ Never).andThen fun _ => h.map Expr.negate
  · exact endsAt_call h' hg

theorem endsAt_chain {operator? : Token → Option BinaryOperator}
    {starts blocked : List Token.Kind}
    (hstart : ∀ {t : Token}, t.kind ∈ starts ↔ operator? t ≠ none)
    (hdisj : ∀ k ∈ blocked, k ∉ starts) (h : EndsAt (Before blocked) operand) :
    EndsAt (Before (starts ++ blocked)) (Grammar.chain operator? operand) := by
  have hno {fault : Option LexError} {ts : List Token} (hc : Clear starts fault ts) :
      Refuses (operatorThen operator? operand) fault ts :=
    (refuses_next hc fun t ht => Classical.not_not.1 (mt hstart.2 ht)).bind _
  have hround : EndsAt (Before blocked) (operatorThen operator? operand) :=
    (EndsAt.next _ _ Never).andThen fun op => h.map (Prod.mk op)
  rw [chain_eq]
  exact h.rounds hround (.of_refuses hno) (fun hts => hno (hts.clear hdisj))
    (fun hts => hts.mono (List.subset_append_right _ _))
    (fun hts => hts.mono (List.subset_append_left _ _)) foldOperators

theorem endsAt_sum (h : EndsAt (Before callBlocked) operand) :
    EndsAt (Before sumBlocked) (Grammar.sum operand) := by
  have hproduct : EndsAt (Before productBlocked) (Grammar.chain Grammar.productOperator? operand) :=
    endsAt_chain kind_mem_iff_productOperator? (by decide) h
  exact endsAt_chain kind_mem_iff_sumOperator? (by decide) hproduct

theorem endsAt_binding (h : EndsAt (Before sumBlocked) nested) :
    EndsAt (Before sumBlocked) (Grammar.binding nested) :=
  (endsAt_mark _ Never).andThen fun _ => (EndsAt.next _ _ Never).andThen fun x =>
    (endsAt_mark _ Never).andThen fun _ => h.map (Prod.mk x)

theorem endsAt_inBody (h : EndsAt (Before sumBlocked) nested) :
    EndsAt (Before sumBlocked) (Grammar.inBody nested) :=
  (endsAt_mark _ Never).andThen fun _ => h

theorem endsAt_expr (h : EndsAt (Before callBlocked) operand)
    (h' : EndsAt (Before sumBlocked) nested) :
    EndsAt (Before sumBlocked) (Grammar.expr operand nested) := by
  refine EndsAt.onNext fun t => ?_
  split
  · refine (endsAt_binding h').bind (fun x => (endsAt_inBody h').map _) fun x ts hts => ?_
    have hin : Refuses (mark .inWord) none ts := hts.refuses_mark (by decide)
    exact ((hin.bind _).bind _).haltsAt _
  · exact endsAt_sum h

end Levels

theorem guarded_expression (depth : Nat) : Guarded exprStarters (Grammar.expression depth) := by
  cases depth with
  | zero => exact fun _ _ _ => .inr fun _ => rfl
  | succ depth => exact .of_refuses (refuses_expr refuses_unary)

theorem endsAt_level (depth : Nat) : EndsAt (Before callBlocked) (Grammar.level depth).unary ∧
    EndsAt (Before sumBlocked) (Grammar.level depth).expr := by
  induction depth with
  | zero => exact ⟨.tooDeep _, .tooDeep _⟩
  | succ depth ih =>
    have hunary := endsAt_unary ih.1 ih.2 (guarded_expression depth)
    exact ⟨hunary, endsAt_expr hunary ih.2⟩

/-! ## Programs -/

section Programs

variable {nested : Rule Expr}

theorem endsAt_definition (h : EndsAt (Before sumBlocked) nested) :
    EndsAt (Before sumBlocked) (Grammar.definition nested) := by
  have hname : EndsAt (Before []) identifier := .next _ _ _
  have hparams : EndsAt Never Grammar.params :=
    endsAt_list hname (.of_refuses refuses_identifier) (by decide) (by decide)
  exact (endsAt_mark _ Never).andThen fun _ => (EndsAt.next _ _ Never).andThen fun x =>
    hparams.andThen fun ps => (endsAt_mark _ Never).andThen fun _ => h.map (Stmt.define x ps)

theorem endsAt_letStatement (h : EndsAt (Before sumBlocked) nested) :
    EndsAt (Before stmtBlocked) (Grammar.letStatement nested) := by
  have hsub : sumBlocked ⊆ stmtBlocked := List.subset_cons_self _ _
  have hbody : EndsAt (Before stmtBlocked) (optional (some <$> Grammar.inBody nested) none) :=
    (((endsAt_inBody h).map some).mono fun hts => hts.mono hsub).optional
      (((Guarded.mark .inWord).bind _).bind _) (fun hts => hts.mono (by decide)) none
  rw [letStatement_eq]
  refine (endsAt_binding h).bind (fun x => hbody.map (bindingStmt x)) fun x ts hts => ?_
  -- No body follows the jam that the bound expression leaves.
  have hin : Refuses (mark .inWord) none ts := hts.refuses_mark (by decide)
  have hbody : Refuses (some <$> Grammar.inBody nested) none ts := (hin.bind _).bind _
  rw [bind_apply, hbody.optional_eq]
  exact hts.mono hsub

theorem endsAt_statement (h : EndsAt (Before sumBlocked) nested) :
    EndsAt (Before stmtBlocked) (Grammar.statement nested) := by
  have hsub : sumBlocked ⊆ stmtBlocked := List.subset_cons_self _ _
  refine EndsAt.onNext fun t => ?_
  split
  · exact (endsAt_definition h).mono fun hts => hts.mono hsub
  · exact endsAt_letStatement h
  · exact (h.map Stmt.expr).mono fun hts => hts.mono hsub

/-- Tokens that end do not nest too deep, unless they do so without an end. -/
theorem program_ne_tooDeep (h : EndsAt (Before sumBlocked) nested) {e : LexError}
    {ts : List Token} (hne : Grammar.program nested (some e) ts ≠ .abandoned .tooDeep) :
    Grammar.program nested none ts ≠ .abandoned .tooDeep := by
  have hclosing (p : Program) (rest : List Token) : closing p none rest ≠ .abandoned .tooDeep :=
    (reads_closing (rest.length + 1) p).shallow (Nat.lt_succ_self _)
  have hitems : EndsAt (Before (.semicolon :: stmtBlocked)) _ :=
    endsAt_separated (k := .semicolon) (endsAt_statement h) (by decide)
  rw [program_eq, bind_apply, statements, Rule.optional] at hne ⊢
  have hitems_ne : separated .semicolon (Grammar.statement nested) none ts ≠
      .abandoned .tooDeep := by
    intro hdeep
    rcases hitems e ts with heq | hhalts
    · rw [← heq, hdeep] at hne
      exact hne rfl
    · rw [hdeep] at hhalts
      exact hhalts
  cases hr : separated .semicolon (Grammar.statement nested) none ts with
  | fits p rest => exact hclosing p rest
  | misfits rest expected => exact hclosing [] ts
  | abandoned why =>
    rw [hr] at hitems_ne
    intro hdeep
    cases hdeep
    exact hitems_ne rfl

end Programs

end Calx
