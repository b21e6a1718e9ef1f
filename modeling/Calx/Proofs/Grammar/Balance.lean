import Calx.Proofs.Grammar.Phrase

/-!
# Balanced parentheses

Every closing parenthesis of a program closes one that is open, and none is left open
(`IsProgram.balanced`), since every phrase puts its parentheses around a phrase. So tokens that are a
program do not go on to be one with a closing parenthesis (`Balanced.not_closeParen`).
-/

namespace Calx

/-- Every closing parenthesis closes one that is open, and none is left open. -/
structure Balanced (ts : List Token) : Prop where
  /-- As many parentheses are closed as are opened. -/
  count_eq : ts.count .closeParen = ts.count .openParen
  /-- Up to no place are more of them closed than opened. -/
  take_le : ∀ n, (ts.take n).count .closeParen ≤ (ts.take n).count .openParen

namespace Balanced

variable {ts us : List Token}

theorem nil : Balanced [] := ⟨rfl, fun n => by simp⟩

theorem append (h : Balanced ts) (h' : Balanced us) : Balanced (ts ++ us) where
  count_eq := by rw [List.count_append, List.count_append, h.count_eq, h'.count_eq]
  take_le n := by
    rw [List.take_append, List.count_append, List.count_append]
    exact Nat.add_le_add (h.take_le n) (h'.take_le (n - ts.length))

/-- A token that is no parenthesis. -/
theorem single {t : Token} (hopen : t ≠ .openParen) (hclose : t ≠ .closeParen) : Balanced [t] where
  count_eq := by simp [hopen, hclose]
  take_le n := by cases n <;> simp [hclose]

theorem cons {t : Token} (hopen : t ≠ .openParen) (hclose : t ≠ .closeParen) (h : Balanced ts) :
    Balanced (t :: ts) :=
  (single hopen hclose).append h

theorem parenthesized (h : Balanced ts) : Balanced (.openParen :: (ts ++ [.closeParen])) where
  count_eq := by simp [h.count_eq]
  take_le n := by
    cases n with
    | zero => simp
    | succ n =>
      have hinner := h.take_le n
      -- The parenthesis in front makes up for the one behind.
      have hlast : ([Token.closeParen].take (n - ts.length)).count .closeParen ≤ 1 :=
        Nat.le_trans List.count_le_length (List.length_take_le' ..)
      simp only [List.take_succ_cons, List.take_append, List.count_cons, List.count_append,
        beq_self_eq_true, if_true]
      grind

/-- A parenthesis that is closed behind balanced tokens was not opened. -/
theorem not_closeParen (h : Balanced ts) (us : List Token) :
    ¬Balanced (ts ++ .closeParen :: us) := by
  intro hall
  have hle := hall.take_le (ts.length + 1)
  have htake : (Token.closeParen :: us).take 1 = [.closeParen] := rfl
  have hclose : [Token.closeParen].count .closeParen = 1 := rfl
  have hopen : [Token.closeParen].count .openParen = 0 := rfl
  rw [List.take_length_add_append, List.count_append, List.count_append, h.count_eq, htake, hclose,
    hopen] at hle
  omega

end Balanced

/-! ## Expressions -/

theorem IsSumOperator.balanced {t : Token} {op : BinaryOperator} (h : IsSumOperator t op) :
    Balanced [t] := by
  cases h <;> exact .single nofun nofun

theorem IsProductOperator.balanced {t : Token} {op : BinaryOperator} (h : IsProductOperator t op) :
    Balanced [t] := by
  cases h <;> exact .single nofun nofun

theorem Separated.balanced {α : Type} {mark : Token} {item : Phrase α} {ts : List Token}
    {as : List α} (h : Separated mark item ts as) (hmark : Balanced [mark])
    (hitem : ∀ {ts a}, item ts a → Balanced ts) : Balanced ts := by
  induction h with
  | one h => exact hitem h
  | more h _ ih => exact (hitem h).append (hmark.append ih)

mutual

theorem balanced_of_isUnary : ∀ {e : Expr} {ts : List Token}, IsUnary ts e → Balanced ts
  | _, _, .negate h => .cons nofun nofun (balanced_of_isUnary h)
  | _, _, .call h => balanced_of_isCall h

theorem balanced_of_isCall : ∀ {e : Expr} {ts : List Token}, IsCall IsExpr ts e → Balanced ts
  | _, _, .primary (.number _) => .single nofun nofun
  | _, _, .primary (.string _) => .single nofun nofun
  | _, _, .primary (.identifier _) => .single nofun nofun
  | _, _, .primary (.parenthesized (.intro h)) => (balanced_of_isExpr h).parenthesized
  | _, _, .apply hf (.intro h) =>
    (balanced_of_isCall hf).append (balanced_of_perhaps h).parenthesized

theorem balanced_of_perhaps : ∀ {es : List Expr} {ts : List Token},
    Perhaps (Separated .comma IsExpr) ts es → Balanced ts
  | _, _, .absent => .nil
  | _, _, .present h => balanced_of_separated h

theorem balanced_of_separated : ∀ {es : List Expr} {ts : List Token},
    Separated .comma IsExpr ts es → Balanced ts
  | _, _, .one h => balanced_of_isExpr h
  | _, _, .more h hs =>
    (balanced_of_isExpr h).append (.cons nofun nofun (balanced_of_separated hs))

theorem balanced_of_isProduct : ∀ {e : Expr} {ts : List Token}, IsProduct ts e → Balanced ts
  | _, _, .operand h => balanced_of_isUnary h
  | _, _, .binary hl hop hr =>
    (balanced_of_isProduct hl).append (hop.balanced.append (balanced_of_isUnary hr))

theorem balanced_of_isSum : ∀ {e : Expr} {ts : List Token}, IsSum ts e → Balanced ts
  | _, _, .operand h => balanced_of_isProduct h
  | _, _, .binary hl hop hr =>
    (balanced_of_isSum hl).append (hop.balanced.append (balanced_of_isProduct hr))

theorem balanced_of_isExpr : ∀ {e : Expr} {ts : List Token}, IsExpr ts e → Balanced ts
  | _, _, .letIn hb he =>
    .cons nofun nofun (.cons nofun nofun (.cons nofun nofun
      ((balanced_of_isExpr hb).append (.cons nofun nofun (balanced_of_isExpr he)))))
  | _, _, .sum h => balanced_of_isSum h

end

/-! ## Programs -/

theorem balanced_of_params {ts : List Token} {ps : List String}
    (h : Between (Perhaps (Separated .comma IsIdentifier)) ts ps) : Balanced ts := by
  obtain ⟨hps⟩ := h
  cases hps with
  | absent => exact Balanced.nil.parenthesized
  | present hps =>
    have hname : ∀ {ts n}, IsIdentifier ts n → Balanced ts := by
      rintro _ _ ⟨n⟩
      exact .single nofun nofun
    exact (hps.balanced (.single nofun nofun) hname).parenthesized

theorem IsStmt.balanced {ts : List Token} {s : Stmt} (h : IsStmt ts s) : Balanced ts := by
  cases h with
  | define hps he =>
    exact .cons nofun nofun (.cons nofun nofun
      ((balanced_of_params hps).append (.cons nofun nofun (balanced_of_isExpr he))))
  | bind he =>
    exact .cons nofun nofun (.cons nofun nofun (.cons nofun nofun (balanced_of_isExpr he)))
  | expr he => exact balanced_of_isExpr he

/-- **The parentheses of a program are balanced.** -/
theorem IsProgram.balanced {ts : List Token} {p : Program} (h : IsProgram ts p) : Balanced ts := by
  have hstmts {ts : List Token} {p : Program} (h : Perhaps (Separated .semicolon IsStmt) ts p) :
      Balanced ts := by
    cases h with
    | absent => exact .nil
    | present h => exact h.balanced (.single nofun nofun) IsStmt.balanced
  cases h with
  | bare h => exact hstmts h
  | closed h => exact (hstmts h).append (.single nofun nofun)

end Calx
