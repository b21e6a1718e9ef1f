import Calx.Program.Basic
import Calx.Token.Basic

/-!
# Phrases

The language as a context-free grammar over tokens, apart from any way to read it. A `Phrase` is a
nonterminal: which token sequences belong to it, and what each of them stands for.

    program  := [stmt (";" stmt)*] [";"]
    stmt     := "def" IDENT "(" [IDENT ("," IDENT)*] ")" "=" expr
              | "let" IDENT "=" expr
              | expr
    expr     := "let" IDENT "=" expr "in" expr | sum
    sum      := product | sum ("+" | "-") product
    product  := unary | product ("*" | "/") unary
    unary    := "-" unary | call
    call     := primary | call "(" [expr ("," expr)*] ")"
    primary  := NUMBER | STRING | IDENT | "(" expr ")"

The phrases with one part left open (`Between`, `Separated`, `Perhaps`, `LeftAssociated`) are the
shapes of which the others are made. No phrase but a program is empty, and the first token of an
expression is one of seven kinds (`IsExpr.head`).
-/

namespace Calx

/-- A nonterminal: the token sequences that belong to it, each with what it stands for. -/
abbrev Phrase (α : Type) : Type :=
  List Token → α → Prop

/-! ## Shapes -/

section Shapes

variable {α : Type}

/-- `inner` between parentheses. -/
inductive Between (inner : Phrase α) : Phrase α where
  | intro {ts : List Token} {a : α} : inner ts a →
      Between inner (.openParen :: (ts ++ [.closeParen])) a

/-- One or more items with the mark between two of them. -/
inductive Separated (mark : Token) (item : Phrase α) : Phrase (List α) where
  | one {ts : List Token} {a : α} : item ts a → Separated mark item ts [a]
  | more {ts us : List Token} {a : α} {as : List α} : item ts a → Separated mark item us as →
      Separated mark item (ts ++ mark :: us) (a :: as)

/-- Some items, or nothing. -/
inductive Perhaps (items : Phrase (List α)) : Phrase (List α) where
  | absent : Perhaps items [] []
  | present {ts : List Token} {as : List α} : items ts as → Perhaps items ts as

/-- Operands with operators between them, grouped from the left. -/
inductive LeftAssociated (operator : Token → BinaryOperator → Prop) (operand : Phrase Expr) :
    Phrase Expr where
  | operand {ts : List Token} {e : Expr} : operand ts e → LeftAssociated operator operand ts e
  | binary {ts us : List Token} {t : Token} {op : BinaryOperator} {l r : Expr} :
      LeftAssociated operator operand ts l → operator t op → operand us r →
      LeftAssociated operator operand (ts ++ t :: us) (.binary op l r)

end Shapes

/-! ## Expressions -/

/-- An identifier, which stands for its name. -/
inductive IsIdentifier : Phrase String where
  | intro (n : String) : IsIdentifier [.identifier n] n

/-- The operators of a sum. -/
inductive IsSumOperator : Token → BinaryOperator → Prop where
  | add : IsSumOperator .plus .add
  | sub : IsSumOperator .minus .sub

/-- The operators of a product. -/
inductive IsProductOperator : Token → BinaryOperator → Prop where
  | mul : IsProductOperator .asterisk .mul
  | div : IsProductOperator .slash .div

/-- A primary expression, where `nested` is an expression. -/
inductive IsPrimary (nested : Phrase Expr) : Phrase Expr where
  | number (x : Float) : IsPrimary nested [.number x] (.number x)
  | string (s : String) : IsPrimary nested [.string s] (.text s)
  | identifier (n : String) : IsPrimary nested [.identifier n] (.var n)
  | parenthesized {ts : List Token} {e : Expr} : Between nested ts e → IsPrimary nested ts e

/-- A primary expression and any number of calls behind it, where `nested` is an expression. -/
inductive IsCall (nested : Phrase Expr) : Phrase Expr where
  | primary {ts : List Token} {e : Expr} : IsPrimary nested ts e → IsCall nested ts e
  | apply {ts us : List Token} {f : Expr} {args : List Expr} : IsCall nested ts f →
      Between (Perhaps (Separated .comma nested)) us args → IsCall nested (ts ++ us) (.apply f args)

mutual

/-- A negation or a call. -/
inductive IsUnary : Phrase Expr where
  | negate {ts : List Token} {e : Expr} : IsUnary ts e → IsUnary (.minus :: ts) (.negate e)
  | call {ts : List Token} {e : Expr} : IsCall IsExpr ts e → IsUnary ts e

/-- An expression: a binding with its body, or a sum. -/
inductive IsExpr : Phrase Expr where
  | letIn {ts us : List Token} {n : String} {b e : Expr} : IsExpr ts b → IsExpr us e →
      IsExpr (.letWord :: .identifier n :: .equals :: (ts ++ .inWord :: us)) (.letIn n b e)
  | sum {ts : List Token} {e : Expr} :
      LeftAssociated IsSumOperator (LeftAssociated IsProductOperator IsUnary) ts e → IsExpr ts e

end

/-- A product of unary expressions. -/
abbrev IsProduct : Phrase Expr := LeftAssociated IsProductOperator IsUnary

/-- A sum of products. -/
abbrev IsSum : Phrase Expr := LeftAssociated IsSumOperator IsProduct

/-! ## Programs -/

/-- A statement. -/
inductive IsStmt : Phrase Stmt where
  | define {ts us : List Token} {n : String} {ps : List String} {e : Expr} :
      Between (Perhaps (Separated .comma IsIdentifier)) ts ps → IsExpr us e →
      IsStmt (.defWord :: .identifier n :: (ts ++ .equals :: us)) (.define n ps e)
  | bind {ts : List Token} {n : String} {e : Expr} : IsExpr ts e →
      IsStmt (.letWord :: .identifier n :: .equals :: ts) (.bind n e)
  | expr {ts : List Token} {e : Expr} : IsExpr ts e → IsStmt ts (.expr e)

/-- A program: statements with semicolons between them, and perhaps one more semicolon. -/
inductive IsProgram : Phrase Program where
  | bare {ts : List Token} {p : Program} : Perhaps (Separated .semicolon IsStmt) ts p →
      IsProgram ts p
  | closed {ts : List Token} {p : Program} : Perhaps (Separated .semicolon IsStmt) ts p →
      IsProgram (ts ++ [.semicolon]) p

/-! ## First tokens -/

/-- The kinds of token that a call can start with. -/
def callStarters : List Token.Kind :=
  [.number, .string, .identifier, .openParen]

/-- The kinds of token that a sum can start with. -/
def sumStarters : List Token.Kind :=
  .minus :: callStarters

/-- The kinds of token that an expression can start with. -/
def exprStarters : List Token.Kind :=
  .letWord :: sumStarters

/-- The tokens start with one whose kind is among `kinds`. -/
def StartsIn (kinds : List Token.Kind) (ts : List Token) : Prop :=
  ∃ t us, ts = t :: us ∧ t.kind ∈ kinds

theorem StartsIn.append {kinds : List Token.Kind} {ts : List Token} (h : StartsIn kinds ts)
    (us : List Token) : StartsIn kinds (ts ++ us) := by
  obtain ⟨t, rest, rfl, ht⟩ := h
  exact ⟨t, rest ++ us, rfl, ht⟩

theorem StartsIn.mono {kinds more : List Token.Kind} {ts : List Token} (h : StartsIn kinds ts)
    (hsub : kinds ⊆ more) : StartsIn more ts := by
  obtain ⟨t, us, rfl, ht⟩ := h
  exact ⟨t, us, rfl, hsub ht⟩

theorem StartsIn.head?_ne {kinds : List Token.Kind} {ts : List Token} {t : Token}
    (h : StartsIn kinds ts) (ht : t.kind ∉ kinds) : ts.head? ≠ some t := by
  obtain ⟨u, us, rfl, hu⟩ := h
  rintro ⟨⟩
  exact ht hu

theorem Between.head {α : Type} {inner : Phrase α} {ts : List Token} {a : α}
    (h : Between inner ts a) : StartsIn [.openParen] ts := by
  obtain ⟨_⟩ := h
  exact ⟨_, _, rfl, by decide⟩

theorem IsPrimary.head {nested : Phrase Expr} {ts : List Token} {e : Expr}
    (h : IsPrimary nested ts e) : StartsIn callStarters ts := by
  cases h with
  | number | string | identifier => exact ⟨_, _, rfl, by simp [callStarters, Token.kind]⟩
  | parenthesized hb => exact hb.head.mono (by decide)

theorem IsCall.head {nested : Phrase Expr} {ts : List Token} {e : Expr}
    (h : IsCall nested ts e) : StartsIn callStarters ts := by
  induction h with
  | primary hp => exact hp.head
  | apply _ _ ih => exact ih.append _

theorem IsUnary.head {ts : List Token} {e : Expr} (h : IsUnary ts e) : StartsIn sumStarters ts := by
  cases h with
  | negate => exact ⟨_, _, rfl, by simp [sumStarters, Token.kind]⟩
  | call hc => exact hc.head.mono (List.subset_cons_self _ _)

theorem LeftAssociated.head {operator : Token → BinaryOperator → Prop} {operand : Phrase Expr}
    {kinds : List Token.Kind} (hop : ∀ {ts e}, operand ts e → StartsIn kinds ts)
    {ts : List Token} {e : Expr} (h : LeftAssociated operator operand ts e) :
    StartsIn kinds ts := by
  induction h with
  | operand ho => exact hop ho
  | binary _ _ _ ih => exact ih.append _

theorem IsSum.head {ts : List Token} {e : Expr} (h : IsSum ts e) : StartsIn sumStarters ts :=
  LeftAssociated.head (LeftAssociated.head IsUnary.head) h

/-- An expression starts with `let`, a minus sign, or a token that starts a call. -/
theorem IsExpr.head {ts : List Token} {e : Expr} (h : IsExpr ts e) :
    StartsIn exprStarters ts := by
  cases h with
  | letIn => exact ⟨_, _, rfl, by simp [exprStarters, Token.kind]⟩
  | sum hs => exact (IsSum.head hs).mono (List.subset_cons_self _ _)

end Calx
