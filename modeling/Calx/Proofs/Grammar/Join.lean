import Calx.Proofs.Grammar.Text
import Calx.Proofs.Token.Join

/-!
# Texts of programs put together

Two texts that are programs are one program when they are put together with a semicolon between
them, or with a line end if the first one has a semicolon at its end already (`ofText_joined`).
A semicolon is at the end of a program exactly if it closes the program, as no expression ends with
one (`IsExpr.last`). A semicolon and a line end stand apart from the text before them.
-/

namespace Calx

/-! ## Last tokens -/

/-- The kinds of token that an expression can end with. -/
def exprEnders : List Token.Kind :=
  [.number, .string, .identifier, .closeParen]

/-- The tokens end with one whose kind is among `kinds`. -/
def LastIn (kinds : List Token.Kind) (ts : List Token) : Prop :=
  ∃ us t, ts = us ++ [t] ∧ t.kind ∈ kinds

namespace LastIn

variable {kinds : List Token.Kind} {us : List Token}

theorem append (h : LastIn kinds us) (ts : List Token) : LastIn kinds (ts ++ us) := by
  obtain ⟨vs, t, rfl, ht⟩ := h
  exact ⟨ts ++ vs, t, (List.append_assoc ..).symm, ht⟩

theorem cons (h : LastIn kinds us) (t : Token) : LastIn kinds (t :: us) :=
  h.append [t]

theorem getLast?_ne (h : LastIn kinds us) {t : Token} (ht : t.kind ∉ kinds) :
    us.getLast? ≠ some t := by
  obtain ⟨vs, u, rfl, hu⟩ := h
  rw [List.getLast?_concat]
  rintro ⟨⟩
  exact ht hu

end LastIn

theorem Between.last {α : Type} {inner : Phrase α} {ts : List Token} {a : α}
    (h : Between inner ts a) : LastIn exprEnders ts := by
  obtain ⟨_⟩ := h
  exact ⟨_ :: _, .closeParen, rfl, by decide⟩

theorem IsCall.last {nested : Phrase Expr} {ts : List Token} {e : Expr}
    (h : IsCall nested ts e) : LastIn exprEnders ts := by
  cases h with
  | primary hp =>
    cases hp with
    | number | string | identifier => exact ⟨[], _, rfl, by simp [exprEnders, Token.kind]⟩
    | parenthesized hb => exact hb.last
  | apply _ hargs => exact hargs.last.append _

theorem IsUnary.last : ∀ {ts : List Token} {e : Expr}, IsUnary ts e → LastIn exprEnders ts
  | _, _, .negate h => h.last.cons _
  | _, _, .call h => IsCall.last h

theorem LeftAssociated.last {operator : Token → BinaryOperator → Prop} {operand : Phrase Expr}
    {kinds : List Token.Kind} (hop : ∀ {ts e}, operand ts e → LastIn kinds ts)
    {ts : List Token} {e : Expr} (h : LeftAssociated operator operand ts e) : LastIn kinds ts := by
  cases h with
  | operand ho => exact hop ho
  | binary _ _ hr => exact ((hop hr).cons _).append _

/-- An expression ends with a number, a string, an identifier or a closing parenthesis. -/
theorem IsExpr.last : ∀ {ts : List Token} {e : Expr}, IsExpr ts e → LastIn exprEnders ts
  | _, _, .letIn _ he => (((he.last.cons _).append _).cons _ |>.cons _).cons _
  | _, _, .sum h => LeftAssociated.last (LeftAssociated.last IsUnary.last) h

/-- An expression can go on as a sum behind its last token. -/
theorem IsExpr.exists_sum : ∀ {ts : List Token} {e : Expr}, IsExpr ts e →
    ∃ e', IsExpr (ts ++ [.plus, .identifier "x"]) e'
  | _, _, .letIn hb he => by
    obtain ⟨e', he'⟩ := he.exists_sum
    exact ⟨_, by simpa using IsExpr.letIn hb he'⟩
  | _, _, .sum h => ⟨_, .sum (.binary h .add (.operand (isUnary_identifier "x")))⟩

theorem IsStmt.last {ts : List Token} {s : Stmt} (h : IsStmt ts s) : LastIn exprEnders ts := by
  cases h with
  | define _ he => exact (((he.last.cons _).append _).cons _).cons _
  | bind he => exact ((he.last.cons _).cons _).cons _
  | expr he => exact he.last

theorem Separated.last {α : Type} {mark : Token} {item : Phrase α} {kinds : List Token.Kind}
    (hitem : ∀ {ts a}, item ts a → LastIn kinds ts) {ts : List Token} {as : List α}
    (h : Separated mark item ts as) : LastIn kinds ts := by
  induction h with
  | one h => exact hitem h
  | more _ _ ih => exact (ih.cons _).append _

/-! ## Programs in a row -/

theorem Separated.append {α : Type} {mark : Token} {item : Phrase α} {ts us : List Token}
    {as bs : List α} (h : Separated mark item ts as) (h' : Separated mark item us bs) :
    Separated mark item (ts ++ mark :: us) (as ++ bs) := by
  induction h with
  | one h => exact .more h h'
  | more h _ ih =>
    rw [List.append_assoc, List.cons_append]
    exact .more h ih

/-- A program goes on behind statements and a semicolon. -/
theorem IsProgram.after {ts us : List Token} {p q : Program}
    (hp : Separated .semicolon IsStmt ts p) (hq : IsProgram us q) (hne : q ≠ []) :
    IsProgram (ts ++ .semicolon :: us) (p ++ q) := by
  cases hq with
  | bare h =>
    cases h with
    | absent => exact absurd rfl hne
    | present h => exact .bare (.present (hp.append h))
  | @closed vs _ h =>
    cases h with
    | absent => exact absurd rfl hne
    | present h =>
      have hsplit : ts ++ .semicolon :: (vs ++ [.semicolon]) =
          (ts ++ .semicolon :: vs) ++ [.semicolon] := by
        rw [List.append_assoc, List.cons_append]
      rw [hsplit]
      exact .closed (.present (hp.append h))

/-- The tokens to put between those of a program and of another one. -/
def separator (ts : List Token) : List Token :=
  if ts.getLast? = some .semicolon then [] else [.semicolon]

theorem IsProgram.append {ts us : List Token} {p q : Program} (hp : IsProgram ts p)
    (hq : IsProgram us q) (hp' : p ≠ []) (hq' : q ≠ []) :
    IsProgram (ts ++ separator ts ++ us) (p ++ q) := by
  cases hp with
  | bare h =>
    cases h with
    | absent => exact absurd rfl hp'
    | present h =>
      have hlast : ts.getLast? ≠ some .semicolon :=
        (Separated.last IsStmt.last h).getLast?_ne (by decide)
      rw [separator, if_neg hlast, List.append_assoc]
      exact .after h hq hq'
  | closed h =>
    cases h with
    | absent => exact absurd rfl hp'
    | present h =>
      rw [separator, if_pos (List.getLast?_concat ..), List.append_nil, List.append_assoc]
      exact .after h hq hq'

/-! ## Texts in a row -/

/-- Two texts put together: with a line end between them if the first has a semicolon for its last
token, with a semicolon otherwise. -/
def joined (first second : String) : String :=
  first ++ ((if (Stream.ofText first).tokens.getLast? = some .semicolon then "\n" else ";") ++ second)

theorem ofText_lineEnd (text : String) :
    Stream.ofText ("\n" ++ text) = (Stream.ofText text).shift 1 :=
  Stream.ofText_layout (d := '\n') rfl text

theorem ofText_semicolon (text : String) :
    Stream.ofText (";" ++ text) = .cons ⟨0, .semicolon, 1⟩ ((Stream.ofText text).shift 1) := by
  rw [Stream.ofText, Stream.ofText, String.toList_append, ← Stream.ofChars_eq_shift]
  have hcut : Token.cut (';' :: text.toList) = .ok (some ⟨.semicolon, 1⟩) := rfl
  exact Stream.ofChars_cut rfl hcut 0

/-- The tokens of two texts put together. -/
theorem tokens_joined {first : String} (hfirst : (Stream.ofText first).fault = none)
    (second : String) :
    (Stream.ofText (joined first second)).fault = (Stream.ofText second).fault ∧
    (Stream.ofText (joined first second)).tokens = (Stream.ofText first).tokens ++
      separator (Stream.ofText first).tokens ++ (Stream.ofText second).tokens := by
  unfold joined separator
  split
  · have hapart : Token.Apart ("\n" ++ second).toList := by
      rw [String.toList_append]
      exact .cons (by decide) _
    rw [Stream.ofText_append hfirst hapart, ofText_lineEnd, Stream.tokens_append,
      Stream.tokens_shift, Stream.tokens_shift, List.append_nil]
    exact ⟨rfl, rfl⟩
  · have hapart : Token.Apart (";" ++ second).toList := by
      rw [String.toList_append]
      exact .cons (by decide) _
    have hcons (s : Span) (stream : Stream) : (stream.cons s).tokens = s.token :: stream.tokens := rfl
    rw [Stream.ofText_append hfirst hapart, ofText_semicolon, Stream.tokens_append,
      Stream.tokens_shift, hcons, Stream.tokens_shift, List.append_assoc]
    exact ⟨rfl, rfl⟩

/-- **Two programs put together are read as one.** -/
theorem ofText_joined {depth : Nat} {first second : String} {p q : Program}
    (hdepth : (joined first second).length < depth) (hp : Program.ofText depth first = .ok p)
    (hq : Program.ofText depth second = .ok q) (hp' : p ≠ []) (hq' : q ≠ []) :
    Program.ofText depth (joined first second) = .ok (p ++ q) := by
  obtain ⟨hfirst, hp⟩ := isProgram_of_ofText hp
  obtain ⟨hsecond, hq⟩ := isProgram_of_ofText hq
  obtain ⟨hfault, htokens⟩ := tokens_joined hfirst second
  refine ofText_of_isProgram hdepth (hfault.trans hsecond) ?_
  rw [htokens]
  exact hp.append hq hp' hq'

end Calx
