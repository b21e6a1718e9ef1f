import Calx.Proofs.Grammar.Phrase
import Calx.Proofs.Number.Rounding
import Calx.Proofs.Token.Cut
import Calx.Proofs.Token.Stream

/-!
# Trees that come from a text

A token that is cut from a text carries a double without a sign, or a word that is no keyword
(`readable_of_cut`). So do the numbers and the names of every tree that such tokens are a phrase for
(`readable_of_isProgram`): these are the trees that can be written and read again.
-/

namespace Calx

open Number

/-- A word that is no keyword. -/
structure IsName (n : String) : Prop where
  word : ∃ c cs, n.toList = c :: cs ∧ Token.isWordStart c = true ∧
    ∀ d ∈ cs, Token.isWordChar d = true
  ofWord_eq : Token.ofWord n = .identifier n

/-! ## Tokens -/

/-- What a token that is cut from a text carries. -/
def Token.Readable : Token → Prop
  | .number x => IsMagnitude x
  | .identifier n => IsName n
  | _ => True

theorem readable_ofPunctuation? {c : Char} {t : Token} (h : Token.ofPunctuation? c = some t) :
    t.Readable := by
  unfold Token.ofPunctuation? at h
  split at h <;> cases h <;> trivial

theorem readable_ofWord {c : Char} {cs : List Char} (hc : Token.isWordStart c = true)
    (hcs : ∀ d ∈ cs, Token.isWordChar d = true) :
    (Token.ofWord (String.ofList (c :: cs))).Readable := by
  have hall : ∀ x ∈ Token.keywords, x.2.Readable := by
    simp [Token.keywords, Token.Readable]
  cases hk : Token.keywords.lookup (String.ofList (c :: cs)) with
  | some t =>
    rw [Token.ofWord, hk]
    obtain ⟨l₁, l₂, heq, -⟩ := List.lookup_eq_some_iff.1 hk
    exact hall (String.ofList (c :: cs), t) (by simp [heq])
  | none =>
    have hword : Token.ofWord (String.ofList (c :: cs)) =
        .identifier (String.ofList (c :: cs)) := by
      rw [Token.ofWord, hk]
      rfl
    rw [hword]
    exact ⟨⟨c, cs, String.toList_ofList, hc, hcs⟩, hword⟩

theorem readable_cutWord {c : Char} (hc : Token.isWordStart c = true) (cs : List Char) :
    (Token.cutWord (c :: cs)).token.Readable := by
  have hrun : (c :: cs).takeWhile Token.isWordChar = c :: cs.takeWhile Token.isWordChar :=
    List.takeWhile_cons_of_pos (Token.isWordChar_of_isWordStart hc)
  rw [Token.cutWord, hrun]
  exact readable_ofWord hc fun d hd => List.all_eq_true.1 List.all_takeWhile d hd

theorem readable_of_cut {cs : List Char} {t : Cut} (h : Token.cut cs = .ok (some t)) :
    t.token.Readable := by
  cases Token.cut_eq_some_iff.1 h with
  | mark hc => exact readable_ofPunctuation? hc
  | @word c cs hc => exact readable_cutWord hc cs
  | number => exact Decimal.isMagnitude_toFloat _
  | string => trivial

theorem readable_of_mem_spans {offset : Nat} {cs : List Char} {s : Span}
    (hs : s ∈ (Stream.ofChars offset cs).spans) : s.token.Readable := by
  fun_induction Stream.ofChars offset cs with
  | case1 => cases hs
  | case2 => cases hs
  | case3 offset cs start body c hcut ih =>
    rcases List.mem_cons.1 hs with rfl | hs
    · exact readable_of_cut hcut
    · exact ih hs

/-- All tokens of a text are readable. -/
theorem readable_of_mem_tokens {text : String} {t : Token} (ht : t ∈ (Stream.ofText text).tokens) :
    t.Readable := by
  obtain ⟨s, hs, rfl⟩ := List.mem_map.1 ht
  exact readable_of_mem_spans hs

/-! ## Expressions -/

namespace Expr

mutual

/-- The numbers of an expression have no sign, and its names are words that are no keywords. -/
def Readable : Expr → Prop
  | number x => IsMagnitude x
  | text _ => True
  | negate e => e.Readable
  | binary _ l r => l.Readable ∧ r.Readable
  | var n => IsName n
  | apply f args => f.Readable ∧ ReadableList args
  | letIn n b e => IsName n ∧ b.Readable ∧ e.Readable

/-- Each of some expressions is readable. -/
def ReadableList : List Expr → Prop
  | [] => True
  | e :: es => e.Readable ∧ ReadableList es

end

end Expr

/-- All of some tokens are readable. -/
def AllReadable (ts : List Token) : Prop := ∀ t ∈ ts, t.Readable

theorem allReadable_append {ts us : List Token} :
    AllReadable (ts ++ us) ↔ AllReadable ts ∧ AllReadable us := by
  simp only [AllReadable, List.mem_append, or_imp, forall_and]

theorem allReadable_cons {t : Token} {ts : List Token} :
    AllReadable (t :: ts) ↔ t.Readable ∧ AllReadable ts := by
  simp only [AllReadable, List.mem_cons, forall_eq_or_imp]

mutual

theorem readable_of_isUnary : ∀ {ts : List Token} {e : Expr}, IsUnary ts e → AllReadable ts →
    e.Readable
  | _, _, .negate h, hts => by
    rw [Expr.Readable]
    exact readable_of_isUnary h (allReadable_cons.1 hts).2
  | _, _, .call h, hts => readable_of_isCall h hts

theorem readable_of_isCall : ∀ {ts : List Token} {e : Expr}, IsCall IsExpr ts e → AllReadable ts →
    e.Readable
  | _, _, .primary (.number _), hts => hts _ List.mem_cons_self
  | _, _, .primary (.string _), _ => trivial
  | _, _, .primary (.identifier _), hts => hts _ List.mem_cons_self
  | _, _, .primary (.parenthesized (.intro h)), hts =>
    readable_of_isExpr h (allReadable_append.1 (allReadable_cons.1 hts).2).1
  | _, _, .apply hf (.intro h), hts =>
    ⟨readable_of_isCall hf (allReadable_append.1 hts).1, readable_of_perhaps h
      (allReadable_append.1 (allReadable_cons.1 (allReadable_append.1 hts).2).2).1⟩

theorem readable_of_perhaps : ∀ {ts : List Token} {es : List Expr},
    Perhaps (Separated .comma IsExpr) ts es → AllReadable ts → Expr.ReadableList es
  | _, _, .absent, _ => trivial
  | _, _, .present h, hts => readable_of_separated h hts

theorem readable_of_separated : ∀ {ts : List Token} {es : List Expr},
    Separated .comma IsExpr ts es → AllReadable ts → Expr.ReadableList es
  | _, _, .one h, hts => ⟨readable_of_isExpr h hts, trivial⟩
  | _, _, .more h hs, hts =>
    ⟨readable_of_isExpr h (allReadable_append.1 hts).1,
      readable_of_separated hs (allReadable_cons.1 (allReadable_append.1 hts).2).2⟩

theorem readable_of_isProduct : ∀ {ts : List Token} {e : Expr}, IsProduct ts e → AllReadable ts →
    e.Readable
  | _, _, .operand h, hts => readable_of_isUnary h hts
  | _, _, .binary hl _ hr, hts =>
    ⟨readable_of_isProduct hl (allReadable_append.1 hts).1,
      readable_of_isUnary hr (allReadable_cons.1 (allReadable_append.1 hts).2).2⟩

theorem readable_of_isSum : ∀ {ts : List Token} {e : Expr}, IsSum ts e → AllReadable ts →
    e.Readable
  | _, _, .operand h, hts => readable_of_isProduct h hts
  | _, _, .binary hl _ hr, hts =>
    ⟨readable_of_isSum hl (allReadable_append.1 hts).1,
      readable_of_isProduct hr (allReadable_cons.1 (allReadable_append.1 hts).2).2⟩

theorem readable_of_isExpr : ∀ {ts : List Token} {e : Expr}, IsExpr ts e → AllReadable ts →
    e.Readable
  | _, _, .letIn hb he, hts => by
    simp only [allReadable_cons, allReadable_append] at hts
    obtain ⟨-, hn, -, hts, -, hus⟩ := hts
    exact ⟨hn, readable_of_isExpr hb hts, readable_of_isExpr he hus⟩
  | _, _, .sum h, hts => readable_of_isSum h hts

end

/-! ## Statements and programs -/

/-- The numbers of a statement have no sign, and its names are words that are no keywords. -/
def Stmt.Readable : Stmt → Prop
  | expr e => e.Readable
  | define n ps e => IsName n ∧ (∀ p ∈ ps, IsName p) ∧ e.Readable
  | bind n e => IsName n ∧ e.Readable

/-- Every statement of a program is readable. -/
def Program.Readable (p : Program) : Prop :=
  ∀ s ∈ p, s.Readable

theorem isName_of_separated {ts : List Token} {ps : List String}
    (h : Separated .comma IsIdentifier ts ps) (hts : AllReadable ts) : ∀ p ∈ ps, IsName p := by
  induction h with
  | one h =>
    obtain ⟨n⟩ := h
    rintro _ (_ | ⟨_, ⟨⟩⟩)
    exact hts _ List.mem_cons_self
  | more h _ ih =>
    obtain ⟨n⟩ := h
    rintro _ (_ | ⟨_, hp⟩)
    · exact hts _ List.mem_cons_self
    · exact ih (allReadable_cons.1 (allReadable_append.1 hts).2).2 _ hp

theorem readable_of_isStmt {ts : List Token} {s : Stmt} (h : IsStmt ts s) (hts : AllReadable ts) :
    s.Readable := by
  cases h with
  | expr he => exact readable_of_isExpr he hts
  | bind he =>
    simp only [allReadable_cons] at hts
    exact ⟨hts.2.1, readable_of_isExpr he hts.2.2.2⟩
  | define hps he =>
    simp only [allReadable_cons, allReadable_append] at hts
    obtain ⟨-, hn, hps', -, he'⟩ := hts
    refine ⟨hn, ?_, readable_of_isExpr he he'⟩
    obtain ⟨hps⟩ := hps
    cases hps with
    | absent => exact nofun
    | present hps =>
      exact isName_of_separated hps (allReadable_append.1 (allReadable_cons.1 hps').2).1

theorem readable_of_separated_stmt {ts : List Token} {p : Program}
    (h : Separated .semicolon IsStmt ts p) (hts : AllReadable ts) : Program.Readable p := by
  induction h with
  | one hs =>
    rintro _ (_ | ⟨_, ⟨⟩⟩)
    exact readable_of_isStmt hs hts
  | more hs _ ih =>
    rintro _ (_ | ⟨_, hp⟩)
    · exact readable_of_isStmt hs (allReadable_append.1 hts).1
    · exact ih (allReadable_cons.1 (allReadable_append.1 hts).2).2 _ hp

theorem readable_of_isProgram {ts : List Token} {p : Program} (h : IsProgram ts p)
    (hts : AllReadable ts) : Program.Readable p := by
  cases h with
  | bare h =>
    cases h with
    | absent => exact nofun
    | present h => exact readable_of_separated_stmt h hts
  | closed h =>
    cases h with
    | absent => exact nofun
    | present h => exact readable_of_separated_stmt h (allReadable_append.1 hts).1

end Calx
