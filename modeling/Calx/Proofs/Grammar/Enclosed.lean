import Calx.Proofs.Grammar.Reparse
import Calx.Proofs.Number.Sign
import Calx.Proofs.Token.Lexeme

/-!
# A text for every tree

`Expr.enclosed` puts every negation, operator and binding between parentheses, so an expression is a
call wherever it stands, and no two trees are written alike (`isCall_enclosed`). Tokens that can be
cut from some text are cut from their spellings with a space behind each (`exists_text_iff`). So the
trees that can be read are exactly those whose numbers have no sign and whose names are words that
are no keywords (`readable_iff_exists_text`).
-/

namespace Calx

open Number

/-! ## Spelled tokens -/

/-- The characters of a token. -/
def Token.spelling : Token → List Char
  | semicolon => [';']
  | equals => ['=']
  | plus => ['+']
  | minus => ['-']
  | asterisk => ['*']
  | slash => ['/']
  | openParen => ['(']
  | closeParen => [')']
  | comma => [',']
  | letWord => ['l', 'e', 't']
  | inWord => ['i', 'n']
  | defWord => ['d', 'e', 'f']
  | number x => (Expr.renderNumber x).toList
  | string s => (Quoted.quote s).toList
  | identifier n => n.toList

/-- Some tokens as a text, with a space behind each. -/
def spellAll (ts : List Token) : List Char :=
  ts.flatMap fun t => t.spelling ++ [' ']

theorem cuts_spelling {t : Token} (h : t.Readable) : Cuts Token.Stops t.spelling [t] := by
  cases t with
  | letWord => exact cuts_letWord
  | inWord => exact cuts_inWord
  | defWord => exact cuts_defWord
  | number x => exact .number h
  | string s => exact (Cuts.string s).mono fun _ _ => trivial
  | identifier n => exact cuts_name h
  | _ => exact .punctuation rfl .nil

theorem cuts_spellAll {ts : List Token} (h : AllReadable ts) :
    Cuts Unlimited (spellAll ts) ts := by
  induction ts with
  | nil => exact .nil
  | cons t ts ih =>
    obtain ⟨ht, hts⟩ := allReadable_cons.1 h
    have hspace : Cuts Unlimited (' ' :: spellAll ts) ts := .layout rfl (ih hts)
    have hall := (cuts_spelling ht).stop hspace (by decide)
    rwa [spellAll, List.flatMap_cons, List.append_assoc]

/-- Tokens are those of some text exactly if each of them is readable. -/
theorem exists_text_iff {ts : List Token} :
    (∃ text, (Stream.ofText text).tokens? = .ok ts) ↔ AllReadable ts := by
  constructor
  · rintro ⟨text, htokens⟩
    obtain ⟨-, rfl⟩ := tokens?_eq_ok_iff.1 htokens
    exact fun t ht => readable_of_mem_tokens ht
  · intro h
    have hcuts := cuts_spellAll h
    rw [← @String.toList_ofList (spellAll ts)] at hcuts
    exact ⟨_, hcuts.tokens?_eq trivial⟩

/-! ## Enclosed trees -/

namespace Expr

mutual

/-- The tokens of an expression with all its negations, operators and bindings between
parentheses. -/
def enclosed : Expr → List Token
  | number x => [.number x]
  | text s => [.string s]
  | negate e => .openParen :: (.minus :: e.enclosed ++ [.closeParen])
  | binary op l r => .openParen :: (l.enclosed ++ op.token :: r.enclosed ++ [.closeParen])
  | var n => [.identifier n]
  | apply f args =>
    f.enclosed ++ .openParen :: ([Token.comma].intercalate (enclosedList args) ++ [.closeParen])
  | letIn n b e =>
    .openParen :: (.letWord :: .identifier n :: .equals ::
      (b.enclosed ++ .inWord :: e.enclosed) ++ [.closeParen])

/-- The tokens of each of some expressions, enclosed. -/
def enclosedList : List Expr → List (List Token)
  | [] => []
  | e :: es => e.enclosed :: enclosedList es

end

theorem enclosedList_eq_map (es : List Expr) : enclosedList es = es.map enclosed := by
  induction es with
  | nil => rfl
  | cons e es ih => rw [enclosedList, ih, List.map_cons]

end Expr

/-- The tokens of a statement with its expression enclosed. -/
def Stmt.enclosed : Stmt → List Token
  | expr e => e.enclosed
  | define n ps e => .defWord :: .identifier n :: (writtenParams ps ++ .equals :: e.enclosed)
  | bind n e => .letWord :: .identifier n :: .equals :: e.enclosed

/-- The tokens of a program with its expressions enclosed. -/
def Program.enclosed (p : Program) : List Token :=
  [Token.semicolon].intercalate (p.map Stmt.enclosed)

/-! ## Enclosed trees as phrases -/

mutual

/-- An enclosed expression is a call, so it may stand wherever an expression may. -/
theorem isCall_enclosed : (e : Expr) → IsCall IsExpr e.enclosed e
  | .number x => .primary (.number x)
  | .text s => .primary (.string s)
  | .var n => .primary (.identifier n)
  | .negate e => isCall_between (IsUnary.negate (.call (isCall_enclosed e))).isExpr
  | .binary op l r =>
    isCall_between (isExpr_binary op (.call (isCall_enclosed l)) (.call (isCall_enclosed r)))
  | .apply f args => by
    rw [Expr.enclosed, Expr.enclosedList_eq_map]
    exact .apply (isCall_enclosed f) (.intro (perhaps_intercalate_self (isExpr_enclosedList args)))
  | .letIn n b e => isCall_between
      (.letIn (IsUnary.call (isCall_enclosed b)).isExpr (IsUnary.call (isCall_enclosed e)).isExpr)

theorem isExpr_enclosedList : (es : List Expr) → ∀ e ∈ es, IsExpr e.enclosed e
  | e :: _, _, .head _ => (IsUnary.call (isCall_enclosed e)).isExpr
  | _ :: es, e, .tail _ he => isExpr_enclosedList es e he

end

theorem isExpr_enclosed (e : Expr) : IsExpr e.enclosed e :=
  (IsUnary.call (isCall_enclosed e)).isExpr

theorem isStmt_enclosed (s : Stmt) : IsStmt s.enclosed s := by
  cases s with
  | expr e => exact .expr (isExpr_enclosed e)
  | bind n e => exact .bind (isExpr_enclosed e)
  | define n ps e => exact .define (between_writtenParams ps) (isExpr_enclosed e)

/-- **Every tree is a phrase.** Its tokens, enclosed, are that tree and no other. -/
theorem isProgram_enclosed (p : Program) : IsProgram p.enclosed p :=
  .bare (perhaps_intercalate_self fun s _ => isStmt_enclosed s)

/-! ## Enclosed trees as texts -/

theorem allReadable_intercalate {mark : Token} {tss : List (List Token)} (hmark : mark.Readable)
    (h : ∀ ts ∈ tss, AllReadable ts) : AllReadable ([mark].intercalate tss) :=
  forall_mem_intercalate (List.forall_mem_singleton.2 hmark) h

theorem allReadable_between {ts : List Token} (h : AllReadable ts) :
    AllReadable (.openParen :: (ts ++ [.closeParen])) :=
  allReadable_cons.2 ⟨trivial, allReadable_append.2 ⟨h, allReadable_cons.2 ⟨trivial, nofun⟩⟩⟩

theorem readable_token (op : BinaryOperator) : op.token.Readable := by
  cases op <;> trivial

mutual

theorem allReadable_enclosed : (e : Expr) → e.Readable → AllReadable e.enclosed
  | .number _, h => allReadable_cons.2 ⟨h, nofun⟩
  | .text _, _ => allReadable_cons.2 ⟨trivial, nofun⟩
  | .var _, h => allReadable_cons.2 ⟨h, nofun⟩
  | .negate e, h => allReadable_between (allReadable_cons.2 ⟨trivial, allReadable_enclosed e h⟩)
  | .binary op l r, ⟨hl, hr⟩ => allReadable_between <| allReadable_append.2
      ⟨allReadable_enclosed l hl,
        allReadable_cons.2 ⟨readable_token op, allReadable_enclosed r hr⟩⟩
  | .apply f args, ⟨hf, hargs⟩ => by
    rw [Expr.enclosed, Expr.enclosedList_eq_map]
    refine allReadable_append.2 ⟨allReadable_enclosed f hf, allReadable_between ?_⟩
    refine allReadable_intercalate trivial fun ts hts => ?_
    obtain ⟨e, he, rfl⟩ := List.mem_map.1 hts
    exact allReadable_enclosedList args hargs e he
  | .letIn _ b e, ⟨hn, hb, he⟩ => allReadable_between <| by
    simp only [allReadable_cons, allReadable_append]
    exact ⟨trivial, hn, trivial, allReadable_enclosed b hb, trivial, allReadable_enclosed e he⟩

theorem allReadable_enclosedList : (es : List Expr) → Expr.ReadableList es →
    ∀ e ∈ es, AllReadable e.enclosed
  | e :: _, ⟨he, _⟩, _, .head _ => allReadable_enclosed e he
  | _ :: es, ⟨_, hes⟩, e, .tail _ hmem => allReadable_enclosedList es hes e hmem

end

theorem allReadable_writtenParams {ps : List String} (h : ∀ p ∈ ps, IsName p) :
    AllReadable (writtenParams ps) := by
  refine allReadable_between (allReadable_intercalate trivial fun ts hts => ?_)
  obtain ⟨n, hn, rfl⟩ := List.mem_map.1 hts
  exact allReadable_cons.2 ⟨h n hn, nofun⟩

theorem allReadable_enclosedStmt {s : Stmt} (h : s.Readable) : AllReadable s.enclosed := by
  cases s with
  | expr e => exact allReadable_enclosed e h
  | bind n e =>
    obtain ⟨hn, he⟩ := h
    simp only [Stmt.enclosed, allReadable_cons]
    exact ⟨trivial, hn, trivial, allReadable_enclosed e he⟩
  | define n ps e =>
    obtain ⟨hn, hps, he⟩ := h
    simp only [Stmt.enclosed, allReadable_cons, allReadable_append]
    exact ⟨trivial, hn, allReadable_writtenParams hps, trivial, allReadable_enclosed e he⟩

theorem allReadable_enclosedProgram {p : Program} (h : p.Readable) : AllReadable p.enclosed := by
  refine allReadable_intercalate trivial fun ts hts => ?_
  obtain ⟨s, hs, rfl⟩ := List.mem_map.1 hts
  exact allReadable_enclosedStmt (h s hs)

/-- A readable program is read from some text. -/
theorem exists_text_of_readable {p : Program} (h : p.Readable) :
    ∃ text, ∀ depth, text.length < depth → Program.ofText depth text = .ok p := by
  obtain ⟨text, htokens⟩ := exists_text_iff.2 (allReadable_enclosedProgram h)
  exact ⟨text, fun depth hdepth =>
    (ofText_eq_ok_iff hdepth p).2 ⟨_, htokens, isProgram_enclosed p⟩⟩

/-! ## What a readable tree is -/

/-- The names that can be read are the words that are no keywords. -/
theorem isName_iff {n : String} :
    IsName n ↔ IsWord n.toList ∧ n ∉ ["let", "in", "def"] := by
  have hkeyword : (∀ t, (n, t) ∉ Token.keywords) ↔ n ∉ ["let", "in", "def"] := by
    simp only [Token.keywords, List.mem_cons, Prod.mk.injEq, List.mem_nil_iff]
    grind
  rw [← hkeyword]
  constructor
  · rintro ⟨hword, hofWord⟩
    refine ⟨isWord_iff.2 hword, fun t ht => ?_⟩
    rw [ofWord_of_mem_keywords ht] at hofWord
    subst hofWord
    simp [Token.keywords] at ht
  · rintro ⟨hword, hk⟩
    exact ⟨isWord_iff.1 hword, ofWord_of_not_mem_keywords hk⟩

/-- **What can be read.** Whatever is read from a text is readable, and whatever is readable is read
from some text: the readable programs are those whose names are words that are no keywords and whose
numbers are numbers without a sign. -/
theorem readable_iff_exists_text (p : Program) :
    (∀ depth text, Program.ofText depth text = .ok p → p.Readable) ∧
    (p.Readable →
      ∃ text, ∀ depth, text.length < depth → Program.ofText depth text = .ok p) ∧
    (∀ n, IsName n ↔ IsWord n.toList ∧ n ∉ ["let", "in", "def"]) ∧
    ∀ x, IsMagnitude x ↔ x.isNaN = false ∧ isNegative x = false :=
  ⟨fun _ _ => readable_of_ofText, exists_text_of_readable, fun _ => isName_iff,
    fun _ => isMagnitude_iff⟩

end Calx
