/-!
# String literals

`quote` writes a text between double quotes and `decode` reads such a literal back. Six escapes are
read; `quote` writes all of them but the slash, which needs none. `LexError` is what can be wrong
with a text that no token can be cut from.

Main statement: `decode_quoteBody`, a quoted text is read back, and nothing after its closing quote
is touched.
-/

namespace Calx

/-- Why no token can be cut from a text. -/
inductive LexError where
  /-- No token starts with the character. -/
  | unexpectedCharacter (found : Char)
  /-- The text ends inside a string literal. -/
  | unexpectedEnd
  /-- A backslash stands before a character that makes no escape. -/
  | undefinedEscape (escaped : Char)
deriving DecidableEq

namespace LexError

/-- The wording for a character, or any text, that starts no token. -/
def unexpectedText (found : String) : String :=
  "unexpected character: '" ++ found ++ "'"

/-- The wording for a backslash before what makes no escape. -/
def undefinedText (escaped : String) : String :=
  "undefined escape: '\\" ++ escaped ++ "'"

/-- The wording of a lexical error. -/
def message : LexError → String
  | unexpectedCharacter c => unexpectedText c.toString
  | unexpectedEnd => "unexpected end of file"
  | undefinedEscape c => undefinedText c.toString

end LexError

namespace Quoted

/-- The character that a backslash and the character after it stand for. -/
def unescape? : Char → Option Char
  | '"' => some '"'
  | '\\' => some '\\'
  | '/' => some '/'
  | 'n' => some '\n'
  | 'r' => some '\r'
  | 't' => some '\t'
  | _ => none

/-- A character inside a quoted text. -/
def escape : Char → List Char
  | '"' => ['\\', '"']
  | '\\' => ['\\', '\\']
  | '\n' => ['\\', 'n']
  | '\r' => ['\\', 'r']
  | '\t' => ['\\', 't']
  | c => [c]

/-- Reads what follows an opening quote: the text up to the closing quote, and how many characters
it takes, the closing quote included. -/
def decode : List Char → Except LexError (List Char × Nat)
  | [] => .error .unexpectedEnd
  | '"' :: _ => .ok ([], 1)
  | ['\\'] => .error .unexpectedEnd
  | '\\' :: e :: cs =>
    match unescape? e with
    | none => .error (.undefinedEscape e)
    | some c => (decode cs).map fun r => (c :: r.1, r.2 + 2)
  | c :: cs => (decode cs).map fun r => (c :: r.1, r.2 + 1)

/-- What `quote` writes after the opening quote. -/
def quoteBody (cs : List Char) : List Char :=
  cs.flatMap escape ++ ['"']

/-- A text as a string literal. -/
def quote (s : String) : String :=
  String.ofList ('"' :: quoteBody s.toList)

/-! ## Reading back -/

theorem escape_cases (c : Char) :
    (∃ e, escape c = ['\\', e] ∧ unescape? e = some c) ∨
      (escape c = [c] ∧ c ≠ '"' ∧ c ≠ '\\') := by
  unfold escape
  split
  · exact .inl ⟨'"', rfl, rfl⟩
  · exact .inl ⟨'\\', rfl, rfl⟩
  · exact .inl ⟨'n', rfl, rfl⟩
  · exact .inl ⟨'r', rfl, rfl⟩
  · exact .inl ⟨'t', rfl, rfl⟩
  · exact .inr ⟨rfl, by assumption, by assumption⟩

theorem decode_cons_of_plain {c : Char} (hq : c ≠ '"') (hb : c ≠ '\\') (cs : List Char) :
    decode (c :: cs) = (decode cs).map fun r => (c :: r.1, r.2 + 1) := by
  rw [decode]
  · simpa using hq
  · intro h; exact absurd h hb
  · intro _ _ h; exact absurd h hb

/-- A quoted text reads back as itself, whatever follows it. -/
theorem decode_quoteBody (cs rest : List Char) :
    decode (quoteBody cs ++ rest) = .ok (cs, (quoteBody cs).length) := by
  induction cs with
  | nil => rfl
  | cons c cs ih =>
    have hbody : quoteBody (c :: cs) ++ rest = escape c ++ (quoteBody cs ++ rest) := by
      simp [quoteBody]
    have hlen : (quoteBody (c :: cs)).length = (escape c).length + (quoteBody cs).length := by
      simp [quoteBody]
    rw [hbody, hlen]
    rcases escape_cases c with ⟨e, he, hu⟩ | ⟨he, hq, hb⟩
    · simp [he, decode, hu, ih, Except.map, Nat.add_comm]
    · simp [he, decode_cons_of_plain hq hb, ih, Except.map, Nat.add_comm]

end Quoted

end Calx
