import Calx.Token.Cut

/-!
# Token streams

`Stream.ofText` cuts a whole text: the spans of its tokens in order, the place where cutting ends,
and the error if it ends before the text does. A `Cursor` takes the same spans one at a time,
reports an error once, and stays at its end.
-/

namespace Calx

/-- A token and the places where it starts and ends. -/
structure Span where
  /-- The offset of the first character. -/
  start : Nat
  /-- The token. -/
  token : Token
  /-- The offset behind the last character. -/
  stop : Nat
deriving DecidableEq

/-- A text cut into tokens. -/
structure Stream where
  /-- The tokens with their places, in order. -/
  spans : List Span
  /-- Where cutting ends: at the end of the text, or where the text that cannot be cut starts. -/
  finish : Nat
  /-- Why no token can be cut there, if the text goes on. -/
  fault : Option LexError
deriving DecidableEq

namespace Stream

/-- The stream with one more token in front. -/
def cons (s : Span) (t : Stream) : Stream :=
  { t with spans := s :: t.spans }

/-- Cuts the text `cs`, whose first character stands at `offset`. -/
def ofChars (offset : Nat) (cs : List Char) : Stream :=
  let start := offset + Token.layoutWidth cs
  let body := cs.drop (Token.layoutWidth cs)
  match _h : Token.cut body with
  | .error e => ⟨[], start, some e⟩
  | .ok none => ⟨[], start, none⟩
  | .ok (some c) =>
    cons ⟨start, c.token, start + c.width⟩ (ofChars (start + c.width) (body.drop c.width))
termination_by cs.length
decreasing_by
  have hw := Token.width_pos_of_cut _h
  have hb : body ≠ [] := by
    intro hnil
    rw [hnil] at _h
    simp [Token.cut] at _h
  have := List.length_pos_iff.2 hb
  simp only [body, List.length_drop] at *
  omega

/-- Cuts a whole text. -/
def ofText (s : String) : Stream :=
  ofChars 0 s.toList

/-- The tokens without their places. -/
def tokens (t : Stream) : List Token :=
  t.spans.map Span.token

/-- The offset of the token that only `count` tokens, itself included, are left from; where cutting
ends, if there is none. -/
def placeOf (t : Stream) (count : Nat) : Nat :=
  match t.spans.drop (t.spans.length - count) with
  | s :: _ => s.start
  | [] => t.finish

/-- The spans of a text that can be cut to its end, or the error that stops it. -/
def spans? (t : Stream) : Except LexError (List Span) :=
  match t.fault with
  | none => .ok t.spans
  | some e => .error e

end Stream

/-- A place in a text from which tokens are taken one at a time. -/
structure Cursor where
  /-- The text that is left. -/
  rest : List Char
  /-- The offset of the text that is left: the end of the last token taken. -/
  consumed : Nat
  /-- Whether the end or an error has been met. -/
  done : Bool

/-- What a step of a cursor meets. -/
inductive Cursor.Step where
  /-- A token. -/
  | token (span : Span)
  /-- The end. -/
  | finished
  /-- A text that no token can be cut from. -/
  | fault (error : LexError)

namespace Cursor

/-- The cursor at the start of a text. -/
def ofText (s : String) : Cursor :=
  ⟨s.toList, 0, false⟩

/-- Takes the next token. The end and an error close the cursor where it stands. -/
def next (c : Cursor) : Step × Cursor :=
  if c.done then (.finished, c)
  else
    match Token.cutPast c.rest with
    | .error e => (.fault e, { c with done := true })
    | .ok none => (.finished, { c with done := true })
    | .ok (some cut) =>
      let stop := c.consumed + cut.width
      -- The layout in front is looked for once more, among the characters that were taken.
      (.token ⟨c.consumed + Token.layoutWidth (c.rest.take cut.width), cut.token, stop⟩,
        { c with rest := c.rest.drop cut.width, consumed := stop })

/-- The first `count` steps of a cursor, each with the cursor after it. -/
def steps : Nat → Cursor → List (Step × Cursor)
  | 0, _ => []
  | count + 1, c => c.next :: steps count c.next.2

end Cursor

end Calx
