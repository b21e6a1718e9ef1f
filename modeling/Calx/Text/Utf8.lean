/-!
# UTF-8

`decode` reads bytes as UTF-8. Where the bytes are no well-formed sequence it stops with a `Fault`:
the place and length of the longest run of bytes that begins like a sequence, and what is wrong
with it. Overlong forms, surrogates and code points above U+10FFFF are refused at the byte that
makes them so.
-/

namespace Calx.Utf8

/-- What is wrong with a run of bytes. -/
inductive Defect where
  /-- The first byte starts no sequence. -/
  | start
  /-- The byte after the run does not continue it. -/
  | continuation
  /-- The bytes end inside the sequence. -/
  | truncated
deriving DecidableEq

/-- A run of bytes that cannot be decoded. -/
structure Fault where
  /-- The offset of the run. -/
  offset : Nat
  /-- The first byte of the run. -/
  byte : UInt8
  /-- The length of the run, at least 1. -/
  length : Nat
  /-- What is wrong. -/
  defect : Defect
deriving DecidableEq

/-- The number of bytes after the first in a sequence that starts with `b`, and the range of the
second byte. -/
def form? (b : Nat) : Option (Nat × Nat × Nat) :=
  if b < 0xC2 then none
  else if b < 0xE0 then some (1, 0x80, 0xBF)
  else if b = 0xE0 then some (2, 0xA0, 0xBF)
  else if b = 0xED then some (2, 0x80, 0x9F)
  else if b < 0xF0 then some (2, 0x80, 0xBF)
  else if b = 0xF0 then some (3, 0x90, 0xBF)
  else if b < 0xF4 then some (3, 0x80, 0xBF)
  else if b = 0xF4 then some (3, 0x80, 0x8F)
  else none

/-- The bytes that continue a sequence: at most `count`, the first in `low ..= high` and the others
in `0x80 ..= 0xBF`. The result is the bytes taken and whether a byte that does not fit follows. -/
def continuation : Nat → Nat → Nat → List UInt8 → List UInt8 × Bool
  | 0, _, _, _ => ([], false)
  | _, _, _, [] => ([], false)
  | count + 1, low, high, b :: bs =>
    if low ≤ b.toNat ∧ b.toNat ≤ high then
      let (taken, misfit) := continuation count 0x80 0xBF bs
      (b :: taken, misfit)
    else ([], true)

/-- The code point of a sequence of `1 + taken.length` bytes. -/
def codePoint (first : UInt8) (taken : List UInt8) : Nat :=
  let lead := match taken.length with
    | 1 => first.toNat % 0x20
    | 2 => first.toNat % 0x10
    | _ => first.toNat % 0x08
  taken.foldl (fun n b => n * 0x40 + b.toNat % 0x40) lead

/-- Reads the bytes from offset `offset` on. -/
def decodeFrom (offset : Nat) : List UInt8 → Except Fault (List Char)
  | [] => .ok []
  | b :: bs =>
    if b.toNat < 0x80 then
      (Char.ofNat b.toNat :: ·) <$> decodeFrom (offset + 1) bs
    else
      match form? b.toNat with
      | none => .error ⟨offset, b, 1, .start⟩
      | some (count, low, high) =>
        match continuation count low high bs with
        | (taken, true) => .error ⟨offset, b, 1 + taken.length, .continuation⟩
        | (taken, false) =>
          if taken.length < count then .error ⟨offset, b, 1 + taken.length, .truncated⟩
          else
            (Char.ofNat (codePoint b taken) :: ·) <$>
              decodeFrom (offset + 1 + taken.length) (bs.drop taken.length)
termination_by bs => bs.length
decreasing_by all_goals simp only [List.length_cons, List.length_drop]; omega

/-- Reads bytes as UTF-8. -/
def decode (bytes : ByteArray) : Except Fault (List Char) :=
  decodeFrom 0 bytes.toList

namespace Defect

/-- The wording of a defect. -/
def message : Defect → String
  | .start => "invalid start byte"
  | .continuation => "invalid continuation byte"
  | .truncated => "unexpected end of data"

end Defect

end Calx.Utf8
