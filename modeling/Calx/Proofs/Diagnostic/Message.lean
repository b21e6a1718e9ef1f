import Mathlib.Data.List.Basic
import Calx.Diagnostic.Message

/-!
# The message for a text that goes on

Where the end of a text was expected, the message that tells so is read back as just that, whatever
stands there instead (`expectation?_endOfText`), and no closing parenthesis is part of what was
expected. So the diagnostic made from the message is the one made from the expectation
(`ofMessage_endOfText`), and it never hints at an open parenthesis.
-/

namespace Calx

namespace Text

/-- No printable character of ASCII is listed as unprintable. -/
theorem not_ascii_of_mem {r : Nat × Nat} (h : r ∈ unprintableRanges) :
    r.2 < 0x20 ∨ 0x7E < r.1 := by
  have hall : unprintableRanges.toList.all (fun r => r.2 < 0x20 || 0x7E < r.1) = true := by
    decide +kernel
  have hr := List.all_eq_true.1 hall r (Array.mem_toList_iff.2 h)
  simpa using hr

theorem isPrintable_of_ascii {c : Char} (h : 0x20 ≤ c.toNat ∧ c.toNat ≤ 0x7E) :
    isPrintable c = true := by
  rw [isPrintable, Bool.not_eq_true', Array.any_eq_false']
  intro r hr
  have hout := not_ascii_of_mem hr
  simp only [Bool.and_eq_true, decide_eq_true_eq]
  omega

end Text

namespace Diagnostic

/-- The message for the end of a text. -/
def endOfTextMessage : String := "Expected end of text"

/-- What is expected ends where the message goes on to what was found. -/
theorem expectation?_endOfText {cs : List Char} (hcs : cs ≠ []) (location : Nat) :
    expectation? (failureMessage cs location endOfTextMessage) =
      some Expectation.endOfText.display.toList := by
  rw [failureMessage, foundClause, if_neg hcs]
  rfl

theorem listsClosing_endOfText : listsClosing [Expectation.endOfText.display] = false := by
  have hquoted : Text.literalList [Expectation.endOfText.display] = "['end of text']" := by
    simp [Text.literalList, Text.literal, Text.literalChars, Text.quoteMark, Text.literalChar,
      Text.isPrintable_of_ascii, Expectation.display]
  rw [listsClosing, hquoted]
  rfl

/-- The message is made into the diagnostic for a place at which the end of the text was expected. -/
theorem ofMessage_endOfText {cs : List Char} (hcs : cs ≠ []) (location : Nat) :
    ofMessage cs location endOfTextMessage = ofExpectation cs location .endOfText := by
  rw [ofMessage, expectation?_endOfText hcs]
  dsimp only
  rw [String.ofList_toList, listsClosing_endOfText]
  rfl

theorem Hint.message_injective : Function.Injective Hint.message := by
  intro a b
  cases a <;> cases b <;> decide

/-- No two hints are worded alike, so the wordings tell which hints are given. -/
theorem mem_suggestions_iff {hint : Hint} {cs : List Char} {location : Nat} {e : Expectation} :
    hint.message ∈ (ofExpectation cs location e).suggestions ↔
      hint ∈ hints (found cs location) e.closes :=
  List.mem_map_of_injective Hint.message_injective

/-- A parenthesis is not said to be left open where none could be closed. -/
theorem openParenthesis_not_mem (cs : List Char) (location : Nat) {e : Expectation}
    (he : e.closes = false) :
    Hint.openParenthesis.message ∉ (ofExpectation cs location e).suggestions := by
  rw [mem_suggestions_iff, hints, he]
  simp

end Diagnostic

end Calx
