import Calx.CommandLine.Script
import Calx.Proofs.Diagnostic.Hint
import Calx.Proofs.Token.LineEnd

/-!
# Programs in files

The line ends of a file are unified before anything else is done with it. A text that can be cut to its
end and has no carriage return in a string is read from a file as it is read itself: it has the same
tokens, is the same program, or is blamed on the same token (`read_unifyLineEnds`).
-/

namespace Calx

open Text

/-- What two texts are read as agrees: it is the same program, or both are blamed where the same tokens
are in front and the same is expected, or both nest too deep. -/
inductive SameReading (text text' : String) :
    Except Rejection Program → Except Rejection Program → Prop where
  /-- The same program. -/
  | program (p : Program) : SameReading text text' (.ok p) (.ok p)
  /-- A diagnostic of the same token. -/
  | unfit {d d' : Diagnostic} {location location' : Nat} :
      d.location = location → d'.location = location' →
      (Stream.ofText text').tokensBefore location' = (Stream.ofText text).tokensBefore location →
      d'.expected = d.expected → SameReading text text' (.error (.unfit d)) (.error (.unfit d'))
  /-- Too deep a nesting. -/
  | tooDeep : SameReading text text' (.error .tooDeep) (.error .tooDeep)

/-- **Only the tokens of a text decide what it is read as**, if it can be cut to its end. -/
theorem sameReading_of_tokens {text text' : String} (hfault : (Stream.ofText text).fault = none)
    (hfault' : (Stream.ofText text').fault = none)
    (htokens : (Stream.ofText text').tokens = (Stream.ofText text).tokens) (depth : Nat) :
    SameReading text text' (Program.ofText depth text) (Program.ofText depth text') := by
  unfold Program.ofText Rule.read
  dsimp only
  rw [hfault, hfault', htokens]
  cases hout : Grammar.program (Grammar.expression depth) none (Stream.ofText text).tokens with
  | fits p rest => exact .program p
  | misfits rest e =>
    obtain ⟨us, -, hsplit, -⟩ := isProgram_of_misfits (reads_level depth).2 hout
    refine .unfit rfl rfl ?_ rfl
    rw [Stream.tokensBefore_of_tokens hsplit, Stream.tokensBefore_of_tokens (htokens.trans hsplit)]
  | abandoned why =>
    cases why with
    | tooDeep => exact .tooDeep
    | lexical e => cases ((reads_program (reads_level depth).2).viable hout).1

/-- **A program is read from a file as it is read itself.** Let a text be cut to its end, with no
carriage return in the source of a string. With its line ends unified it has the same tokens, and it is
read as the same program or is blamed on the same token. That is the text that is read from a file
with its characters. -/
theorem read_unifyLineEnds {text : String} {spans : List Span}
    (hspans : (Stream.ofText text).spans? = .ok spans)
    (hstrings : ∀ s ∈ spans, s.token.kind = .string → '\r' ∉ s.source text.toList) :
    let file := String.ofList (unifyLineEnds text.toList)
    (∀ name bytes, Utf8.decode bytes = .ok text.toList →
      CommandLine.sourceOf name (.file bytes) = .ok file) ∧
    (∃ spans', (Stream.ofText file).spans? = .ok spans' ∧
      spans'.map Span.token = spans.map Span.token) ∧
    ∀ depth, SameReading text file (Program.ofText depth text) (Program.ofText depth file) := by
  obtain ⟨hfault, rfl⟩ := spans?_eq_ok_iff.1 hspans
  obtain ⟨hfault', htokens⟩ := Stream.tokens_unifyLineEnds hfault hstrings
  refine ⟨fun name bytes hdecode => ?_, ⟨_, spans?_eq_ok_iff.2 ⟨hfault', rfl⟩, htokens⟩,
    sameReading_of_tokens hfault hfault' htokens⟩
  rw [CommandLine.sourceOf, hdecode]

/-- A string and, on the next line, a parenthesis that closes nothing. -/
theorem read_stray_parenthesis_unifyLineEnds :
    (Stream.ofText "\"s\"\r\n)").spans? = .ok [⟨0, .string "s", 3⟩, ⟨5, .closeParen, 6⟩] ∧
    String.ofList (unifyLineEnds "\"s\"\r\n)".toList) = "\"s\"\n)" ∧
    Program.ofText 9 "\"s\"\r\n)" =
      .error (.unfit (.ofExpectation "\"s\"\r\n)".toList 5 .endOfText)) ∧
    ∃ (d : Diagnostic) (location : Nat), Program.ofText 9 "\"s\"\n)" = .error (.unfit d) ∧
      d.location = location ∧
      (Stream.ofText "\"s\"\n)").tokensBefore location = [.string "s"] := by
  have hspans : (Stream.ofText "\"s\"\r\n)").spans? =
      .ok [⟨0, .string "s", 3⟩, ⟨5, .closeParen, 6⟩] := by cbv
  have hstrings : ∀ s ∈ ([⟨0, .string "s", 3⟩, ⟨5, .closeParen, 6⟩] : List Span),
      s.token.kind = .string → '\r' ∉ s.source "\"s\"\r\n)".toList := by decide
  have hfile : String.ofList (unifyLineEnds "\"s\"\r\n)".toList) = "\"s\"\n)" := by cbv
  have hmisfits : Grammar.program (Grammar.expression 9) (Stream.ofText "\"s\"\r\n)").fault
      (Stream.ofText "\"s\"\r\n)").tokens = .misfits [.closeParen] .endOfText := by cbv
  have hplace : (Stream.ofText "\"s\"\r\n)").placeOf [Token.closeParen].length = 5 := by cbv
  have hunfit : Program.ofText 9 "\"s\"\r\n)" =
      .error (.unfit (.ofExpectation "\"s\"\r\n)".toList 5 .endOfText)) :=
    read_eq_unfit_iff.2 ⟨_, _, hmisfits, by rw [hplace]⟩
  have hbefore : (Stream.ofText "\"s\"\r\n)").tokensBefore 5 = [.string "s"] := by cbv
  have hsame := (read_unifyLineEnds hspans hstrings).2.2 9
  rw [hfile, hunfit] at hsame
  generalize hread : Program.ofText 9 "\"s\"\n)" = reading at hsame
  cases hsame with
  | unfit hlocation hlocation' htokens _ =>
    cases hlocation
    exact ⟨hspans, hfile, hunfit, _, _, rfl, hlocation', htokens.trans hbefore⟩

end Calx
