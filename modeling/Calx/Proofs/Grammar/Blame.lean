import Calx.Proofs.Diagnostic.Message
import Calx.Proofs.Grammar.Coverage
import Calx.Proofs.Grammar.Ending
import Calx.Proofs.Grammar.Text
import Calx.Proofs.Token.Spans

/-!
# Where a program is blamed

A text that does not follow the grammar is blamed on the end of the longest of its beginnings that is
a program and ends with a token (`ofText_unfit`). The tokens in front of the blame are a program, which
is read at the same depth where the text ends there (`program_eq_fits_of_misfits`). Those in front of a
later place are not (`Calx.length_le_of_misfits`).
-/

namespace Calx

open Rule

/-! ## Tokens -/

section Tokens

variable {depth : Nat} {fault : Option LexError} {ts us rest : List Token}
  {expected : Expectation}

/-- The tokens in front of the blame are a program. -/
theorem isProgram_of_misfits {n : Nat} {nested : Rule Expr} (hr : Reads n nested IsExpr)
    (h : Grammar.program nested fault ts = .misfits rest expected) :
    ∃ us p, ts = us ++ rest ∧ IsProgram us p := by
  obtain ⟨p, between, hstmts, hclosing⟩ := misfits_program h
  obtain ⟨-, -, hmark⟩ := misfits_closing hclosing
  have hreads := reads_list (reads_separated (k := .semicolon) rfl (reads_statement hr))
  obtain ⟨us, rfl, hp⟩ := hreads.sound hstmts
  obtain ⟨vs, rfl, hvs⟩ := (Reads.mark n rfl).optional.sound hmark
  rcases hvs with rfl | ⟨rfl, -⟩
  · exact ⟨us ++ [.semicolon], p, by simp, .closed hp⟩
  · exact ⟨us, p, rfl, .bare hp⟩

/-- Whoever does not know what follows the tokens in front of the blame does not nest too deep. -/
theorem exists_ne_tooDeep_of_misfits
    (h : Grammar.program (Grammar.expression (depth + 1)) fault (us ++ rest) =
      .misfits rest expected) :
    ∃ e, Grammar.program (Grammar.expression (depth + 1)) (some e) us ≠ .abandoned .tooDeep := by
  by_cases hrest : rest = []
  · obtain ⟨p, between, -, hclosing⟩ := misfits_program h
    obtain ⟨-, hend, -⟩ := misfits_closing hclosing
    obtain ⟨e, rfl⟩ := Option.ne_none_iff_exists'.1 (hend.resolve_left (not_not_intro hrest))
    rw [hrest, List.append_nil] at h
    exact ⟨e, by rw [h]; simp⟩
  · refine ⟨.unexpectedEnd, fun hdeep => ?_⟩
    have hsteady : Steady (Grammar.program (Grammar.expression (depth + 1))) :=
      steady_program (steady_level (depth + 1)).2 (needy_expression depth)
    rcases hsteady .unexpectedEnd us with hab | hext
    · rw [hab] at hdeep
      cases hdeep
    · have heq := hext fault rest hrest
      rw [h, hdeep] at heq
      cases heq

/-- A text that is blamed somewhere is read at the same depth if it ends there. -/
theorem program_eq_fits_of_misfits {p : Program} (hp : IsProgram us p)
    (h : Grammar.program (Grammar.expression (depth + 1)) fault (us ++ rest) =
      .misfits rest expected) :
    Grammar.program (Grammar.expression (depth + 1)) none us = .fits p [] := by
  obtain ⟨e, hopen⟩ := exists_ne_tooDeep_of_misfits h
  have hclean := program_ne_tooDeep (endsAt_level (depth + 1)).2 hopen
  let deep := max (depth + 1) us.length + 1
  have hle : depth + 1 ≤ deep := by omega
  exact ((approximates_program_expression hle none us).resolve_left hclean).trans
    (program_eq_of_isProgram hp (takes_level deep).2 refuses_expression (by omega))

/-- No longer beginning of the tokens than the one in front of the blame is a program. -/
theorem length_le_of_misfits_expression {vs ws : List Token} {p : Program} (hp : IsProgram vs p)
    (h : Grammar.program (Grammar.expression depth) fault (vs ++ ws) = .misfits rest expected) :
    rest.length ≤ ws.length := by
  let deep := max depth (vs ++ ws).length + 1
  have hle : depth ≤ deep := by omega
  exact length_le_of_misfits (covers_level deep).2 (reads_level deep).2 (takes_level deep).2 hp
    (by omega) ((approximates_program_expression hle).misfits h)

end Tokens

/-! ## Texts -/

/-- The beginning of a text up to a place, where something other than layout goes on, is read; no
longer beginning that ends with a token is. -/
structure IsLongestProgram (depth : Nat) (text : String) (place : Nat) : Prop where
  /-- The text goes on with a character that is not layout. -/
  goes_on : ∃ c, text.toList[place]? = some c ∧ Text.isLayout c = false
  /-- The place lies in no token. -/
  between : ∀ s ∈ (Stream.ofText text).spans, s.stop ≤ place ∨ place ≤ s.start
  /-- The beginning is read. -/
  is_read : ∃ p, Program.ofText depth (String.ofList (text.toList.take place)) = .ok p
  /-- A longer one is not, however deep it may nest. -/
  longest : ∀ s ∈ (Stream.ofText text).spans, place < s.stop →
    ∀ depth' p, Program.ofText depth' (String.ofList (text.toList.take s.stop)) ≠ .ok p

section Texts

variable {depth : Nat} {text : String} {before after : List Span} {expected : Expectation}

theorem tokens_of_spans (h : (Stream.ofText text).spans = before ++ after) :
    (Stream.ofText text).tokens = before.map Span.token ++ after.map Span.token := by
  rw [Stream.tokens, h, List.map_append]

/-- A text that ends with a token behind the blame is not read. -/
theorem ofText_ne_ok_of_misfits (hspans : (Stream.ofText text).spans = before ++ after)
    (h : Grammar.program (Grammar.expression depth) (Stream.ofText text).fault
      (Stream.ofText text).tokens = .misfits (after.map Span.token) expected)
    {s : Span} (hs : s ∈ (Stream.ofText text).spans)
    (hlt : (Stream.ofText text).placeOf after.length < s.stop) (depth' : Nat) (p : Program) :
    Program.ofText depth' (String.ofList (text.toList.take s.stop)) ≠ .ok p := by
  intro hread
  obtain ⟨front, back, hsplit⟩ := List.append_of_mem hs
  obtain ⟨-, hp⟩ := isProgram_of_ofText hread
  rw [Stream.ofText_take_stop hsplit] at hp
  -- Fewer tokens are left behind `s` than at the blame, so `s` would stand in front of it.
  rw [List.append_cons] at hsplit
  rw [tokens_of_spans hsplit] at h
  have hle := length_le_of_misfits_expression hp h
  rw [List.length_map, List.length_map] at hle
  have hbefore : front ++ [s] <+: before := by
    refine List.prefix_of_prefix_length_le ⟨back, hsplit.symm⟩ ⟨after, hspans.symm⟩ ?_
    have hlen := congrArg List.length (hsplit.symm.trans hspans)
    simp only [List.length_append] at hlen ⊢
    omega
  have hstop := (Stream.placeOf_between hspans).1 s (hbefore.subset (by simp))
  exact absurd hlt (Nat.not_lt.2 hstop)

theorem isLongestProgram_of_misfits {p : Program}
    (hspans : (Stream.ofText text).spans = before ++ after)
    (hleft : after ≠ [] ∨ (Stream.ofText text).fault ≠ none)
    (hp : IsProgram (before.map Span.token) p)
    (h : Grammar.program (Grammar.expression (depth + 1)) (Stream.ofText text).fault
      (Stream.ofText text).tokens = .misfits (after.map Span.token) expected) :
    IsLongestProgram (depth + 1) text ((Stream.ofText text).placeOf after.length) where
  goes_on := Stream.not_layout_of_placeOf hspans hleft
  between s hs := by
    rw [hspans] at hs
    exact (List.mem_append.1 hs).imp ((Stream.placeOf_between hspans).1 s)
      ((Stream.placeOf_between hspans).2 s)
  is_read := by
    have hcut := Stream.ofText_take hspans (Stream.placeOf_between hspans).1 (Nat.le_refl _)
    rw [tokens_of_spans hspans] at h
    refine ⟨p, read_eq_ok_iff.2 ⟨[], ?_⟩⟩
    rw [← Stream.ofText] at hcut
    rw [hcut]
    exact program_eq_fits_of_misfits hp h
  longest _ hs hlt := ofText_ne_ok_of_misfits hspans h hs hlt

end Texts

/-- **Where a program is blamed.** A text that does not follow the grammar is blamed on the end of the
longest of its beginnings that end with a token and are read as programs. It is always the end of the
text that was expected there, so no parenthesis is said to be left open, and the diagnostic is the
one that the message makes. A depth of 0 is left out, at which nothing is read. -/
theorem ofText_unfit {depth : Nat} {text : String} {d : Diagnostic}
    (h : Program.ofText (depth + 1) text = .error (.unfit d)) :
    ∃ place : Nat, d.location = place ∧ place < text.length ∧
      IsLongestProgram (depth + 1) text place ∧
      d.expected = ["end of text"] ∧
      Diagnostic.Hint.openParenthesis.message ∉ d.suggestions ∧
      d = .ofMessage text.toList place Diagnostic.endOfTextMessage := by
  obtain ⟨rest, expected, hmisfits, rfl⟩ := read_eq_unfit_iff.1 h
  obtain ⟨q, between, -, hclosing⟩ := misfits_program hmisfits
  obtain ⟨rfl, hend, -⟩ := misfits_closing hclosing
  obtain ⟨us, p, htokens, hp⟩ := isProgram_of_misfits (reads_level (depth + 1)).2 hmisfits
  obtain ⟨before, after, hspans, rfl, rfl⟩ := List.map_eq_append_iff.1 htokens
  rw [List.length_map]
  have hlongest := isLongestProgram_of_misfits hspans (hend.imp_left (by simp)) hp hmisfits
  obtain ⟨c, hc, -⟩ := hlongest.goes_on
  obtain ⟨hlt, -⟩ := List.getElem?_eq_some_iff.1 hc
  have hne : text.toList ≠ [] := List.length_pos_iff.1 (Nat.zero_lt_of_lt hlt)
  rw [String.length_toList] at hlt
  exact ⟨_, rfl, hlt, hlongest, rfl, Diagnostic.openParenthesis_not_mem _ _ rfl,
    (Diagnostic.ofMessage_endOfText hne _).symm⟩

/-- An operand is missing, with a parenthesis left open. -/
theorem isLongestProgram_open_parenthesis :
    Program.ofText 9 "x +\n(y * " =
      .error (.unfit (.ofExpectation "x +\n(y * ".toList 2 .endOfText)) ∧
    IsLongestProgram 9 "x +\n(y * " 2 := by
  have hmisfits : Grammar.program (Grammar.expression 9) (Stream.ofText "x +\n(y * ").fault
      (Stream.ofText "x +\n(y * ").tokens =
        .misfits ((Stream.ofText "x +\n(y * ").tokens.drop 1) .endOfText := by cbv
  have hplace : (Stream.ofText "x +\n(y * ").placeOf
      ((Stream.ofText "x +\n(y * ").tokens.drop 1).length = 2 := by cbv
  have hunfit : Program.ofText 9 "x +\n(y * " =
      .error (.unfit (.ofExpectation "x +\n(y * ".toList 2 .endOfText)) :=
    read_eq_unfit_iff.2 ⟨_, _, hmisfits, by rw [hplace]⟩
  obtain ⟨place, hloc, -, hlongest, -⟩ := ofText_unfit hunfit
  cases hloc
  exact ⟨hunfit, hlongest⟩

end Calx
