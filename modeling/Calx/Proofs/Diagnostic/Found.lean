import Mathlib.Data.List.TakeWhile
import Calx.Proofs.Diagnostic.Location
import Calx.Proofs.Grammar.Pointing
import Calx.Proofs.Token.Cut

/-!
# What stands where a text is blamed

* `IsUnfit.standsAt`: a text is blamed on its end, on one of its tokens, or on what cannot be cut
  behind a lone semicolon.
* `tellsRest_iff`: what a diagnostic tells to be found at a place is how the text goes on there,
  unless a blank character stands there. Blank characters are passed over, and more characters are
  blank than may stand between two tokens.
* `got_of_unfit`: no token begins with a blank character, so a diagnostic tells how the text goes on
  where it is blamed, but for a text that begins with a lone semicolon.
-/

namespace Calx

open Text

/-! ## Blank characters -/

namespace Text

theorem isBlank_of_isLineEnd {c : Char} (h : isLineEnd c = true) : isBlank c = true := by
  simp [isLineEnd, lineEndRanges] at h
  simp [isBlank, blankRanges]
  omega

theorem not_blank_of_isAlphanum {c : Char} (h : c.isAlphanum = true) : isBlank c = false := by
  simp only [Char.isAlphanum, Char.isAlpha, Char.isUpper, Char.isLower, Char.isDigit,
    Bool.or_eq_true, Bool.and_eq_true, decide_eq_true_eq, UInt32.le_iff_toNat_le, ge_iff_le] at h
  have hranges : (65 ≤ c.toNat ∧ c.toNat ≤ 90 ∨ 97 ≤ c.toNat ∧ c.toNat ≤ 122) ∨
    48 ≤ c.toNat ∧ c.toNat ≤ 57 := h
  simp [isBlank, blankRanges]
  omega

theorem trimLeft_of_not_blank {c : Char} (hc : isBlank c = false) (cs : List Char) :
    trimLeft (c :: cs) = c :: cs :=
  List.dropWhile_cons_of_neg (by simp [hc])

theorem not_blank_of_head? {c : Char} {cs : List Char} (h : (trimLeft cs).head? = some c) :
    isBlank c = false := by
  have hhead := List.head?_dropWhile_not isBlank cs
  rw [← trimLeft, h] at hhead
  simpa using hhead

end Text

theorem Token.not_blank_of_isWordChar {c : Char} (h : isWordChar c = true) : isBlank c = false := by
  rcases Bool.or_eq_true_iff.1 h with h | h
  · exact not_blank_of_isAlphanum h
  · rw [beq_iff_eq.1 h]
    rfl

/-- No token begins with a blank character. -/
theorem Cut.IsAt.not_blank {c : Char} {cs : List Char} {t : Cut} (h : t.IsAt (c :: cs)) :
    isBlank c = false := by
  cases h with
  | mark hc =>
    unfold Token.ofPunctuation? at hc
    split at hc <;> first | rfl | cases hc
  | word hc => exact Token.not_blank_of_isWordChar (Token.isWordChar_of_isWordStart hc)
  | number hscan =>
    have hdigit := Number.Numeral.isDigit_of_scan? hscan
    exact Token.not_blank_of_isWordChar (Token.isWordChar_of_isDigit hdigit)
  | string => rfl

/-! ## Where a text is blamed -/

/-- What can stand where a text is blamed. -/
inductive StandsAt (text : String) (location : Nat) : Prop
  /-- Nothing: the text ends. -/
  | ending : location = text.length → StandsAt text location
  /-- A token. -/
  | token {s : Span} : s ∈ (Stream.ofText text).spans → s.start = location → StandsAt text location
  /-- What no token can be cut from, behind a lone semicolon. -/
  | uncuttable {e : LexError} : (Stream.ofText text).tokens = [.semicolon] →
      Token.cut (text.toList.drop location) = .error e → StandsAt text location

section Places

variable {depth : Nat} {text : String} {d : Diagnostic} {location : Nat}

theorem standsAt_placeOf {rest : List Token} (hrest : rest <:+ (Stream.ofText text).tokens)
    (hleft : rest ≠ [] ∨ (Stream.ofText text).fault = none ∨
      (Stream.ofText text).tokens = [.semicolon]) :
    StandsAt text ((Stream.ofText text).placeOf rest.length) := by
  obtain ⟨front, htokens⟩ := hrest
  obtain ⟨before, after, hspans, rfl, rfl⟩ := List.map_eq_append_iff.1 htokens.symm
  rw [List.length_map, Stream.placeOf_append hspans]
  cases after with
  | cons s after => exact .token (by simp [hspans]) rfl
  | nil =>
    obtain ⟨-, hcut⟩ := Stream.cut_finish (List.drop_zero : text.toList.drop 0 = _)
    rw [← Stream.ofText] at hcut
    cases hfault : (Stream.ofText text).fault with
    | none =>
      rw [hfault] at hcut
      have hle := Stream.finish_le 0 text.toList
      have hge := List.drop_eq_nil_iff.1 (Token.eq_nil_of_cut hcut)
      rw [← Stream.ofText, String.length_toList] at hle
      rw [String.length_toList] at hge
      exact .ending (by dsimp only [Stream.startOf]; omega)
    | some e =>
      rw [hfault] at hcut
      have hlone := (hleft.resolve_left (by simp)).resolve_left (by simp [hfault])
      exact .uncuttable hlone hcut

theorem IsUnfit.standsAt (h : IsUnfit depth text d) :
    ∃ (location : Nat) (e : Expectation), d = .ofExpectation text.toList location e ∧
      location ≤ text.length ∧ StandsAt text location := by
  have hle := Stream.placeOf_le text
  rw [String.length_toList] at hle
  rcases h with h | h
  · obtain ⟨rest, e, hmisfits, rfl⟩ := read_eq_unfit_iff.1 h
    obtain ⟨hrest, hleft⟩ := misfits_program_expression hmisfits
    exact ⟨_, e, rfl, hle _, standsAt_placeOf hrest (hleft.imp_right fun h => .inr h.2)⟩
  · obtain ⟨rest, e, hmisfits, rfl⟩ := read_eq_unfit_iff.1 h
    obtain ⟨hrest, hleft⟩ := misfits_wholeExpression hmisfits
    exact ⟨_, e, rfl, hle _, standsAt_placeOf hrest (hleft.imp_right .inl)⟩

/-- A blank character stands at the place. -/
def BlankAt (text : String) (location : Nat) : Prop :=
  ∃ c, text.toList[location]? = some c ∧ isBlank c = true

/-- Without a blank character at the place nothing is passed over. -/
theorem trimLeft_drop (h : ¬BlankAt text location) :
    trimLeft (text.toList.drop location) = text.toList.drop location := by
  rw [BlankAt, ← List.head?_drop] at h
  cases hdrop : text.toList.drop location with
  | nil => rfl
  | cons c rest =>
    by_cases hc : isBlank c = true
    · exact absurd ⟨c, by rw [hdrop, List.head?_cons], hc⟩ h
    · exact trimLeft_of_not_blank (by simpa using hc) rest

/-- A text is blamed on a blank character only behind a lone semicolon. -/
theorem StandsAt.tokens_eq (h : StandsAt text location) (hblank : BlankAt text location) :
    (Stream.ofText text).tokens = [.semicolon] := by
  obtain ⟨c, hc, hisBlank⟩ := hblank
  cases h with
  | ending hlocation =>
    rw [hlocation, ← String.length_toList, List.getElem?_length] at hc
    cases hc
  | @token s hs hlocation =>
    obtain ⟨before, after, hspans⟩ := List.append_of_mem hs
    have hfits : s.Fits text.toList (Span.endOf 0 before) :=
      Stream.fits_of_spans List.drop_zero hspans
    have hcut := hfits.cut
    obtain ⟨hlt, rfl⟩ := List.getElem?_eq_some_iff.1 hc
    rw [hlocation, List.drop_eq_getElem_cons hlt] at hcut
    rw [(Token.cut_eq_some_iff.1 hcut).not_blank] at hisBlank
    cases hisBlank
  | uncuttable hlone => exact hlone

end Places

/-! ## What is found -/

namespace Diagnostic

/-- What is told is the beginning of a text between quotes: at most ten characters, at least one,
and no line end among them. -/
def Quotes (cs : List Char) (told : String) : Prop :=
  ∃ word, word ≠ [] ∧ word <+: cs ∧ word.length ≤ 10 ∧ (∀ c ∈ word, isLineEnd c = false) ∧
    told = "'" ++ String.ofList word ++ "'"

/-- What is quoted begins as the text does. -/
theorem Quotes.head? {cs : List Char} {told : String} (h : Quotes cs told) :
    ∃ c ds, cs.head? = some c ∧ told.toList = '\'' :: c :: ds := by
  obtain ⟨word, hne, ⟨rest, rfl⟩, -, -, rfl⟩ := h
  obtain ⟨c, word, rfl⟩ := List.exists_cons_of_ne_nil hne
  exact ⟨c, word ++ ['\''], rfl, by simp⟩

theorem Quotes.ne_endOfInput {cs : List Char} {told : String} (h : Quotes cs told) :
    told ≠ endOfInput := by
  obtain ⟨c, ds, -, htold⟩ := h.head?
  rintro rfl
  simp [endOfInput] at htold

theorem found_of_nil {cs : List Char} {location : Nat} (h : trimLeft (cs.drop location) = []) :
    found cs location = endOfInput := by
  rw [found, h]

theorem found_of_cons {cs : List Char} {location : Nat} {c : Char} {rest : List Char}
    (h : trimLeft (cs.drop location) = c :: rest) :
    found cs location =
      "'" ++ String.ofList ((firstLine (c :: rest)).take foundWidth) ++ "'" := by
  rw [found, h]

/-- What is found is how the text goes on behind blank characters. -/
theorem found_cases (cs : List Char) (location : Nat) :
    trimLeft (cs.drop location) = [] ∧ found cs location = endOfInput ∨
      Quotes (trimLeft (cs.drop location)) (found cs location) := by
  cases htrim : trimLeft (cs.drop location) with
  | nil => exact .inl ⟨rfl, found_of_nil htrim⟩
  | cons c rest =>
    have hline : isLineEnd c = false := by
      by_contra hc
      have hblank := isBlank_of_isLineEnd (by simpa using hc)
      rw [not_blank_of_head? (by rw [htrim, List.head?_cons])] at hblank
      cases hblank
    refine .inr ⟨(firstLine (c :: rest)).take foundWidth, ?_, ?_, List.length_take_le .., ?_,
      found_of_cons htrim⟩
    · rw [firstLine, List.takeWhile_cons_of_pos (by simp [hline]), foundWidth, List.take_succ_cons]
      exact List.cons_ne_nil _ _
    · exact (List.take_prefix _ _).trans (List.takeWhile_prefix _)
    · intro d hd
      simpa using List.mem_takeWhile_imp (List.mem_of_mem_take hd)

/-- What is told is how the text goes on at a place: that it ends there, or its next characters. -/
structure TellsRest (text : String) (location : Nat) (told : String) : Prop where
  /-- It is told to end exactly where it does. -/
  ends : told = endOfInput ↔ location = text.length
  /-- Otherwise its next characters are quoted. -/
  goes_on : location ≠ text.length → Quotes (text.toList.drop location) told

/-- What is found at a place is how the text goes on, unless a blank character stands there. -/
theorem tellsRest_iff {text : String} {location : Nat} (hle : location ≤ text.length) :
    TellsRest text location (found text.toList location) ↔ ¬BlankAt text location := by
  have hends : text.toList.drop location = [] ↔ location = text.length := by
    rw [List.drop_eq_nil_iff, String.length_toList]
    omega
  have hcases := found_cases text.toList location
  constructor
  · rintro htells ⟨c, hc, hblank⟩
    rw [← List.head?_drop] at hc
    have hquotes : Quotes (text.toList.drop location) (found text.toList location) := by
      refine htells.goes_on fun hlocation => ?_
      rw [hends.2 hlocation] at hc
      cases hc
    -- The quote would begin with the blank character and with one that is not blank.
    obtain ⟨d, ds, hd, htold⟩ := hquotes.head?
    rcases hcases with ⟨-, hend⟩ | htrim
    · exact hquotes.ne_endOfInput hend
    · obtain ⟨d', ds', hd', htold'⟩ := htrim.head?
      cases htold.symm.trans htold'
      cases hc.symm.trans hd
      rw [not_blank_of_head? hd'] at hblank
      cases hblank
  · intro hblank
    rw [trimLeft_drop hblank, hends] at hcases
    rcases hcases with ⟨hlocation, hend⟩ | hquotes
    · exact ⟨iff_of_true hend hlocation, fun h => absurd hlocation h⟩
    · obtain ⟨c, -, hc, -⟩ := hquotes.head?
      have hlocation : location ≠ text.length := by
        rw [Ne, ← hends]
        rintro hnil
        rw [hnil] at hc
        cases hc
      exact ⟨iff_of_false hquotes.ne_endOfInput hlocation, fun _ => hquotes⟩

end Diagnostic

open Diagnostic

/-- **What a diagnostic tells to be found.** A text is blamed on its end, on a token, or on what
cannot be cut behind a lone semicolon. Exactly if no blank character stands there, the diagnostic
tells that the text ends, if it does, and else quotes how it goes on. A blank character stands there
only behind a lone semicolon; then the diagnostic tells how the text goes on behind blank
characters. -/
theorem got_of_unfit {depth : Nat} {text : String} {d : Diagnostic} (h : IsUnfit depth text d) :
    ∃ (location : Nat) (got : String), d.location = location ∧ d.got = some got ∧
      location ≤ text.length ∧ StandsAt text location ∧
      (TellsRest text location got ↔ ¬BlankAt text location) ∧
      (BlankAt text location → (Stream.ofText text).tokens = [.semicolon] ∧
        (trimLeft (text.toList.drop location) = [] ∧ got = endOfInput ∨
          Quotes (trimLeft (text.toList.drop location)) got)) := by
  obtain ⟨location, e, rfl, hle, hstands⟩ := h.standsAt
  exact ⟨location, found text.toList location, rfl, rfl, hle, hstands, tellsRest_iff hle,
    fun hblank => ⟨hstands.tokens_eq hblank, found_cases text.toList location⟩⟩

/-- A name of eleven characters where a parenthesis could be closed. -/
theorem got_of_long_name :
    IsUnfit 9 "(x longer_name"
      (.ofExpectation "(x longer_name".toList 3 (.token .closeParen)) ∧
    TellsRest "(x longer_name" 3 "'longer_nam'" := by
  have hmisfits : Grammar.wholeExpression (Grammar.expression 9)
      (Stream.ofText "(x longer_name").fault
      (Stream.ofText "(x longer_name").tokens =
        .misfits [.identifier "longer_name"] (.token .closeParen) := by cbv
  have hplace : (Stream.ofText "(x longer_name").placeOf
      [Token.identifier "longer_name"].length = 3 := by cbv
  have hunfit : IsUnfit 9 "(x longer_name"
      (.ofExpectation "(x longer_name".toList 3 (.token .closeParen)) :=
    .inr (read_eq_unfit_iff.2 ⟨_, _, hmisfits, by rw [hplace]⟩)
  have hgot : found "(x longer_name".toList 3 = "'longer_nam'" := by decide
  have hblank : ¬BlankAt "(x longer_name" 3 := by
    rintro ⟨c, hc, hisBlank⟩
    cases hc
    cases hisBlank
  obtain ⟨location, got, hlocation, hfound, -, -, htells, -⟩ := got_of_unfit hunfit
  cases hlocation
  cases hfound
  exact ⟨hunfit, hgot ▸ htells.2 hblank⟩

/-- **A blank character behind a lone semicolon is told to be the end of the input.** A no-break
space is blank, but it may not stand between two tokens. -/
theorem got_of_no_break_space :
    ∃ d, Program.ofText 250 ";\u00a0" = .error (.unfit d) ∧ d.location = (1 : Nat) ∧
      ";\u00a0".length = 2 ∧ d.got = some endOfInput ∧ ¬TellsRest ";\u00a0" 1 endOfInput := by
  have hmisfits : Grammar.program (Grammar.expression 3) (Stream.ofText ";\u00a0").fault
      (Stream.ofText ";\u00a0").tokens = .misfits [] .endOfText := by cbv
  have hplace : (Stream.ofText ";\u00a0").placeOf ([] : List Token).length = 1 := by cbv
  have hunfit : Program.ofText 3 ";\u00a0" =
      .error (.unfit (.ofExpectation ";\u00a0".toList 1 .endOfText)) :=
    read_eq_unfit_iff.2 ⟨_, _, hmisfits, by rw [hplace]⟩
  refine ⟨_, ofText_unfit_of_le (by decide) hunfit, rfl, rfl, rfl, fun htells => ?_⟩
  exact absurd (htells.ends.1 rfl) (by decide)

end Calx
