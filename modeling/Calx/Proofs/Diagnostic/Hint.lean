import Calx.Proofs.Diagnostic.Found
import Calx.Proofs.Diagnostic.Message
import Calx.Proofs.Grammar.Balance
import Calx.Proofs.Token.Lexeme

/-!
# What the hints tell

A hint is chosen by the characters behind the place where a text is blamed
(`mem_suggestions_iff_sought`), but a program is rejected by its tokens.

* `suggestions_of_unfit`: the hint at a stray `=` is given exactly at that token. The one at a stray
  `in` is given at every word that begins with these letters.
* `extraParenthesis_of_unfit`: the tokens in front of the blame are a program, so their parentheses
  are balanced, and one more closing parenthesis closes nothing. The hint that tells so is right.
-/

namespace Calx

open Text

/-! ## Hints and characters -/

namespace Diagnostic

/-- What a hint looks for at the place of the error. -/
def Hint.sought? : Hint → Option (List Char)
  | openParenthesis => none
  | strayEquals => some ['=']
  | strayIn => some ['i', 'n']
  | extraParenthesis => some [')']

theorem mem_hints_iff {hint : Hint} {word : List Char} (h : hint.sought? = some word)
    (got : String) (closes : Bool) :
    hint ∈ hints got closes ↔ '\'' :: word <+: got.toList := by
  cases hint <;> cases h <;> simp [hints]

theorem prefix_takeWhile_iff {p : Char → Bool} {word cs : List Char} :
    word <+: cs.takeWhile p ↔ word <+: cs ∧ ∀ c ∈ word, p c = true := by
  constructor
  · intro h
    exact ⟨h.trans (List.takeWhile_prefix p), fun c hc => List.mem_takeWhile_imp (h.subset hc)⟩
  · rintro ⟨⟨rest, rfl⟩, hp⟩
    rw [List.takeWhile_append_of_pos hp]
    exact List.prefix_append _ _

/-- What is found begins with a word exactly if the text does, behind blank characters. -/
theorem prefix_found_iff {word : List Char} (hne : word ≠ []) (hlen : word.length ≤ foundWidth)
    (hquote : '\'' ∉ word) (hline : ∀ c ∈ word, isLineEnd c = false) (cs : List Char)
    (location : Nat) :
    '\'' :: word <+: (found cs location).toList ↔ word <+: trimLeft (cs.drop location) := by
  cases htrim : trimLeft (cs.drop location) with
  | nil =>
    rw [found_of_nil htrim]
    simp [endOfInput, hne]
  | cons c rest =>
    -- The closing quote cannot be the last character of the word.
    have hlast (told : List Char) : word ≠ told ++ ['\''] := by
      rintro rfl
      simp at hquote
    have htold (told : List Char) :
        ("'" ++ String.ofList told ++ "'").toList = '\'' :: (told ++ ['\'']) := by simp
    rw [found_of_cons htrim, htold, List.cons_prefix_cons, List.prefix_concat_iff,
      List.prefix_take_iff, firstLine, prefix_takeWhile_iff]
    simp +contextual [hlast, hlen, hline]

/-- A hint is given exactly if the text goes on with what the hint looks for, behind blank
characters. -/
theorem mem_suggestions_iff_sought {hint : Hint} {word : List Char}
    (h : hint.sought? = some word) {cs : List Char} {location : Nat} {e : Expectation} :
    hint.message ∈ (ofExpectation cs location e).suggestions ↔
      word <+: trimLeft (cs.drop location) := by
  rw [mem_suggestions_iff, mem_hints_iff h]
  cases hint <;> cases h <;>
    exact prefix_found_iff (by decide) (by decide) (by decide) (by simp [isLineEnd, lineEndRanges])
      cs location

end Diagnostic

/-! ## Characters and tokens -/

/-- The token is cut where the text begins. -/
def IsNext (cs : List Char) (t : Token) : Prop :=
  ∃ width, Token.cut cs = .ok (some ⟨t, width⟩)

theorem IsNext.exists_lexeme {cs : List Char} {t : Token} (h : IsNext cs t) :
    ∃ word, word <+: cs ∧ Lexeme word t := by
  obtain ⟨width, hcut⟩ := h
  exact ⟨_, List.take_prefix width cs, .of_cut hcut⟩

/-- The token at a word is a keyword, or the word as an identifier. -/
theorem isNext_word {c : Char} (hc : Token.isWordStart c = true) (cs : List Char) :
    ∃ name : String, name.toList = (c :: cs).takeWhile Token.isWordChar ∧
      ((∃ t, (name, t) ∈ Token.keywords ∧ IsNext (c :: cs) t) ∨
        IsNext (c :: cs) (.identifier name)) := by
  have hword : (Token.cutWord (c :: cs)).IsAt (c :: cs) := .word hc
  have hcut := Token.cut_of_isAt hword
  rw [Token.cutWord] at hcut
  refine ⟨String.ofList _, String.toList_ofList, ?_⟩
  by_cases hk : ∃ t, (String.ofList ((c :: cs).takeWhile Token.isWordChar), t) ∈ Token.keywords
  · obtain ⟨t, ht⟩ := hk
    rw [ofWord_of_mem_keywords ht] at hcut
    exact .inl ⟨t, ht, _, hcut⟩
  · rw [ofWord_of_not_mem_keywords fun t ht => hk ⟨t, ht⟩] at hcut
    exact .inr ⟨_, hcut⟩

theorem isNext_equals_iff {cs : List Char} : IsNext cs .equals ↔ ['='] <+: cs := by
  constructor
  · intro h
    obtain ⟨word, hprefix, hlexeme⟩ := h.exists_lexeme
    cases hlexeme with
    | mark hmem =>
      obtain rfl : _ = '=' := by simpa [Token.marks] using hmem
      exact hprefix
    | keyword hmem => simp [Token.keywords] at hmem
  · rintro ⟨rest, rfl⟩
    exact ⟨1, Token.cut_of_isAt (.mark rfl)⟩

theorem prefix_of_isNext_in {cs : List Char} (h : IsNext cs .inWord) : ['i', 'n'] <+: cs := by
  obtain ⟨word, hprefix, hlexeme⟩ := h.exists_lexeme
  cases hlexeme with
  | mark hmem => simp [Token.marks] at hmem
  | keyword hmem =>
    obtain rfl : _ = "in" := by simpa [Token.keywords] using hmem
    exact hprefix

theorem prefix_of_isNext_identifier {cs : List Char} {name : String}
    (h : IsNext cs (.identifier name)) : name.toList <+: cs := by
  obtain ⟨word, hprefix, hlexeme⟩ := h.exists_lexeme
  cases hlexeme with
  | mark hmem => simp [Token.marks] at hmem
  | keyword hmem => simp [Token.keywords] at hmem
  | identifier => exact hprefix

/-- The letters of the word `in` begin that word or a longer one. -/
theorem prefix_in_iff {cs : List Char} : ['i', 'n'] <+: cs ↔
    IsNext cs .inWord ∨ ∃ name, IsNext cs (.identifier name) ∧ ['i', 'n'] <+: name.toList := by
  constructor
  · rintro ⟨rest, rfl⟩
    obtain ⟨name, hname, hnext⟩ := isNext_word (show Token.isWordStart 'i' = true from rfl)
      ('n' :: rest)
    have hrun : ('i' :: 'n' :: rest).takeWhile Token.isWordChar =
        ['i', 'n'] ++ rest.takeWhile Token.isWordChar := rfl
    rw [hrun] at hname
    rcases hnext with ⟨t, hmem, hnext⟩ | hnext
    · simp only [Token.keywords, List.mem_cons, Prod.mk.injEq, List.mem_nil_iff, or_false] at hmem
      rcases hmem with ⟨rfl, rfl⟩ | ⟨rfl, rfl⟩ | ⟨rfl, rfl⟩
      · simp at hname
      · exact .inl hnext
      · simp at hname
    · exact .inr ⟨name, hnext, hname ▸ List.prefix_append _ _⟩
  · rintro (h | ⟨name, h, hname⟩)
    · exact prefix_of_isNext_in h
    · exact hname.trans (prefix_of_isNext_identifier h)

/-! ## The tokens in front of a place -/

/-- The tokens that end in front of a place. -/
def Stream.tokensBefore (t : Stream) (place : Nat) : List Token :=
  (t.spans.filter fun s => s.stop ≤ place).map Span.token

theorem Stream.tokensBefore_placeOf {text : String} {before after : List Span}
    (h : (ofText text).spans = before ++ after) :
    (ofText text).tokensBefore ((ofText text).placeOf after.length) = before.map Span.token := by
  obtain ⟨hbefore, hafter⟩ := placeOf_between h
  rw [← ofText] at hbefore hafter
  have hkept : before.filter (fun s => s.stop ≤ (ofText text).placeOf after.length) = before :=
    List.filter_eq_self.2 fun s hs => decide_eq_true (hbefore s hs)
  have hdropped : after.filter (fun s => s.stop ≤ (ofText text).placeOf after.length) = [] :=
    List.filter_eq_nil_iff.2 fun s hs => by
      have hlt := (bounds_of_mem (show s ∈ (ofText text).spans by simp [h, hs])).2.1
      have hle := hafter s hs
      simp only [decide_eq_true_eq]
      omega
  rw [tokensBefore, h, List.filter_append, hkept, hdropped, List.append_nil]

/-- The tokens in front of where some of the last ones are left. -/
theorem Stream.tokensBefore_of_tokens {text : String} {us rest : List Token}
    (h : (ofText text).tokens = us ++ rest) :
    (ofText text).tokensBefore ((ofText text).placeOf rest.length) = us := by
  obtain ⟨before, after, hspans, rfl, rfl⟩ := List.map_eq_append_iff.1 h
  rw [List.length_map]
  exact tokensBefore_placeOf hspans

section Programs

variable {depth : Nat} {text : String} {d : Diagnostic}

open Diagnostic

/-- **When a stray token is hinted at.** A program that is rejected is said to have a stray `=`
exactly if that token is cut behind the blank characters at the blame. It is said to have a stray
`in` exactly if this word is cut there, or a name that begins with its letters. There are blank
characters only behind a lone semicolon. -/
theorem suggestions_of_unfit (h : Program.ofText depth text = .error (.unfit d)) :
    ∃ (location : Nat) (rest : List Char), d.location = location ∧
      rest = trimLeft (text.toList.drop location) ∧
      (rest = text.toList.drop location ∨ (Stream.ofText text).tokens = [.semicolon]) ∧
      (Hint.strayEquals.message ∈ d.suggestions ↔ IsNext rest .equals) ∧
      (Hint.strayIn.message ∈ d.suggestions ↔ IsNext rest .inWord ∨
        ∃ name, IsNext rest (.identifier name) ∧ "in".toList <+: name.toList) := by
  obtain ⟨location, e, rfl, -, hstands⟩ := IsUnfit.standsAt (.inl h)
  refine ⟨location, _, rfl, rfl, ?_, ?_, ?_⟩
  · by_cases hblank : BlankAt text location
    · exact .inr (hstands.tokens_eq hblank)
    · exact .inl (trimLeft_drop hblank)
  · rw [mem_suggestions_iff_sought rfl, isNext_equals_iff]
  · rw [mem_suggestions_iff_sought rfl, prefix_in_iff]
    rfl

/-- The word stands behind an expression, without a binding in front. -/
theorem suggestions_of_stray_in :
    Program.ofText 9 "a in x" = .error (.unfit (.ofExpectation "a in x".toList 2 .endOfText)) ∧
    Hint.strayIn.message ∈ (Diagnostic.ofExpectation "a in x".toList 2 .endOfText).suggestions ∧
    IsNext "in x".toList .inWord := by
  have hmisfits : Grammar.program (Grammar.expression 9) (Stream.ofText "a in x").fault
      (Stream.ofText "a in x").tokens = .misfits [.inWord, .identifier "x"] .endOfText := by cbv
  have hplace : (Stream.ofText "a in x").placeOf [Token.inWord, .identifier "x"].length = 2 := by
    cbv
  have hunfit : Program.ofText 9 "a in x" =
      .error (.unfit (.ofExpectation "a in x".toList 2 .endOfText)) :=
    read_eq_unfit_iff.2 ⟨_, _, hmisfits, by rw [hplace]⟩
  have hnext : IsNext "in x".toList .inWord := ⟨2, by cbv⟩
  obtain ⟨location, rest, hlocation, rfl, -, -, hin⟩ := suggestions_of_unfit hunfit
  cases hlocation
  exact ⟨hunfit, hin.2 (.inl hnext), hnext⟩

/-- **A name is taken for the word `in`,** if it begins with these letters. -/
theorem suggestions_of_index :
    ∃ d, Program.ofText 250 "x index" = .error (.unfit d) ∧ d.location = (2 : Nat) ∧
      Hint.strayIn.message ∈ d.suggestions ∧
      IsNext ("x index".toList.drop 2) (.identifier "index") ∧
      ¬IsNext ("x index".toList.drop 2) .inWord := by
  have hmisfits : Grammar.program (Grammar.expression 3) (Stream.ofText "x index").fault
      (Stream.ofText "x index").tokens = .misfits [.identifier "index"] .endOfText := by cbv
  have hplace : (Stream.ofText "x index").placeOf [Token.identifier "index"].length = 2 := by cbv
  have hunfit : Program.ofText 3 "x index" =
      .error (.unfit (.ofExpectation "x index".toList 2 .endOfText)) :=
    read_eq_unfit_iff.2 ⟨_, _, hmisfits, by rw [hplace]⟩
  have hcut : Token.cut ("x index".toList.drop 2) = .ok (some ⟨.identifier "index", 5⟩) := by cbv
  refine ⟨_, ofText_unfit_of_le (by decide) hunfit, rfl, ?_, ⟨5, hcut⟩, ?_⟩
  · exact (mem_suggestions_iff_sought rfl).2 ⟨"dex".toList, rfl⟩
  · rintro ⟨width, hin⟩
    cases hcut.symm.trans hin

/-- **The hint at a closing parenthesis is right.** Where a program is rejected, the parentheses of
the tokens in front are balanced, and one that is closed there closes nothing. The hint is given
exactly if the next character that is not blank is a closing parenthesis. -/
theorem extraParenthesis_of_unfit (h : Program.ofText depth text = .error (.unfit d)) :
    ∃ location : Nat, d.location = location ∧
      Balanced ((Stream.ofText text).tokensBefore location) ∧
      (∀ us, ¬Balanced ((Stream.ofText text).tokensBefore location ++ .closeParen :: us)) ∧
      (Hint.extraParenthesis.message ∈ d.suggestions ↔
        (text.toList.drop location).find? (fun c => !isBlank c) = some ')') := by
  obtain ⟨rest, e, hmisfits, rfl⟩ := read_eq_unfit_iff.1 h
  obtain ⟨us, p, htokens, hp⟩ := isProgram_of_misfits (reads_level depth).2 hmisfits
  obtain ⟨before, after, hspans, rfl, rfl⟩ := List.map_eq_append_iff.1 htokens
  have hbefore := Stream.tokensBefore_placeOf hspans
  rw [List.length_map]
  refine ⟨_, rfl, ?_, ?_, ?_⟩
  · rw [hbefore]
    exact hp.balanced
  · rw [hbefore]
    exact hp.balanced.not_closeParen
  · rw [mem_suggestions_iff_sought rfl, List.find?_not_eq_head?_dropWhile, ← trimLeft]
    cases trimLeft (text.toList.drop ((Stream.ofText text).placeOf after.length)) <;>
      simp [eq_comm]

/-- A parenthesis in a string is no token, and the second one of two closes nothing. -/
theorem extraParenthesis_of_second :
    Program.ofText 9 "f(\")\") )" =
      .error (.unfit (.ofExpectation "f(\")\") )".toList 7 .endOfText)) ∧
    Balanced ((Stream.ofText "f(\")\") )").tokensBefore 7) ∧
    Hint.extraParenthesis.message ∈
      (Diagnostic.ofExpectation "f(\")\") )".toList 7 .endOfText).suggestions := by
  have hmisfits : Grammar.program (Grammar.expression 9) (Stream.ofText "f(\")\") )").fault
      (Stream.ofText "f(\")\") )").tokens = .misfits [.closeParen] .endOfText := by cbv
  have hplace : (Stream.ofText "f(\")\") )").placeOf [Token.closeParen].length = 7 := by cbv
  have hunfit : Program.ofText 9 "f(\")\") )" =
      .error (.unfit (.ofExpectation "f(\")\") )".toList 7 .endOfText)) :=
    read_eq_unfit_iff.2 ⟨_, _, hmisfits, by rw [hplace]⟩
  obtain ⟨location, hlocation, hbalanced, -, hhint⟩ := extraParenthesis_of_unfit hunfit
  cases hlocation
  exact ⟨hunfit, hbalanced, hhint.2 (by decide)⟩

end Programs

end Calx
