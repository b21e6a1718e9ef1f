import Calx.Token.Basic
import Calx.Token.Quoted
import Calx.Text.Blank

/-!
# Cutting a token

`cut` takes one token from the start of a text and tells how many characters it takes; `cutPast`
skips layout first. A text that starts with layout, or with nothing that starts a token, cannot be
cut. A token is never empty (`width_pos_of_cut`), and only the empty text has none and is no error
(`eq_nil_of_cut`).
-/

namespace Calx

/-- A token at the start of a text. -/
structure Cut where
  /-- The token. -/
  token : Token
  /-- How many characters it takes. -/
  width : Nat
deriving DecidableEq

namespace Token

/-- A word starts with a letter or an underscore; only ASCII letters count. -/
def isWordStart (c : Char) : Bool :=
  c.isAlpha || c == '_'

/-- A word goes on with letters, digits and underscores. -/
def isWordChar (c : Char) : Bool :=
  c.isAlphanum || c == '_'

/-- Cuts the word at the start of a text. -/
def cutWord (cs : List Char) : Cut :=
  let word := cs.takeWhile isWordChar
  ⟨ofWord (String.ofList word), word.length⟩

/-- Cuts the string literal at the start of a text, whose opening quote is not looked at. -/
def cutString (cs : List Char) : Except LexError Cut :=
  (Quoted.decode (cs.drop 1)).map fun r => ⟨.string (String.ofList r.1), r.2 + 1⟩

/-- Cuts the token at the start of a text; the empty text has none. -/
def cut : List Char → Except LexError (Option Cut)
  | [] => .ok none
  | c :: cs =>
    match ofPunctuation? c with
    | some t => .ok (some ⟨t, 1⟩)
    | none =>
      if isWordStart c then .ok (some (cutWord (c :: cs)))
      else
        match Number.Numeral.scan? (c :: cs) with
        | some (n, width) => .ok (some ⟨.number n.toFloat, width⟩)
        | none =>
          if c = '"' then (cutString (c :: cs)).map some
          else .error (.unexpectedCharacter c)

/-- How many layout characters stand at the start of a text. -/
def layoutWidth (cs : List Char) : Nat :=
  (cs.takeWhile Text.isLayout).length

/-- Cuts the first token of a text that may start with layout; the width counts the layout too. -/
def cutPast (cs : List Char) : Except LexError (Option Cut) :=
  (cut (cs.drop (layoutWidth cs))).map fun found =>
    found.map fun c => ⟨c.token, layoutWidth cs + c.width⟩

theorem layoutWidth_cons_of_layout {c : Char} (hc : Text.isLayout c = true) (cs : List Char) :
    layoutWidth (c :: cs) = layoutWidth cs + 1 := by
  rw [layoutWidth, List.takeWhile_cons_of_pos hc]
  rfl

theorem layoutWidth_cons_of_other {c : Char} (hc : Text.isLayout c = false) (cs : List Char) :
    layoutWidth (c :: cs) = 0 := by
  rw [layoutWidth, List.takeWhile_cons_of_neg (by simp [hc])]
  rfl

/-! ## Widths -/

theorem eq_ok_of_map {α β : Type} {f : α → β} {x : Except LexError α} {b : β}
    (h : x.map f = .ok b) : ∃ a, x = .ok a ∧ f a = b := by
  cases x with
  | error e => simp [Except.map] at h
  | ok a => exact ⟨a, rfl, by simpa [Except.map] using h⟩

theorem isWordChar_of_isWordStart {c : Char} (h : isWordStart c = true) : isWordChar c = true := by
  simp only [isWordStart, isWordChar, Char.isAlphanum, Bool.or_eq_true] at *
  rcases h with h | h
  · exact .inl (.inl h)
  · exact .inr h

theorem width_cutWord_pos {c : Char} (h : isWordStart c = true) (cs : List Char) :
    0 < (cutWord (c :: cs)).width := by
  simp [cutWord, isWordChar_of_isWordStart h]

theorem width_pos_of_scan? {cs : List Char} {n : Number.Numeral} {width : Nat}
    (h : Number.Numeral.scan? cs = some (n, width)) : 0 < width := by
  simp only [Number.Numeral.scan?] at h
  split at h
  · contradiction
  · rename_i hw
    have := List.length_pos_iff.2 hw
    split at h <;> simp only [Option.some.injEq, Prod.mk.injEq] at h <;> omega

theorem width_pos_of_cutString {cs : List Char} {c : Cut} (h : cutString cs = .ok c) :
    0 < c.width := by
  obtain ⟨r, -, rfl⟩ := eq_ok_of_map h
  exact Nat.succ_pos _

/-- What a cut from a text that starts with `c` can be. -/
theorem cut_cons_cases {c : Char} {cs : List Char} {r : Option Cut} (h : cut (c :: cs) = .ok r) :
    ∃ t, r = some t ∧ 0 < t.width := by
  rw [cut] at h
  split at h
  · cases h
    exact ⟨_, rfl, Nat.one_pos⟩
  · split at h
    · rename_i hs
      cases h
      exact ⟨_, rfl, width_cutWord_pos hs _⟩
    · split at h
      · rename_i hn
        cases h
        exact ⟨_, rfl, width_pos_of_scan? hn⟩
      · split at h
        · obtain ⟨t, ht, rfl⟩ := eq_ok_of_map h
          exact ⟨t, rfl, width_pos_of_cutString ht⟩
        · cases h

/-- A token takes at least one character. -/
theorem width_pos_of_cut {cs : List Char} {t : Cut} (h : cut cs = .ok (some t)) : 0 < t.width := by
  cases cs with
  | nil => simp [cut] at h
  | cons c cs =>
    obtain ⟨_, ht, hw⟩ := cut_cons_cases h
    cases ht
    exact hw

/-- Only the empty text has no token and no error. -/
theorem eq_nil_of_cut {cs : List Char} (h : cut cs = .ok none) : cs = [] := by
  cases cs with
  | nil => rfl
  | cons c cs =>
    obtain ⟨_, ht, -⟩ := cut_cons_cases h
    cases ht

end Token

end Calx
