import Calx.Expr.Written
import Calx.Proofs.Number.Written
import Calx.Proofs.Token.Cut
import Calx.Proofs.Token.Stream

/-!
# Cutting written tokens

`Cuts follows cs ts` says that the characters `cs` are cut into the tokens `ts` in front of any text
that `follows` allows. A mark and a string end by themselves; a word and a numeral end where nothing
goes on with them (`Token.Stops`).
-/

namespace Calx

open Number

/-- Neither a word nor a numeral goes on with this text. -/
def Token.Stops (cs : List Char) : Prop :=
  ∀ c ∈ cs.head?, Token.isWordChar c = false ∧ c ≠ '.'

theorem Token.Stops.cons {c : Char} (hc : Token.isWordChar c = false ∧ c ≠ '.') (cs : List Char) :
    Token.Stops (c :: cs) := by
  rintro _ ⟨_⟩
  exact hc

theorem Token.Stops.numeral {cs : List Char} (h : Token.Stops cs) : Numeral.Stops cs := by
  intro c hc
  obtain ⟨hword, hdot⟩ := h c hc
  refine ⟨?_, hdot, ?_, ?_⟩
  · simp only [Token.isWordChar, Char.isAlphanum, Bool.or_eq_false_iff] at hword
    exact hword.1.2
  · rintro rfl
    exact absurd hword (by decide)
  · rintro rfl
    exact absurd hword (by decide)

theorem Token.ofPunctuation?_of_isLayout {c : Char} (hc : Text.isLayout c = true) :
    Token.ofPunctuation? c = none := by
  simp only [Text.isLayout, Bool.or_eq_true, beq_iff_eq] at hc
  rcases hc with ((rfl | rfl) | rfl) | rfl <;> rfl

theorem Token.isWordChar_of_isLayout {c : Char} (hc : Text.isLayout c = true) :
    Token.isWordChar c = false := by
  simp only [Text.isLayout, Bool.or_eq_true, beq_iff_eq] at hc
  rcases hc with ((rfl | rfl) | rfl) | rfl <;> rfl

/-- No word and no numeral starts with layout. -/
theorem Token.isLayout_of_isWordChar {c : Char} (hc : Token.isWordChar c = true) :
    Text.isLayout c = false := by
  cases hl : Text.isLayout c with
  | false => rfl
  | true =>
    rw [isWordChar_of_isLayout hl] at hc
    cases hc

/-- A quoted text is cut as one string, whatever follows it. -/
theorem Token.cut_quote (s : String) (rest : List Char) :
    Token.cut ((Quoted.quote s).toList ++ rest) =
      .ok (some ⟨.string s, (Quoted.quote s).toList.length⟩) := by
  rw [Quoted.quote, String.toList_ofList, List.cons_append, Token.cut_quotationMark,
    Quoted.decode_quoteBody, Except.map, String.ofList_toList, List.length_cons]

/-- A number without a sign is written as a numeral in canonical form, or it is infinity. -/
theorem Expr.renderNumber_cases {x : Float} (hx : IsMagnitude x) :
    (renderNumber x = "1e999" ∧ x = Float.ofBits (UInt64.ofNat infinityBits)) ∨
    ∃ n : Numeral, (renderNumber x).toList = n.text ∧ n.Canonical ∧ n.toFloat = x := by
  obtain ⟨bits, hbits, rfl⟩ := hx
  by_cases hinf : bits = infinityBits
  · subst hinf
    rw [renderNumber, if_pos ((isInf_ofBits hbits).2 rfl), isNegative_ofBits hbits]
    exact .inl ⟨rfl, rfl⟩
  · have hlt : bits < infinityBits := Nat.lt_of_le_of_ne hbits hinf
    have hfinite := mt (isInf_ofBits hbits).1 hinf
    refine .inr ⟨_, ?_, Numeral.canonical_ofFloat hlt, Numeral.toFloat_ofFloat hlt⟩
    rw [renderNumber, if_neg hfinite, write, isNaN_ofBits hbits, isNegative_ofBits hbits,
      abs_ofBits hbits]
    simp [hfinite]

/-! ## Cutting in front of a text -/

/-- The characters `cs` are cut into the tokens `ts`, in front of any text that `follows` allows. -/
def Cuts (follows : List Char → Prop) (cs : List Char) (ts : List Token) : Prop :=
  ∀ offset rest, follows rest → ∃ offset', (Stream.ofChars offset (cs ++ rest)).tokens? =
    (Stream.ofChars offset' rest).tokens?.map (ts ++ ·)

/-- Any text may follow. -/
def Unlimited (_ : List Char) : Prop := True

namespace Cuts

variable {follows : List Char → Prop} {cs ds : List Char} {ts us : List Token}

theorem nil : Cuts follows [] [] := by
  intro offset rest _
  refine ⟨offset, ?_⟩
  rw [List.nil_append]
  cases (Stream.ofChars offset rest).tokens? <;> rfl

theorem mono {allows : List Char → Prop} (h : Cuts follows cs ts)
    (hle : ∀ rest, allows rest → follows rest) : Cuts allows cs ts :=
  fun offset rest hrest => h offset rest (hle rest hrest)

theorem append {allows : List Char → Prop} (h : Cuts follows cs ts) (h' : Cuts allows ds us)
    (hrest : ∀ rest, allows rest → follows (ds ++ rest)) : Cuts allows (cs ++ ds) (ts ++ us) := by
  intro offset rest hr
  obtain ⟨offset₁, h₁⟩ := h offset (ds ++ rest) (hrest rest hr)
  obtain ⟨offset₂, h₂⟩ := h' offset₁ rest hr
  refine ⟨offset₂, ?_⟩
  rw [List.append_assoc, h₁, h₂]
  cases (Stream.ofChars offset₂ rest).tokens? with
  | error e => rfl
  | ok vs => exact congrArg Except.ok (List.append_assoc ts us vs).symm

/-- What is cut into one token in front of any text. -/
theorem token {c : Char} {t : Token} (hc : Text.isLayout c = false)
    (h : ∀ rest, follows rest →
      Token.cut (c :: cs ++ rest) = .ok (some ⟨t, (c :: cs).length⟩)) :
    Cuts follows (c :: cs) [t] := by
  intro offset rest hrest
  refine ⟨offset + (c :: cs).length, ?_⟩
  have hcut : Stream.ofChars offset (c :: cs ++ rest) =
      Stream.cons ⟨offset, t, offset + (c :: cs).length⟩
        (Stream.ofChars (offset + (c :: cs).length) ((c :: cs ++ rest).drop (c :: cs).length)) :=
    Stream.ofChars_cut hc (h rest hrest) offset
  rw [List.drop_left] at hcut
  rw [hcut, tokens?_cons]
  rfl

theorem layout {c : Char} (hc : Text.isLayout c = true) (h : Cuts follows cs ts) :
    Cuts follows (c :: cs) ts := by
  intro offset rest hrest
  rw [List.cons_append, Stream.ofChars_layout hc]
  exact h (offset + 1) rest hrest

theorem punctuation {c : Char} {t : Token} (hc : Token.ofPunctuation? c = some t)
    (h : Cuts follows cs ts) : Cuts follows (c :: cs) (t :: ts) := by
  have hlayout : Text.isLayout c = false := by
    cases hl : Text.isLayout c with
    | false => rfl
    | true =>
      rw [Token.ofPunctuation?_of_isLayout hl] at hc
      cases hc
  have hmark : Cuts Unlimited [c] [t] :=
    token hlayout fun _ _ => Token.cut_of_isAt (.mark hc)
  exact hmark.append h fun _ _ => trivial

/-- What ends where a word does, and what goes on after it. -/
theorem stop {c : Char} (h : Cuts Token.Stops cs ts) (h' : Cuts follows (c :: ds) us)
    (hc : Token.isWordChar c = false ∧ c ≠ '.') : Cuts follows (cs ++ c :: ds) (ts ++ us) :=
  h.append h' fun _ _ => .cons hc _

/-- The tokens of a text that is cut to its end. -/
theorem tokens?_eq {text : String} (h : Cuts follows text.toList ts) (hnil : follows []) :
    (Stream.ofText text).tokens? = .ok ts := by
  obtain ⟨offset, hcuts⟩ := h 0 [] hnil
  rw [List.append_nil, Stream.ofChars_nil] at hcuts
  rw [Stream.ofText, hcuts]
  show Except.ok (ts ++ []) = _
  rw [List.append_nil]

/-! ## Words, strings and numbers -/

theorem word {c : Char} (hc : Token.isWordStart c = true)
    (hcs : ∀ d ∈ cs, Token.isWordChar d = true) :
    Cuts Token.Stops (c :: cs) [Token.ofWord (String.ofList (c :: cs))] := by
  have hword : Token.isWordChar c = true := Token.isWordChar_of_isWordStart hc
  have hall : ∀ d ∈ c :: cs, Token.isWordChar d = true := by
    rintro d (_ | ⟨_, hd⟩)
    · exact hword
    · exact hcs d hd
  refine token (Token.isLayout_of_isWordChar hword) fun rest hrest => ?_
  have hrun : (c :: cs ++ rest).takeWhile Token.isWordChar = c :: cs := by
    rw [takeWhile_append_of_head fun d hd => (hrest d hd).1, List.takeWhile_eq_self_iff.2 hall]
  rw [List.cons_append, Token.cut_of_isAt (.word hc), Token.cutWord, ← List.cons_append, hrun]

theorem string (s : String) : Cuts Unlimited (Quoted.quote s).toList [.string s] := by
  have hquote : (Quoted.quote s).toList = '"' :: Quoted.quoteBody s.toList := String.toList_ofList
  rw [hquote]
  refine token rfl fun rest _ => ?_
  rw [← hquote]
  exact Token.cut_quote s rest

/-- What is scanned whole as a numeral is cut whole as a number. -/
theorem numeral {x : Float} (h : ∀ rest, Numeral.Stops rest →
    ∃ n, Numeral.scan? (cs ++ rest) = some (n, cs.length) ∧ n.toFloat = x) :
    Cuts Token.Stops cs [.number x] := by
  obtain ⟨n, hscan, -⟩ := h [] nofun
  cases cs with
  | nil => cases hscan
  | cons c cs =>
    have hword := Token.isWordChar_of_isDigit (Numeral.isDigit_of_scan? hscan)
    refine token (Token.isLayout_of_isWordChar hword) fun rest hrest => ?_
    obtain ⟨n, hscan, rfl⟩ := h rest hrest.numeral
    exact Token.cut_of_isAt (.number hscan)

theorem scan?_overflow {rest : List Char} (hrest : Numeral.Stops rest) :
    Numeral.scan? ("1e999".toList ++ rest) =
      some (⟨['1'], [], some ⟨false, ['9', '9', '9']⟩⟩, "1e999".toList.length) := by
  have hnines : AllDigits ['9', '9', '9'] := List.all_eq_true.1 rfl
  have hdigits : Numeral.digitRun ('9' :: '9' :: '9' :: rest) = ['9', '9', '9'] :=
    Numeral.digitRun_append hnines fun c hc => (hrest c hc).1
  have hexponent : Numeral.exponentRun ('e' :: '9' :: '9' :: '9' :: rest) =
      some (⟨false, ['9', '9', '9']⟩, 4) := by
    unfold Numeral.exponentRun
    show (if Numeral.digitRun ('9' :: '9' :: '9' :: rest) = [] then none else _) = _
    rw [if_neg (by rw [hdigits]; exact nofun)]
    show some (ExponentPart.mk false (Numeral.digitRun ('9' :: '9' :: '9' :: rest)),
      1 + (Numeral.digitRun ('9' :: '9' :: '9' :: rest)).length) = _
    rw [hdigits]
    rfl
  have hwhole : Numeral.wholeRun ("1e999".toList ++ rest) = ['1'] := rfl
  have hfraction : Numeral.fractionRun ('e' :: '9' :: '9' :: '9' :: rest) = [] := rfl
  have hdrop : ("1e999".toList ++ rest).drop 1 = 'e' :: '9' :: '9' :: '9' :: rest := rfl
  rw [Numeral.scan?, hwhole]
  simp only [List.length_singleton, hdrop, hfraction, if_true, Nat.add_zero, hexponent]
  rfl

/-- The power of ten that infinity is written as is beyond every double. -/
theorem toFloat_overflow : Numeral.toFloat ⟨['1'], [], some ⟨false, ['9', '9', '9']⟩⟩ =
    Float.ofBits (UInt64.ofNat infinityBits) :=
  Decimal.toFloat_of_large (n := 1) (k := 999) (by decide) (by decide)

/-- **A written number is cut back into itself.** -/
theorem number {x : Float} (hx : IsMagnitude x) :
    Cuts Token.Stops (Expr.renderNumber x).toList [.number x] := by
  refine numeral fun rest hrest => ?_
  obtain ⟨hrender, rfl⟩ | ⟨n, hrender, hcanonical, rfl⟩ := Expr.renderNumber_cases hx
  · rw [hrender]
    exact ⟨_, scan?_overflow hrest, toFloat_overflow⟩
  · rw [hrender]
    exact ⟨_, Numeral.scan?_text hcanonical hrest, rfl⟩

end Cuts

end Calx
