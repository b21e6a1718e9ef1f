import Calx.Proofs.Token.Cuts
import Calx.Proofs.Token.Slice

/-!
# Cutting texts put together

A token may go on with what stands behind it, so two texts put together are not in general cut as
each of them is. In front of a text that no token goes on with (`Token.Apart`) they are: the scanners
take what they take from the first text alone (`cut_append`), and a first text that can be cut to its
end is followed by the tokens of the second (`ofChars_append`).
-/

namespace Calx

/-- No token goes on with this text: neither a word nor a numeral does, and what is behind the mark
of an exponent does not become one by it. -/
def Token.Apart (cs : List Char) : Prop :=
  ∀ c ∈ cs.head?, Token.isWordChar c = false ∧ c ≠ '.' ∧ c ≠ '+' ∧ c ≠ '-'

theorem Token.Apart.cons {c : Char}
    (hc : Token.isWordChar c = false ∧ c ≠ '.' ∧ c ≠ '+' ∧ c ≠ '-') (cs : List Char) :
    Token.Apart (c :: cs) := by
  rintro _ ⟨_⟩
  exact hc

theorem Token.Apart.stops {cs : List Char} (h : Token.Apart cs) : Token.Stops cs :=
  fun c hc => ⟨(h c hc).1, (h c hc).2.1⟩

/-! ## Numerals -/

namespace Number.Numeral

variable {rest : List Char}

theorem digitRun_append_of_stops (h : Stops rest) (cs : List Char) :
    digitRun (cs ++ rest) = digitRun cs :=
  takeWhile_append_of_head (fun c hc => (h c hc).1) cs

theorem wholeRun_append_of_stops (h : Stops rest) (cs : List Char) :
    wholeRun (cs ++ rest) = wholeRun cs := by
  have hplain (ds : List Char) (hds : ds.head? ≠ some '0') : wholeRun ds = digitRun ds := by
    cases ds with
    | nil => rfl
    | cons d ds => exact wholeRun_cons_of_ne (fun hd => hds (congrArg some hd)) ds
  cases cs with
  | nil =>
    have hzero : rest.head? ≠ some '0' := by
      intro hd
      exact absurd (h '0' hd).1 (by decide)
    exact (hplain rest hzero).trans (digitRun_append_of_stops h [])
  | cons c cs =>
    by_cases hc : c = '0'
    · subst hc
      rfl
    · have hrun := digitRun_append_of_stops h (c :: cs)
      rw [List.cons_append] at hrun ⊢
      rw [wholeRun_cons_of_ne hc, wholeRun_cons_of_ne hc, hrun]

theorem fractionRun_append_of_stops (h : Stops rest) (cs : List Char) :
    fractionRun (cs ++ rest) = fractionRun cs := by
  cases cs with
  | nil => exact fractionRun_of_head fun c hc => (h c hc).2.1
  | cons c cs =>
    rw [List.cons_append]
    by_cases hc : c = '.'
    · subst hc
      exact digitRun_append_of_stops h cs
    · rw [fractionRun_cons_of_ne hc, fractionRun_cons_of_ne hc]

theorem signRun_append (h : Token.Apart rest) (cs : List Char) :
    signRun (cs ++ rest) = signRun cs := by
  cases cs with
  | nil =>
    cases rest with
    | nil => rfl
    | cons c rest =>
      obtain ⟨-, -, hplus, hminus⟩ := h c rfl
      simp [signRun, hplus, hminus]
  | cons c cs =>
    rw [List.cons_append]
    unfold signRun
    split <;> simp_all

theorem exponentRun_append_of_apart (h : Token.Apart rest) (cs : List Char) :
    exponentRun (cs ++ rest) = exponentRun cs := by
  cases cs with
  | nil =>
    cases rest with
    | nil => rfl
    | cons c rest =>
      obtain ⟨-, -, hlower, hupper⟩ := h.stops.numeral c rfl
      exact exponentRun_cons_of_ne (by simp [hlower, hupper]) rest
  | cons mark cs =>
    rw [List.cons_append]
    by_cases hmark : mark = 'e' ∨ mark = 'E'
    · rw [exponentRun_cons_of_mark hmark, exponentRun_cons_of_mark hmark, signRun_append h,
        List.drop_append_of_le_length (signRun_le cs).2]
      simp only [exponentOf, digitRun_append_of_stops h.stops.numeral]
    · rw [exponentRun_cons_of_ne hmark, exponentRun_cons_of_ne hmark]

/-- A numeral does not go on into a text that stands apart. -/
theorem scan?_append (h : Token.Apart rest) (cs : List Char) : scan? (cs ++ rest) = scan? cs := by
  have hwhole := length_wholeRun_le cs
  have hmantissa : (wholeRun cs).length +
      (if fractionRun (cs.drop (wholeRun cs).length) = [] then 0
        else 1 + (fractionRun (cs.drop (wholeRun cs).length)).length) ≤ cs.length := by
    split
    · exact hwhole
    · rename_i hne
      have hlt := length_fractionRun_lt hne
      rw [List.length_drop] at hlt
      omega
  simp only [scan?, wholeRun_append_of_stops h.stops.numeral,
    List.drop_append_of_le_length hwhole, fractionRun_append_of_stops h.stops.numeral,
    List.drop_append_of_le_length hmantissa, exponentRun_append_of_apart h]

end Number.Numeral

/-! ## Tokens -/

/-- A string literal ends with its closing quote, whatever follows. -/
theorem Quoted.decode_append {cs body : List Char} {width : Nat}
    (h : Quoted.decode cs = .ok (body, width)) (rest : List Char) :
    Quoted.decode (cs ++ rest) = .ok (body, width) := by
  obtain ⟨chars, more, rfl, hspells, rfl⟩ := Quoted.spells_of_decode h
  rw [List.append_assoc, List.cons_append]
  exact Quoted.decode_of_spells hspells _

/-- **A token does not go on into a text that stands apart.** -/
theorem Token.cut_append {cs rest : List Char} {c : Cut} (h : cut cs = .ok (some c))
    (hrest : Apart rest) : cut (cs ++ rest) = .ok (some c) := by
  cases cut_eq_some_iff.1 h with
  | mark hc => exact cut_of_isAt (.mark hc)
  | @word first cs hc =>
    have hrun := Number.takeWhile_append_of_head (fun c hc => (hrest c hc).1) (first :: cs)
    rw [List.cons_append] at hrun ⊢
    rw [cut_of_isAt (.word hc), cutWord, cutWord, hrun]
  | number hscan =>
    exact cut_of_isAt (.number ((Number.Numeral.scan?_append hrest cs).trans hscan))
  | string hdecode => exact cut_of_isAt (.string (Quoted.decode_append hdecode rest))

/-! ## Streams -/

/-- The span of a token that stands `count` characters later. -/
def Span.shift (count : Nat) (s : Span) : Span :=
  ⟨s.start + count, s.token, s.stop + count⟩

namespace Stream

/-- The stream of a text that stands `count` characters later. -/
def shift (count : Nat) (stream : Stream) : Stream :=
  ⟨stream.spans.map (Span.shift count), stream.finish + count, stream.fault⟩

/-- The stream `first`, going on with `second`. -/
def append (first second : Stream) : Stream :=
  { second with spans := first.spans ++ second.spans }

theorem tokens_shift (count : Nat) (stream : Stream) :
    (stream.shift count).tokens = stream.tokens := by
  simp only [shift, tokens, List.map_map]
  rfl

theorem tokens_append (first second : Stream) :
    (first.append second).tokens = first.tokens ++ second.tokens :=
  List.map_append

theorem ofChars_shift (offset count : Nat) (cs : List Char) :
    ofChars (offset + count) cs = (ofChars offset cs).shift count := by
  fun_induction ofChars offset cs with
  | case1 offset cs start body e hcut =>
    rw [ofChars_eq, hcut, Nat.add_right_comm]
    rfl
  | case2 offset cs start body hcut =>
    rw [ofChars_eq, hcut, Nat.add_right_comm]
    rfl
  | case3 offset cs start body c hcut ih =>
    have hstart : offset + count + Token.layoutWidth cs = start + count := Nat.add_right_comm ..
    have hstop : start + count + c.width = start + c.width + count := Nat.add_right_comm ..
    rw [ofChars_eq, hcut, hstart]
    dsimp only
    rw [hstop, ih]
    rfl

theorem ofChars_eq_shift (count : Nat) (cs : List Char) :
    ofChars count cs = (ofChars 0 cs).shift count := by
  rw [← ofChars_shift, Nat.zero_add]

theorem ofChars_append_of_layout {cs : List Char} (h : ∀ d ∈ cs, Text.isLayout d = true)
    (offset : Nat) (rest : List Char) :
    ofChars offset (cs ++ rest) = ofChars (offset + cs.length) rest := by
  induction cs generalizing offset with
  | nil => rfl
  | cons d cs ih =>
    rw [List.forall_mem_cons] at h
    rw [List.cons_append, ofChars_layout h.1, ih h.2, List.length_cons, Nat.add_right_comm,
      Nat.add_assoc]

theorem ofChars_append {offset : Nat} {cs rest : List Char} (h : (ofChars offset cs).fault = none)
    (hrest : Token.Apart rest) :
    ofChars offset (cs ++ rest) = (ofChars offset cs).append (ofChars (offset + cs.length) rest) := by
  fun_induction ofChars offset cs with
  | case1 => cases h
  | case2 offset cs start body hcut =>
    have hlayout : ∀ d ∈ cs, Text.isLayout d = true :=
      Token.cutPast_eq_none_iff.1 (by rw [Token.cutPast, hcut]; rfl)
    exact ofChars_append_of_layout hlayout offset rest
  | case3 offset cs start body c hcut ih =>
    have hwidth := Token.width_le_of_cut hcut
    have hlen : start + c.width + (body.drop c.width).length = offset + cs.length := by
      have := Token.layoutWidth_le cs
      simp only [start, body, List.length_drop] at hwidth ⊢
      omega
    -- The layout in front is skipped as before, so both texts are cut where `body` starts.
    have hlayout : ofChars offset (cs ++ rest) = ofChars start (body ++ rest) := by
      have hsplit := ofChars_append_of_layout (fun d => @Token.isLayout_of_mem_take cs d) offset
        (body ++ rest)
      rw [← List.append_assoc, List.take_append_drop, List.length_take,
        Nat.min_eq_left (Token.layoutWidth_le cs)] at hsplit
      exact hsplit
    have hcut' := Token.cut_append hcut hrest
    rw [hlayout, ofChars_eq, Token.layoutWidth_of_cut hcut', List.drop_zero, Nat.add_zero, hcut']
    dsimp only
    rw [List.drop_append_of_le_length hwidth, ih h, hlen]
    rfl

/-- **A text that can be cut to its end is cut alike in front of a text that stands apart**, and the
tokens of that one follow. -/
theorem ofText_append {first second : String} (h : (ofText first).fault = none)
    (hsecond : Token.Apart second.toList) :
    ofText (first ++ second) = (ofText first).append ((ofText second).shift first.length) := by
  rw [ofText, String.toList_append, ofChars_append h hsecond, Nat.zero_add, String.length_toList,
    ofChars_eq_shift first.length]
  rfl

/-! ## Layout between -/

theorem shift_shift (m n : Nat) (stream : Stream) :
    (stream.shift m).shift n = stream.shift (n + m) := by
  have hspan (s : Span) : (s.shift m).shift n = s.shift (n + m) := by
    simp only [Span.shift, Nat.add_assoc, Nat.add_comm m n]
  simp only [shift, List.map_map, Function.comp_def, hspan, Nat.add_assoc, Nat.add_comm m n]

theorem ofText_layout {d : Char} (hd : Text.isLayout d = true) (text : String) :
    ofText (d.toString ++ text) = (ofText text).shift 1 := by
  have hchars : (d.toString ++ text).toList = d :: text.toList := by simp
  rw [ofText, ofText, hchars, ← ofChars_eq_shift]
  exact ofChars_layout hd 0 text.toList

theorem ofText_append_layout {first : String} {d : Char} (hfirst : (ofText first).fault = none)
    (hd : Text.isLayout d = true) (second : String) : ofText (first ++ d.toString ++ second) =
      (ofText first).append ((ofText second).shift (first.length + 1)) := by
  have hapart : Token.Apart (d.toString ++ second).toList := by
    have hchars : (d.toString ++ second).toList = d :: second.toList := by simp
    rw [hchars]
    refine .cons ?_ _
    simp only [Text.isLayout, Bool.or_eq_true, beq_iff_eq] at hd
    rcases hd with ((rfl | rfl) | rfl) | rfl <;> decide
  rw [String.append_assoc, ofText_append hfirst hapart, ofText_layout hd, shift_shift]

/-- **Cutting starts anew behind layout.** A text that can be cut to its end, a layout character and any
other text are cut into the spans of the first text and those of the second, moved by what stands in
front of it. If the second text cannot be cut to its end, neither can all of it, for the same reason,
and what is cut before that is no other. -/
theorem spans?_append_layout {first : String} {spans : List Span} {d : Char}
    (hfirst : (ofText first).spans? = .ok spans) (hd : Text.isLayout d = true) (second : String) :
    (ofText (first ++ d.toString ++ second)).spans? =
        (ofText second).spans?.map (fun later =>
          spans ++ later.map (Span.shift (first.length + 1))) ∧
      (ofText (first ++ d.toString ++ second)).spans =
        spans ++ (ofText second).spans.map (Span.shift (first.length + 1)) := by
  obtain ⟨hfault, rfl⟩ := spans?_eq_ok_iff.1 hfirst
  rw [ofText_append_layout hfault hd]
  generalize ofText second = stream
  obtain ⟨later, finish, fault⟩ := stream
  cases fault <;> exact ⟨rfl, rfl⟩

/-- A call goes on behind a carriage return, whose line feed is layout as well; a string that does not
end is met there as it is on its own. -/
theorem spans?_call_append_layout :
    (ofText "f(").spans? = .ok [⟨0, .identifier "f", 1⟩, ⟨1, .openParen, 2⟩] ∧
      (ofText ("f(" ++ '\r'.toString ++ "\nx)")).spans? =
        .ok [⟨0, .identifier "f", 1⟩, ⟨1, .openParen, 2⟩, ⟨4, .identifier "x", 5⟩,
          ⟨5, .closeParen, 6⟩] ∧
      (ofText ("f(" ++ '\r'.toString ++ "x \"")).spans? = .error .unexpectedEnd := by
  have hfirst : (ofText "f(").spans? = .ok [⟨0, .identifier "f", 1⟩, ⟨1, .openParen, 2⟩] := by cbv
  have hsecond : (ofText "\nx)").spans? = .ok [⟨1, .identifier "x", 2⟩, ⟨2, .closeParen, 3⟩] := by
    cbv
  have hopen : (ofText "x \"").spans? = .error .unexpectedEnd := by cbv
  refine ⟨hfirst, ?_, ?_⟩
  · rw [(spans?_append_layout hfirst rfl _).1, hsecond]
    rfl
  · rw [(spans?_append_layout hfirst rfl _).1, hopen]
    rfl

end Stream

end Calx
