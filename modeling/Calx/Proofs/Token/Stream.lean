import Calx.Token.Stream

/-!
# Token streams, step by step

A stream skips layout and takes one token at a time (`ofChars_layout`, `ofChars_cut`), and a text
has no more tokens than characters. `Stream.tokens?` forgets where the tokens stand.
-/

namespace Calx

namespace Stream

theorem ofChars_eq (offset : Nat) (cs : List Char) : ofChars offset cs =
    match Token.cut (cs.drop (Token.layoutWidth cs)) with
    | .error e => ⟨[], offset + Token.layoutWidth cs, some e⟩
    | .ok none => ⟨[], offset + Token.layoutWidth cs, none⟩
    | .ok (some c) =>
      cons ⟨offset + Token.layoutWidth cs, c.token, offset + Token.layoutWidth cs + c.width⟩
        (ofChars (offset + Token.layoutWidth cs + c.width)
          ((cs.drop (Token.layoutWidth cs)).drop c.width)) := by
  rw [ofChars]
  split <;> rename_i h <;> simp only [h]

theorem ofChars_nil (offset : Nat) : ofChars offset [] = ⟨[], offset, none⟩ := by
  rw [ofChars_eq]
  rfl

theorem ofChars_layout {c : Char} (hc : Text.isLayout c = true) (offset : Nat) (cs : List Char) :
    ofChars offset (c :: cs) = ofChars (offset + 1) cs := by
  have ho : offset + (Token.layoutWidth cs + 1) = offset + 1 + Token.layoutWidth cs := by omega
  rw [ofChars_eq, ofChars_eq (offset + 1), Token.layoutWidth_cons_of_layout hc, ho,
    List.drop_succ_cons]

theorem ofChars_cut {c : Char} (hc : Text.isLayout c = false) {cs : List Char} {t : Token}
    {width : Nat} (h : Token.cut (c :: cs) = .ok (some ⟨t, width⟩)) (offset : Nat) :
    ofChars offset (c :: cs) =
      cons ⟨offset, t, offset + width⟩ (ofChars (offset + width) ((c :: cs).drop width)) := by
  rw [ofChars_eq, Token.layoutWidth_cons_of_other hc, List.drop_zero, Nat.add_zero, h]

end Stream

/-! ## Lengths -/

theorem length_spans_ofChars (offset : Nat) (cs : List Char) :
    (Stream.ofChars offset cs).spans.length ≤ cs.length := by
  fun_induction Stream.ofChars offset cs with
  | case1 => exact Nat.zero_le _
  | case2 => exact Nat.zero_le _
  | case3 offset cs start body c hcut ih =>
    have hw := Token.width_pos_of_cut hcut
    have hne : body ≠ [] := by
      intro hnil
      rw [hnil] at hcut
      cases hcut
    have hpos := List.length_pos_iff.2 hne
    simp only [Stream.cons, List.length_cons, List.length_drop, body] at *
    omega

/-- A text has no more tokens than characters. -/
theorem length_tokens_le (text : String) : (Stream.ofText text).tokens.length ≤ text.length := by
  have h := length_spans_ofChars 0 text.toList
  rw [String.length_toList] at h
  rwa [Stream.tokens, List.length_map]

/-! ## Streams without a fault -/

theorem spans?_eq_ok_iff {stream : Stream} {spans : List Span} :
    stream.spans? = .ok spans ↔ stream.fault = none ∧ stream.spans = spans := by
  unfold Stream.spans?
  cases stream.fault <;> simp

theorem spans?_eq_error_iff {stream : Stream} {e : LexError} :
    stream.spans? = .error e ↔ stream.fault = some e := by
  unfold Stream.spans?
  cases stream.fault <;> simp

/-- The tokens of a text that can be cut to its end, or the error that stops it. -/
def Stream.tokens? (stream : Stream) : Except LexError (List Token) :=
  stream.spans?.map fun spans => spans.map Span.token

theorem tokens?_eq_ok_iff {stream : Stream} {ts : List Token} :
    stream.tokens? = .ok ts ↔ stream.fault = none ∧ stream.tokens = ts := by
  unfold Stream.tokens? Stream.spans? Stream.tokens
  cases stream.fault <;> simp [Except.map]

theorem tokens?_cons (s : Span) (stream : Stream) :
    (stream.cons s).tokens? = stream.tokens?.map (s.token :: ·) := by
  obtain ⟨spans, finish, fault⟩ := stream
  cases fault <;> rfl

end Calx
