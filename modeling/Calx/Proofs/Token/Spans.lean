import Calx.Proofs.Token.Slice
import Calx.Proofs.Token.Stream

/-!
# Spans

What the spans of a text say about it.

* `Span.Fits`: the span of a token lies behind a place with nothing but layout between, is cut where
  it starts, and is cut alike on its own. Every span of a stream fits behind the one before it
  (`fits_of_spans`).
* A span ends before the next one starts, so a place where spans are left lies between those taken
  and those left (`placeOf_between`).
* `ofChars_take`: a text that ends behind some of its tokens, before the next one, is cut into these
  tokens.
-/

namespace Calx

namespace Span

/-- Where the last of some spans stops; `place`, if there is none. -/
def endOf (place : Nat) (spans : List Span) : Nat :=
  spans.foldl (fun _ s => s.stop) place

@[simp] theorem endOf_nil (place : Nat) : endOf place [] = place := rfl

@[simp] theorem endOf_cons (place : Nat) (s : Span) (spans : List Span) :
    endOf place (s :: spans) = endOf s.stop spans := rfl

/-- The span lies in the text behind `place`, with nothing but layout between; its token is cut
where it starts, and is cut alike from the characters of the span alone. -/
structure Fits (cs : List Char) (place : Nat) (s : Span) : Prop where
  /-- It starts no earlier. -/
  place_le : place ≤ s.start
  /-- It is not empty. -/
  start_lt : s.start < s.stop
  /-- It ends in the text. -/
  stop_le : s.stop ≤ cs.length
  /-- There is nothing but layout in front. -/
  layout : ∀ d ∈ (cs.drop place).take (s.start - place), Text.isLayout d = true
  /-- Its token is cut where it starts. -/
  cut : Token.cut (cs.drop s.start) = .ok (some ⟨s.token, s.stop - s.start⟩)
  /-- Its characters alone are cut into the same token. -/
  slice : Token.cutPast ((cs.drop s.start).take (s.stop - s.start)) =
    .ok (some ⟨s.token, s.stop - s.start⟩)

end Span

namespace Stream

/-- The first token of a text and what is left, or why there is none. -/
theorem ofChars_cases (offset : Nat) (cs : List Char) :
    (∃ c, Token.cut (cs.drop (Token.layoutWidth cs)) = .ok (some c) ∧ ofChars offset cs =
      cons ⟨offset + Token.layoutWidth cs, c.token, offset + Token.layoutWidth cs + c.width⟩
        (ofChars (offset + Token.layoutWidth cs + c.width)
          ((cs.drop (Token.layoutWidth cs)).drop c.width))) ∨
    (∃ fault, (Token.cut (cs.drop (Token.layoutWidth cs)) = match fault with
        | none => .ok none
        | some e => .error e) ∧
      ofChars offset cs = ⟨[], offset + Token.layoutWidth cs, fault⟩) := by
  rw [ofChars_eq]
  cases hcut : Token.cut (cs.drop (Token.layoutWidth cs)) with
  | error e => exact .inr ⟨some e, rfl, rfl⟩
  | ok found =>
    cases found with
    | none => exact .inr ⟨none, rfl, rfl⟩
    | some c => exact .inl ⟨c, rfl, rfl⟩

theorem drop_rest {cs text : List Char} {offset : Nat} (htext : text.drop offset = cs)
    (layout width : Nat) : text.drop (offset + layout + width) = (cs.drop layout).drop width := by
  rw [← htext, List.drop_drop, List.drop_drop, Nat.add_assoc]

/-- The first span of what is left of a text fits behind the place where it is left. -/
theorem fits_first {cs text : List Char} {offset : Nat} {c : Cut} (htext : text.drop offset = cs)
    (hcut : Token.cut (cs.drop (Token.layoutWidth cs)) = .ok (some c)) :
    Span.Fits text offset
      ⟨offset + Token.layoutWidth cs, c.token, offset + Token.layoutWidth cs + c.width⟩ := by
  have hlayout := Token.layoutWidth_le cs
  have hwidth := Token.width_le_of_cut hcut
  have hpos := Token.width_pos_of_cut hcut
  have hlen : cs.length = text.length - offset := by rw [← htext, List.length_drop]
  have hdrop : text.drop (offset + Token.layoutWidth cs) = cs.drop (Token.layoutWidth cs) := by
    rw [← htext, List.drop_drop]
  rw [List.length_drop] at hwidth
  refine ⟨Nat.le_add_right _ _, by dsimp only; omega, by dsimp only; omega, ?_, ?_, ?_⟩
  · rw [htext]
    dsimp only
    rw [Nat.add_sub_cancel_left]
    exact fun d => Token.isLayout_of_mem_take
  · dsimp only
    rw [hdrop, Nat.add_sub_cancel_left]
    exact hcut
  · dsimp only
    rw [hdrop, Nat.add_sub_cancel_left]
    exact Token.cutPast_take hcut

/-- Every span fits behind the one before it. -/
theorem fits_of_spans {cs text : List Char} {offset : Nat} (htext : text.drop offset = cs)
    {before after : List Span} {s : Span}
    (h : (ofChars offset cs).spans = before ++ s :: after) :
    s.Fits text (Span.endOf offset before) := by
  induction before generalizing offset cs with
  | nil =>
    rcases ofChars_cases offset cs with ⟨c, hcut, hofChars⟩ | ⟨_, _, hofChars⟩ <;> rw [hofChars] at h
    · cases h
      exact fits_first htext hcut
    · cases h
  | cons b before ih =>
    rcases ofChars_cases offset cs with ⟨c, -, hofChars⟩ | ⟨_, _, hofChars⟩ <;> rw [hofChars] at h
    · obtain ⟨rfl, htail⟩ := List.cons.inj h
      exact ih (drop_rest htext _ _) htail
    · cases h

/-- Behind its last token a text has nothing but layout, or goes on with what no token can be cut
from. -/
theorem fault_ofChars {cs text : List Char} {offset : Nat} (htext : text.drop offset = cs) :
    Token.cutPast (text.drop (Span.endOf offset (ofChars offset cs).spans)) =
      match (ofChars offset cs).fault with
      | none => .ok none
      | some e => .error e := by
  fun_induction ofChars offset cs with
  | case1 offset cs start body e hcut =>
    simp only [Span.endOf_nil, htext, Token.cutPast, body] at *
    rw [hcut]
    rfl
  | case2 offset cs start body hcut =>
    simp only [Span.endOf_nil, htext, Token.cutPast, body] at *
    rw [hcut]
    rfl
  | case3 offset cs start body c hcut ih =>
    exact ih (drop_rest htext _ _)

/-- Cutting ends where there is no layout, at the end of the text or where no token can be cut. -/
theorem cut_finish {cs text : List Char} {offset : Nat} (htext : text.drop offset = cs) :
    Token.layoutWidth (text.drop (ofChars offset cs).finish) = 0 ∧
    Token.cut (text.drop (ofChars offset cs).finish) =
      match (ofChars offset cs).fault with
      | none => .ok none
      | some e => .error e := by
  have hdrop {offset : Nat} {cs : List Char} (h : text.drop offset = cs) :
      text.drop (offset + Token.layoutWidth cs) = cs.drop (Token.layoutWidth cs) := by
    rw [← h, List.drop_drop]
  fun_induction ofChars offset cs with
  | case1 offset cs start body e hcut =>
    dsimp only [start]
    rw [hdrop htext]
    exact ⟨Token.layoutWidth_drop cs, hcut⟩
  | case2 offset cs start body hcut =>
    dsimp only [start]
    rw [hdrop htext]
    exact ⟨Token.layoutWidth_drop cs, hcut⟩
  | case3 offset cs start body c hcut ih => exact ih (drop_rest htext _ _)

/-! ## The order of the spans -/

theorem le_finish (offset : Nat) (cs : List Char) : offset ≤ (ofChars offset cs).finish := by
  fun_induction ofChars offset cs with
  | case1 | case2 => exact Nat.le_add_right _ _
  | case3 offset cs start body c hcut ih =>
    simp only [cons, start] at ih ⊢
    omega

/-- Every span lies between the start and the place where cutting ends. -/
theorem bounds_of_mem {offset : Nat} {cs : List Char} {s : Span} (h : s ∈ (ofChars offset cs).spans) :
    offset ≤ s.start ∧ s.start < s.stop ∧ s.stop ≤ (ofChars offset cs).finish := by
  fun_induction ofChars offset cs with
  | case1 | case2 => cases h
  | case3 offset cs start body c hcut ih =>
    have hpos := Token.width_pos_of_cut hcut
    have hle := le_finish (start + c.width) (body.drop c.width)
    rcases List.mem_cons.1 h with rfl | h
    · simp only [cons, start] at hle ⊢
      omega
    · have hs := ih h
      simp only [cons, start] at hs ⊢
      omega

/-- A span ends before a later one starts. -/
theorem pairwise_spans (offset : Nat) (cs : List Char) :
    (ofChars offset cs).spans.Pairwise fun s t => s.stop ≤ t.start := by
  fun_induction ofChars offset cs with
  | case1 | case2 => exact .nil
  | case3 offset cs start body c hcut ih => exact .cons (fun s hs => (bounds_of_mem hs).1) ih

/-- Where the first of some spans starts; `place`, if there is none. -/
def startOf (place : Nat) : List Span → Nat
  | s :: _ => s.start
  | [] => place

theorem placeOf_append {t : Stream} {before after : List Span} (h : t.spans = before ++ after) :
    t.placeOf after.length = startOf t.finish after := by
  rw [placeOf, h, List.length_append, Nat.add_sub_cancel, List.drop_left]
  cases after <;> rfl

/-- The spans in front of a place where spans are left end before it, and these start behind it. -/
theorem placeOf_between {cs : List Char} {offset : Nat} {before after : List Span}
    (h : (ofChars offset cs).spans = before ++ after) :
    (∀ s ∈ before, s.stop ≤ (ofChars offset cs).placeOf after.length) ∧
    ∀ s ∈ after, (ofChars offset cs).placeOf after.length ≤ s.start := by
  have hsorted := pairwise_spans offset cs
  rw [h, List.pairwise_append] at hsorted
  rw [placeOf_append h]
  cases after with
  | nil =>
    refine ⟨fun s hs => (bounds_of_mem ?_).2.2, fun s hs => by cases hs⟩
    rw [h]
    exact List.mem_append_left _ hs
  | cons b after =>
    refine ⟨fun s hs => hsorted.2.2 s hs b List.mem_cons_self, fun s hs => ?_⟩
    have hb : b ∈ (ofChars offset cs).spans := by simp [h]
    rcases List.mem_cons.1 hs with rfl | hs
    · exact Nat.le_refl _
    · have hle := List.rel_of_pairwise_cons hsorted.2.1 hs
      have hlt := (bounds_of_mem hb).2.1
      exact Nat.le_of_lt (Nat.lt_of_lt_of_le hlt hle)

/-! ## A text that is cut off -/

/-- **A text that ends behind some of its tokens, before the next one, is cut into these tokens.** -/
theorem ofChars_take {cs : List Char} {offset n : Nat} {before after : List Span}
    (h : (ofChars offset cs).spans = before ++ after)
    (hbefore : ∀ s ∈ before, s.stop ≤ offset + n)
    (hafter : offset + n ≤ (ofChars offset cs).placeOf after.length) :
    ofChars offset (cs.take n) = ⟨before, offset + n, none⟩ := by
  rw [placeOf_append h] at hafter
  induction before generalizing offset cs n with
  | nil =>
    have hn : n ≤ Token.layoutWidth cs := by
      rcases ofChars_cases offset cs with ⟨c, -, hofChars⟩ | ⟨_, -, hofChars⟩ <;>
        rw [hofChars] at h hafter <;> cases h
      · exact Nat.le_of_add_le_add_left hafter
      · exact Nat.le_of_add_le_add_left hafter
    have hlen := Token.layoutWidth_le cs
    have hall : Token.layoutWidth (cs.take n) = n := by
      refine Token.layoutWidth_eq (by rw [List.length_take]; omega) (fun d hd => ?_) ?_
      · rw [List.take_take, Nat.min_self] at hd
        exact Token.isLayout_of_mem_take (List.take_subset_take_left cs hn hd)
      · rw [List.drop_take, Nat.sub_self, List.take_zero]
        rfl
    rw [ofChars_eq, hall, List.drop_take, Nat.sub_self, List.take_zero]
    rfl
  | cons b before ih =>
    rcases ofChars_cases offset cs with ⟨c, hcut, hofChars⟩ | ⟨_, -, hofChars⟩ <;>
      rw [hofChars] at h hafter
    · obtain ⟨rfl, htail⟩ := List.cons.inj h
      have hb := hbefore _ List.mem_cons_self
      have hwidth : Token.layoutWidth cs + c.width ≤ n := by
        dsimp only at hb
        omega
      have htake : Token.layoutWidth (cs.take n) = Token.layoutWidth cs :=
        Token.layoutWidth_take_of_le (by omega)
      have hcut' := Token.cut_take (n := n - Token.layoutWidth cs) hcut (by omega)
      have hn : offset + n = offset + Token.layoutWidth cs + c.width +
        (n - Token.layoutWidth cs - c.width) := by omega
      rw [hn] at hbefore hafter
      have hrest := ih htail (fun s hs => hbefore s (List.mem_cons_of_mem _ hs)) hafter
      rw [ofChars_eq, htake, List.drop_take, hcut']
      dsimp only
      rw [List.drop_take, hrest, ← hn]
      rfl
    · cases h

theorem ofText_take {text : String} {n : Nat} {before after : List Span}
    (h : (ofText text).spans = before ++ after) (hbefore : ∀ s ∈ before, s.stop ≤ n)
    (hafter : n ≤ (ofText text).placeOf after.length) :
    ofText (String.ofList (text.toList.take n)) = ⟨before, n, none⟩ := by
  rw [← Nat.zero_add n] at hbefore hafter
  rw [ofText, String.toList_ofList, ofChars_take h hbefore hafter, Nat.zero_add]

/-- A text that ends with one of its tokens is cut into the tokens up to that one. -/
theorem ofText_take_stop {text : String} {s : Span} {before after : List Span}
    (h : (ofText text).spans = before ++ s :: after) :
    ofText (String.ofList (text.toList.take s.stop)) = ⟨before ++ [s], s.stop, none⟩ := by
  have hsplit : (ofText text).spans = (before ++ [s]) ++ after := by rw [h, List.append_cons]
  have hs : s ∈ (ofText text).spans := by simp [h]
  refine ofText_take hsplit (fun u hu => ?_) ((placeOf_between hsplit).1 s (by simp))
  rcases List.mem_append.1 hu with hu | hu
  · have hle := (placeOf_between h).1 u hu
    rw [← ofText, placeOf_append h] at hle
    exact Nat.le_of_lt (Nat.lt_of_le_of_lt hle (bounds_of_mem hs).2.1)
  · rw [List.mem_singleton.1 hu]

/-- A place where something is left stands in front of a character that is not layout. -/
theorem not_layout_of_placeOf {text : String} {before after : List Span}
    (h : (ofText text).spans = before ++ after) (hleft : after ≠ [] ∨ (ofText text).fault ≠ none) :
    ∃ c, text.toList[(ofText text).placeOf after.length]? = some c ∧ Text.isLayout c = false := by
  have hstart {cs : List Char} {r : Except LexError (Option Cut)} (hcut : Token.cut cs = r)
      (hr : r ≠ .ok none) (hlayout : Token.layoutWidth cs = 0) :
      ∃ c rest, cs = c :: rest ∧ Text.isLayout c = false := by
    cases cs with
    | nil => exact absurd hcut.symm hr
    | cons c rest =>
      refine ⟨c, rest, rfl, ?_⟩
      by_contra hc
      rw [Token.layoutWidth_cons_of_layout (by simpa using hc)] at hlayout
      cases hlayout
  obtain ⟨c, rest, hdrop, hc⟩ : ∃ c rest,
      text.toList.drop ((ofText text).placeOf after.length) = c :: rest ∧
        Text.isLayout c = false := by
    rw [placeOf_append h]
    cases after with
    | cons s after =>
      have hfits : s.Fits text.toList (Span.endOf 0 before) := fits_of_spans List.drop_zero h
      exact hstart hfits.cut (by simp) (Token.layoutWidth_of_cut hfits.cut)
    | nil =>
      obtain ⟨e, he⟩ := Option.ne_none_iff_exists'.1 (hleft.resolve_left (not_not_intro rfl))
      obtain ⟨hlayout, hcut⟩ := cut_finish (List.drop_zero : text.toList.drop 0 = _)
      rw [ofText] at he
      rw [he] at hcut
      exact hstart hcut (by simp) hlayout
  refine ⟨c, ?_, hc⟩
  rw [← List.head?_drop, hdrop]
  rfl

theorem finish_le (offset : Nat) (cs : List Char) :
    (ofChars offset cs).finish ≤ offset + cs.length := by
  fun_induction ofChars offset cs with
  | case1 offset cs | case2 offset cs =>
    exact Nat.add_le_add_left (Token.layoutWidth_le cs) offset
  | case3 offset cs start body c hcut ih =>
    have hlayout := Token.layoutWidth_le cs
    have hwidth := Token.width_le_of_cut hcut
    simp only [cons, start, body, List.length_drop] at ih hwidth ⊢
    omega

/-- A place is in front of some of the spans. -/
theorem exists_placeOf (t : Stream) (count : Nat) :
    ∃ before after, t.spans = before ++ after ∧ t.placeOf count = t.placeOf after.length := by
  refine ⟨t.spans.take (t.spans.length - count), t.spans.drop (t.spans.length - count),
    (List.take_append_drop _ _).symm, ?_⟩
  have hdrop : t.spans.length - (t.spans.length - (t.spans.length - count)) =
      t.spans.length - count := by omega
  rw [placeOf, placeOf, List.length_drop, hdrop]

/-- Every place lies in the text. -/
theorem placeOf_le (text : String) (count : Nat) :
    (ofText text).placeOf count ≤ text.toList.length := by
  have hfinish := finish_le 0 text.toList
  rw [Nat.zero_add, ← ofText] at hfinish
  obtain ⟨before, after, hspans, hplace⟩ := exists_placeOf (ofText text) count
  rw [hplace, placeOf_append hspans]
  cases after with
  | nil => exact hfinish
  | cons s after =>
    have hs : s ∈ (ofText text).spans := by simp [hspans]
    have hbounds := bounds_of_mem hs
    rw [← ofText] at hbounds
    dsimp only [startOf]
    omega

/-- Where the text goes on behind a place, it does so with a character that is not layout. -/
theorem not_layout_of_placeOf_lt {text : String} {count : Nat}
    (h : (ofText text).placeOf count < text.toList.length) :
    ∃ c, text.toList[(ofText text).placeOf count]? = some c ∧ Text.isLayout c = false := by
  obtain ⟨before, after, hspans, hplace⟩ := exists_placeOf (ofText text) count
  rw [hplace] at h ⊢
  refine not_layout_of_placeOf hspans (or_iff_not_imp_left.2 fun hnil hfault => ?_)
  rw [not_not] at hnil
  subst hnil
  rw [placeOf_append hspans] at h
  obtain ⟨-, hcut⟩ := cut_finish (List.drop_zero : text.toList.drop 0 = _)
  rw [← ofText, hfault] at hcut
  exact absurd h (Nat.not_lt.2 (List.drop_eq_nil_iff.1 (Token.eq_nil_of_cut hcut)))

end Stream

end Calx
