import Calx.Proofs.Token.Spans

/-!
# Cursors

A cursor goes through the stream of its text: it meets the tokens in order, then the end or the
fault, and from then on nothing. `next_behind` is what one step does, `steps_behind` is a run, and
`steps_ofText` says of a whole text what its cursor meets and what is known of the spans.
-/

namespace Calx

namespace Stream

/-- What is met behind the last token. -/
def ending (t : Stream) : Cursor.Step :=
  match t.fault with
  | none => .finished
  | some e => .fault e

/-- What is met in a stream after `i` steps: the tokens in order, the end or the fault, and then
nothing. -/
def step (t : Stream) (i : Nat) : Cursor.Step :=
  match t.spans[i]? with
  | some s => .token s
  | none => if i = t.spans.length then t.ending else .finished

/-- Where the first `i` tokens of a stream stop. -/
def stopOf (t : Stream) (i : Nat) : Nat :=
  Span.endOf 0 (t.spans.take i)

theorem stopOf_succ {t : Stream} {i : Nat} {s : Span} (h : t.spans[i]? = some s) :
    t.stopOf (i + 1) = s.stop := by
  rw [stopOf, List.take_add_one, h]
  exact List.foldl_append ..

theorem stopOf_of_le {t : Stream} {i : Nat} (h : t.spans.length ≤ i) :
    t.stopOf i = Span.endOf 0 t.spans := by
  rw [stopOf, List.take_of_length_le h]

/-- Every token of a text fits behind the one before it. -/
theorem fits_getElem? (text : String) {i : Nat} {s : Span} (h : (ofText text).spans[i]? = some s) :
    s.Fits text.toList ((ofText text).stopOf i) := by
  obtain ⟨hi, hs⟩ := List.getElem?_eq_some_iff.1 h
  have hsplit : (ofText text).spans =
      (ofText text).spans.take i ++ s :: (ofText text).spans.drop (i + 1) := by
    rw [← hs, ← List.drop_eq_getElem_cons hi, List.take_append_drop]
  exact fits_of_spans List.drop_zero hsplit

/-- Behind its last token a text is at its end, or goes on with what no token can be cut from. -/
theorem fault_ofText (text : String) :
    Token.cutPast (text.toList.drop (Span.endOf 0 (ofText text).spans)) =
      match (ofText text).fault with
      | none => .ok none
      | some e => .error e :=
  fault_ofChars List.drop_zero

end Stream

namespace Cursor

/-- The cursor that stands behind the first `i` steps through a text. -/
def behind (text : String) (i : Nat) : Cursor :=
  ⟨text.toList.drop ((Stream.ofText text).stopOf i), (Stream.ofText text).stopOf i,
    decide ((Stream.ofText text).spans.length < i)⟩

theorem behind_zero (text : String) : behind text 0 = ofText text := rfl

/-- The step over a token that fits behind the place of the cursor. -/
theorem next_of_fits {cs : List Char} {place : Nat} {s : Span} (h : s.Fits cs place) :
    next ⟨cs.drop place, place, false⟩ = (.token s, ⟨cs.drop s.stop, s.stop, false⟩) := by
  obtain ⟨hplace, hlt, hstop, hlayout, hcut, -⟩ := h
  have hdrop : (cs.drop place).drop (s.start - place) = cs.drop s.start := by
    rw [List.drop_drop, Nat.add_sub_cancel' hplace]
  have hwidth : Token.layoutWidth (cs.drop place) = s.start - place := by
    refine Token.layoutWidth_eq ?_ hlayout ?_
    · rw [List.length_drop]
      omega
    · rw [hdrop]
      exact Token.layoutWidth_of_cut hcut
  have hpast : Token.cutPast (cs.drop place) = .ok (some ⟨s.token, s.stop - place⟩) := by
    have hsum : s.start - place + (s.stop - s.start) = s.stop - place := by omega
    rw [Token.cutPast, hwidth, hdrop, hcut, ← hsum]
    rfl
  have hbounded : Token.layoutWidth ((cs.drop place).take (s.stop - place)) = s.start - place := by
    rw [Token.layoutWidth_take_of_le (by omega), hwidth]
  have hstart : place + (s.start - place) = s.start := Nat.add_sub_cancel' hplace
  have hend : place + (s.stop - place) = s.stop := by omega
  simp only [next, hpast, hbounded, hstart, hend, List.drop_drop, Bool.false_eq_true, if_false]

/-- The step over the end or the fault. -/
theorem next_ending (text : String) :
    next (behind text (Stream.ofText text).spans.length) =
      ((Stream.ofText text).ending, behind text ((Stream.ofText text).spans.length + 1)) := by
  simp only [behind, Stream.stopOf_of_le (Nat.le_refl _), Stream.stopOf_of_le (Nat.le_add_right _ 1),
    next, Nat.lt_irrefl, decide_false, Nat.lt_add_one, decide_true, Stream.fault_ofText,
    Stream.ending]
  cases (Stream.ofText text).fault <;> rfl

/-- What one step does. -/
theorem next_behind (text : String) (i : Nat) :
    (behind text i).next = ((Stream.ofText text).step i, behind text (i + 1)) := by
  rcases Nat.lt_trichotomy i (Stream.ofText text).spans.length with hlt | rfl | hgt
  · have hs := List.getElem?_eq_getElem hlt
    simp only [Stream.step, hs]
    simp only [behind, Stream.stopOf_succ hs, Nat.not_lt.2 (Nat.le_of_lt hlt),
      Nat.not_lt.2 (Nat.succ_le_of_lt hlt), decide_false]
    exact next_of_fits (Stream.fits_getElem? text hs)
  · simp only [Stream.step, List.getElem?_eq_none_iff.2 (Nat.le_refl _), if_true]
    exact next_ending text
  · simp only [Stream.step, List.getElem?_eq_none_iff.2 (Nat.le_of_lt hgt), Nat.ne_of_gt hgt,
      if_false]
    simp only [behind, Stream.stopOf_of_le (Nat.le_of_lt hgt),
      Stream.stopOf_of_le (Nat.le_of_lt (Nat.lt_succ_of_lt hgt)), hgt, Nat.lt_succ_of_lt hgt,
      decide_true, next, if_true]

/-- What a run does, wherever it starts. -/
theorem steps_behind (text : String) (count i : Nat) :
    steps count (behind text i) = (List.range' i count).map fun k =>
      ((Stream.ofText text).step k, behind text (k + 1)) := by
  induction count generalizing i with
  | zero => rfl
  | succ count ih => rw [steps, next_behind, ih, List.range'_succ, List.map_cons]

/-- The tokens up to the end, or the fault that is met before it. -/
def collect : List Step → Except LexError (List Span)
  | .token s :: met => (collect met).map (s :: ·)
  | .fault e :: _ => .error e
  | .finished :: _ | [] => .ok []

theorem collect_tokens (spans : List Span) (met : List Step) :
    collect (spans.map .token ++ met) = (collect met).map (spans ++ ·) := by
  induction spans with
  | nil => cases h : collect met <;> simp [h, Except.map]
  | cons s spans ih =>
    simp only [List.map_cons, List.cons_append, collect, ih]
    cases collect met <;> rfl

/-- The tokens or the fault, collected from a run that goes on until it meets the end. -/
theorem collect_steps {t : Stream} {count : Nat} (h : t.spans.length < count) :
    collect ((List.range count).map t.step) = t.spans? := by
  obtain ⟨more, rfl⟩ : ∃ more, count = t.spans.length + (more + 1) :=
    ⟨count - (t.spans.length + 1), by omega⟩
  have htokens : (List.range t.spans.length).map t.step = t.spans.map .token := by
    refine List.ext_getElem (by simp) fun i hi _ => ?_
    rw [List.length_map, List.length_range] at hi
    simp [Stream.step, List.getElem?_eq_getElem hi]
  have hending : t.step t.spans.length = t.ending := by
    simp [Stream.step]
  rw [List.range_add, List.map_append, htokens, collect_tokens, List.range_succ_eq_map,
    List.map_cons, List.map_cons, Nat.add_zero, hending, Stream.spans?, Stream.ending]
  cases t.fault <;> simp [collect, Except.map]

end Cursor

/-- **A cursor cuts its text without loss, and stays at its end.** Its steps meet the tokens in
order, then the end or the fault, and then nothing; behind each step it stands where the last token
stops. Every token fits behind the one before it. Behind the last one there is nothing but layout,
or what no token can be cut from. To collect what is met is to cut the text. -/
theorem steps_ofText (text : String) :
    (∀ count, Cursor.steps count (.ofText text) = (List.range count).map fun i =>
      ((Stream.ofText text).step i, Cursor.behind text (i + 1))) ∧
    (∀ i, ∀ s ∈ (Stream.ofText text).spans[i]?,
      Span.Fits text.toList ((Stream.ofText text).stopOf i) s) ∧
    ((Stream.ofText text).fault = none ↔
      ∀ d ∈ text.toList.drop (Span.endOf 0 (Stream.ofText text).spans), Text.isLayout d = true) ∧
    (∀ e, (Stream.ofText text).fault = some e ↔
      Token.cutPast (text.toList.drop (Span.endOf 0 (Stream.ofText text).spans)) = .error e) ∧
    ∀ more, Cursor.collect
      ((Cursor.steps ((Stream.ofText text).spans.length + 1 + more) (.ofText text)).map Prod.fst) =
        (Stream.ofText text).spans? := by
  have hsteps (count : Nat) : Cursor.steps count (.ofText text) = (List.range count).map fun i =>
      ((Stream.ofText text).step i, Cursor.behind text (i + 1)) := by
    rw [← Cursor.behind_zero, Cursor.steps_behind, List.range_eq_range']
  have hfault := Stream.fault_ofText text
  refine ⟨hsteps, fun i s => Stream.fits_getElem? text, ?_, fun e => ?_, fun more => ?_⟩
  · rw [← Token.cutPast_eq_none_iff, hfault]
    cases (Stream.ofText text).fault <;> simp
  · rw [hfault]
    cases (Stream.ofText text).fault <;> simp
  · rw [hsteps, List.map_map]
    exact Cursor.collect_steps (by omega)

end Calx
