import Calx.Token.Cut

/-!
# String literals, spelled

`Quoted.Spells cs ds` says that the characters `cs`, between two quotes, spell the text `ds`:
characters that are neither a quote nor a backslash stand for themselves, and an escape stands for
its character. Such characters are decoded into their text whatever follows (`decode_append_of_spells`),
and there are three things that decoding can come to (`decoded`): a quote closes the literal, an
undefined escape breaks it (`Breaks`), or it is never closed.
-/

namespace Calx.Quoted

/-- The escapes: what stands behind the backslash, and what it stands for. -/
def escapes : List (Char × Char) :=
  [('"', '"'), ('\\', '\\'), ('/', '/'), ('n', '\n'), ('r', '\r'), ('t', '\t')]

theorem unescape?_eq_some_iff {e c : Char} : unescape? e = some c ↔ (e, c) ∈ escapes := by
  simp only [escapes, List.mem_cons, Prod.mk.injEq, List.mem_nil_iff, or_false]
  constructor
  · intro h
    unfold unescape? at h
    split at h <;> cases h <;> simp
  · rintro (⟨rfl, rfl⟩ | ⟨rfl, rfl⟩ | ⟨rfl, rfl⟩ | ⟨rfl, rfl⟩ | ⟨rfl, rfl⟩ | ⟨rfl, rfl⟩) <;> rfl

theorem unescape?_eq_none_iff {e : Char} : unescape? e = none ↔ ∀ c, (e, c) ∉ escapes := by
  simp only [← unescape?_eq_some_iff, Option.eq_none_iff_forall_ne_some]

/-- The characters that spell a text between two quotes. -/
inductive Spells : List Char → List Char → Prop
  | nil : Spells [] []
  | plain {c : Char} {cs ds : List Char} :
      c ≠ '"' → c ≠ '\\' → Spells cs ds → Spells (c :: cs) (c :: ds)
  | escape {e c : Char} {cs ds : List Char} :
      (e, c) ∈ escapes → Spells cs ds → Spells ('\\' :: e :: cs) (c :: ds)

/-- The first thing in the characters that spells no text is the backslash in front of `e`. -/
def Breaks (cs : List Char) (e : Char) : Prop :=
  ∃ body ds rest, cs = body ++ '\\' :: e :: rest ∧ Spells body ds ∧ ∀ c, (e, c) ∉ escapes

theorem Spells.append {cs cs' ds ds' : List Char} (h : Spells cs ds) (h' : Spells cs' ds') :
    Spells (cs ++ cs') (ds ++ ds') := by
  induction h with
  | nil => exact h'
  | plain hq hb _ ih => exact .plain hq hb ih
  | escape he _ ih => exact .escape he ih

/-- What spells a text is decoded into it, and then what is behind. -/
theorem decode_append_of_spells {body ds : List Char} (h : Spells body ds) (cs : List Char) :
    decode (body ++ cs) = (decode cs).map fun r => (ds ++ r.1, r.2 + body.length) := by
  induction h with
  | nil =>
    rw [List.nil_append]
    cases decode cs <;> rfl
  | plain hq hb _ ih =>
    rw [List.cons_append, decode_cons_of_plain hq hb, ih]
    cases decode cs <;> rfl
  | escape he _ ih =>
    rw [List.cons_append, List.cons_append, decode, unescape?_eq_some_iff.2 he]
    dsimp only
    rw [ih]
    cases decode cs <;> rfl

theorem decode_of_spells {body ds : List Char} (h : Spells body ds) (rest : List Char) :
    decode (body ++ '"' :: rest) = .ok (ds, body.length + 1) := by
  rw [decode_append_of_spells h, decode]
  simp [Except.map, Nat.add_comm]

theorem decode_of_breaks {cs : List Char} {e : Char} (h : Breaks cs e) :
    decode cs = .error (.undefinedEscape e) := by
  obtain ⟨body, ds, rest, rfl, hbody, he⟩ := h
  rw [decode_append_of_spells hbody, decode, unescape?_eq_none_iff.2 he]
  rfl

/-- What decoding can come to. -/
inductive Decoded (cs : List Char) : Except LexError (List Char × Nat) → Prop
  | closed {body ds rest : List Char} :
      cs = body ++ '"' :: rest → Spells body ds → Decoded cs (.ok (ds, body.length + 1))
  | broken {e : Char} : Breaks cs e → Decoded cs (.error (.undefinedEscape e))
  | unclosed : Decoded cs (.error .unexpectedEnd)

/-- What stands in front and spells a text is decoded too. -/
theorem Decoded.behind {front es cs : List Char} {r : Except LexError (List Char × Nat)}
    (hfront : Spells front es) (h : Decoded cs r) :
    Decoded (front ++ cs) (r.map fun x => (es ++ x.1, x.2 + front.length)) := by
  cases h with
  | @closed body ds rest hcs hbody =>
    have hlength : (front ++ body).length + 1 = body.length + 1 + front.length := by
      rw [List.length_append]
      omega
    rw [hcs, ← List.append_assoc, Except.map, ← hlength]
    exact .closed rfl (hfront.append hbody)
  | broken hbreaks =>
    obtain ⟨body, ds, rest, hcs, hbody, he⟩ := hbreaks
    exact .broken ⟨front ++ body, es ++ ds, rest, by rw [hcs, List.append_assoc],
      hfront.append hbody, he⟩
  | unclosed => exact .unclosed

theorem decoded (cs : List Char) : Decoded cs (decode cs) := by
  fun_induction decode cs with
  | case1 | case3 => exact .unclosed
  | case2 cs => exact .closed (List.nil_append _).symm .nil
  | case4 e cs he => exact .broken ⟨[], [], cs, rfl, .nil, unescape?_eq_none_iff.1 he⟩
  | case5 e cs c hc ih => exact ih.behind (.escape (unescape?_eq_some_iff.1 hc) .nil)
  | case6 c cs hq hb hesc ih =>
    have hplain : c ≠ '\\' := by
      rintro rfl
      cases cs with
      | nil => exact hb rfl rfl
      | cons e cs => exact hesc e cs rfl rfl
    exact ih.behind (.plain hq hplain .nil)

/-- What is decoded is spelled by the characters up to the closing quote. -/
theorem spells_of_decode {cs ds : List Char} {width : Nat} (h : decode cs = .ok (ds, width)) :
    ∃ body rest, cs = body ++ '"' :: rest ∧ Spells body ds ∧ width = body.length + 1 := by
  have hdecoded := decoded cs
  rw [h] at hdecoded
  cases hdecoded with
  | closed hcs hbody => exact ⟨_, _, hcs, hbody, rfl⟩

end Calx.Quoted
