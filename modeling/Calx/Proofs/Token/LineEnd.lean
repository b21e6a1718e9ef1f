import Calx.Proofs.Token.Join
import Calx.Text.Lines

/-!
# Line ends and tokens

To unify the line ends of a text shortens it and moves its tokens, but does not change them, unless a
string holds a carriage return (`tokens_unifyLineEnds`). Between tokens a line end is layout, and
stays it. A token without a carriage return is cut as before: up to the first one the text is the
same, and there it goes on with a line feed where a carriage return was. No token goes on into either.
-/

namespace Calx

/-! ## Texts -/

namespace Text

theorem unifyLineEnds_cons_of_ne {c : Char} (hc : c ≠ '\r') (cs : List Char) :
    unifyLineEnds (c :: cs) = c :: unifyLineEnds cs := by
  rw [unifyLineEnds, if_neg hc]
  rintro _ rfl
  exact absurd rfl hc

theorem unifyLineEnds_append {cs : List Char} (h : '\r' ∉ cs) (rest : List Char) :
    unifyLineEnds (cs ++ rest) = cs ++ unifyLineEnds rest := by
  induction cs with
  | nil => rfl
  | cons c cs ih =>
    rw [List.mem_cons, not_or] at h
    rw [List.cons_append, unifyLineEnds_cons_of_ne (Ne.symm h.1), ih h.2, List.cons_append]

/-- A carriage return becomes a line feed, or goes into the one behind it. -/
theorem unifyLineEnds_return (cs : List Char) :
    unifyLineEnds ('\r' :: cs) = unifyLineEnds cs ∧ cs.head? = some '\n' ∨
      unifyLineEnds ('\r' :: cs) = '\n' :: unifyLineEnds cs := by
  cases cs with
  | nil => exact .inr rfl
  | cons c cs =>
    by_cases hc : c = '\n'
    · subst hc
      exact .inl ⟨(unifyLineEnds_cons_of_ne (by decide) cs).symm, rfl⟩
    · refine .inr ?_
      rw [unifyLineEnds, if_pos rfl]
      rintro _ - ⟨⟩
      exact hc rfl

theorem head?_unifyLineEnds_return (cs : List Char) :
    (unifyLineEnds ('\r' :: cs)).head? = some '\n' := by
  rcases unifyLineEnds_return cs with ⟨heq, hhead⟩ | heq
  · obtain ⟨rest, rfl⟩ := List.head?_eq_some_iff.1 hhead
    rw [heq, unifyLineEnds_cons_of_ne (by decide)]
    rfl
  · rw [heq]
    rfl

/-- Layout stays layout. -/
theorem unifyLineEnds_layout {d : Char} (hd : isLayout d = true) (cs : List Char) :
    unifyLineEnds (d :: cs) = unifyLineEnds cs ∨
      ∃ d', isLayout d' = true ∧ unifyLineEnds (d :: cs) = d' :: unifyLineEnds cs := by
  by_cases hreturn : d = '\r'
  · subst hreturn
    exact (unifyLineEnds_return cs).imp And.left fun heq => ⟨'\n', rfl, heq⟩
  · exact .inr ⟨d, hd, unifyLineEnds_cons_of_ne hreturn cs⟩

end Text

open Text

/-! ## Tokens -/

/-- The characters of a span in its text. -/
def Span.source (s : Span) (cs : List Char) : List Char :=
  (cs.drop s.start).take (s.stop - s.start)

namespace Token

theorem apart_unifyLineEnds_return (cs : List Char) : Apart (unifyLineEnds ('\r' :: cs)) := by
  rw [Apart, head?_unifyLineEnds_return]
  rintro _ ⟨_⟩
  decide

/-- Where a text is cut into a token without a carriage return, it is cut alike with its line ends
unified. -/
theorem cut_unifyLineEnds {cs : List Char} {c : Cut} (h : cut cs = .ok (some c))
    (hreturn : '\r' ∉ cs.take c.width) : cut (unifyLineEnds cs) = .ok (some c) := by
  by_cases hmem : '\r' ∈ cs
  · obtain ⟨before, rest, rfl, hbefore⟩ := List.eq_append_cons_of_mem hmem
    have hwidth : c.width ≤ before.length := by
      by_contra hlt
      refine hreturn (List.mem_take_iff_getElem.2 ⟨before.length, ?_, ?_⟩)
      · simp
        omega
      · simp
    have hcut := cut_take h hwidth
    rw [List.take_left] at hcut
    rw [unifyLineEnds_append hbefore]
    exact cut_append hcut (apart_unifyLineEnds_return rest)
  · rwa [unifyLineEnds_of_not_mem hmem]

/-- Only a string can hold a carriage return. -/
theorem not_mem_take_of_cut {cs : List Char} {c : Cut} (h : cut cs = .ok (some c))
    (hkind : c.token.kind ≠ .string) : '\r' ∉ cs.take c.width := by
  intro hmem
  cases cut_eq_some_iff.1 h with
  | @mark d t cs hmark =>
    obtain rfl : '\r' = d := List.mem_singleton.1 hmem
    cases hmark
  | @word d cs hword =>
    rw [cutWord, ← List.prefix_iff_eq_take.1 (List.takeWhile_prefix _)] at hmem
    exact absurd (List.all_eq_true.1 List.all_takeWhile _ hmem) (by decide)
  | @number n width cs hscan =>
    -- A numeral does not go on into a carriage return, so it ends in front of the first one.
    obtain ⟨before, rest, rfl, hbefore⟩ := List.eq_append_cons_of_mem (List.mem_of_mem_take hmem)
    rw [Number.Numeral.scan?_append (.cons (by decide) rest)] at hscan
    have hwidth := Number.Numeral.width_scan?_le hscan
    rw [List.take_append_of_le_length hwidth] at hmem
    exact hbefore (List.mem_of_mem_take hmem)
  | string => exact hkind rfl

end Token

/-! ## Streams -/

namespace Stream

theorem exists_ofChars_layout {cs : List Char} (h : ∀ d ∈ cs, isLayout d = true) (offset : Nat)
    (rest : List Char) : ∃ offset',
      ofChars offset (unifyLineEnds (cs ++ rest)) = ofChars offset' (unifyLineEnds rest) := by
  induction cs generalizing offset with
  | nil => exact ⟨offset, rfl⟩
  | cons d cs ih =>
    rw [List.forall_mem_cons] at h
    rw [List.cons_append]
    rcases unifyLineEnds_layout h.1 (cs ++ rest) with heq | ⟨d', hd', heq⟩ <;> rw [heq]
    · exact ih h.2 offset
    · rw [ofChars_layout hd']
      exact ih h.2 (offset + 1)

theorem ofChars_unifyLineEnds {text cs : List Char} {offset : Nat} (htext : text.drop offset = cs)
    (hfault : (ofChars offset cs).fault = none)
    (hstrings : ∀ s ∈ (ofChars offset cs).spans, s.token.kind = .string → '\r' ∉ s.source text)
    (offset' : Nat) : (ofChars offset' (unifyLineEnds cs)).fault = none ∧
      (ofChars offset' (unifyLineEnds cs)).tokens = (ofChars offset cs).tokens := by
  fun_induction ofChars offset cs generalizing offset' with
  | case1 => cases hfault
  | case2 offset cs start body hcut =>
    have hlayout : ∀ d ∈ cs, isLayout d = true :=
      Token.cutPast_eq_none_iff.1 (by rw [Token.cutPast, hcut]; rfl)
    obtain ⟨final, heq⟩ := exists_ofChars_layout hlayout offset' []
    rw [List.append_nil] at heq
    rw [heq, unifyLineEnds, ofChars_nil]
    exact ⟨rfl, rfl⟩
  | case3 offset cs start body c hcut ih =>
    have hdrop : text.drop start = body := by
      simp only [start, body]
      rw [← List.drop_drop, htext]
    have hreturn : '\r' ∉ body.take c.width := by
      by_cases hkind : c.token.kind = .string
      · have hs := hstrings ⟨start, c.token, start + c.width⟩ List.mem_cons_self hkind
        rwa [Span.source, hdrop, Nat.add_sub_cancel_left] at hs
      · exact Token.not_mem_take_of_cut hcut hkind
    have hrest : unifyLineEnds body =
        body.take c.width ++ unifyLineEnds (body.drop c.width) := by
      rw [← unifyLineEnds_append hreturn, List.take_append_drop]
    have hlayout : ∃ place,
        ofChars offset' (unifyLineEnds cs) = ofChars place (unifyLineEnds body) := by
      have hsplit := exists_ofChars_layout (fun d => @Token.isLayout_of_mem_take cs d) offset' body
      rwa [List.take_append_drop] at hsplit
    obtain ⟨place, heq⟩ := hlayout
    have hcut' := Token.cut_unifyLineEnds hcut hreturn
    obtain ⟨hfault', htokens⟩ := ih (by rw [← hdrop, List.drop_drop]) hfault
      (fun s hs => hstrings s (List.mem_cons_of_mem _ hs)) (place + c.width)
    have hwidth : (body.take c.width).length = c.width :=
      List.length_take_of_le (Token.width_le_of_cut hcut)
    rw [heq, ofChars_eq, Token.layoutWidth_of_cut hcut', List.drop_zero, Nat.add_zero, hcut']
    dsimp only
    rw [hrest, List.drop_left' hwidth]
    exact ⟨hfault', congrArg (c.token :: ·) htokens⟩

/-- **A text has the same tokens with its line ends unified**, if it can be cut to its end and no
string in it holds a carriage return. -/
theorem tokens_unifyLineEnds {text : String} (hfault : (ofText text).fault = none)
    (hstrings : ∀ s ∈ (ofText text).spans, s.token.kind = .string → '\r' ∉ s.source text.toList) :
    (ofText (String.ofList (unifyLineEnds text.toList))).fault = none ∧
      (ofText (String.ofList (unifyLineEnds text.toList))).tokens = (ofText text).tokens := by
  rw [ofText, String.toList_ofList]
  exact ofChars_unifyLineEnds List.drop_zero hfault hstrings 0

end Stream

end Calx
