import Mathlib
import Calx.Proofs.Grammar.Depth
import Calx.Proofs.Grammar.Program
import Calx.Proofs.Token.Stream

/-!
# Texts and programs

What `Program.ofText` makes of a text, when texts may nest as deep as they are long.

* `ofText_eq_ok_iff_isProgram`: a text is read as a program exactly if it can be cut to its end and
  its tokens are that program.
* `ofText_eq_lexical_iff`: a text that cannot be cut to its end is blamed on that exactly if the
  tokens before it could go on to be a program.
-/

namespace Calx

open Rule

/-! ## Outcomes of a text -/

section Read

variable {α : Type} {rule : Rule α} {text : String}

theorem read_eq_ok_iff {a : α} : rule.read text = .ok a ↔
    ∃ rest, rule (Stream.ofText text).fault (Stream.ofText text).tokens = .fits a rest := by
  simp only [Rule.read]
  split <;> simp_all

theorem read_eq_lexical_iff {e : LexError} : rule.read text = .error (.lexical e) ↔
    rule (Stream.ofText text).fault (Stream.ofText text).tokens = .abandoned (.lexical e) := by
  simp only [Rule.read]
  split <;> simp_all

theorem read_eq_unfit_iff {d : Diagnostic} : rule.read text = .error (.unfit d) ↔
    ∃ rest expected,
      rule (Stream.ofText text).fault (Stream.ofText text).tokens = .misfits rest expected ∧
      d = .ofExpectation text.toList ((Stream.ofText text).placeOf rest.length) expected := by
  simp only [Rule.read]
  cases rule (Stream.ofText text).fault (Stream.ofText text).tokens with
  | fits => simp
  | abandoned why => cases why <;> simp
  | misfits rest e =>
    constructor
    · rintro ⟨⟩
      exact ⟨rest, e, rfl, rfl⟩
    · rintro ⟨_, _, ⟨⟩, rfl⟩
      rfl

end Read

/-! ## Programs -/

/-- Whatever the depth, what is read is what the tokens are. -/
theorem isProgram_of_ofText {depth : Nat} {text : String} {p : Program}
    (h : Program.ofText depth text = .ok p) :
    (Stream.ofText text).fault = none ∧ IsProgram (Stream.ofText text).tokens p := by
  obtain ⟨rest, hfits⟩ := read_eq_ok_iff.1 h
  obtain ⟨hfault, rfl⟩ := end_of_program hfits
  obtain ⟨us, hts, hp⟩ := (reads_program (reads_level depth).2).sound hfits
  rw [hts, List.append_nil]
  exact ⟨hfault, hp⟩

/-- A text is read as the program that its tokens are, if it may nest as deep as it has tokens. -/
theorem ofText_of_tokens {depth : Nat} {text : String} {ts : List Token} {p : Program}
    (htokens : (Stream.ofText text).tokens? = .ok ts) (hp : IsProgram ts p)
    (hdepth : ts.length < depth) : Program.ofText depth text = .ok p := by
  obtain ⟨hfault, rfl⟩ := tokens?_eq_ok_iff.1 htokens
  refine read_eq_ok_iff.2 ⟨[], ?_⟩
  rw [hfault]
  exact program_eq_of_isProgram hp (takes_level depth).2 refuses_expression hdepth

theorem ofText_of_isProgram {depth : Nat} {text : String} {p : Program}
    (hdepth : text.length < depth) (hfault : (Stream.ofText text).fault = none)
    (hp : IsProgram (Stream.ofText text).tokens p) : Program.ofText depth text = .ok p :=
  ofText_of_tokens (tokens?_eq_ok_iff.2 ⟨hfault, rfl⟩) hp
    (Nat.lt_of_le_of_lt (length_tokens_le text) hdepth)

/-- A text that is rejected is rejected alike where it may nest deeper. -/
theorem ofText_unfit_of_le {m n : Nat} {text : String} {d : Diagnostic} (hle : m ≤ n)
    (h : Program.ofText m text = .error (.unfit d)) :
    Program.ofText n text = .error (.unfit d) := by
  obtain ⟨rest, e, hmisfits, rfl⟩ := read_eq_unfit_iff.1 h
  exact read_eq_unfit_iff.2
    ⟨rest, e, (approximates_program_expression hle).misfits hmisfits, rfl⟩

/-- Tokens are at most one program. -/
theorem IsProgram.unique {ts : List Token} {p q : Program} (hp : IsProgram ts p)
    (hq : IsProgram ts q) : p = q := by
  have hfits {r : Program} (hr : IsProgram ts r) := program_eq_of_isProgram hr
    (takes_level (ts.length + 1)).2 refuses_expression (Nat.lt_succ_self _)
  have heq := (hfits hp).symm.trans (hfits hq)
  cases heq
  rfl

theorem ofText_eq_ok_iff {depth : Nat} {text : String} (hdepth : text.length < depth)
    (p : Program) : Program.ofText depth text = .ok p ↔
      ∃ ts, (Stream.ofText text).tokens? = .ok ts ∧ IsProgram ts p := by
  constructor
  · intro h
    obtain ⟨hfault, hp⟩ := isProgram_of_ofText h
    exact ⟨_, tokens?_eq_ok_iff.2 ⟨hfault, rfl⟩, hp⟩
  · rintro ⟨ts, hts, hp⟩
    obtain ⟨hfault, rfl⟩ := tokens?_eq_ok_iff.1 hts
    exact ofText_of_isProgram hdepth hfault hp

/-- **Reading is derivation.** A text shorter than the depth is read as the program `p` exactly if
it can be cut to its end and its tokens are `p`; its tokens are no other program; and a text with
the same tokens, whatever stands between them, is read as the same. -/
theorem ofText_eq_ok_iff_isProgram {depth : Nat} {text : String} (hdepth : text.length < depth) :
    (∀ p, Program.ofText depth text = .ok p ↔
      ∃ spans, (Stream.ofText text).spans? = .ok spans ∧ IsProgram (spans.map Span.token) p) ∧
    (∀ ts p q, IsProgram ts p → IsProgram ts q → p = q) ∧
    ∀ depth' text', text'.length < depth' →
      (Stream.ofText text').tokens? = (Stream.ofText text).tokens? →
      ∀ p, Program.ofText depth' text' = .ok p ↔ Program.ofText depth text = .ok p := by
  refine ⟨fun p => ?_, fun ts p q => IsProgram.unique, fun depth' text' hdepth' htokens p => ?_⟩
  · rw [ofText_eq_ok_iff hdepth]
    constructor
    · rintro ⟨ts, hts, hp⟩
      obtain ⟨hfault, rfl⟩ := tokens?_eq_ok_iff.1 hts
      exact ⟨_, spans?_eq_ok_iff.2 ⟨hfault, rfl⟩, hp⟩
    · rintro ⟨spans, hspans, hp⟩
      obtain ⟨hfault, rfl⟩ := spans?_eq_ok_iff.1 hspans
      exact ⟨_, tokens?_eq_ok_iff.2 ⟨hfault, rfl⟩, hp⟩
  · rw [ofText_eq_ok_iff hdepth', ofText_eq_ok_iff hdepth, htokens]

/-- A call of a call, in the body of a binding. -/
theorem isProgram_call_call :
    "let x = y in f(x)(z)".length < 30 ∧
    ∃ spans, (Stream.ofText "let x = y in f(x)(z)").spans? = .ok spans ∧
      IsProgram (spans.map Span.token) [.expr (.letIn "x" (.var "y")
        (.apply (.apply (.var "f") [.var "x"]) [.var "z"]))] := by
  have hlt : "let x = y in f(x)(z)".length < 30 := by decide
  exact ⟨hlt, ((ofText_eq_ok_iff_isProgram hlt).1 _).1 (by cbv)⟩

/-! ## Texts that cannot be cut to their end -/

section Lexical

variable {depth : Nat} {e : LexError} {ts : List Token}

/-- Tokens that could go on to be a program are abandoned where the next one is missing. -/
theorem program_eq_lexical {us : List Token} {p : Program} (hdepth : ts.length < depth)
    (hus : us ≠ []) (hp : IsProgram (ts ++ us) p) :
    Grammar.program (Grammar.expression depth) (some e) ts = .abandoned (.lexical e) := by
  -- A level that is deep enough for the continuation as well.
  let deep := max depth (ts ++ us).length + 1
  have hle : depth ≤ deep := by omega
  have hfits : Grammar.program (Grammar.expression deep) none (ts ++ us) = .fits p [] :=
    program_eq_of_isProgram hp (takes_level deep).2 refuses_expression (by omega)
  have hdeep : Grammar.program (Grammar.expression deep) (some e) ts = .abandoned (.lexical e) := by
    have hsteady : Steady (Grammar.program (Grammar.expression deep)) :=
      steady_program (steady_level deep).2 (needy_expression _)
    refine (hsteady e ts).resolve_right fun hext => ?_
    -- The rule would stop before the end of the continuation, but a program ends with its tokens.
    have heq := (hext none us hus).symm.trans hfits
    cases hr : Grammar.program (Grammar.expression deep) (some e) ts with
    | fits q rest => cases (end_of_program hr).1
    | misfits rest expected =>
      rw [hr] at heq
      cases heq
    | abandoned why =>
      rw [hr] at heq
      cases heq
  have hshallow : Grammar.program (Grammar.expression depth) (some e) ts ≠ .abandoned .tooDeep :=
    (reads_program (reads_level depth).2).shallow hdepth
  exact ((approximates_program_expression hle (some e) ts).resolve_left hshallow).trans hdeep

/-- Tokens that could not go on to be a program do not fit. -/
theorem program_eq_misfits (hdepth : ts.length < depth)
    (hno : ¬∃ us p, us ≠ [] ∧ IsProgram (ts ++ us) p) :
    ∃ rest expected,
      Grammar.program (Grammar.expression depth) (some e) ts = .misfits rest expected := by
  have hreads := reads_program (reads_level depth).2
  cases hr : Grammar.program (Grammar.expression depth) (some e) ts with
  | fits q rest => cases (end_of_program hr).1
  | misfits rest expected => exact ⟨rest, expected, rfl⟩
  | abandoned why =>
    cases why with
    | lexical e' => exact absurd (hreads.viable hr).2 hno
    | tooDeep => exact absurd hr (hreads.shallow hdepth)

end Lexical

/-- **Which error wins.** A text that cannot be cut to its end, shorter than the depth, is blamed on
the error that stops the cutting exactly if the tokens before it, with at least one more, are the
beginning of a program. Otherwise it is blamed on the grammar. -/
theorem ofText_eq_lexical_iff {depth : Nat} {text : String} {e : LexError}
    (hdepth : text.length < depth) (hfault : (Stream.ofText text).spans? = .error e) :
    (Program.ofText depth text = .error (.lexical e) ↔
      ∃ us p, us ≠ [] ∧ IsProgram ((Stream.ofText text).tokens ++ us) p) ∧
    ((¬∃ us p, us ≠ [] ∧ IsProgram ((Stream.ofText text).tokens ++ us) p) →
      ∃ d, Program.ofText depth text = .error (.unfit d)) ∧
    (∀ p, Program.ofText depth text ≠ .ok p) ∧
    ∀ e', Program.ofText depth text = .error (.lexical e') → e' = e := by
  have hfault := spans?_eq_error_iff.1 hfault
  have hlen : (Stream.ofText text).tokens.length < depth :=
    Nat.lt_of_le_of_lt (length_tokens_le text) hdepth
  have hlexical {e'} (h : Program.ofText depth text = .error (.lexical e')) : e' = e ∧
      ∃ us p, us ≠ [] ∧ IsProgram ((Stream.ofText text).tokens ++ us) p := by
    obtain ⟨he, hviable⟩ := (reads_program (reads_level depth).2).viable (read_eq_lexical_iff.1 h)
    rw [hfault] at he
    exact ⟨(Option.some.inj he).symm, hviable⟩
  refine ⟨⟨fun h => (hlexical h).2, ?_⟩, fun hno => ?_, fun p hp => ?_, fun e' h => (hlexical h).1⟩
  · rintro ⟨us, p, hus, hp⟩
    refine read_eq_lexical_iff.2 ?_
    rw [hfault]
    exact program_eq_lexical hlen hus hp
  · obtain ⟨rest, expected, hr⟩ := program_eq_misfits (e := e) hlen hno
    rw [← hfault] at hr
    exact ⟨_, read_eq_unfit_iff.2 ⟨rest, expected, hr, rfl⟩⟩
  · rw [(isProgram_of_ofText hp).1] at hfault
    cases hfault

/-- A call may go on where the text cannot be cut, but nothing may follow a lone semicolon. -/
theorem viable_call_and_not_semicolon :
    (∃ us p, us ≠ [] ∧ IsProgram ((Stream.ofText "f(x, $").tokens ++ us) p) ∧
    ¬∃ us p, us ≠ [] ∧ IsProgram ((Stream.ofText "; $").tokens ++ us) p := by
  have hcall : (Stream.ofText "f(x, $").spans? = .error (.unexpectedCharacter '$') := by cbv
  have hlone : (Stream.ofText "; $").spans? = .error (.unexpectedCharacter '$') := by cbv
  refine ⟨?_, fun h => ?_⟩
  · exact (@ofText_eq_lexical_iff 9 _ _ (by decide) hcall).1.1 (by cbv)
  · have hlexical := (@ofText_eq_lexical_iff 9 _ _ (by decide) hlone).1.2 h
    have hunfit : Program.ofText 9 "; $" ≠ .error (.lexical (.unexpectedCharacter '$')) := by
      cbv
      rintro ⟨_⟩
    exact hunfit hlexical

end Calx
