import Calx.Proofs.Grammar.Flat
import Calx.Proofs.Session.Join

/-!
# Quoted texts

A quoted text is cut as one string wherever it stands (`Token.cut_quote`), so where two texts start
with quoted texts, these can be told apart from what is behind them (`Quoted.quote_append_inj`). A
session that is given what it shows for a text comes to that text (`Session.run_quote`).
-/

namespace Calx

namespace Quoted

/-- No line end and no tab stands in a quoted text as it is. -/
theorem not_control_of_mem_quote {s : String} {c : Char} (h : c ∈ (quote s).toList) :
    c ≠ '\n' ∧ c ≠ '\r' ∧ c ≠ '\t' := by
  have hpair {e : Char} (he : e ≠ '\n' ∧ e ≠ '\r' ∧ e ≠ '\t') (hc : c ∈ ['\\', e]) :
      c ≠ '\n' ∧ c ≠ '\r' ∧ c ≠ '\t' := by
    rcases List.mem_pair.1 hc with rfl | rfl
    · decide
    · exact he
  have hescape (d : Char) (hc : c ∈ escape d) : c ≠ '\n' ∧ c ≠ '\r' ∧ c ≠ '\t' := by
    unfold escape at hc
    split at hc
    case h_1 | h_2 | h_3 | h_4 | h_5 => exact hpair (by decide) hc
    case h_6 hn hr ht =>
      rw [List.mem_singleton.1 hc]
      exact ⟨hn, hr, ht⟩
  simp only [quote, quoteBody, String.toList_ofList, List.mem_cons, List.mem_append,
    List.mem_flatMap, List.mem_nil_iff, or_false] at h
  rcases h with rfl | ⟨d, -, hc⟩ | rfl
  · decide
  · exact hescape d hc
  · decide

/-- Where texts that start with quoted texts agree, these agree, and what is behind them. -/
theorem quote_append_inj {s t : String} {rest rest' : List Char}
    (h : (quote s).toList ++ rest = (quote t).toList ++ rest') : s = t ∧ rest = rest' := by
  have hcut := Token.cut_quote s rest
  rw [h, Token.cut_quote t rest'] at hcut
  cases hcut
  exact ⟨rfl, List.append_cancel_left h⟩

end Quoted

/-! ## Reading back -/

theorem ofText_quote (s : String) : Stream.ofText (Quoted.quote s) =
    ⟨[⟨0, .string s, (Quoted.quote s).length⟩], (Quoted.quote s).length, none⟩ := by
  have hcut := Token.cut_quote s []
  rw [List.append_nil] at hcut
  rw [Stream.ofText, Stream.ofChars_eq, Token.layoutWidth_of_cut hcut, List.drop_zero, hcut]
  dsimp only
  rw [List.drop_length, Stream.ofChars_nil, Nat.add_zero, Nat.zero_add, String.length_toList,
    Stream.cons]

/-- A quoted text is read as that text, however little may nest. -/
theorem program_ofText_quote (depth : Nat) (s : String) :
    Program.ofText (depth + 1) (Quoted.quote s) = .ok [.expr (.text s)] := by
  have hstream := ofText_quote s
  refine ofText_of_isFlat (by rw [hstream]) ?_ depth
  rw [hstream]
  exact .operand (.operand ⟨_, rfl, rfl⟩)

/-- A session that is given what it shows for a text comes to that text, and stays as it is. -/
theorem Session.run_quote [Machine] {session : Session} (hnesting : session.limits.nesting ≠ 0)
    (hevaluation : session.limits.evaluation ≠ 0)
    (hwriting : session.tracing = true → 2 ≤ session.limits.writing) (s : String) :
    (session.run (Quoted.quote s)).outcome = .ok (.text s) ∧
      (session.run (Quoted.quote s)).session = session := by
  obtain ⟨nesting, hn⟩ := Nat.exists_eq_succ_of_ne_zero hnesting
  obtain ⟨evaluation, he⟩ := Nat.exists_eq_succ_of_ne_zero hevaluation
  have hp : Program.ofText session.limits.nesting (Quoted.quote s) = .ok [.expr (.text s)] := by
    rw [hn]
    exact program_ofText_quote nesting s
  have hdepth : (Expr.text s).depth = 1 := by rw [Expr.depth]
  have hreport : (Run.report session.watch (.expression (.text s))).outcome = .ok () :=
    Run.outcome_report_of_le fun htracing => by
      rw [Event.depth, hdepth]
      exact Nat.le_of_succ_le (hwriting htracing)
  refine Session.run_of_eval hp (fun htracing => by rw [hdepth]; exact hwriting htracing) ?_
  rw [he, eval, Run.outcome_bind_ok hreport]
  rfl

/-- **Quoting is undone by cutting.** Wherever a quoted text stands, exactly its characters are cut,
as one string that carries the text; no line end and no tab is among them. So different texts are
quoted differently, no quoted text is the beginning of another one, and a text that is shown is cut
into itself, and is the value of what is shown. -/
theorem quote_reads_back [Machine] :
    (∀ a s b : String, Token.cut ((a ++ Quoted.quote s ++ b).toList.drop a.length) =
      .ok (some ⟨.string s, (Quoted.quote s).length⟩)) ∧
    (∀ s, '\n' ∉ (Quoted.quote s).toList ∧ '\r' ∉ (Quoted.quote s).toList ∧
      '\t' ∉ (Quoted.quote s).toList) ∧
    Function.Injective Quoted.quote ∧
    (∀ s t, (Quoted.quote s).toList <+: (Quoted.quote t).toList ↔ s = t) ∧
    (∀ s, (Stream.ofText (Value.text s).display).spans? =
      .ok [⟨0, .string s, (Value.text s).display.length⟩]) ∧
    ∀ env tracing nesting evaluation writing s,
      let session : Session := ⟨env, tracing, ⟨nesting + 1, evaluation + 1, writing + 2⟩⟩
      (session.run (Value.text s).display).outcome = .ok (.text s) ∧
        (session.run (Value.text s).display).session = session := by
  refine ⟨fun a s b => ?_, fun s => ⟨fun h => ?_, fun h => ?_, fun h => ?_⟩, fun s t h => ?_,
    fun s t => ⟨?_, ?_⟩, fun s => ?_, fun env tracing nesting evaluation writing s => ?_⟩
  · rw [String.toList_append, String.toList_append, List.append_assoc, ← String.length_toList,
      List.drop_left, Token.cut_quote, String.length_toList]
  · exact (Quoted.not_control_of_mem_quote h).1 rfl
  · exact (Quoted.not_control_of_mem_quote h).2.1 rfl
  · exact (Quoted.not_control_of_mem_quote h).2.2 rfl
  · have happend : (Quoted.quote s).toList ++ [] = (Quoted.quote t).toList ++ [] := by rw [h]
    exact (Quoted.quote_append_inj happend).1
  · rintro ⟨rest, hrest⟩
    rw [← List.append_nil (Quoted.quote t).toList] at hrest
    exact (Quoted.quote_append_inj hrest).1
  · rintro rfl
    exact List.prefix_rfl
  · rw [Value.display, ofText_quote]
    rfl
  · exact Session.run_quote (Nat.succ_ne_zero _) (Nat.succ_ne_zero _)
      (fun _ => Nat.le_add_left 2 writing) s

end Calx
