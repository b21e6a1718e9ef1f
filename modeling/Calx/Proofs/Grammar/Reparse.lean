import Calx.Proofs.Grammar.Readable
import Calx.Proofs.Grammar.Text
import Calx.Proofs.Grammar.Written
import Calx.Proofs.Token.Cuts

/-!
# Written programs read again

A readable tree is cut into the tokens that it is written as (`cuts_render`), and these are a phrase
for its normal form. So a program that was read from a text is read again, from the text it is
written as, as its normal form (`ofText_render`).
-/

namespace Calx

open Number

/-! ## The characters of what is written -/

namespace Expr

theorem toList_render_binary (op : BinaryOperator) (l r : Expr) :
    (binary op l r).render.toList =
      '(' :: (l.render.toList ++ ' ' :: (op.symbol.toList ++ ' ' :: (r.render.toList ++ [')']))) := by
  simp [render]

theorem toList_render_apply (f : Expr) (args : List Expr) :
    (apply f args).render.toList = f.render.toList ++
      '(' :: ([',', ' '].intercalate (args.map fun e => e.render.toList) ++ [')']) := by
  simp [render, renderList_eq_map, Function.comp_def]

theorem toList_render_letIn (n : String) (b e : Expr) :
    (letIn n b e).render.toList = '(' :: 'l' :: 'e' :: 't' :: ' ' ::
      (n.toList ++ ' ' :: '=' :: ' ' ::
        (b.render.toList ++ ' ' :: 'i' :: 'n' :: ' ' :: (e.render.toList ++ [')']))) := by
  simp [render]

end Expr

namespace Stmt

theorem toList_render_bind (n : String) (e : Expr) :
    (bind n e).render.toList = 'l' :: 'e' :: 't' :: ' ' ::
      (n.toList ++ ' ' :: '=' :: ' ' :: (e.render.toList ++ [';'])) := by
  simp [render]

theorem toList_render_define (n : String) (ps : List String) (e : Expr) :
    (define n ps e).render.toList = 'd' :: 'e' :: 'f' :: ' ' :: (n.toList ++
      '(' :: ([',', ' '].intercalate (ps.map String.toList) ++ [')'] ++ ' ' :: '=' :: ' ' ::
        (e.render.toList ++ [';']))) := by
  simp [render]

end Stmt

theorem Program.toList_render (p : Program) :
    p.render.toList = ['\n'].intercalate (p.map fun s => s.render.toList) := by
  rw [Program.render, String.toList_intercalate, List.map_map]
  rfl

/-! ## Cutting what is written -/

theorem cuts_name {n : String} (h : IsName n) : Cuts Token.Stops n.toList [.identifier n] := by
  obtain ⟨c, cs, hn, hc, hcs⟩ := h.word
  have hword := Cuts.word hc hcs
  rwa [← hn, String.ofList_toList, h.ofWord_eq] at hword

theorem cuts_letWord : Cuts Token.Stops ['l', 'e', 't'] [.letWord] :=
  Cuts.word (c := 'l') rfl (List.all_eq_true.1 rfl)

theorem cuts_inWord : Cuts Token.Stops ['i', 'n'] [.inWord] :=
  Cuts.word (c := 'i') rfl (List.all_eq_true.1 rfl)

theorem cuts_defWord : Cuts Token.Stops ['d', 'e', 'f'] [.defWord] :=
  Cuts.word (c := 'd') rfl (List.all_eq_true.1 rfl)

/-- Items with a comma and a space between them. -/
theorem cuts_intercalate {α : Type} {as : List α} {chars : α → List Char} {tokens : α → List Token}
    (h : ∀ a ∈ as, Cuts Token.Stops (chars a) (tokens a)) :
    Cuts Token.Stops ([',', ' '].intercalate (as.map chars))
      ([Token.comma].intercalate (as.map tokens)) := by
  induction as with
  | nil => exact .nil
  | cons a as ih =>
    have ha := h a List.mem_cons_self
    cases as with
    | nil => simpa using ha
    | cons b as =>
      have hrest := ih fun c hc => h c (List.mem_cons_of_mem a hc)
      rw [List.map_cons, List.map_cons, List.map_cons, List.map_cons, List.intercalate_cons_cons,
        List.intercalate_cons_cons, List.append_assoc, List.append_assoc, ← List.map_cons,
        ← List.map_cons]
      exact ha.stop (.punctuation rfl (.layout rfl hrest)) (by decide)

mutual

/-- A readable expression is cut into the tokens that it is written as. -/
theorem cuts_render : (e : Expr) → e.Readable → Cuts Token.Stops e.render.toList e.written
  | .number _, h => .number h
  | .text s, _ => (Cuts.string s).mono fun _ _ => trivial
  | .var _, h => cuts_name h
  | .negate e, h => by
    rw [Expr.render, String.toList_append]
    exact .punctuation rfl (cuts_render e h)
  | .binary op l r, ⟨hl, hr⟩ => by
    have hsymbol : ∃ c, op.symbol.toList = [c] ∧ Token.ofPunctuation? c = some op.token := by
      cases op <;> exact ⟨_, rfl, rfl⟩
    obtain ⟨c, hc, hop⟩ := hsymbol
    have htail : Cuts Token.Stops (r.render.toList ++ [')']) (r.written ++ [.closeParen]) :=
      (cuts_render r hr).stop (.punctuation rfl .nil) (by decide)
    rw [Expr.toList_render_binary, hc]
    exact .punctuation rfl ((cuts_render l hl).stop
      (.layout rfl (.punctuation hop (.layout rfl htail))) (by decide))
  | .apply f args, ⟨hf, hargs⟩ => by
    have hinner : Cuts Token.Stops ([',', ' '].intercalate (args.map fun e => e.render.toList))
        ([Token.comma].intercalate (Expr.writtenList args)) := by
      rw [Expr.writtenList_eq_map]
      exact cuts_intercalate (cuts_renderList args hargs)
    rw [Expr.toList_render_apply]
    exact (cuts_render f hf).stop
      (.punctuation rfl (hinner.stop (.punctuation rfl .nil) (by decide))) (by decide)
  | .letIn n b e, ⟨hn, hb, he⟩ => by
    have hbody : Cuts Token.Stops (e.render.toList ++ [')']) (e.written ++ [.closeParen]) :=
      (cuts_render e he).stop (.punctuation rfl .nil) (by decide)
    have hin : Cuts Token.Stops (' ' :: 'i' :: 'n' :: ' ' :: (e.render.toList ++ [')']))
        (.inWord :: (e.written ++ [.closeParen])) :=
      .layout rfl (cuts_inWord.stop (.layout rfl hbody) (by decide))
    have hbinding : Cuts Token.Stops (' ' :: '=' :: ' ' ::
        (b.render.toList ++ ' ' :: 'i' :: 'n' :: ' ' :: (e.render.toList ++ [')'])))
        (.equals :: (b.written ++ .inWord :: (e.written ++ [.closeParen]))) :=
      .layout rfl (.punctuation rfl (.layout rfl ((cuts_render b hb).stop hin (by decide))))
    rw [Expr.toList_render_letIn]
    exact .punctuation rfl (cuts_letWord.stop
      (.layout rfl ((cuts_name hn).stop hbinding (by decide))) (by decide))

theorem cuts_renderList : (es : List Expr) → Expr.ReadableList es →
    ∀ e ∈ es, Cuts Token.Stops e.render.toList e.written
  | e :: _, ⟨he, _⟩, _, .head _ => cuts_render e he
  | _ :: es, ⟨_, hes⟩, e, .tail _ hmem => cuts_renderList es hes e hmem

end

theorem cuts_renderParams {ps : List String} (h : ∀ p ∈ ps, IsName p) :
    Cuts Token.Stops ('(' :: ([',', ' '].intercalate (ps.map String.toList) ++ [')']))
      (writtenParams ps) :=
  have hinner : Cuts Token.Stops ([',', ' '].intercalate (ps.map String.toList))
      ([Token.comma].intercalate (ps.map fun n => [.identifier n])) :=
    cuts_intercalate fun n hn => cuts_name (h n hn)
  .punctuation rfl (hinner.stop (.punctuation rfl .nil) (by decide))

/-- A readable statement is cut into the tokens that it is written as, whatever follows it. -/
theorem cuts_renderStmt {s : Stmt} (h : s.Readable) :
    Cuts Unlimited s.render.toList (s.written ++ [.semicolon]) := by
  have hend {e : Expr} (he : e.Readable) :
      Cuts Unlimited (e.render.toList ++ [';']) (e.written ++ [.semicolon]) :=
    (cuts_render e he).stop (.punctuation rfl .nil) (by decide)
  cases s with
  | expr e =>
    rw [Stmt.render, String.toList_append]
    exact hend h
  | bind n e =>
    obtain ⟨hn, he⟩ := h
    have hequals : Cuts Unlimited (' ' :: '=' :: ' ' :: (e.render.toList ++ [';']))
        (.equals :: (e.written ++ [.semicolon])) :=
      .layout rfl (.punctuation rfl (.layout rfl (hend he)))
    rw [Stmt.toList_render_bind]
    exact cuts_letWord.stop (.layout rfl ((cuts_name hn).stop hequals (by decide))) (by decide)
  | define n ps e =>
    obtain ⟨hn, hps, he⟩ := h
    have hequals : Cuts Unlimited (' ' :: '=' :: ' ' :: (e.render.toList ++ [';']))
        (.equals :: (e.written ++ [.semicolon])) :=
      .layout rfl (.punctuation rfl (.layout rfl (hend he)))
    have hwritten : (Stmt.define n ps e).written ++ [.semicolon] = .defWord :: .identifier n ::
        (writtenParams ps ++ .equals :: (e.written ++ [.semicolon])) := by
      simp [Stmt.written]
    rw [Stmt.toList_render_define, hwritten]
    exact cuts_defWord.stop (.layout rfl ((cuts_name hn).stop
      ((cuts_renderParams hps).stop hequals (by decide)) (by decide))) (by decide)

/-- A readable program is cut into the tokens that it is written as. -/
theorem cuts_renderProgram {p : Program} (h : p.Readable) :
    Cuts Unlimited (Program.render p).toList (Program.written p) := by
  rw [Program.toList_render]
  induction p with
  | nil => exact .nil
  | cons s p ih =>
    have hs := cuts_renderStmt (h s List.mem_cons_self)
    have hp := ih fun t ht => h t (List.mem_cons_of_mem s ht)
    rw [Program.written, List.flatMap_cons, ← Program.written]
    cases p with
    | nil =>
      rw [Program.written, List.flatMap_nil, List.append_nil, List.map_singleton,
        List.intercalate_singleton]
      exact hs
    | cons t p =>
      rw [List.map_cons, List.map_cons, List.intercalate_cons_cons, List.append_assoc]
      exact hs.append (.layout rfl hp) fun _ _ => trivial

theorem tokens?_render {p : Program} (h : p.Readable) :
    (Stream.ofText (Program.render p)).tokens? = .ok (Program.written p) :=
  (cuts_renderProgram h).tokens?_eq trivial

/-! ## Reading what is written -/

theorem readable_of_ofText {depth : Nat} {text : String} {p : Program}
    (h : Program.ofText depth text = .ok p) : p.Readable :=
  readable_of_isProgram (isProgram_of_ofText h).2 fun _ ht => readable_of_mem_tokens ht

/-- A readable program is read from the text it is written as, in its normal form. -/
theorem ofText_render_of_readable {depth : Nat} {p : Program} (h : p.Readable)
    (hdepth : (Program.render p).length < depth) :
    Program.ofText depth (Program.render p) = .ok p.norm :=
  (ofText_eq_ok_iff hdepth _).2 ⟨_, tokens?_render h, isProgram_written p⟩

/-- **The print and reparse law.** A program that was read from a text is read from the text it is
written as, and what is read is its normal form: the same program exactly if no call in it has a
negation for its callee. Whatever is read is written the same again. -/
theorem ofText_render {depth : Nat} {text : String} {p : Program}
    (h : Program.ofText depth text = .ok p) :
    (∀ depth', (Program.render p).length < depth' →
      Program.ofText depth' (Program.render p) = .ok p.norm) ∧
    (∀ depth', (Program.render p).length < depth' →
      (Program.ofText depth' (Program.render p) = .ok p ↔ p.callsNegation = false)) ∧
    ∀ depth' q, Program.ofText depth' (Program.render p) = .ok q →
      Program.render q = Program.render p := by
  have hp := readable_of_ofText h
  refine ⟨fun depth' hlt => ofText_render_of_readable hp hlt, fun depth' hlt => ?_,
    fun depth' q hq => ?_⟩
  · rw [ofText_render_of_readable hp hlt, Except.ok.injEq]
    exact p.norm_eq_self_iff
  · obtain ⟨hfault, hprogram⟩ := isProgram_of_ofText hq
    obtain ⟨-, htokens⟩ := tokens?_eq_ok_iff.1 (tokens?_render hp)
    rw [htokens] at hprogram
    rw [hprogram.unique (isProgram_written p), Program.render_norm]

/-- The parentheses around a negated callee are not written. -/
theorem ofText_render_negated_callee :
    Program.ofText 9 "(-f)(x)" = .ok [.expr (.apply (.negate (.var "f")) [.var "x"])] ∧
    Program.ofText 9 (Program.render [.expr (.apply (.negate (.var "f")) [.var "x"])]) =
      .ok [.expr (.negate (.apply (.var "f") [.var "x"]))] := by
  have h : Program.ofText 9 "(-f)(x)" =
      .ok [.expr (.apply (.negate (.var "f")) [.var "x"])] := by cbv
  exact ⟨h, (ofText_render h).1 9 (by decide)⟩

end Calx
