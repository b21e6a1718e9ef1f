import Calx.Proofs.Grammar.Reading

/-!
# Greedy rules take whole phrases

`Rule.Takes` is the converse of `Rule.Reads`: wherever a phrase stands, the rule reads just that
phrase. A rule that repeats something would go on if what follows looked like one more round, so
the statement asks that what follows is `Clear` of the kinds of token that start a round. At the end
of the tokens no error may stand: the rule would look for one more round there and meet it.
-/

namespace Calx.Rule

open Phrase

variable {α β : Type}

/-- What may follow: the end of the text, or a token of a kind that is not `blocked`. -/
def Clear (blocked : List Token.Kind) (fault : Option LexError) : List Token → Prop
  | [] => fault = none
  | t :: _ => t.kind ∉ blocked

/-- What may follow a rule that does not look at what follows. -/
def Anything (_ : Option LexError) (_ : List Token) : Prop := True

theorem Clear.mono {blocked more : List Token.Kind} {fault : Option LexError} {ts : List Token}
    (h : Clear more fault ts) (hsub : blocked ⊆ more) : Clear blocked fault ts := by
  cases ts with
  | nil => exact h
  | cons t ts => exact fun hm => h (hsub hm)

theorem Clear.head?_ne {kinds : List Token.Kind} {fault : Option LexError} {ts : List Token}
    {t : Token} (h : Clear kinds fault ts) (ht : t.kind ∈ kinds) : ts.head? ≠ some t := by
  cases ts with
  | nil => simp
  | cons u us => rintro ⟨⟩; exact h ht

theorem clear_of_startsIn {kinds blocked : List Token.Kind} {ts : List Token}
    (h : StartsIn kinds ts) (hdisj : ∀ k ∈ kinds, k ∉ blocked) (fault : Option LexError)
    (us : List Token) : Clear blocked fault (ts ++ us) := by
  obtain ⟨t, rest, rfl, ht⟩ := h
  exact hdisj _ ht

/-- Rounds start with a token that may follow a round, so what may follow the last of some rounds
may stand in front of them too. -/
theorem clear_of_repeated {p : Phrase α} {starts blocked : List Token.Kind}
    (hstart : ∀ {ts a}, p ts a → StartsIn starts ts) (hdisj : ∀ k ∈ starts, k ∉ blocked)
    {fault : Option LexError} {ts rest : List Token} {as : List α} (hps : Repeated p ts as)
    (hc : Clear blocked fault rest) : Clear blocked fault (ts ++ rest) := by
  cases hps with
  | nil => exact hc
  | cons hp _ =>
    rw [List.append_assoc]
    exact clear_of_startsIn (hstart hp) hdisj _ _

/-! ## Rules that do not fit -/

/-- The rule does not fit. -/
def Refuses (r : Rule α) (fault : Option LexError) (ts : List Token) : Prop :=
  ∃ rest e, r fault ts = .misfits rest e

theorem Refuses.bind {r : Rule α} {fault : Option LexError} {ts : List Token}
    (h : Refuses r fault ts) (f : α → Rule β) : Refuses (r >>= f) fault ts := by
  obtain ⟨rest, e, h⟩ := h
  exact ⟨rest, e, by rw [bind_apply, h]⟩

theorem Refuses.optional_eq {r : Rule α} {fault : Option LexError} {ts : List Token}
    (h : Refuses r fault ts) (default : α) : optional r default fault ts = .fits default ts := by
  obtain ⟨rest, e, h⟩ := h
  rw [optional, h]

theorem Refuses.many_eq {r : Rule α} {fault : Option LexError} {ts : List Token}
    (h : Refuses r fault ts) : many r fault ts = .fits [] ts := by
  obtain ⟨rest, e, h⟩ := h
  rw [many, h]

/-- A rule for one token does not fit before the clean end or a token that is not picked. -/
theorem refuses_next {expected : Expectation} {pick : Token → Option α} {fault : Option LexError}
    {ts : List Token} {kinds : List Token.Kind} (h : Clear kinds fault ts)
    (hpick : ∀ t : Token, t.kind ∉ kinds → pick t = none) :
    Refuses (next expected pick) fault ts := by
  cases ts with
  | nil => cases h; exact ⟨_, _, rfl⟩
  | cons t ts => exact ⟨t :: ts, expected, by simp only [next, hpick t h]⟩

theorem refuses_mark {k : Token.Kind} {fault : Option LexError} {ts : List Token}
    (h : Clear [k] fault ts) : Refuses (mark k) fault ts :=
  refuses_next h fun t ht => if_neg (by simpa using ht)

/-! ## Rules that fit -/

/-- The rule reads a phrase of `p` wherever one stands among fewer than `n` tokens, if what follows
it is `clear`. -/
def Takes (n : Nat) (r : Rule α) (p : Phrase α)
    (clear : Option LexError → List Token → Prop) : Prop :=
  ∀ ⦃fault ts rest a⦄, p ts a → clear fault rest → (ts ++ rest).length < n →
    r fault (ts ++ rest) = .fits a rest

namespace Takes

variable {n : Nat} {r : Rule α} {p : Phrase α} {clear : Option LexError → List Token → Prop}

theorem mono {q : Phrase α} (h : Takes n r p clear) (hqp : ∀ {ts a}, q ts a → p ts a) :
    Takes n r q clear :=
  fun _ _ _ _ hq hc hlt => h (hqp hq) hc hlt

theorem weaken {clear' : Option LexError → List Token → Prop} (h : Takes n r p clear)
    (hc : ∀ {fault ts}, clear' fault ts → clear fault ts) : Takes n r p clear' :=
  fun _ _ _ _ hp hc' hlt => h hp (hc hc') hlt

theorem of_le {m : Nat} (h : Takes n r p clear) (hmn : m ≤ n) : Takes m r p clear :=
  fun _ _ _ _ hp hc hlt => h hp hc (Nat.lt_of_lt_of_le hlt hmn)

protected theorem pure (n : Nat) (a : α) (clear : Option LexError → List Token → Prop) :
    Takes n (pure a) (nothing a) clear := by
  rintro fault ts rest b ⟨rfl, rfl⟩ - -
  rfl

theorem next (n : Nat) (expected : Expectation) (pick : Token → Option α) :
    Takes n (Rule.next expected pick) (single pick) Anything := by
  rintro fault ts rest a ⟨t, rfl, ht⟩ - -
  simp [Rule.next, ht]

/-- Two rules in a row. What follows the first one is a phrase of the second. -/
protected theorem bind {m : Nat} {f : α → Rule β} {q : α → Phrase β}
    {clear' : Option LexError → List Token → Prop} (hr : Takes n r p clear)
    (hf : ∀ a, Takes m (f a) (q a) clear')
    (hnext : ∀ {us a vs b fault rest}, p us a → q a vs b → clear' fault rest →
      clear fault (vs ++ rest) ∧ n ≤ m + us.length) :
    Takes n (r >>= f) (followedBy p q) clear' := by
  rintro fault ts rest b ⟨us, a, vs, rfl, hp, hq⟩ hc hlt
  obtain ⟨hc', hlen⟩ := hnext hp hq hc
  rw [List.append_assoc] at hlt ⊢
  rw [bind_apply, hr hp hc' hlt]
  refine hf a hq hc ?_
  rw [List.length_append] at hlt
  omega

theorem map (f : α → β) (hr : Takes n r p clear) :
    Takes n (r >>= fun a => pure (f a)) (fun ts b => ∃ a, p ts a ∧ b = f a) clear := by
  rintro fault ts rest b ⟨a, hp, rfl⟩ hc hlt
  rw [bind_apply, hr hp hc hlt]
  rfl

/-- A mark in front: the rule behind it is one token further from nesting too deep. -/
theorem mark_bind {k : Token.Kind} {u : Token} (hk : k.token? = some u) {f : Unit → Rule β}
    {q : Phrase β} (hf : Takes n (f ()) q clear) :
    Takes (n + 1) (mark k >>= f) (after u q) clear := by
  rintro fault ts rest b ⟨us, rfl, hq⟩ hc hlt
  have hu : u.kind = k := (Token.kind_eq_iff hk u).2 rfl
  have hmark : mark k fault (u :: us ++ rest) = .fits () (us ++ rest) := by
    simp [mark, Rule.next, hu]
  rw [bind_apply, hmark]
  exact hf hq hc (by simpa using hlt)

/-- An identifier in front. -/
theorem identifier_bind {f : String → Rule β} {q : String → Phrase β}
    (hf : ∀ x, Takes n (f x) (q x) clear) : Takes (n + 1) (identifier >>= f) (named q) clear := by
  rintro fault ts rest b ⟨x, us, rfl, hq⟩ hc hlt
  have hid : identifier fault (.identifier x :: us ++ rest) = .fits x (us ++ rest) := rfl
  rw [bind_apply, hid]
  exact hf x hq hc (by simpa using hlt)

theorem optional {default : α} (h : Takes n r p clear)
    (hno : ∀ {fault ts}, clear fault ts → ts.length < n → Refuses r fault ts) :
    Takes n (optional r default) (orNothing p default) clear := by
  rintro fault ts rest a (hp | ⟨rfl, rfl⟩) hc hlt
  · rw [Rule.optional, h hp hc hlt]
  · exact (hno hc hlt).optional_eq _

/-- As many rounds as stand there. A round starts with a token of the kinds `starts`, which may
follow a round; what follows the last round must not fit as one more. -/
theorem many {blocked starts : List Token.Kind} {clear' : Option LexError → List Token → Prop}
    (h : Takes n r p (Clear blocked)) (hstart : ∀ {ts a}, p ts a → StartsIn starts ts)
    (hdisj : ∀ k ∈ starts, k ∉ blocked)
    (hno : ∀ {fault ts}, clear' fault ts → ts.length < n →
      Clear blocked fault ts ∧ Refuses r fault ts) : Takes n (many r) (Repeated p) clear' := by
  intro fault ts rest as hps hc hlt
  induction hps with
  | nil => exact (hno hc hlt).2.many_eq
  | @cons us vs a as hp hps ih =>
    obtain ⟨t, us, rfl, -⟩ := hstart hp
    rw [List.append_assoc] at hlt ⊢
    have hlen : (t :: us ++ (vs ++ rest)).length = us.length + 1 + (vs ++ rest).length := by
      rw [List.length_append, List.length_cons]
    have hrest : rest.length < n := by
      rw [hlen, List.length_append] at hlt
      omega
    have hclear := clear_of_repeated hstart hdisj hps (hno hc hrest).1
    rw [Rule.many, h hp hclear hlt]
    simp only [ih (by omega)]
    rw [if_pos (by omega)]

theorem rounds {γ : Type} {blocked starts : List Token.Kind}
    {clear' : Option LexError → List Token → Prop} {round : Rule β} {step : Phrase β}
    (hr : Takes n r p (Clear blocked)) (hround : Takes n round step (Clear blocked))
    (hstart : ∀ {ts b}, step ts b → StartsIn starts ts) (hdisj : ∀ k ∈ starts, k ∉ blocked)
    (hno : ∀ {fault ts}, clear' fault ts → ts.length < n →
      Clear blocked fault ts ∧ Refuses round fault ts) (g : α → List β → γ) :
    Takes n (r >>= fun a => Rule.many round >>= fun bs => pure (g a bs))
      (Phrase.rounds p step g) clear' := by
  rintro fault ts rest c ⟨us, a, vs, bs, rfl, hp, hbs, rfl⟩ hc hlt
  rw [List.append_assoc] at hlt ⊢
  have hlen : (us ++ (vs ++ rest)).length = us.length + (vs ++ rest).length := List.length_append
  have hrest : rest.length < n := by
    rw [hlen, List.length_append] at hlt
    omega
  have hclear := clear_of_repeated hstart hdisj hbs (hno hc hrest).1
  rw [bind_apply, hr hp hclear hlt]
  exact (hround.many hstart hdisj hno).map (g a) ⟨bs, hbs, rfl⟩ hc (by omega)

/-- Rounds that are told by their first token: what follows the last one may start with none of the
kinds that start a round. -/
theorem rounds_of_starts {γ : Type} {blocked starts : List Token.Kind} {round : Rule β}
    {step : Phrase β} (hr : Takes n r p (Clear blocked))
    (hround : Takes n round step (Clear blocked))
    (hstart : ∀ {ts b}, step ts b → StartsIn starts ts) (hdisj : ∀ k ∈ starts, k ∉ blocked)
    (hno : ∀ {fault ts}, Clear starts fault ts → Refuses round fault ts) (g : α → List β → γ) :
    Takes n (r >>= fun a => Rule.many round >>= fun bs => pure (g a bs))
      (Phrase.rounds p step g) (Clear (starts ++ blocked)) :=
  hr.rounds hround hstart hdisj (fun hc _ => ⟨hc.mono (List.subset_append_right _ _),
    hno (hc.mono (List.subset_append_left _ _))⟩) g

end Takes

end Calx.Rule
