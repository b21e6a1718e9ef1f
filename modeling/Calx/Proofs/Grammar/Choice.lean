import Calx.Proofs.Grammar.Pointing

/-!
# Choices in order

A choice tries its alternatives in order and takes the first that fits. If none does, it misfits
where the one that came furthest does (`Rule.firstOf`). An alternative that the next token does not
begin is passed over (`Rule.Opens`). One that it begins decides alone, if no other begins with that
token. So the next token might as well choose (`Rule.Opens.firstOf_cons`).
-/

namespace Calx

/-! ## The first that fits -/

/-- What a choice ends in, from what its first alternative and what the others end in. Of two
misfits the one further on counts, and the first of equals; at the start, the last. -/
def Outcome.orElse {α : Type} (start : Nat) : Outcome α → Outcome α → Outcome α
  | .misfits rest e, .misfits rest' e' =>
    if rest'.length < rest.length ∨ rest.length = start then .misfits rest' e' else .misfits rest e
  | .misfits _ _, outcome => outcome
  | outcome, _ => outcome

namespace Rule

variable {α β : Type}

/-- The first of some rules that fits. If none does, the one that came furthest tells why, and the
first of equals; but where that is the start, none of the alternatives begins there. -/
def firstOf : List (Rule α) → Rule α
  | [] => fun _ ts => .misfits ts .alternatives
  | r :: rs => fun fault ts => (r fault ts).orElse ts.length (firstOf rs fault ts)

section FirstOf

variable {r : Rule α} {rs : List (Rule α)} {fault : Option LexError} {ts : List Token}

theorem firstOf_cons (r : Rule α) (rs : List (Rule α)) (fault : Option LexError)
    (ts : List Token) :
    firstOf (r :: rs) fault ts = (r fault ts).orElse ts.length (firstOf rs fault ts) := rfl

/-- An alternative that misfits at the start is passed over. -/
theorem firstOf_cons_of_passed {e : Expectation} (h : r fault ts = .misfits ts e) :
    firstOf (r :: rs) fault ts = firstOf rs fault ts := by
  rw [firstOf_cons, h]
  cases firstOf rs fault ts with
  | misfits => exact if_pos (.inr rfl)
  | fits | abandoned => rfl

/-- An alternative decides how the choice ends, if where it misfits it has come further than the
start and no other comes further. -/
theorem firstOf_cons_of_decides
    (h : ∀ rest e, r fault ts = .misfits rest e → rest.length < ts.length ∧
      ∃ rest' e', firstOf rs fault ts = .misfits rest' e' ∧ rest.length ≤ rest'.length) :
    firstOf (r :: rs) fault ts = r fault ts := by
  rw [firstOf_cons]
  cases hr : r fault ts with
  | fits | abandoned => rfl
  | misfits rest e =>
    obtain ⟨hlt, rest', e', hrs, hle⟩ := h rest e hr
    rw [hrs]
    exact if_neg (not_or.2 ⟨Nat.not_lt.2 hle, Nat.ne_of_lt hlt⟩)

/-- The only alternative decides how the choice ends, if where it misfits it has come further than
the start. -/
theorem firstOf_singleton (h : ∀ rest e, r fault ts = .misfits rest e → rest.length < ts.length) :
    firstOf [r] fault ts = r fault ts :=
  firstOf_cons_of_decides fun rest e hr =>
    ⟨h rest e hr, ts, .alternatives, rfl, Nat.le_of_lt (h rest e hr)⟩

/-- Of two alternatives that misfit at one place behind the start the first one decides. -/
theorem firstOf_pair {s : Rule α} {rest : List Token} {e e' : Expectation}
    (hr : r fault ts = .misfits rest e) (hs : s fault ts = .misfits rest e')
    (hlt : rest.length < ts.length) : firstOf [r, s] fault ts = r fault ts := by
  have hsecond : firstOf [s] fault ts = .misfits rest e' := by
    rw [firstOf_singleton fun rest' _ hs' => ?_, hs]
    cases hs.symm.trans hs'
    exact hlt
  refine firstOf_cons_of_decides fun rest' _ hr' => ?_
  cases hr.symm.trans hr'
  exact ⟨hlt, rest, e', hsecond, Nat.le_refl _⟩

/-- Where the other alternatives find the text nested too deep, the choice does so too, or the first
alternative decides. -/
theorem firstOf_cons_of_tooDeep (h : firstOf rs fault ts = .abandoned .tooDeep) :
    firstOf (r :: rs) fault ts = .abandoned .tooDeep ∨
      firstOf (r :: rs) fault ts = r fault ts := by
  rw [firstOf_cons, h]
  cases r fault ts with
  | misfits => exact .inl rfl
  | fits | abandoned => exact .inr rfl

/-- A choice that does not misfit is one of its alternatives. -/
theorem refuses_or_exists_firstOf_eq (rs : List (Rule α)) (fault : Option LexError)
    (ts : List Token) :
    Refuses (firstOf rs) fault ts ∨ ∃ r ∈ rs, firstOf rs fault ts = r fault ts := by
  induction rs with
  | nil => exact .inl ⟨_, _, rfl⟩
  | cons r rs ih =>
    rw [Refuses, firstOf_cons]
    cases hr : r fault ts with
    | fits | abandoned => exact .inr ⟨r, List.mem_cons_self, hr.symm⟩
    | misfits rest e =>
      cases hrs : firstOf rs fault ts with
      | misfits rest' e' =>
        left
        dsimp only [Outcome.orElse]
        split
        · exact ⟨rest', e', rfl⟩
        · exact ⟨rest, e, rfl⟩
      | fits | abandoned =>
        rcases ih with ⟨_, _, hno⟩ | ⟨r', hmem, heq⟩
        · cases hno.symm.trans hrs
        · exact .inr ⟨r', List.mem_cons_of_mem _ hmem, hrs.symm.trans heq⟩

/-- A choice between readers of phrases reads phrases. -/
theorem Reads.firstOf {n : Nat} {p : Phrase α} (h : ∀ r ∈ rs, Reads n r p) (hne : rs ≠ []) :
    Reads n (firstOf rs) p where
  inhabited := by
    obtain ⟨r, rs, rfl⟩ := List.exists_cons_of_ne_nil hne
    exact (h r List.mem_cons_self).inhabited
  sound {fault ts a rest} hfits := by
    rcases refuses_or_exists_firstOf_eq rs fault ts with ⟨_, _, hno⟩ | ⟨r, hr, heq⟩
    · cases hno.symm.trans hfits
    · exact (h r hr).sound (heq.symm.trans hfits)
  viable {fault ts e} hab := by
    rcases refuses_or_exists_firstOf_eq rs fault ts with ⟨_, _, hno⟩ | ⟨r, hr, heq⟩
    · cases hno.symm.trans hab
    · exact (h r hr).viable (heq.symm.trans hab)
  shallow {fault ts} hlt hdeep := by
    rcases refuses_or_exists_firstOf_eq rs fault ts with ⟨_, _, hno⟩ | ⟨r, hr, heq⟩
    · cases hno.symm.trans hdeep
    · exact (h r hr).shallow hlt (heq.symm.trans hdeep)

end FirstOf

/-! ## Alternatives -/

/-- The rule begins with the token: where it stands the rule goes on behind it, and where something
else stands, the rule misfits at once. -/
structure Opens (u : Token) (r : Rule α) : Prop where
  /-- Behind the token the rule goes on. -/
  enters : ∀ fault ts, (r fault (u :: ts)).PointsInto fault ts
  /-- Where something else stands, the rule misfits at once. -/
  passed : ∀ {fault ts}, ts.head? ≠ some u → (ts = [] → fault = none) →
    ∃ e, r fault ts = .misfits ts e
  /-- The rule needs a token. -/
  needy : Needy r

theorem Opens.mark {k : Token.Kind} {u : Token} (hk : k.token? = some u) : Opens u (mark k) where
  enters fault ts := by
    have hfits : Rule.mark k fault (u :: ts) = .fits () ts := by
      simp only [Rule.mark, next, (Token.kind_eq_iff hk u).2 rfl, if_true]
    rw [hfits]
    exact List.suffix_rfl
  passed {fault ts} hhead hend := by
    refine ⟨.token k, ?_⟩
    cases ts with
    | nil =>
      rw [hend rfl]
      rfl
    | cons t ts =>
      have hkind : t.kind ≠ k := fun h => hhead (congrArg some ((Token.kind_eq_iff hk t).1 h))
      simp only [Rule.mark, next, if_neg hkind]
  needy := needy_next _ _

section Opens

variable {u : Token} {r : Rule α} {rs : List (Rule α)} {fault : Option LexError} {ts : List Token}

protected theorem Opens.bind {f : α → Rule β} (h : Opens u r) (hf : ∀ a, Points (f a)) :
    Opens u (r >>= f) where
  enters fault ts := pointsInto_bind (h.enters fault ts) hf
  passed hhead hend := by
    obtain ⟨e, he⟩ := h.passed hhead hend
    exact ⟨e, by rw [bind_apply, he]⟩
  needy := h.needy.bind f

theorem Opens.length_lt {rest : List Token} {e : Expectation} (h : Opens u r)
    (hr : r fault (u :: ts) = .misfits rest e) : rest.length < (u :: ts).length := by
  have hrest := h.enters fault ts
  rw [hr] at hrest
  exact Nat.lt_succ_of_le hrest.1.length_le

/-- Behind its first token the alternative decides, if no other begins with the token. -/
theorem Opens.firstOf_cons_self {e : Expectation} (h : Opens u r)
    (hrs : firstOf rs fault (u :: ts) = .misfits (u :: ts) e) :
    firstOf (r :: rs) fault (u :: ts) = r fault (u :: ts) :=
  firstOf_cons_of_decides fun _ _ hr =>
    ⟨h.length_lt hr, _, _, hrs, Nat.le_of_lt (h.length_lt hr)⟩

theorem Needy.firstOf (h : Needy r) (rs : List (Rule α)) : Needy (firstOf (r :: rs)) := by
  intro e
  rw [firstOf_cons, h e]
  rfl

/-- Where its first token does not stand, the alternative is passed over. -/
theorem Opens.firstOf_cons_of_head?_ne (h : Opens u r) (hneedy : Needy (firstOf rs))
    (hhead : ts.head? ≠ some u) : firstOf (r :: rs) fault ts = firstOf rs fault ts := by
  by_cases hend : ts = [] → fault = none
  · obtain ⟨e, he⟩ := h.passed hhead hend
    exact firstOf_cons_of_passed he
  · obtain ⟨rfl, hfault⟩ := Classical.not_imp.1 hend
    obtain ⟨e, rfl⟩ := Option.ne_none_iff_exists'.1 hfault
    rw [h.needy.firstOf rs e, hneedy e]

/-- A choice whose first alternative begins with a token with which no other begins. -/
theorem Opens.firstOf_cons (h : Opens u r) (hneedy : Needy (firstOf rs))
    (hrs : ∀ fault ts, ∃ e, firstOf rs fault (u :: ts) = .misfits (u :: ts) e)
    (fault : Option LexError) (ts : List Token) : firstOf (r :: rs) fault ts =
      if ts.head? = some u then r fault ts else firstOf rs fault ts := by
  split
  · rename_i hhead
    obtain ⟨ts, rfl⟩ := List.head?_eq_some_iff.1 hhead
    obtain ⟨e, he⟩ := hrs fault ts
    exact h.firstOf_cons_self he
  · rename_i hhead
    exact h.firstOf_cons_of_head?_ne hneedy hhead

end Opens

/-- Where the rule misfits at the start, none of several alternatives begins there. -/
def Collects (r : Rule α) : Prop :=
  ∀ fault ts rest e, r fault ts = .misfits rest e →
    rest.length < ts.length ∨ rest = ts ∧ e = .alternatives

theorem Collects.next (pick : Token → Option α) : Collects (next .alternatives pick) := by
  intro fault ts rest e h
  cases ts with
  | nil =>
    cases fault with
    | none =>
      cases h
      exact .inr ⟨rfl, rfl⟩
    | some e => cases h
  | cons t ts =>
    rw [Rule.next] at h
    split at h
    · cases h
    · cases h
      exact .inr ⟨rfl, rfl⟩

/-- Rounds behind a rule only misfit where that rule does. -/
theorem Collects.rounds {γ : Type} {r : Rule α} (h : Collects r) (step : Rule β)
    (g : α → List β → γ) : Collects (r >>= fun a => many step >>= fun bs => pure (g a bs)) := by
  intro fault ts rest e hmisfits
  rw [bind_apply] at hmisfits
  cases hr : r fault ts with
  | abandoned why =>
    rw [hr] at hmisfits
    cases hmisfits
  | misfits rest' e' =>
    rw [hr] at hmisfits
    cases hmisfits
    exact h fault ts rest e hr
  | fits a rest' =>
    simp only [hr, bind_apply] at hmisfits
    split at hmisfits
    · cases hmisfits
    · rename_i hmany
      exact absurd ⟨_, _, hmany⟩ (not_refuses_many step fault rest')
    · cases hmisfits

theorem Collects.map {r : Rule α} (h : Collects r) (f : α → β) : Collects (f <$> r) := by
  intro fault ts rest e hmisfits
  rw [map_eq_bind, bind_apply] at hmisfits
  cases hr : r fault ts with
  | misfits rest' e' =>
    rw [hr] at hmisfits
    cases hmisfits
    exact h fault ts rest e hr
  | fits | abandoned =>
    rw [hr] at hmisfits
    cases hmisfits

/-- A choice by the next token, between a rule that begins with it and one that begins otherwise. -/
theorem Collects.of_opens {u : Token} {r s t : Rule α} (hr : Opens u r) (hs : Collects s)
    (ht : ∀ fault ts, t fault ts = if ts.head? = some u then r fault ts else s fault ts) :
    Collects t := by
  intro fault ts rest e h
  rw [ht] at h
  split at h
  · rename_i hhead
    obtain ⟨ts, rfl⟩ := List.head?_eq_some_iff.1 hhead
    exact .inl (hr.length_lt h)
  · exact hs fault ts rest e h

theorem Collects.firstOf_singleton {r : Rule α} (h : Collects r) : firstOf [r] = r := by
  funext fault ts
  by_cases hstart : r fault ts = .misfits ts .alternatives
  · rw [firstOf_cons_of_passed hstart, hstart]
    rfl
  · refine Rule.firstOf_singleton fun rest e hr => ?_
    refine (h fault ts rest e hr).resolve_right fun hsame => ?_
    obtain ⟨rfl, rfl⟩ := hsame
    exact hstart hr

end Rule

end Calx
