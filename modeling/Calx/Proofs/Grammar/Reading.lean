import Calx.Grammar.Rule
import Calx.Proofs.Grammar.Phrase

/-!
# Rules that read phrases

What ties a rule to a phrase, one lemma for each way to build a rule.

* `Rule.Reads n r p`: what `r` reads is a phrase of `p`; where `r` abandons a text because no token
  can be cut, the tokens up to there begin a phrase of `p`; and `r` does not nest too deep on fewer
  than `n` tokens.
* `Rule.Takes n r p clear`: conversely `r` reads a phrase of `p` wherever one stands, if what
  follows it is `clear`. A rule is greedy, so something has to be said of what follows.
* `Rule.Steady r`: unless `r` needs a token beyond the last one, what follows the tokens changes
  nothing.
-/

namespace Calx

/-! ## Phrases put together -/

namespace Phrase

variable {α β : Type}

/-- No token, which stands for `a`. -/
def nothing (a : α) : Phrase α := fun ts b => ts = [] ∧ b = a

/-- A token that `pick` accepts. -/
def single (pick : Token → Option α) : Phrase α := fun ts a => ∃ t, ts = [t] ∧ pick t = some a

/-- The token `u` and then a phrase of `p`. -/
def after (u : Token) (p : Phrase α) : Phrase α := fun ts a => ∃ us, ts = u :: us ∧ p us a

/-- An identifier and then a phrase that may depend on its name. -/
def named (p : String → Phrase α) : Phrase α := fun ts a =>
  ∃ n us, ts = .identifier n :: us ∧ p n us a

/-- A phrase of `p` and then one of `q`, which may depend on what the first one stands for. -/
def followedBy (p : Phrase α) (q : α → Phrase β) : Phrase β := fun ts b =>
  ∃ us a vs, ts = us ++ vs ∧ p us a ∧ q a vs b

/-- A phrase of `p`, or no token. -/
def orNothing (p : Phrase α) (default : α) : Phrase α := fun ts a =>
  p ts a ∨ nothing default ts a

/-- Any number of phrases of `p`. -/
inductive Repeated (p : Phrase α) : Phrase (List α) where
  | nil : Repeated p [] []
  | cons {ts us : List Token} {a : α} {as : List α} : p ts a → Repeated p us as →
      Repeated p (ts ++ us) (a :: as)

theorem Repeated.single {p : Phrase α} {ts : List Token} {a : α} (h : p ts a) :
    Repeated p ts [a] := by
  simpa using Repeated.cons h .nil

theorem Repeated.snoc {p : Phrase α} {ts us : List Token} {as : List α} {b : α}
    (h : Repeated p ts as) (h' : p us b) : Repeated p (ts ++ us) (as ++ [b]) := by
  induction h with
  | nil => exact .single h'
  | cons ha _ ih => rw [List.append_assoc, List.cons_append]; exact .cons ha ih

/-- A phrase of `base` and any number of phrases of `step`, put together by `g`. -/
def rounds {γ : Type} (base : Phrase α) (step : Phrase β) (g : α → List β → γ) : Phrase γ :=
  fun ts c => ∃ us a vs bs, ts = us ++ vs ∧ base us a ∧ Repeated step vs bs ∧ c = g a bs

end Phrase

/-! ## Marks -/

/-- The token of a kind that carries nothing. -/
def Token.Kind.token? : Token.Kind → Option Token
  | semicolon => some .semicolon
  | equals => some .equals
  | plus => some .plus
  | minus => some .minus
  | asterisk => some .asterisk
  | slash => some .slash
  | openParen => some .openParen
  | closeParen => some .closeParen
  | comma => some .comma
  | letWord => some .letWord
  | inWord => some .inWord
  | defWord => some .defWord
  | number | string | identifier => none

theorem Token.kind_eq_iff {k : Token.Kind} {u : Token} (hk : k.token? = some u) (t : Token) :
    t.kind = k ↔ t = u := by
  cases k <;> cases hk <;> cases t <;> simp [Token.kind]

namespace Outcome

variable {α : Type}

/-- The same outcome with more tokens behind those that are left. -/
def extend (us : List Token) : Outcome α → Outcome α
  | .fits a rest => .fits a (rest ++ us)
  | .misfits rest e => .misfits (rest ++ us) e
  | .abandoned why => .abandoned why

end Outcome

namespace Rule

open Phrase

variable {α β : Type}

/-- How two rules in a row end. -/
theorem bind_apply (r : Rule α) (f : α → Rule β) (fault : Option LexError) (ts : List Token) :
    (r >>= f) fault ts = match r fault ts with
      | .fits a rest => f a fault rest
      | .misfits rest e => .misfits rest e
      | .abandoned why => .abandoned why := rfl

theorem pure_apply (a : α) (fault : Option LexError) (ts : List Token) :
    (pure a : Rule α) fault ts = .fits a ts := rfl

theorem map_eq_bind (f : α → β) (r : Rule α) : f <$> r = r >>= fun a => pure (f a) := rfl

/-! ## What a rule reads -/

/-- The rule `r` reads phrases of `p` only, and abandons a text only at a place where a phrase of
`p` could go on; with fewer than `n` tokens it does not nest too deep. -/
structure Reads (n : Nat) (r : Rule α) (p : Phrase α) : Prop where
  /-- There is a phrase at all. -/
  inhabited : ∃ ts a, p ts a
  /-- What is read is a phrase. -/
  sound : ∀ {fault ts a rest}, r fault ts = .fits a rest → ∃ us, ts = us ++ rest ∧ p us a
  /-- Where no token can be cut, one more would have been read. -/
  viable : ∀ {fault ts e}, r fault ts = .abandoned (.lexical e) →
    fault = some e ∧ ∃ us a, us ≠ [] ∧ p (ts ++ us) a
  /-- Few tokens do not nest too deep. -/
  shallow : ∀ {fault ts}, ts.length < n → r fault ts ≠ .abandoned .tooDeep

namespace Reads

variable {m n : Nat} {r : Rule α} {p : Phrase α}

theorem mono {q : Phrase α} (h : Reads n r p) (hpq : ∀ {ts a}, p ts a → q ts a) :
    Reads n r q where
  inhabited := by
    obtain ⟨ts, a, hp⟩ := h.inhabited
    exact ⟨ts, a, hpq hp⟩
  sound hf := by
    obtain ⟨us, hts, hp⟩ := h.sound hf
    exact ⟨us, hts, hpq hp⟩
  viable hf := by
    obtain ⟨he, us, a, hus, hp⟩ := h.viable hf
    exact ⟨he, us, a, hus, hpq hp⟩
  shallow := h.shallow

theorem of_le (h : Reads n r p) (hmn : m ≤ n) : Reads m r p :=
  { h with shallow := fun hts => h.shallow (Nat.lt_of_lt_of_le hts hmn) }

protected theorem pure (n : Nat) (a : α) : Reads n (pure a) (nothing a) where
  inhabited := ⟨[], a, rfl, rfl⟩
  sound h := by
    rw [pure_apply] at h
    cases h
    exact ⟨[], rfl, rfl, rfl⟩
  viable h := by rw [pure_apply] at h; cases h
  shallow _ h := by rw [pure_apply] at h; cases h

theorem next (n : Nat) (expected : Expectation) {pick : Token → Option α}
    (hpick : ∃ t a, pick t = some a) : Reads n (next expected pick) (single pick) where
  inhabited := by
    obtain ⟨t, a, h⟩ := hpick
    exact ⟨[t], a, t, rfl, h⟩
  sound {fault ts a rest} h := by
    unfold Rule.next at h
    split at h
    · split at h <;> cases h
    · split at h
      · rename_i hp
        cases h
        exact ⟨[_], rfl, _, rfl, hp⟩
      · cases h
  viable {fault ts e} h := by
    unfold Rule.next at h
    split at h
    · split at h
      · cases h
      · cases h
        obtain ⟨t, a, hp⟩ := hpick
        exact ⟨rfl, [t], a, by simp, t, rfl, hp⟩
    · split at h <;> cases h
  shallow {fault ts} _ h := by
    unfold Rule.next at h
    split at h <;> split at h <;> cases h

protected theorem bind {f : α → Rule β} {q : α → Phrase β} (hr : Reads n r p)
    (hf : ∀ a, Reads m (f a) (q a)) (hlen : ∀ {us a}, p us a → n ≤ m + us.length) :
    Reads n (r >>= f) (followedBy p q) where
  inhabited := by
    obtain ⟨ts, a, hp⟩ := hr.inhabited
    obtain ⟨us, b, hq⟩ := (hf a).inhabited
    exact ⟨ts ++ us, b, ts, a, us, rfl, hp, hq⟩
  sound {fault ts b rest} h := by
    rw [bind_apply] at h
    split at h
    · rename_i a rest₁ hr₁
      obtain ⟨us, rfl, hp⟩ := hr.sound hr₁
      obtain ⟨vs, rfl, hq⟩ := (hf a).sound h
      exact ⟨us ++ vs, by simp, us, a, vs, rfl, hp, hq⟩
    · cases h
    · cases h
  viable {fault ts e} h := by
    rw [bind_apply] at h
    split at h
    · rename_i a rest₁ hr₁
      obtain ⟨us, rfl, hp⟩ := hr.sound hr₁
      obtain ⟨he, vs, b, hvs, hq⟩ := (hf a).viable h
      exact ⟨he, vs, b, hvs, us, a, rest₁ ++ vs, by simp, hp, hq⟩
    · cases h
    · rename_i hr₁
      cases h
      obtain ⟨he, us, a, hus, hp⟩ := hr.viable hr₁
      obtain ⟨vs, b, hq⟩ := (hf a).inhabited
      exact ⟨he, us ++ vs, b, by simp [hus], ts ++ us, a, vs, by simp, hp, hq⟩
  shallow {fault ts} hts h := by
    rw [bind_apply] at h
    split at h
    · rename_i a rest₁ hr₁
      obtain ⟨us, rfl, hp⟩ := hr.sound hr₁
      rw [List.length_append] at hts
      have := hlen hp
      exact (hf a).shallow (by omega) h
    · cases h
    · rename_i hr₁
      cases h
      exact hr.shallow hts hr₁

/-- Two rules in a row, when all that can be said of the tokens left is that they are not more. -/
theorem andThen {f : α → Rule β} {q : α → Phrase β} (hr : Reads n r p)
    (hf : ∀ a, Reads n (f a) (q a)) : Reads n (r >>= f) (followedBy p q) :=
  hr.bind hf fun _ => Nat.le_add_right _ _

theorem map (f : α → β) (hr : Reads n r p) :
    Reads n (r >>= fun a => pure (f a)) fun ts b => ∃ a, p ts a ∧ b = f a := by
  refine (hr.andThen fun a => .pure n (f a)).mono ?_
  rintro ts b ⟨us, a, vs, rfl, hp, rfl, rfl⟩
  exact ⟨a, by simpa using hp, rfl⟩

theorem mark (n : Nat) {k : Token.Kind} {u : Token} (hk : k.token? = some u) :
    Reads n (mark k) (fun ts _ => ts = [u]) := by
  have hu : u.kind = k := (Token.kind_eq_iff hk u).2 rfl
  refine (Reads.next n _ ⟨u, (), if_pos hu⟩).mono ?_
  rintro ts _ ⟨t, rfl, ht⟩
  by_cases htk : t.kind = k
  · rw [(Token.kind_eq_iff hk t).1 htk]
  · simp [htk] at ht

theorem identifier (n : Nat) : Reads n identifier IsIdentifier := by
  refine (Reads.next n _ ⟨.identifier "x", "x", rfl⟩).mono ?_
  rintro ts x ⟨t, rfl, ht⟩
  cases t with
  | identifier y => cases ht; exact .intro x
  | _ => cases ht

/-- A mark in front: the rule behind it is one token further from nesting too deep. -/
theorem mark_bind {k : Token.Kind} {u : Token} (hk : k.token? = some u) {f : Unit → Rule β}
    {q : Phrase β} (hf : Reads n (f ()) q) : Reads (n + 1) (Rule.mark k >>= f) (after u q) := by
  refine ((Reads.mark (n + 1) hk).bind (fun _ => hf) ?_).mono ?_
  · rintro us _ rfl
    exact Nat.le_refl _
  · rintro ts b ⟨us, _, vs, rfl, rfl, hq⟩
    exact ⟨vs, rfl, hq⟩

/-- An identifier in front. -/
theorem identifier_bind {f : String → Rule β} {q : String → Phrase β}
    (hf : ∀ x, Reads n (f x) (q x)) : Reads (n + 1) (Rule.identifier >>= f) (named q) := by
  refine ((Reads.identifier (n + 1)).bind hf ?_).mono ?_
  · rintro us _ ⟨_⟩
    exact Nat.le_refl _
  · rintro ts b ⟨us, x, vs, rfl, ⟨_⟩, hq⟩
    exact ⟨x, vs, rfl, hq⟩

theorem tooDeep (hp : ∃ ts a, p ts a) : Reads 0 tooDeep p where
  inhabited := hp
  sound h := by cases h
  viable h := by cases h
  shallow h := absurd h (Nat.not_lt_zero _)

theorem onNext {choose : Option Token → Rule α} (h : ∀ t, Reads n (choose t) p) :
    Reads n (onNext choose) p where
  inhabited := (h none).inhabited
  sound hf := (h _).sound hf
  viable hf := (h _).viable hf
  shallow hts hf := (h _).shallow hts hf

theorem optional {default : α} (h : Reads n r p) :
    Reads n (optional r default) (orNothing p default) where
  inhabited := ⟨[], default, .inr ⟨rfl, rfl⟩⟩
  sound {fault ts a rest} hf := by
    unfold Rule.optional at hf
    split at hf
    · cases hf
      exact ⟨[], rfl, .inr ⟨rfl, rfl⟩⟩
    · obtain ⟨us, hts, hp⟩ := h.sound hf
      exact ⟨us, hts, .inl hp⟩
  viable {fault ts e} hf := by
    unfold Rule.optional at hf
    split at hf
    · cases hf
    · obtain ⟨he, us, a, hus, hp⟩ := h.viable hf
      exact ⟨he, us, a, hus, .inl hp⟩
  shallow {fault ts} hts hf := by
    unfold Rule.optional at hf
    split at hf
    · cases hf
    · exact h.shallow hts hf

theorem many (h : Reads n r p) : Reads n (many r) (Repeated p) where
  inhabited := ⟨[], [], .nil⟩
  sound {fault ts as rest} hf := by
    fun_induction Rule.many r fault ts generalizing as rest with
    | case1 =>
      cases hf
      exact ⟨[], rfl, .nil⟩
    | case2 => cases hf
    | case3 ts a rest₁ hr₁ _ as₁ rest₂ hmany ih =>
      cases hf
      obtain ⟨us, rfl, hp⟩ := h.sound hr₁
      obtain ⟨vs, rfl, hps⟩ := ih hmany
      exact ⟨us ++ vs, by simp, .cons hp hps⟩
    | case4 ts a rest₁ hr₁ _ hno ih => exact absurd hf (by simpa using hno as rest)
    | case5 ts a rest₁ hr₁ =>
      cases hf
      obtain ⟨us, rfl, hp⟩ := h.sound hr₁
      exact ⟨us, rfl, .single hp⟩
  viable {fault ts e} hf := by
    fun_induction Rule.many r fault ts with
    | case1 => cases hf
    | case2 ts why hr₁ =>
      cases hf
      obtain ⟨he, us, a, hus, hp⟩ := h.viable hr₁
      exact ⟨he, us, [a], hus, .single hp⟩
    | case3 => cases hf
    | case4 ts a rest₁ hr₁ _ _ ih =>
      obtain ⟨us, rfl, hp⟩ := h.sound hr₁
      obtain ⟨he, vs, as, hvs, hps⟩ := ih hf
      exact ⟨he, vs, a :: as, hvs, by rw [List.append_assoc]; exact .cons hp hps⟩
    | case5 => cases hf
  shallow {fault ts} hts hf := by
    fun_induction Rule.many r fault ts with
    | case1 => cases hf
    | case2 ts why hr₁ =>
      cases hf
      exact h.shallow hts hr₁
    | case3 => cases hf
    | case4 ts a rest₁ hr₁ hlt _ ih => exact ih (by omega) hf
    | case5 => cases hf

theorem rounds {γ : Type} {round : Rule β} {step : Phrase β} (hr : Reads n r p)
    (hround : Reads n round step) (g : α → List β → γ) :
    Reads n (r >>= fun a => Rule.many round >>= fun bs => pure (g a bs))
      (Phrase.rounds p step g) := by
  refine (hr.andThen fun a => hround.many.map (g a)).mono ?_
  rintro ts c ⟨us, a, vs, rfl, hp, bs, hbs, rfl⟩
  exact ⟨us, a, vs, bs, rfl, hp, hbs, rfl⟩

end Reads

/-! ## What follows the tokens -/

/-- The rule needs a token. -/
def Needy (r : Rule α) : Prop := ∀ e, r (some e) [] = .abandoned (.lexical e)

theorem needy_next (expected : Expectation) (pick : Token → Option α) :
    Needy (next expected pick) :=
  fun _ => rfl

theorem Needy.bind {r : Rule α} (h : Needy r) (f : α → Rule β) : Needy (r >>= f) := by
  intro e
  rw [bind_apply, h e]

/-- Unless the rule needs a token beyond the last one, it does the same whatever follows the tokens.
The error `e` stands for not knowing what follows. -/
def Steady (r : Rule α) : Prop :=
  ∀ e ts, r (some e) ts = .abandoned (.lexical e) ∨
    ∀ fault us, us ≠ [] → r fault (ts ++ us) = (r (some e) ts).extend us

namespace Steady

variable {r : Rule α}

protected theorem pure (a : α) : Steady (pure a) := fun _ _ => .inr fun _ _ _ => rfl

theorem tooDeep : Steady (tooDeep : Rule α) := fun _ _ => .inr fun _ _ _ => rfl

theorem next (expected : Expectation) (pick : Token → Option α) :
    Steady (Rule.next expected pick) := by
  intro e ts
  cases ts with
  | nil => exact .inl rfl
  | cons t ts =>
    refine .inr fun fault us _ => ?_
    simp only [Rule.next, List.cons_append]
    split <;> rfl

protected theorem bind {f : α → Rule β} (hr : Steady r) (hf : ∀ a, Steady (f a)) :
    Steady (r >>= f) := by
  intro e ts
  rcases hr e ts with hab | hext
  · exact .inl (by rw [bind_apply, hab])
  cases hr₁ : r (some e) ts with
  | abandoned | misfits =>
    refine .inr fun fault us hus => ?_
    simp only [bind_apply, hext fault us hus, hr₁, Outcome.extend]
  | fits a rest =>
    rcases hf a e rest with hab | hext'
    · exact .inl (by simp only [bind_apply, hr₁, hab])
    · refine .inr fun fault us hus => ?_
      simp only [bind_apply, hext fault us hus, hr₁, Outcome.extend]
      exact hext' fault us hus

theorem map (f : α → β) (hr : Steady r) : Steady (f <$> r) := by
  rw [map_eq_bind]
  exact hr.bind fun a => .pure (f a)

/-- A choice by the next token, which has to need that token. -/
theorem onNext {choose : Option Token → Rule α} (hr : ∀ t, Steady (choose t))
    (hnone : Needy (choose none)) : Steady (onNext choose) := by
  intro e ts
  cases ts with
  | nil => exact .inl (hnone e)
  | cons t ts =>
    rcases hr (some t) e (t :: ts) with hab | hext
    · exact .inl hab
    · exact .inr fun fault us hus => hext fault us hus

theorem optional (hr : Steady r) (default : α) : Steady (optional r default) := by
  intro e ts
  rcases hr e ts with hab | hext
  · exact .inl (by simp only [Rule.optional, hab])
  · refine .inr fun fault us hus => ?_
    simp only [Rule.optional, hext fault us hus]
    cases r (some e) ts <;> rfl

theorem many (hr : Steady r) : Steady (many r) := by
  intro e ts
  -- The rounds left have fewer tokens, and `us` behind them does not change how many a round takes.
  induction hn : ts.length using Nat.strongRecOn generalizing ts with
  | ind n ih =>
  subst hn
  rcases hr e ts with hab | hext
  · left
    rw [Rule.many, hab]
  cases hr₁ : r (some e) ts with
  | abandoned | misfits =>
    right
    intro fault us hus
    rw [Rule.many, Rule.many, hext fault us hus, hr₁]
    rfl
  | fits a rest =>
    by_cases hlt : rest.length < ts.length
    · rcases ih _ hlt rest rfl with hab | hext'
      · left
        rw [Rule.many, hr₁]
        simp only [if_pos hlt, hab]
      · right
        intro fault us hus
        have hlt' : (rest ++ us).length < (ts ++ us).length := by simpa using hlt
        rw [Rule.many, Rule.many, hext fault us hus, hr₁]
        simp only [Outcome.extend, if_pos hlt, if_pos hlt', hext' fault us hus]
        cases Rule.many r (some e) rest <;> rfl
    · right
      intro fault us hus
      have hge : ¬(rest ++ us).length < (ts ++ us).length := by simpa using hlt
      rw [Rule.many, Rule.many, hext fault us hus, hr₁]
      simp only [Outcome.extend, if_neg hlt, if_neg hge]

theorem rounds {γ : Type} {round : Rule β} (hr : Steady r) (hround : Steady round)
    (g : α → List β → γ) :
    Steady (r >>= fun a => Rule.many round >>= fun bs => pure (g a bs)) :=
  hr.bind fun a => hround.many.bind fun bs => .pure (g a bs)

theorem finish : Steady finish := by
  refine fun e ts => .inr fun fault us hus => ?_
  have hne : ts ++ us ≠ [] := by simp [hus]
  obtain ⟨t, rest, h⟩ := List.exists_cons_of_ne_nil hne
  simp only [Rule.finish, Outcome.extend, h]

end Steady

end Rule

end Calx
