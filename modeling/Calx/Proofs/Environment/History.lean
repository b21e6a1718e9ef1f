import Mathlib.Data.Finset.Card
import Calx.Proofs.Environment.Answers

/-!
# Histories of environments

Environments are made by binding names, each out of one that was made before, which need not be the
latest: they branch. A `History` says how. The steps on the way to an environment are those on the way
to the one that it was made out of, and the step that made it. The environment answers as a map that
remembers these steps and nothing else (`Environment.Recalls`): a name has the value of the last step
that binds it, and the names are listed in the order of these last steps, the newest first. One more
step keeps this (`Environment.Recalls.bind`), so it holds of every environment of every history
(`History.recalls`). Later steps leave the environments made before as they are
(`History.Continues.exists_env_eq`).
-/

namespace Calx

/-! ## Steps -/

/-- The last one of some steps, the oldest first, that binds the name binds it to the value. -/
def LastBinds (steps : List (String × Value)) (n : String) (v : Value) : Prop :=
  ∃ later, (n, v) :: later <:+ steps ∧ n ∉ later.map Prod.fst

/-- The last step that binds the first name comes behind all the steps that bind the second one. -/
def BoundAfter (steps : List (String × Value)) (n m : String) : Prop :=
  ∃ later, later <:+ steps ∧ n ∈ later.map Prod.fst ∧ m ∉ later.map Prod.fst

section Steps

variable {steps : List (String × Value)} {n m k : String} {v w : Value}

theorem not_lastBinds_nil : ¬LastBinds [] n v := by
  rintro ⟨later, hsuffix, -⟩
  exact List.cons_ne_nil _ _ (List.suffix_nil.1 hsuffix)

/-- One more step is the last one for its own name, and changes nothing for the others. -/
theorem lastBinds_concat :
    LastBinds (steps ++ [(n, v)]) m w ↔ if m = n then v = w else LastBinds steps m w := by
  constructor
  · rintro ⟨later, hsuffix, hlater⟩
    obtain ⟨⟨⟩⟩ | ⟨rest, heq, hrest⟩ := List.suffix_concat_iff.1 hsuffix
    obtain ⟨rfl, ⟨⟩⟩ | ⟨rest, rfl, rfl⟩ := List.cons_eq_append_iff.1 heq
    · rw [if_pos rfl]
    · rw [List.map_append, List.mem_append, not_or] at hlater
      rw [if_neg (by simpa using hlater.2)]
      exact ⟨rest, hrest, hlater.1⟩
  · intro h
    split at h
    · subst_vars
      exact ⟨[], List.suffix_append _ _, List.not_mem_nil⟩
    · rename_i hm
      obtain ⟨later, hsuffix, hlater⟩ := h
      refine ⟨later ++ [(n, v)], List.suffix_concat_iff.2 (.inr ⟨_, rfl, hsuffix⟩), ?_⟩
      simpa [hm] using hlater

theorem boundAfter_concat_self (h : m ≠ n) : BoundAfter (steps ++ [(n, v)]) n m :=
  ⟨[(n, v)], List.suffix_append _ _, List.mem_singleton_self n, by simpa using h⟩

theorem BoundAfter.concat (h : BoundAfter steps n m) (hm : m ≠ k) :
    BoundAfter (steps ++ [(k, v)]) n m := by
  obtain ⟨later, hsuffix, hn, hlater⟩ := h
  refine ⟨later ++ [(k, v)], List.suffix_concat_iff.2 (.inr ⟨_, rfl, hsuffix⟩), ?_, ?_⟩
  · rw [List.map_append]
    exact List.mem_append_left _ hn
  · simpa [hm] using hlater

end Steps

/-! ## One more step -/

namespace Environment

/-- An environment answers as the map that some steps make, the oldest first. -/
structure Recalls (env : Environment) (steps : List (String × Value)) : Prop where
  /-- A name has the value of the last step that binds it. -/
  lookup?_iff : ∀ n v, env.lookup? n = some v ↔ LastBinds steps n v
  /-- The names are those that the steps bind. -/
  mem_names_iff : ∀ n, n ∈ env.names ↔ n ∈ steps.map Prod.fst
  /-- Of two names the one that was bound last is listed first. -/
  newest_first : env.names.Pairwise (BoundAfter steps)

variable {env : Environment} {steps : List (String × Value)}

theorem recalls_empty : empty.Recalls [] where
  lookup?_iff _ _ := iff_of_false nofun not_lastBinds_nil
  mem_names_iff _ := Iff.rfl
  newest_first := List.Pairwise.nil

/-- One more binding is remembered as one more step. -/
theorem Recalls.bind (h : env.Recalls steps) (n : String) (v : Value) :
    (env.bind n v).Recalls (steps ++ [(n, v)]) where
  lookup?_iff m w := by
    rw [lookup?_bind, lastBinds_concat]
    split
    · exact Option.some_inj
    · exact h.lookup?_iff m w
  mem_names_iff m := by
    rw [mem_names_bind, h.mem_names_iff m, List.map_append, List.mem_append, or_comm]
    exact or_congr_right List.mem_singleton.symm
  newest_first := by
    have hothers : ∀ m ∈ env.names.filter (· != n), m ≠ n :=
      fun m hm => bne_iff_ne.1 (List.mem_filter.1 hm).2
    rw [names_bind]
    refine List.pairwise_cons.2 ⟨fun m hm => boundAfter_concat_self (hothers m hm), ?_⟩
    exact (h.newest_first.filter _).imp_of_mem fun _ hm hafter => hafter.concat (hothers _ hm)

/-- There are as many names as different names among the steps. -/
theorem Recalls.size_eq (h : env.Recalls steps) :
    env.size = (steps.map Prod.fst).toFinset.card := by
  have hset : env.names.toFinset = (steps.map Prod.fst).toFinset :=
    Finset.ext fun n => by rw [List.mem_toFinset, List.mem_toFinset, h.mem_names_iff n]
  rw [size, ← List.toFinset_card_of_nodup (nodup_names env), hset]

end Environment

/-! ## Histories -/

/-- How some environments are made: the first one is without bindings, and each other one is made out
of one that was made before, by a binding. The number counts those that are made by a binding. -/
inductive History : Nat → Type where
  /-- There is only the environment without bindings. -/
  | start : History 0
  /-- One more environment is made, out of the one at `base`. -/
  | extend {k : Nat} (h : History k) (base : Fin (k + 1)) (name : String) (v : Value) :
      History (k + 1)

namespace History

/-- The environments, in the order in which they are made. -/
def env : {k : Nat} → History k → Fin (k + 1) → Environment
  | _, start, _ => .empty
  | _, extend h base n v, i => Fin.lastCases ((h.env base).bind n v) h.env i

/-- The steps on the way to an environment, the oldest first. -/
def steps : {k : Nat} → History k → Fin (k + 1) → List (String × Value)
  | _, start, _ => []
  | _, extend h base n v, i => Fin.lastCases (h.steps base ++ [(n, v)]) h.steps i

/-- The second history begins as the first one, and goes on with more steps. -/
inductive Continues : {k m : Nat} → History k → History m → Prop where
  | refl {k : Nat} (h : History k) : Continues h h
  | extend {k m : Nat} {h : History k} {later : History m} (hlater : Continues h later)
      (base : Fin (m + 1)) (n : String) (v : Value) : Continues h (later.extend base n v)

section Extend

variable {k : Nat} (h : History k) (base : Fin (k + 1)) (n : String) (v : Value)

@[simp] theorem env_extend_last :
    (h.extend base n v).env (Fin.last (k + 1)) = (h.env base).bind n v :=
  Fin.lastCases_last

@[simp] theorem env_extend_castSucc (i : Fin (k + 1)) :
    (h.extend base n v).env i.castSucc = h.env i :=
  Fin.lastCases_castSucc i

@[simp] theorem steps_extend_last :
    (h.extend base n v).steps (Fin.last (k + 1)) = h.steps base ++ [(n, v)] :=
  Fin.lastCases_last

@[simp] theorem steps_extend_castSucc (i : Fin (k + 1)) :
    (h.extend base n v).steps i.castSucc = h.steps i :=
  Fin.lastCases_castSucc i

end Extend

/-- **An environment remembers the steps on the way to it.** -/
theorem recalls {k : Nat} (h : History k) (i : Fin (k + 1)) : (h.env i).Recalls (h.steps i) := by
  induction h with
  | start => exact Environment.recalls_empty
  | extend h base n v ih =>
    cases i using Fin.lastCases with
    | last =>
      rw [env_extend_last, steps_extend_last]
      exact (ih base).bind n v
    | cast i =>
      rw [env_extend_castSucc, steps_extend_castSucc]
      exact ih i

/-- **More steps change no environment that was made before**, nor the steps on the way to it. -/
theorem Continues.exists_env_eq {k m : Nat} {h : History k} {later : History m}
    (hlater : h.Continues later) (i : Fin (k + 1)) :
    ∃ j : Fin (m + 1), j.val = i.val ∧ later.env j = h.env i ∧ later.steps j = h.steps i := by
  induction hlater with
  | refl h => exact ⟨i, rfl, rfl, rfl⟩
  | extend hlater base n v ih =>
    obtain ⟨j, hj, henv, hsteps⟩ := ih
    exact ⟨j.castSucc, hj, (env_extend_castSucc _ base n v j).trans henv,
      (steps_extend_castSucc _ base n v j).trans hsteps⟩

end History

/-- **Environments are maps that are ordered by their newest bindings.** However environments are
made out of one another, each of them remembers the steps on the way to it and no others: a name has
the value of the last one that binds it, and none if no step does. The names are those that are bound,
each once, ordered by the last steps that bind them, the newest first; to have a name, to list it and
to have a value for it is the same, and the size counts the different names. The bindings are the names
from the oldest on, with their values, and bound again in this order they make an environment with the
same values, names and bindings. Later steps, out of whichever environment, change none of those made
before. -/
theorem environments_recall_steps {k : Nat} (h : History k) (i : Fin (k + 1)) :
    (h.env i).Recalls (h.steps i) ∧
    (∀ n, (h.env i).lookup? n = none ↔ n ∉ (h.steps i).map Prod.fst) ∧
    (h.env i).names.Nodup ∧
    (∀ n, ((h.env i).contains n = true ↔ n ∈ (h.env i).names) ∧
      (n ∈ (h.env i).names ↔ (h.env i).lookup? n ≠ none)) ∧
    (h.env i).size = ((h.steps i).map Prod.fst).toFinset.card ∧
    (h.env i).bindings.map (fun b => (b.1, some b.2)) =
      (h.env i).names.reverse.map (fun n => (n, (h.env i).lookup? n)) ∧
    ((∀ n, (Environment.empty.bindAll (h.env i).bindings).lookup? n = (h.env i).lookup? n) ∧
      (Environment.empty.bindAll (h.env i).bindings).names = (h.env i).names ∧
      (Environment.empty.bindAll (h.env i).bindings).bindings = (h.env i).bindings) ∧
    ∀ {m : Nat} (later : History m), h.Continues later →
      ∃ j : Fin (m + 1), j.val = i.val ∧ later.env j = h.env i ∧ later.steps j = h.steps i := by
  have hrecalls := h.recalls i
  refine ⟨hrecalls, fun n => ?_, Environment.nodup_names _,
    fun n => ⟨Environment.contains_iff, Environment.mem_names_iff⟩, hrecalls.size_eq,
    Environment.map_bindings _,
    ⟨Environment.lookup?_bindAll_bindings _, Environment.names_bindAll_bindings _,
      Environment.bindings_bindAll_bindings _⟩, fun later hlater => hlater.exists_env_eq i⟩
  rw [← hrecalls.mem_names_iff n, Environment.mem_names_iff, not_not]

/-- Of two names one is bound again, so it is the newest. Then the first environment is gone back to,
and the other name is bound there. -/
theorem environments_recall_branches :
    let h : History 3 :=
      ((History.start.extend 0 "a" (.text "1")).extend 1 "b" (.text "2")).extend 2 "a" (.text "3")
    let later : History 4 := h.extend 1 "b" (.text "4")
    h.Continues later ∧
      later.steps 3 = [("a", .text "1"), ("b", .text "2"), ("a", .text "3")] ∧
      later.steps 4 = [("a", .text "1"), ("b", .text "4")] ∧
      (later.env 3).names = ["a", "b"] ∧ (later.env 3).size = 2 ∧
      (later.env 3).lookup? "b" = some (.text "2") ∧
      (later.env 4).lookup? "b" = some (.text "4") := by
  intro h later
  have hlater : h.Continues later := .extend (.refl h) 1 "b" (.text "4")
  obtain ⟨hrecalls, -, -, -, hsize, -, -, hkept⟩ := environments_recall_steps h 3
  obtain ⟨hlast, -⟩ := environments_recall_steps later 4
  obtain ⟨j, hj, henv, hsteps⟩ := hkept later hlater
  obtain rfl : j = 3 := Fin.ext hj
  have hb : LastBinds (h.steps 3) "b" (.text "2") :=
    ⟨[("a", .text "3")], ⟨[("a", .text "1")], rfl⟩, by decide⟩
  have hb' : LastBinds (later.steps 4) "b" (.text "4") :=
    ⟨[], ⟨[("a", .text "1")], rfl⟩, by decide⟩
  refine ⟨hlater, hsteps.trans rfl, rfl, henv ▸ rfl, ?_, ?_, ?_⟩
  · rw [henv, hsize]
    decide
  · rw [henv]
    exact (hrecalls.lookup?_iff _ _).2 hb
  · exact (hlast.lookup?_iff _ _).2 hb'

end Calx
