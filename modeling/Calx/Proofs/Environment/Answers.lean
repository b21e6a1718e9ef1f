import Mathlib.Data.List.Nodup
import Calx.Proofs.Eval.Binding

/-!
# What an environment answers

An environment can be asked for the value of a name, whether it has a name, for its names and for its
bindings, and each question is a walk of its own along the chain. All of them go by the newest binding
of a name, so they describe one map: the names are those that have a value, each once, and the
bindings are these names with these values. Binding a name anew moves it to the front of the names and
does not repeat it (`names_bind`). The bindings of an environment, bound again from the oldest on, make
an environment that gives the same answers (`lookup?_bindAll_bindings`, `names_bindAll_bindings`,
`bindings_bindAll_bindings`), without the older bindings of the chain.
-/

namespace Calx

/-! ## Lists of names -/

section Lists

variable {α β : Type} {f : α → Option β}

/-- Each element of a list is paired with its value, if all of them have one. -/
theorem map_filterMap_pair {l : List α} (h : ∀ a ∈ l, f a ≠ none) :
    (l.filterMap fun a => (f a).map (a, ·)).map (fun x => (x.1, some x.2)) =
      l.map fun a => (a, f a) := by
  induction l with
  | nil => rfl
  | cons a l ih =>
    obtain ⟨ha, hl⟩ := List.forall_mem_cons.1 h
    obtain ⟨v, hv⟩ := Option.ne_none_iff_exists'.1 ha
    simp [hv, ih hl]

variable [BEq α] [LawfulBEq α]

/-- What is left out of a list can be left out before or after its duplicates are. -/
theorem eraseDups_filter (p : α → Bool) :
    ∀ l : List α, (l.filter p).eraseDups = l.eraseDups.filter p
  | [] => rfl
  | a :: l => by
    -- The duplicates of the head are gone before the rest is looked at, so that is no tail.
    have hrest := eraseDups_filter p (l.filter fun b => !b == a)
    rw [List.eraseDups_cons]
    by_cases ha : p a = true
    · rw [List.filter_cons_of_pos ha, List.filter_cons_of_pos ha, List.eraseDups_cons, ← hrest,
        List.filter_comm]
    · rw [List.filter_cons_of_neg ha, List.filter_cons_of_neg ha, ← hrest, List.filter_filter]
      refine congrArg _ (List.filter_congr fun b _ => ?_)
      by_cases hb : b = a
      · simp [hb, ha]
      · simp [hb]
termination_by l => l.length
decreasing_by exact Nat.lt_succ_of_le (List.length_filter_le _ _)

theorem eraseDups_of_nodup {l : List α} (h : l.Nodup) : l.eraseDups = l := by
  induction l with
  | nil => rfl
  | cons a l ih =>
    obtain ⟨ha, hl⟩ := List.nodup_cons.1 h
    have hkept : (l.filter fun b => !b == a) = l := by
      refine List.filter_eq_self.2 fun b hb => ?_
      simpa using ne_of_mem_of_not_mem hb ha
    rw [List.eraseDups_cons, hkept, ih hl]

/-- The elements of a list that have a value, paired with it, have it when looked up. -/
theorem lookup_filterMap_pair (l : List α) (a : α) :
    (l.filterMap fun b => (f b).map (b, ·)).lookup a = if a ∈ l then f a else none := by
  induction l with
  | nil => rfl
  | cons b l ih =>
    rw [List.filterMap_cons]
    by_cases hab : a = b
    · subst hab
      cases ha : f a with
      | none => simp [ih, ha]
      | some v => simp
    · cases hb : f b with
      | none => simp [ih, hab]
      | some v => simp [ih, hab, List.lookup_cons, beq_false_of_ne hab]

end Lists

namespace Environment

/-! ## Names -/

/-- What holds without bindings, and is kept by one more of them, holds of all environments. -/
theorem bindInduction {motive : Environment → Prop} (empty : motive .empty)
    (bind : ∀ env n v, motive env → motive (env.bind n v)) (env : Environment) : motive env := by
  obtain ⟨chain⟩ := env
  induction chain with
  | nil => exact empty
  | cons b chain ih => exact bind ⟨chain⟩ b.1 b.2 ih

@[simp] theorem names_empty : empty.names = [] := rfl

/-- A name that is bound comes first, and is not listed again where it stood before. -/
theorem names_bind (env : Environment) (n : String) (v : Value) :
    (env.bind n v).names = n :: env.names.filter (· != n) := by
  rw [names, bind, List.map_cons, List.eraseDups_cons, eraseDups_filter]
  rfl

theorem mem_names_bind {env : Environment} {n m : String} {v : Value} :
    m ∈ (env.bind n v).names ↔ m = n ∨ m ∈ env.names := by
  rw [names_bind, List.mem_cons, List.mem_filter, bne_iff_ne]
  by_cases h : m = n <;> simp [h]

/-- No name is listed twice. -/
theorem nodup_names (env : Environment) : env.names.Nodup := by
  induction env using bindInduction with
  | empty => exact List.nodup_nil
  | bind env n v ih =>
    rw [names_bind]
    exact List.nodup_cons.2 ⟨by simp, ih.filter _⟩

theorem contains_iff {env : Environment} {n : String} : env.contains n = true ↔ n ∈ env.names := by
  rw [contains, names, List.mem_eraseDups, List.any_eq_true, List.mem_map]
  exact exists_congr fun b => and_congr_right fun _ => beq_iff_eq

/-- The names are those that have a value. -/
theorem mem_names_iff {env : Environment} {n : String} :
    n ∈ env.names ↔ env.lookup? n ≠ none := by
  induction env using bindInduction with
  | empty => simp
  | bind env m v ih =>
    rw [mem_names_bind, lookup?_bind, ih]
    by_cases h : n = m <;> simp [h]

/-! ## Bindings -/

/-- Each name is listed with its value, the newest last. -/
theorem map_bindings (env : Environment) :
    env.bindings.map (fun b => (b.1, some b.2)) =
      env.names.reverse.map fun n => (n, env.lookup? n) :=
  map_filterMap_pair fun _ hn => mem_names_iff.1 (List.mem_reverse.1 hn)

theorem map_fst_bindings (env : Environment) : env.bindings.map Prod.fst = env.names.reverse := by
  have h := congrArg (List.map Prod.fst) (map_bindings env)
  rwa [List.map_map, List.map_map, Function.comp_def, Function.comp_def, List.map_id'] at h

/-! ## Bindings bound again -/

theorem names_bindAll_of_nodup {bs : List (String × Value)} (h : (bs.map Prod.fst).Nodup) :
    (empty.bindAll bs).names = (bs.map Prod.fst).reverse := by
  have hchain : (empty.bindAll bs).chain = bs.reverse :=
    (chain_bindAll empty bs).trans (List.append_nil _)
  rw [names, hchain, List.map_reverse, eraseDups_of_nodup (List.nodup_reverse.2 h)]

variable (env : Environment)

/-- The bindings of an environment, bound again, give its values. -/
theorem lookup?_bindAll_bindings (n : String) :
    (empty.bindAll env.bindings).lookup? n = env.lookup? n := by
  rw [lookup?_bindAll, lookup?_empty, Option.or_none, bindings, ← List.filterMap_reverse,
    List.reverse_reverse, lookup_filterMap_pair]
  split
  · rfl
  · rename_i hn
    exact (not_not.1 (mt mem_names_iff.2 hn)).symm

/-- The bindings of an environment, bound again, give its names in the same order. -/
theorem names_bindAll_bindings : (empty.bindAll env.bindings).names = env.names := by
  have hnodup : (env.bindings.map Prod.fst).Nodup := by
    rw [map_fst_bindings]
    exact List.nodup_reverse.2 (nodup_names env)
  rw [names_bindAll_of_nodup hnodup, map_fst_bindings, List.reverse_reverse]

/-- The bindings of an environment, bound again, are its bindings. -/
theorem bindings_bindAll_bindings : (empty.bindAll env.bindings).bindings = env.bindings := by
  rw [bindings, names_bindAll_bindings]
  simp only [lookup?_bindAll_bindings]
  rfl

end Environment

end Calx
