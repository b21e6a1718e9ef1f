import Calx.Value.Inspect

/-!
# Environments

An environment is a chain of bindings, the newest first. A name means its newest binding; the older
ones stay in the chain, so that extending an environment changes no other. `names` lists the visible
names by their newest binding, `bindings` pairs them with their values in the order of binding.
-/

namespace Calx

/-- A chain of bindings, the newest first. -/
structure Environment where
  /-- The bindings, the newest first. -/
  chain : List (String × Value)
deriving DecidableEq

namespace Environment

/-- The environment without bindings. -/
def empty : Environment := ⟨[]⟩

/-- The environment with one more binding. -/
def bind (env : Environment) (name : String) (v : Value) : Environment :=
  ⟨(name, v) :: env.chain⟩

/-- The environment after binding some names, one after the other. -/
def bindAll (env : Environment) (bs : List (String × Value)) : Environment :=
  bs.foldl (fun e b => e.bind b.1 b.2) env

/-- The value of the newest binding of a name. -/
def lookup? (env : Environment) (name : String) : Option Value :=
  env.chain.lookup name

/-- Whether a name is bound. -/
def contains (env : Environment) (name : String) : Bool :=
  env.chain.any fun b => b.1 == name

/-- The bound names, each once, the newest binding first. -/
def names (env : Environment) : List String :=
  (env.chain.map Prod.fst).eraseDups

/-- The number of bound names. -/
def size (env : Environment) : Nat :=
  env.names.length

/-- The bound names with their values, the oldest of the newest bindings first. -/
def bindings (env : Environment) : List (String × Value) :=
  env.names.reverse.filterMap fun n => (env.lookup? n).map (n, ·)

/-- An environment with all its bindings. -/
def inspect (env : Environment) : String :=
  inspectNode "Environment" (env.bindings.map fun b => (b.1, b.2.inspect))

@[simp] theorem lookup?_empty (name : String) : empty.lookup? name = none := rfl

theorem lookup?_bind (env : Environment) (n m : String) (v : Value) :
    (env.bind n v).lookup? m = if m = n then some v else env.lookup? m := by
  show ((n, v) :: env.chain).lookup m = _
  rw [List.lookup_cons]
  by_cases hmn : m = n
  · simp [hmn]
  · simp [hmn, beq_false_of_ne hmn, lookup?]

end Environment

end Calx
