import ClassSort.Order.Error
import ClassSort.Order.Sort

/-!
# Asking for orders

A ranking answers one entry per class asked, in the order asked. Each resolver belongs to one
context of a ranking and remembers every answer: a class is sent at most once, all new classes of
a request in one batch, and no batch is ever empty. A request that fails leaves no trace in the
resolver.
-/

namespace ClassSort

inductive Layer where
  | base
  | components
  | utilities
  deriving DecidableEq, Repr

abbrev LayerBands := List (Layer × OrderKey)

/-- Something that ranks classes. It may remember `σ` between questions and holds its contexts as
`κ`. -/
structure Ranking (σ κ : Type) where
  classOrder : κ → List String → σ → Except OrderError (List (String × Option OrderKey)) × σ
  /-- What every class of the framework begins with. -/
  leading : κ → String
  layerStart : κ → Layer → Option OrderKey
  /-- The major version of the framework. -/
  version : κ → Option Nat

structure Resolver (κ : Type) where
  context : κ
  cache : OrderMap

def distinct : List String → List String
  | [] => []
  | t :: rest => t :: (distinct rest).filter (· != t)

namespace Resolver

variable {σ κ : Type}

def new (context : κ) : Resolver κ := ⟨context, []⟩

def missing (r : Resolver κ) (tokens : List String) : List String :=
  (distinct tokens).filter fun t => (r.cache.lookup t).isNone

/-- The framework's markers `group` and `peer` have no order of their own and take the start of the
components. -/
def markerKey (o : Ranking σ κ) (context : κ) (token : String) : Option OrderKey :=
  if token = o.leading context ++ "group" ∨ token = o.leading context ++ "peer" then
    o.layerStart context .components
  else none

def resolve (o : Ranking σ κ) (r : Resolver κ) (tokens : List String) (s : σ) :
    Except OrderError OrderMap × Resolver κ × σ :=
  let asked := distinct tokens
  let answers (r : Resolver κ) : OrderMap := asked.map fun t => (t, r.cache.key? t)
  match r.missing tokens with
  | [] => (.ok (answers r), r, s)
  | batch =>
    match o.classOrder r.context batch s with
    | (.error e, s) => (.error e, r, s)
    | (.ok entries, s) =>
      if entries.length ≠ batch.length then (.error (.mismatch batch.length entries.length), r, s)
      else
        let learned := batch.zip entries |>.map fun (t, _, key) => (t, key.or (markerKey o r.context t))
        let r := { r with cache := r.cache ++ learned }
        (.ok (answers r), r, s)

end Resolver

end ClassSort
