import HygienicMacros.Macro.Registry

/-! # Shelves of registries

A shelf holds registries, numbered from zero in the order in which they were put on it. A registry
on a shelf refers to the table of its clauses, and a number refers to a registry: registration
changes a table in its place, for all who refer to it, and one registry may have several numbers.

* `Shelf.Holding`: a registry that refers to its table.
* `Shelf.at?`: the registry with a number, with its clauses.
* `Shelf.Command`: what can be asked of a shelf.
* `Shelf.perform`: the outcome of a command and the shelf afterwards.
-/

namespace HygienicMacros

/-- A registry whose clauses are in the table with a number. -/
structure Shelf.Holding where
  terminals : List String
  table : Nat
  frozen : Bool

/-- Numbered registries. -/
structure Shelf where
  /-- All clause tables. -/
  tables : List ClauseTable
  /-- All registries. -/
  holdings : List Shelf.Holding
  /-- The registries that the numbers stand for, by their places among all. -/
  numbers : List Nat

namespace Shelf

/-- What can be asked of a shelf. -/
inductive Command where
  /-- Put a new registry on the shelf. -/
  | put (r : Registry)
  /-- Register a clause in a registry. -/
  | register (n : Nat) (name : Value) (pattern : PatternForm) (candidate : Candidate)
  /-- Close a registry to further registration. -/
  | freeze (n : Nat)
  /-- Put a snapshot of a registry on the shelf. -/
  | snapshot (n : Nat)

/-- What comes of a command. -/
inductive Receipt where
  /-- A registry has been put at this number. -/
  | placed (n : Nat)
  /-- This clause has been registered. -/
  | registered (c : Clause)
  /-- The registry is frozen. -/
  | closed
  /-- A snapshot has been put at this number; `same` if it is the registry itself. -/
  | copied (n : Nat) (same : Bool)

/-- The shelf without registries. -/
def empty : Shelf := ⟨[], [], []⟩

/-! ## Reading -/

/-- A table, by its number. -/
def table (shelf : Shelf) (k : Nat) : ClauseTable := (shelf.tables[k]?).getD []

/-- A registry with its clauses. -/
def read (shelf : Shelf) (h : Holding) : Registry := ⟨h.terminals, shelf.table h.table, h.frozen⟩

/-- The registry that a number stands for, with its place. -/
def holding? (shelf : Shelf) (n : Nat) : Option (Nat × Holding) := do
  let place ← shelf.numbers[n]?
  return (place, ← shelf.holdings[place]?)

/-- The registry with a number. -/
def at? (shelf : Shelf) (n : Nat) : Option Registry := (shelf.holding? n).map (shelf.read ·.2)

/-! ## Changes -/

/-- The shelf with a new registry, which gets a table of its own and the next number. -/
def place (shelf : Shelf) (r : Registry) : Shelf where
  tables := shelf.tables ++ [r.macros]
  holdings := shelf.holdings ++ [⟨r.terminals, shelf.tables.length, r.frozen⟩]
  numbers := shelf.numbers ++ [shelf.holdings.length]

/-- The shelf with other clauses in the table of a registry. -/
def rewrite (shelf : Shelf) (h : Holding) (macros : ClauseTable) : Shelf :=
  { shelf with tables := shelf.tables.set h.table macros }

/-- The shelf with the registry at a place frozen. -/
def close (shelf : Shelf) (place : Nat) (h : Holding) : Shelf :=
  { shelf with holdings := shelf.holdings.set place { h with frozen := true } }

/-- The shelf with one more number for the registry at a place. -/
def share (shelf : Shelf) (place : Nat) : Shelf :=
  { shelf with numbers := shelf.numbers ++ [place] }

/-- No registry has this number. -/
def missing : Error := .raised .indexFault "list index out of range"

/-- Carries out a command on the registry with a number; `f` gives what comes of it and the shelf
afterwards. -/
def withHolding (shelf : Shelf) (n : Nat)
    (f : Nat → Holding → Except Error (Receipt × Shelf)) : Except Error Receipt × Shelf :=
  match shelf.holding? n with
  | none => (.error missing, shelf)
  | some (place, h) => match f place h with
    | .ok (receipt, shelf) => (.ok receipt, shelf)
    | .error e => (.error e, shelf)

/-- Carries out a command. One that fails leaves the shelf as it was. The snapshot of a registry
that is not frozen yet has a copy of its table. -/
def perform (shelf : Shelf) : Command → Except Error Receipt × Shelf
  | .put r => (.ok (.placed shelf.numbers.length), shelf.place r)
  | .register n name pattern candidate => shelf.withHolding n fun _ h => do
    let (r, clause) ← (shelf.read h).register name pattern candidate
    return (.registered clause, shelf.rewrite h r.macros)
  | .freeze n => shelf.withHolding n fun place h => .ok (.closed, shelf.close place h)
  | .snapshot n => shelf.withHolding n fun place h =>
    .ok (.copied shelf.numbers.length h.frozen,
      if h.frozen then shelf.share place else shelf.place (shelf.read h).freeze)

end Shelf

/-- The clause of the macro that a value names which fits the arguments. -/
def Registry.lookupValue (r : Registry) (name : Value) (args : List Value) :
    Except Error (Option Clause) := do
  Registry.firstFit (← r.clausesOf name) args

end HygienicMacros
