import HygienicMacros.Macro.Action
import HygienicMacros.Render.Span

/-! # Registries

A registry files clauses under the names of macros, in the order of registration, and lists the
terminal operators, which are never macros. A frozen registry never changes; a snapshot is a
frozen copy.

* `Registry.register`: one more clause at the end of one macro.
* `Registry.lookup`: the first clause whose pattern fits.
* `Registry.snapshot`: a frozen copy.
-/

namespace HygienicMacros

/-- One rule of a macro: its pattern, its transformer and its position among the rules. -/
structure Clause where
  name : String
  pattern : Pattern
  transformer : Transformer
  index : Nat

/-- Clauses by the name of their macro, in the order in which the macros were first given. -/
abbrev ClauseTable := List (String × List Clause)

/-- Clauses by the name of their macro, and the terminal operators. -/
structure Registry where
  terminals : List String
  macros : ClauseTable
  frozen : Bool

namespace Registry

/-- The terminals of a registry for which none are given. -/
def standardTerminals : List String := ["case"]

/-- The registry without macros. -/
def empty (terminals : List String) : Registry := ⟨terminals, [], false⟩

/-- The registry without macros whose terminals a value lists. -/
def ofTerminals (v : Value) : Except Error Registry :=
  (v.nameSet .terminalName).map empty

/-! ## Views -/

/-- The clauses of a macro, in order; empty if there is no such macro. -/
def clauses (r : Registry) (name : String) : List Clause := (r.macros.lookup name).getD []

/-- Whether an operator names a macro. -/
def isMacro (r : Registry) (op : String) : Bool := (r.macros.lookup op).isSome

/-- Whether an operator is terminal. -/
def isTerminal (r : Registry) (op : String) : Bool := r.terminals.contains op

/-- Whether a value names a macro. -/
def isMacroValue (r : Registry) : Value → Bool
  | .text op => r.isMacro op
  | _ => false

/-- Whether a value names a terminal operator. -/
def isTerminalValue (r : Registry) : Value → Bool
  | .text op => r.isTerminal op
  | _ => false

/-- The names of all macros, sorted. -/
def names (r : Registry) : List String := Text.sorted (r.macros.map (·.1))

/-- The role of an operator symbol. -/
def roleOf (r : Registry) (op : String) : Role :=
  if r.isMacro op then .macroName else if r.isTerminal op then .terminal else .operator

/-! ## Lookup -/

/-- The first clause of a list whose pattern fits. A predicate that fails ends the search. -/
def firstFit : List Clause → List Value → Except Error (Option Clause)
  | [], _ => .ok none
  | c :: cs, args =>
    match c.pattern.fits args with
    | .error e => .error e
    | .ok true => .ok (some c)
    | .ok false => firstFit cs args

/-- The first clause of a macro whose pattern fits the arguments. -/
def lookup (r : Registry) (name : String) (args : List Value) : Except Error (Option Clause) :=
  firstFit (r.clauses name) args

/-- The clauses of the macro that a value names; only what can be a key can be asked for. -/
def clausesOf (r : Registry) (name : Value) : Except Error (List Clause) :=
  match name.unhashable? with
  | some part => .error (.fault (.unhashable part))
  | none => match name with
    | .text s => .ok (r.clauses s)
    | _ => .ok []

/-! ## Changes -/

/-- A list of macros with one more clause at the end of one of them. -/
def append (c : Clause) : ClauseTable → ClauseTable
  | [] => [(c.name, [c])]
  | (k, clauses) :: rest =>
    if k = c.name then (k, clauses ++ [c]) :: rest else (k, clauses) :: append c rest

/-- The registry with one more clause, which gets the next index of its macro. -/
def add (r : Registry) (name : String) (pattern : Pattern) (transformer : Transformer) : Registry :=
  { r with macros := append ⟨name, pattern, transformer, (r.clauses name).length⟩ r.macros }

/-- The name of a macro: a text that is not empty. -/
def macroName : Value → Except Error String
  | .text s => if s.isEmpty then .error (.unmet .macroName (.text s)) else .ok s
  | v => .error (.unmet .macroName v)

/-- Registers a clause. The name is checked first, then the transformer, the pattern, the
terminals, and last whether the registry is frozen. -/
def register (r : Registry) (name : Value) (pattern : PatternForm) (candidate : Candidate) :
    Except Error (Registry × Clause) := do
  let name ← macroName name
  let transformer ← candidate.transformer
  let pattern ← pattern.resolve
  if r.isTerminal name then throw (.terminalMacro name)
  else if r.frozen then throw (.frozen name)
  else
    return (r.add name pattern transformer, ⟨name, pattern, transformer, (r.clauses name).length⟩)

/-- The registry, open to no further registration. -/
def freeze (r : Registry) : Registry := { r with frozen := true }

/-- A frozen copy; a frozen registry is its own. -/
def snapshot (r : Registry) : Registry := r.freeze

/-! ## Text -/

/-- A registry in one line. -/
def describe (r : Registry) : String :=
  let entry (name : String) : String :=
    name ++ ": [" ++ Text.commas ((r.clauses name).map fun c =>
      c.pattern.describe ++ " -> " ++ c.transformer.label) ++ "]"
  "MacroRegistry(\x7b" ++ Text.commas (r.names.map entry) ++ "\x7d, terminals=" ++
    (Value.list ((Text.sorted r.terminals).map .text)).inspect ++
    (if r.frozen then ", frozen" else "") ++ ")"

end Registry

end HygienicMacros
