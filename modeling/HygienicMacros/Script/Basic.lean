import HygienicMacros.Macro.Registry

/-! # Scripts

A script describes a value, step by step, as data. The body of a macro can be a script as well:
then it may also refer to the macro call, expand trees, recover from errors, look at the state of
the expansion and register further macros.

* `Script`, `PatternScript`, `MatcherScript`, `BodyScript`: what is described.
* `RegistryScript`: a registry and the macros to register in it.
-/

namespace HygienicMacros

/-- One step from a call down to a part of it. -/
inductive Step where
  | operator
  | argument (index : Nat)
  deriving DecidableEq, Repr

/-- What a script can ask about a running expansion. -/
inductive Query where
  | depth
  | path
  | transitions
  | fresh
  | phase
  | recursive
  | label
  | line
  deriving DecidableEq, Repr

mutual

/-- The description of a value. -/
inductive Script where
  /-- A value as it is. -/
  | value (v : Value)
  /-- A floating point number by its decimal text, and the place where it is written. -/
  | decimal (text : String) (place : Nat)
  | atom (name : Script)
  | tuple (items : List Script)
  | list (items : List Script)
  | record (entries : List (Value × Script))
  | literal (s : Script)
  /-- A call whose arguments become trees first. -/
  | call (head : Script) (args : List Script) (notes : List (Value × Script))
  /-- A call whose arguments have to be trees. -/
  | exactCall (head : Script) (args : List Script) (notes : List (Value × Script))
  | placeholder (target : Script)
  | name (ident scope : Script)
  | unquote (target body : Script)
  | unhygienic (s : Script)
  | marker (kind : MarkerKind) (body : Script)
  /-- A value inside a number of calls of one operator. -/
  | nest (count : Nat) (op inner : Script)
  /-- A call with a number of equal arguments. -/
  | wide (count : Nat) (op arg : Script)
  | quote (template : Script) (callerNames : List Script)
  | fill (template : Script) (entries : List (Value × Script))
  /-- An argument of the macro call, or a part of one. -/
  | argument (index : Nat) (path : List Step)
  /-- In a list of arguments: the arguments of the macro call from an index on. -/
  | rest (index : Nat)
  /-- The macro call. -/
  | invocation
  | expand (mode : Mode) (s : Script)
  | raise (kind : ErrorKind) (message : String)
  /-- A script, or another one if it fails with an error of expansion. -/
  | recover (s other : Script)
  | query (q : Query)
  /-- Registers a macro and goes on. -/
  | register (site : Site) (name : Script) (pattern : PatternScript) (body : BodyScript)
      (next : Script)

/-- The description of a pattern. -/
inductive PatternScript where
  | any
  | arity (n : Script)
  | shape (matchers : List MatcherScript)
  | parts (arity : Script) (matchers : Option (List MatcherScript))
  /-- A sequence of matchers, not yet a pattern. -/
  | sequence (matchers : List MatcherScript)
  | value (s : Script)

/-- The description of a matcher. -/
inductive MatcherScript where
  | variant (s : Script)
  | head (op arity : Script)
  /-- The predicate that accepts what is equal to a value. -/
  | equals (label : String) (s : Script)
  /-- The predicate that always gives the same answer. -/
  | constant (label : String) (s : Script)
  /-- The predicate that always fails. -/
  | raises (label : String) (kind : ErrorKind) (message : String)
  | value (s : Script)

/-- The description of what is offered as a transformer. -/
inductive BodyScript where
  | function (label : String) (s : Script)
  | value (s : Script)

end

instance : Inhabited Script := ⟨.value .nothing⟩
instance : Inhabited PatternScript := ⟨.any⟩
instance : Inhabited MatcherScript := ⟨.value default⟩
instance : Inhabited BodyScript := ⟨.value default⟩

/-- The description of a macro: its name, its pattern and its transformer. -/
structure MacroScript where
  name : Script
  pattern : PatternScript
  body : BodyScript

/-- The description of a registry: a ready one, or one whose macros are registered in order. -/
inductive RegistryScript where
  | ready (r : Registry)
  | build (terminals : Option Script) (macros : List MacroScript) (freeze : Bool)

end HygienicMacros
