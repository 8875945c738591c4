import HygienicMacros.Macro.Pattern

/-! # Transformers

A transformer is a function from a macro call to an action. An action is what the transformer does
with the expander until it answers: it may expand trees, allocate tags, look at the state of the
expansion and register macros, and each time it goes on with what the expander said. Errors of
these requests are handed to it, so it may recover from them.

The expansions that it can ask for are the two that get ready first, until no macro calls are left
and one step. The operations of an expander that do not get ready, `visit` and `visitCall`, and
`skipTags`, which moves the tag supply, are for those who drive an expander from outside: no request
leads to them, so nothing is said here about a transformer that calls them.

* `Course`, `Action`: the requests and the answer.
* `Transformer`: a label and the function.
* `Transformer.pure`: a transformer that asks the expander for nothing.
-/

namespace HygienicMacros

/-- How far an expansion goes: until no macro calls are left, or one step. -/
inductive Mode where
  | recursive
  | once
  deriving DecidableEq, Repr

/-- What the expander is doing. -/
inductive Phase where
  | scanning
  | matched
  | substituted
  | terminal
  | failed
  deriving DecidableEq, Repr

/-- The word for a phase. -/
def Phase.word : Phase → String
  | .scanning => "scanning"
  | .matched => "matched"
  | .substituted => "substituted"
  | .terminal => "terminal"
  | .failed => "failed"

/-- What a transformer can see of a running expansion. -/
structure Observation where
  /-- The number of expansions around the tree being scanned. -/
  depth : Nat
  /-- The macros of these expansions, outermost first. -/
  path : List String
  /-- The number of macro applications so far. -/
  transitions : Nat
  /-- The number of transformers that were called so far, this one included. -/
  calls : Nat
  phase : Phase
  recursive : Bool
  label : Value

/-- Which registry to register in: the frozen one of the expander, or the one it was made from. -/
inductive Site where
  | own
  | source
  deriving DecidableEq, Repr

/-- What is done until there is an answer. `κ` is what can be registered as a transformer. -/
inductive Course (κ α : Type) where
  /-- The answer. -/
  | answer (a : α)
  /-- A failure. -/
  | fail (e : Error)
  /-- Expand a tree. -/
  | expand (mode : Mode) (v : Value) (next : Except Error Value → Course κ α)
  /-- Allocate a tag. -/
  | freshTag (next : Tag → Course κ α)
  /-- Look at the state of the expansion. -/
  | observe (next : Observation → Course κ α)
  /-- Register a macro. -/
  | register (site : Site) (name : Value) (pattern : PatternForm) (candidate : κ)
      (next : Except Error Unit → Course κ α)

/-- What is offered as a transformer: a labelled function, or a value that is none. -/
inductive Candidate where
  | function (label : String) (body : Tree → Course Candidate Value)
  | value (v : Value)

/-- What a transformer does until it answers. -/
abbrev Action (α : Type) : Type := Course Candidate α

namespace Course

variable {κ α β : Type}

/-- Goes on with the answer. -/
def bind (x : Course κ α) (f : α → Course κ β) : Course κ β :=
  match x with
  | .answer a => f a
  | .fail e => .fail e
  | .expand mode v next => .expand mode v fun r => (next r).bind f
  | .freshTag next => .freshTag fun t => (next t).bind f
  | .observe next => .observe fun o => (next o).bind f
  | .register site name pattern candidate next =>
    .register site name pattern candidate fun r => (next r).bind f

instance : Monad (Course κ) where
  pure := .answer
  bind := bind

/-- Goes on with an outcome. -/
def ofExcept : Except Error α → Course κ α
  | .ok a => .answer a
  | .error e => .fail e

/-- A course, or another one if it fails with an error of expansion. -/
def recover (x other : Course κ α) : Course κ α :=
  match x with
  | .answer a => .answer a
  | .fail e => if e.isExpansion then other else .fail e
  | .expand mode v next => .expand mode v fun r => (next r).recover other
  | .freshTag next => .freshTag fun t => (next t).recover other
  | .observe next => .observe fun o => (next o).recover other
  | .register site name pattern candidate next =>
    .register site name pattern candidate fun r => (next r).recover other

/-- The outcome where there is no expander to ask. -/
def outcome : Course κ α → Except Error α
  | .answer a => .ok a
  | .fail e => .error e
  | _ => .error (.raised .runtimeFault "no expander")

end Course

/-- A transformer: how it is shown, and what it does with a macro call. -/
structure Transformer where
  label : String
  body : Tree → Action Value

/-- A transformer that only computes: it asks the expander for nothing. -/
def Transformer.pure (label : String) (body : Tree → Except Error Value) : Transformer where
  label := label
  body t := .ofExcept (body t)

/-- A transformer, offered as one. -/
def Transformer.candidate (t : Transformer) : Candidate := .function t.label t.body

/-- The label of a function: its name, after the module it is defined in if there is one. -/
def functionLabel (home name : String) : String :=
  if home.isEmpty then name else home ++ "." ++ name

/-- The function whose arguments a variety's own constructor checks. -/
def Variety.constructorName : Variety → String
  | .quotation => Variety.label .marker
  | v => v.label

/-- Calling a variety on a macro call: none takes the named arguments of a transformer. -/
def Variety.applied (v : Variety) : Error :=
  match v with
  | .node => .fault (.keywords (v.label ++ "() takes no arguments"))
  | v => .fault (.keywords
      (v.constructorName ++ ".__init__() got an unexpected keyword argument 'invocation'"))

/-- The transformer that is offered. A variety can be called, although it refuses every call. -/
def Candidate.transformer : Candidate → Except Error Transformer
  | .function label body => .ok ⟨label, body⟩
  | .value (.variety v) => .ok ⟨v.fullName, fun _ => .fail v.applied⟩
  | .value v => .error (.unmet .transformer v)

end HygienicMacros
