import HygienicMacros.Macro.Registry

/-! # The state of an expander

An expander works on a frozen registry. It counts tags and macro applications, and keeps a stack of
frames, one for each expansion whose result is being scanned. All of its work is a function of
this state; `Run` is such a function that may also fail, and a failure keeps the state reached.

* `TagSupply`: tags, each larger than all before.
* `Budget`: how much room is left on the stack, and what each `Activity` takes of it.
* `Expander`, `Expander.create`: the state and its beginning.
* `Run`, `withFrame`, `withMode`, `withHook`, `during`, `attempt`: computations over the state.
-/

namespace HygienicMacros

/-! ## Tags -/

/-- A supply of tags, by the last number that was used. -/
structure TagSupply where
  last : Nat
  deriving DecidableEq, Repr

namespace TagSupply

/-- No tag used yet. -/
def start : TagSupply := ⟨0⟩

/-- The next tag, and the supply without it. -/
def fresh (s : TagSupply) : Tag × TagSupply := (⟨s.last + 1, Nat.succ_pos _⟩, ⟨s.last + 1⟩)

/-- The supply without all tags up to a number. -/
def skipPast (n : Int) (s : TagSupply) : TagSupply := if (s.last : Int) < n then ⟨n.toNat⟩ else s

end TagSupply

/-! ## The stack -/

/-- What takes room on the stack as long as it lasts. -/
inductive Activity where
  /-- Expanding a value that was handed in. -/
  | entry
  /-- Looking through a tree. -/
  | survey (tree : Skeleton)
  /-- Scanning the items of a list. -/
  | items
  /-- Scanning the operator of a call. -/
  | operator
  /-- Scanning the arguments of a call, of which there are `count`. -/
  | arguments (count : Nat)
  /-- Running a transformer. -/
  | application
  /-- Resolving the scopes of a tree. -/
  | resolution (tree : Skeleton)
  /-- Scanning what a macro call was replaced with. -/
  | replacement

/-- How much room each activity takes. -/
structure Costs where
  of : Activity → Nat
  pos : ∀ a, 0 < of a

/-- The room that is left on the stack, and what takes how much of it. -/
structure Budget where
  left : Nat
  costs : Costs

namespace Budget

/-- Whether there is room for an activity. -/
def covers (b : Budget) (a : Activity) : Bool := b.costs.of a ≤ b.left

theorem covers_eq_true {b : Budget} {a : Activity} :
    b.covers a = true ↔ b.costs.of a ≤ b.left := decide_eq_true_iff

theorem covers_eq_false {b : Budget} {a : Activity} :
    b.covers a = false ↔ b.left < b.costs.of a := decide_eq_false_iff_not.trans Nat.not_le

/-- The budget inside an activity. -/
def spend (b : Budget) (a : Activity) : Budget := { b with left := b.left - b.costs.of a }

end Budget

/-! ## The state -/

/-- An expansion around the tree being scanned: how many there are, and their macro calls,
outermost first. -/
structure Frame where
  depth : Nat
  path : List (String × Tree)

/-- The frame of a tree that is not inside any expansion. -/
def Frame.outermost : Frame := ⟨0, []⟩

/-- The frame of the result of one more expansion. -/
def Frame.inside (f : Frame) (macroName : String) (invocation : Tree) : Frame :=
  ⟨f.depth + 1, f.path ++ [(macroName, invocation)]⟩

/-- One macro application: the call, the transformer's answer with its scopes still open, and the
expansion in which they are resolved with a tag of its own. -/
structure Transition where
  macroName : String
  invocation : Tree
  answer : Tree
  tag : Tag
  expansion : Tree
  label : String
  depth : Nat

/-- Who is told of each macro application, and what is then printed, piece by piece, until one
piece fails. -/
structure Hook where
  pieces : Transition → List (Except Error String)

/-- The state of an expander. -/
structure Expander where
  /-- The frozen registry that is expanded with. -/
  registry : Registry
  /-- The registry from which the expander was made. -/
  source : Registry
  maxDepth : Nat
  /-- The label of the source that the tree came from. -/
  label : Value
  budget : Budget
  /-- The frames, innermost first. -/
  stack : List Frame
  recursive : Bool
  phase : Phase
  tags : TagSupply
  /-- All macro applications, the last one first. -/
  history : List Transition
  /-- The number of transformers called, also of those that failed. -/
  calls : Nat
  hook : Option Hook
  /-- What hooks and steppers have printed. -/
  printed : String

namespace Expander

/-- The depth limit unless another one is given. -/
def standardDepth : Nat := 100

/-- The label of a tree whose source has no name. -/
def standardLabel : Value := .text "<tree>"

/-- About how many calls each activity nests. A tree is looked through with three for each of its
levels, and rebuilt with one more for each argument. -/
def standardCost : Activity → Nat
  | .entry => 3
  | .survey tree => tree.reach 3 3 3 + 4
  | .items => 2
  | .operator => 3
  | .arguments 0 => 2
  | .arguments (_ + 1) => 4
  | .application => 3
  | .resolution tree => tree.reach 3 4 3 + 5
  | .replacement => 3

theorem standardCost_pos (a : Activity) : 0 < standardCost a := by
  unfold standardCost
  split <;> omega

/-- An empty stack with room for a thousand calls. -/
def standardBudget : Budget := ⟨1000, ⟨standardCost, standardCost_pos⟩⟩

/-- The depth limit that a value stands for: a plain positive number. -/
def depthLimit : Value → Except Error Nat
  | .int n => if 0 < n then .ok n.toNat else .error (.unmet .depthLimit (.int n))
  | v => .error (.unmet .depthLimit v)

/-- An expander over a snapshot of a registry. -/
def ofRegistry (source : Registry) (maxDepth : Nat) (label : Value) : Expander where
  registry := source.snapshot
  source := source
  maxDepth := maxDepth
  label := label
  budget := standardBudget
  stack := [Frame.outermost]
  recursive := true
  phase := .scanning
  tags := .start
  history := []
  calls := 0
  hook := none
  printed := ""

/-- An expander over a snapshot of a registry, if the depth limit is one. -/
def create (source : Registry) (maxDepth label : Value) : Except Error Expander :=
  (depthLimit maxDepth).map fun n => ofRegistry source n label

/-- The label as it is shown in messages. -/
def filename (s : Expander) : String := s.label.display

/-- The innermost frame. -/
def frame (s : Expander) : Frame := s.stack.headD Frame.outermost

/-- How many more expansions may be nested. -/
def remaining (s : Expander) : Nat := s.maxDepth - s.frame.depth

/-- The number of macro applications. -/
def transitions (s : Expander) : Nat := s.history.length

/-- The state inside an activity. -/
abbrev spend (s : Expander) (a : Activity) : Expander := { s with budget := s.budget.spend a }

/-- What a transformer can see of the state. -/
def observation (s : Expander) : Observation where
  depth := s.frame.depth
  path := s.frame.path.map (·.1)
  transitions := s.transitions
  calls := s.calls
  phase := s.phase
  recursive := s.recursive
  label := s.label

end Expander

/-! ## Computations -/

/-- A computation over the state of an expander that may fail. -/
abbrev Run := ExceptT Error (StateM Expander)

/-- Enters a phase. -/
def setPhase (p : Phase) : Run Unit := modify fun s => { s with phase := p }

/-- Fails, entering the failed phase. -/
def failWith {α : Type} (e : Error) : Run α := do
  setPhase .failed
  throw e

/-- The next tag. -/
def freshTag : Run Tag := do
  let s ← get
  let (tag, tags) := s.tags.fresh
  set { s with tags := tags }
  return tag

/-- The outcome of a computation, as a value. -/
def attempt {α : Type} (x : Run α) : Run (Except Error α) := fun s =>
  let r := x s
  (.ok r.1, r.2)

/-- A computation inside one more frame, which is gone afterwards whatever the outcome. -/
def withFrame {α : Type} (f : Frame) (x : Run α) : Run α := fun s =>
  let r := x { s with stack := f :: s.stack }
  (r.1, { r.2 with stack := r.2.stack.tail })

/-- A computation in one of the two modes; the mode before is back afterwards, whatever the
outcome. -/
def withMode {α : Type} (mode : Mode) (x : Run α) : Run α := fun s =>
  let r := x { s with recursive := mode == .recursive }
  (r.1, { r.2 with recursive := s.recursive })

/-- A computation with a hook; the hook before is back afterwards, whatever the outcome. -/
def withHook {α : Type} (hook : Option Hook) (x : Run α) : Run α := fun s =>
  let r := x { s with hook := hook }
  (r.1, { r.2 with hook := s.hook })

/-- A computation as part of an activity, which must fit on the stack; the room it took is free
again afterwards, whatever the outcome. -/
def during {α : Type} (a : Activity) (x : Run α) : Run α := fun s =>
  if s.budget.covers a then
    let r := x (s.spend a)
    (r.1, { r.2 with budget := s.budget })
  else (.error .stackOverflow, s)

/-- Prints a piece of text, or fails as it does. -/
def printPiece (piece : Except Error String) : Run Unit := do
  match piece with
  | .error e => throw e
  | .ok text => modify fun s => { s with printed := s.printed ++ text }

/-- Prints pieces of text until one fails. -/
def printPieces : List (Except Error String) → Run Unit
  | [] => pure ()
  | piece :: rest => do
    printPiece piece
    printPieces rest

/-- Files a macro application and tells the hook. -/
def record (t : Transition) : Run Unit := do
  modify fun s => { s with history := t :: s.history, phase := .substituted }
  match (← get).hook with
  | none => pure ()
  | some hook => printPieces (hook.pieces t)

end HygienicMacros
