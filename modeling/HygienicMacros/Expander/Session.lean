import HygienicMacros.Expander.Check
import HygienicMacros.Expander.Run

/-! # Sessions

A session keeps one expander, and a collector of macro calls over the same registry, and works on
one tree after another. A step that fails leaves the session usable.

* `Session`: the state between steps.
* `Session.run`: a step with the expander.
* `Session.collect`: a step with the collector.
-/

namespace HygienicMacros

/-- The state between steps. -/
structure Session where
  expander : Expander
  /-- The macro calls collected so far, in scan order. -/
  collected : List (String × Tree)

namespace Session

/-- A new session over a registry. -/
def create (source : Registry) (maxDepth label : Value) : Except Error Session :=
  (Expander.create source maxDepth label).map fun s => ⟨s, []⟩

/-- A step with the expander. -/
def run {α : Type} (s : Session) (x : Run α) : Except Error α × Session :=
  let r := x s.expander
  (r.1, { s with expander := r.2 })

/-- Collects the macro calls of a value. Those before a misfit are kept. -/
def collect (s : Session) (v : Value) : Except Error (List (String × Tree)) × Session :=
  let (trees, misfit) := v.forest
  let collected := s.collected ++ trees.flatMap (Tree.macroCalls s.expander.registry)
  (match misfit with
    | some e => .error e
    | none => .ok collected, { s with collected := collected })

/-- Forgets what was collected. -/
def clear (s : Session) : Session := { s with collected := [] }

/-- The macro applications since an earlier state of the session, the first one first. -/
def applicationsSince (s earlier : Session) : List Transition :=
  (s.expander.history.take (s.expander.transitions - earlier.expander.transitions)).reverse

end Session

/-- Takes all tags up to a number out of the supply. -/
def skipTags (n : Int) : Run Unit := modify fun s => { s with tags := s.tags.skipPast n }

/-- Registers a clause in the registry from which the expander was made. -/
def registerSource (name : Value) (pattern : PatternForm) (candidate : Candidate) :
    Run Clause := do
  let s ← get
  let (source, clause) ← s.source.register name pattern candidate
  set { s with source := source }
  return clause

/-- Checks that a value is finished, in the sense of the expander's registry if `fixpoint`. -/
def checkFinished (fixpoint : Bool) (v : Value) : Run Value := do
  let registry := (← get).registry
  v.finish (if fixpoint then some registry else none)

end HygienicMacros
