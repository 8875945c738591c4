import HygienicMacros.Expander.Check
import HygienicMacros.Expander.Run

/-! # Expanding a whole tree

The two entry points make an expander for one tree, expand the tree and check that the result is
finished. Transformers may register macros in the registry that the expander was made from, so the
entry points also answer that registry.

* `expandMacros`: until no macro calls are left.
* `expandOnce`: each outermost macro call once.
-/

namespace HygienicMacros

/-- A stack overflow as an error of expansion, with the number of macro applications so far. -/
def guardStack {α : Type} (x : Run α) : Run α := do
  match ← attempt x with
  | .ok a => pure a
  | .error e =>
    if e.kind = .stackOverflow then
      let s ← get
      throw (.depthExceeded (.overflow s.filename s.transitions) s.maxDepth)
    else throw e

/-- Refuses a value that is not a tree. -/
def requireTree : Value → Except Error Tree
  | .tree t => .ok t
  | v => .error (.unmet .tree v)

/-- Expands a tree until no macro calls are left, and checks the result. -/
def expandFully (v : Value) : Run Value := do
  let t ← requireTree v
  let expanded ← guardStack (visitRecursively (.tree t))
  expanded.finish (some (← get).registry)

/-- Expands each outermost macro call of a tree once, and checks the result. -/
def expandStep (v : Value) : Run Value := do
  let t ← requireTree v
  let expanded ← guardStack (visitOnce (.tree t))
  expanded.finish none

/-- Runs a computation on a new expander over a registry. -/
def Registry.run (source : Registry) (maxDepth label : Value) (x : Run Value) :
    Except Error Value × Registry :=
  match Expander.create source maxDepth label with
  | .error e => (.error e, source)
  | .ok s =>
    let r := x s
    (r.1, r.2.source)

/-- The expansion of a tree, in which no macro calls are left. -/
def expandMacros (source : Registry) (v maxDepth label : Value) :
    Except Error Value × Registry :=
  source.run maxDepth label (expandFully v)

/-- The tree with each outermost macro call expanded once. -/
def expandOnce (source : Registry) (v label : Value) :
    Except Error Value × Registry :=
  source.run (.int Expander.standardDepth) label (expandStep v)

/-- Trees, each one step after the tree before. -/
def expandTimes (label : Value) : Nat → Registry → Value → Except Error (List Value)
  | 0, _, _ => .ok []
  | n + 1, source, v =>
    match expandOnce source v label with
    | (.error e, _) => .error e
    | (.ok w, source') => (expandTimes label n source' w).map (w :: ·)

end HygienicMacros
