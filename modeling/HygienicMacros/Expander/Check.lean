import HygienicMacros.Macro.Registry
import HygienicMacros.Value.Walk

/-! # Finished trees

A finished tree has no markers, no placeholders and no open scopes. If the expansion went on until
nothing changed, it has no macro calls either.

* `Tree.macroCalls`: the macro calls of a tree, in scan order.
* `Value.finish`: a value as it is, if it is finished.
-/

namespace HygienicMacros

/-- The name of the macro that this very node calls, and the node. -/
def Registry.macroCall? (r : Registry) : Tree → Option (String × Tree)
  | .call (.symbol op) args notes =>
    if r.isMacro op then some (op, .call (.symbol op) args notes) else none
  | _ => none

/-- The macro calls of a tree, each with the name of its macro, in scan order. -/
def Tree.macroCalls (r : Registry) (t : Tree) : List (String × Tree) :=
  t.nodes.filterMap r.macroCall?

/-- The macro calls of a tree, or of nested sequences of trees. -/
def Value.macroCalls (r : Registry) (v : Value) : Except Error (List (String × Tree)) :=
  v.collect (Tree.macroCalls r)

/-- When an expanded tree is checked for markers. -/
def expansionContext : String := "after expansion"

/-- Refuses a value in which placeholders remain. -/
def Value.checkPlaceholders (v : Value) : Except Error Unit := do
  match ← v.collect Tree.placeholders with
  | [] => return ()
  | first :: rest => throw (.invariant (.placeholdersRemain first rest))

/-- Refuses a value in which macro calls remain. -/
def Value.checkCalls (r : Registry) (v : Value) : Except Error Unit := do
  match ← v.macroCalls r with
  | [] => return ()
  | (_, first) :: rest => throw (.invariant (.callsRemain first (rest.map (·.2))))

/-- The value itself, if it is finished. With a registry, no call of its macros may remain. -/
def Value.finish (v : Value) (registry : Option Registry) : Except Error Value := do
  v.checkMarkers .nothing expansionContext
  v.checkPlaceholders
  v.checkScopes
  match registry with
  | some r => v.checkCalls r
  | none => pure ()
  return v

end HygienicMacros
