import HygienicMacros.Value.Walk

/-! # Filling templates

Substitution replaces every placeholder of a tree by the tree filed under its target, in one pass:
what is put in is not looked at again. A placeholder without a value is an error.

* `Substitution`: trees by target.
* `Tree.substitute`: the tree with every placeholder replaced.
* `Value.substitute`: the same with values of any kind, which have to stand for trees.
-/

namespace HygienicMacros

/-- Trees by the targets they are for. -/
abbrev Substitution := List (String × Tree)

namespace Substitution

/-- The targets, in the order in which they were given. -/
def keys (m : Substitution) : List String := m.map (·.1)

/-- A value to be put in: a tree, nothing, or the value of a literal. -/
def tree (target : String) (v : Value) : Except Error Tree :=
  match v.asTree with
  | .ok t => .ok t
  | .error _ => .error (.unmet (.substitution target) v)

/-- A substitution from values of any kind, the first unfit one refused. A key that is no text is
nobody's target. -/
def ofValues : List (Value × Value) → Except Error Substitution
  | [] => .ok []
  | (key, v) :: rest => do
    let t ← tree key.display v
    let m ← ofValues rest
    return match key with
      | .text target => (target, t) :: m
      | _ => m

/-- A substitution from entries, where a later entry for a target replaces the value. -/
def ofEntries (entries : List (Value × Value)) : Except Error Substitution :=
  ofValues (Notes.ofEntries entries)

end Substitution

mutual

/-- The tree with every placeholder replaced by its value. The first placeholder without a value, in
scan order, is an error. -/
def Tree.substitute (m : Substitution) : Tree → Except Error Tree
  | .literal d => .ok (.literal d)
  | .call (.symbol op) args notes => do
    return .call (.symbol op) (← Tree.substituteList m args) notes
  | .call (.tree f) args notes => do
    return .call (.tree (← f.substitute m)) (← Tree.substituteList m args) notes
  | .placeholder target => match m.lookup target with
    | some t => .ok t
    | none => .error (.unresolvedPlaceholder target (Text.sorted m.keys))
  | .name ident scope => .ok (.name ident scope)
  | .marker kind none => .ok (.marker kind none)
  | .marker kind (some body) => do return .marker kind (some (← body.substitute m))
  | .unhygienic ident => .ok (.unhygienic ident)

/-- The trees with every placeholder replaced, from left to right. -/
def Tree.substituteList (m : Substitution) : List Tree → Except Error (List Tree)
  | [] => .ok []
  | t :: ts => do return (← t.substitute m) :: (← Tree.substituteList m ts)

end

/-- Substitution in a tree or in nested lists of trees. -/
def Value.substitute (entries : List (Value × Value)) (v : Value) : Except Error Value := do
  let m ← Substitution.ofEntries entries
  v.mapTrees (Tree.substitute m)

/-- The name of the parameter that a splice cannot also take as a target. -/
def spliceParameter : String := "template"

/-- Substitution with the targets given as named arguments. -/
def Value.splice (entries : List (Value × Value)) (v : Value) : Except Error Value := do
  let fields ← Fields.ofEntries entries
  if (fields.lookup spliceParameter).isSome then
    .error (.fault (.keywords ("splice() got multiple values for argument '" ++
      spliceParameter ++ "'")))
  else v.substitute entries

end HygienicMacros
