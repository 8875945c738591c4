import HygienicMacros.Value.Walk

/-! # Touring trees

A tour goes through trees from the root and notes each node it comes to, with its depth. A
revising tour replaces the nodes for which it has a rule, without going on inside of them, and
rebuilds what is around; a plain tour only looks.

* `Sighting`: a node that was seen.
* `Value.revise`: the revising tour.
* `Value.look`: the plain tour.
-/

namespace HygienicMacros

/-- A node seen on a tour: its text, its depth and whether a rule replaced it. -/
structure Sighting where
  text : String
  depth : Nat
  replaced : Bool
  deriving DecidableEq, Repr

/-- A tour that may fail; what was seen before is kept. -/
abbrev Tour := ExceptT Error (StateM (List Sighting))

/-- Notes a node. -/
def Tour.see (t : Tree) (depth : Nat) (replaced : Bool) : Tour Unit :=
  modify (· ++ [⟨t.unparse, depth, replaced⟩])

/-- Replacements of values, the first that fits. -/
abbrev Rules := List (Value × Value)

/-- The replacement for a tree. -/
def Rules.find? (t : Tree) (rules : Rules) : Option Value :=
  (List.find? (·.1.equal (.tree t)) rules).map (·.2)

/-- Notes a node without children and replaces it, if there is a rule. -/
def Rules.leaf (rules : Rules) (depth : Nat) (t : Tree) : Tour Value :=
  match Rules.find? t rules with
  | some v => do
    Tour.see t depth true
    pure v
  | none => do
    Tour.see t depth false
    pure (.tree t)

mutual

/-- Revises a tree. -/
def Tree.revise (rules : Rules) (depth : Nat) (t : Tree) : Tour Value :=
  match Rules.find? t rules with
  | some v => do
    Tour.see t depth true
    pure v
  | none => do
    Tour.see t depth false
    match t with
    | .call (.symbol op) args notes => do
      let args ← Tree.reviseList rules (depth + 1) args
      let t ← Tree.callOf (.text op) args notes
      pure (.tree t)
    | .call (.tree f) args notes => do
      let f ← f.revise rules (depth + 1)
      let args ← Tree.reviseList rules (depth + 1) args
      let t ← Tree.callOf f args notes
      pure (.tree t)
    | .marker kind (some body) => do
      let body ← body.revise rules (depth + 1)
      let t ← Tree.markerOf kind body
      pure (.tree t)
    | .unhygienic ident => do
      let body ← rules.leaf (depth + 1) (.name ident .source)
      let t ← Tree.unhygienicBody body
      pure (.tree t)
    | .literal d => pure (.tree (.literal d))
    | .placeholder target => pure (.tree (.placeholder target))
    | .name ident scope => pure (.tree (.name ident scope))
    | .marker kind none => pure (.tree (.marker kind none))

/-- Revises trees from left to right. -/
def Tree.reviseList (rules : Rules) (depth : Nat) : List Tree → Tour (List Value)
  | [] => pure []
  | t :: ts => do
    let v ← t.revise rules depth
    let vs ← Tree.reviseList rules depth ts
    pure (v :: vs)

end

mutual

/-- Revises a tree, or the trees of nested lists. -/
def Value.revise (rules : Rules) (depth : Nat) : Value → Tour Value
  | .tree t => t.revise rules depth
  | .list items => do pure (.list (← Value.reviseList rules depth items))
  | v => throw (.unmet .tree v)

/-- Revises values from left to right. -/
def Value.reviseList (rules : Rules) (depth : Nat) : List Value → Tour (List Value)
  | [] => pure []
  | v :: vs => do
    let v ← v.revise rules depth
    let vs ← Value.reviseList rules depth vs
    pure (v :: vs)

end

mutual

/-- Notes all nodes of a tree. -/
def Tree.look (depth : Nat) : Tree → Tour Unit
  | .call (.symbol op) args notes => do
    Tour.see (.call (.symbol op) args notes) depth false
    Tree.lookList (depth + 1) args
  | .call (.tree f) args notes => do
    Tour.see (.call (.tree f) args notes) depth false
    f.look (depth + 1)
    Tree.lookList (depth + 1) args
  | .marker kind (some body) => do
    Tour.see (.marker kind (some body)) depth false
    body.look (depth + 1)
  | .unhygienic ident => do
    Tour.see (.unhygienic ident) depth false
    Tour.see (.name ident .source) (depth + 1) false
  | t => Tour.see t depth false

/-- Notes all nodes of some trees. -/
def Tree.lookList (depth : Nat) : List Tree → Tour Unit
  | [] => pure ()
  | t :: ts => do
    t.look depth
    Tree.lookList depth ts

end

mutual

/-- Notes all nodes of a tree, or of the trees of nested lists and tuples. -/
def Value.look (depth : Nat) : Value → Tour Unit
  | .tree t => t.look depth
  | .list items => Value.lookList depth items
  | .tuple items => Value.lookList depth items
  | v => throw (.unmet .tree v)

/-- Notes all nodes of some values. -/
def Value.lookList (depth : Nat) : List Value → Tour Unit
  | [] => pure ()
  | v :: vs => do
    v.look depth
    Value.lookList depth vs

end

/-- The two kinds of tours. -/
inductive TourKind where
  | revising (rules : Rules)
  | plain

/-- A tour through a value, from a depth. A plain tour has no result. -/
def TourKind.tour (kind : TourKind) (depth : Nat) (v : Value) : Tour Value :=
  match kind with
  | .revising rules => v.revise rules depth
  | .plain => do
    v.look depth
    pure .nothing

end HygienicMacros
