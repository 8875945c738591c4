import HygienicMacros.Tree.Construct

/-! # Walking over values

An operation on trees also accepts sequences of trees. One that only looks goes through nested
lists and tuples and stops at the first value that is not a tree, keeping what it saw before. One
that rebuilds accepts nested lists and answers a list of the same form.

* `Value.forest`: the trees up to the first misfit, and what is wrong with it.
* `Value.collect`: what a view of trees gives over a whole value.
* `Value.mapTrees`: a value rebuilt tree by tree.
-/

namespace HygienicMacros

/-- What is wrong with a value where a tree is walked. The variety of all trees has no fields, so
there is nothing to walk in it. -/
def Value.misfit? : Value → Option Error
  | .tree _ => none
  | .variety v => v.fields.head?.map fun field => .fault (.noAttribute (.variety v) field)
  | v => some (.fault (.noAttribute v "_fields"))

mutual

/-- The trees in nested lists and tuples up to the first misfit, and what is wrong with it. -/
def Value.forest : Value → List Tree × Option Error
  | .tree t => ([t], none)
  | .tuple items => Value.forestList items
  | .list items => Value.forestList items
  | v => ([], v.misfit?)

/-- The trees in some values up to the first misfit. -/
def Value.forestList : List Value → List Tree × Option Error
  | [] => ([], none)
  | v :: vs =>
    match v.forest with
    | (trees, some e) => (trees, some e)
    | (trees, none) =>
      let (more, e) := Value.forestList vs
      (trees ++ more, e)

end

/-- What a view of trees gives over a whole value, or the misfit in it. -/
def Value.collect {α : Type} (view : Tree → List α) (v : Value) : Except Error (List α) :=
  match v.forest with
  | (_, some e) => .error e
  | (trees, none) => .ok (trees.flatMap view)

section

variable {m : Type → Type} [Monad m] [MonadExcept Error m]

mutual

/-- A value with every tree in nested lists rebuilt; `f` may keep a state from tree to tree. A tuple
is a misfit here. -/
def Value.mapTrees (f : Tree → m Tree) : Value → m Value
  | .tree t => do return .tree (← f t)
  | .list items => do return .list (← Value.mapTreesList f items)
  | v => match v.misfit? with
    | some e => throw e
    | none => pure v

/-- Values with every tree rebuilt, from left to right. -/
def Value.mapTreesList (f : Tree → m Tree) : List Value → m (List Value)
  | [] => pure []
  | v :: vs => do return (← v.mapTrees f) :: (← Value.mapTreesList f vs)

end

end

/-! ## Views of values -/

/-- The targets of all placeholders. -/
def Value.targets (v : Value) : Except Error (List String) := v.collect Tree.targets

/-- The nodes with an open scope. -/
def Value.openNodes (v : Value) : Except Error (List Tree) := v.collect Tree.openNodes

/-- The largest tag, and zero if there is none. -/
def Value.maxTag (v : Value) : Except Error Int := (v.collect Tree.tags).map Tree.largest

/-- The source line of a tree. -/
def Value.line : Value → Except Error Value
  | .tree t => .ok t.line
  | v => match v.misfit? with
    | some e => .error e
    | none => .ok .nothing

mutual

/-- Whether something is of the asked variety, or of one in a tuple of them; `isA` answers for one
variety, and anything but a variety cannot be asked for. -/
def Value.asks (isA : Variety → Bool) : Value → Except Error Bool
  | .variety v => .ok (isA v)
  | .tuple items => Value.asksAny isA items
  | _ => .error (.fault .notVariety)

/-- Whether something is of one of the asked varieties. -/
def Value.asksAny (isA : Variety → Bool) : List Value → Except Error Bool
  | [] => .ok false
  | v :: vs =>
    match v.asks isA with
    | .ok false => Value.asksAny isA vs
    | answer => answer

end

/-- The nodes of a list whose variety is asked for. -/
def selectVariety (asked : Value) : List Tree → Except Error (List Tree)
  | [] => .ok []
  | t :: ts => do
    let found ← asked.asks t.variety.isA
    let rest ← selectVariety asked ts
    return if found then t :: rest else rest

/-- The nodes of a value whose variety is asked for. -/
def Value.ofVariety (v asked : Value) : Except Error (List Tree) := do
  let (trees, misfit) := v.forest
  let found ← selectVariety asked (trees.flatMap Tree.nodes)
  match misfit with
  | some e => do
    let _ ← asked.asks fun _ => false
    throw e
  | none => return found

/-- Refuses a value in which nodes of the asked variety remain. -/
def Value.checkMarkers (v asked : Value) (context : String) : Except Error Unit := do
  match ← v.ofVariety (if asked.truthy then asked else .variety .marker) with
  | [] => return ()
  | first :: rest => throw (.invariant (.markersRemain context first rest))

/-- Refuses a value in which open scopes remain. -/
def Value.checkScopes (v : Value) : Except Error Unit := do
  match ← v.openNodes with
  | [] => return ()
  | first :: rest => throw (.invariant (.scopesRemain first rest))

end HygienicMacros
