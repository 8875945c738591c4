import HygienicMacros.Value.Walk

/-! # Quoting templates

A template is written with ordinary trees. Quoting it turns each injection point into a
placeholder, and leaves the scope of the template's own names and calls open. Each target may be
used once, and no quotation marker may be left.

* `Tree.quoted`: the quoted form of a template, whatever its targets are.
* `Quoting`, `Tree.quoting`: the same from left to right, with the targets used so far.
* `Value.quote`: the quoted template, or the reason why it cannot be quoted.
-/

namespace HygienicMacros

/-- The note that leaves the scope of a call open, unless it has a scope already. -/
def Notes.opened (notes : Notes) : Notes :=
  match Notes.scope? notes with
  | some _ => notes
  | none => Notes.set Notes.scopeKey (.pending .template) notes

/-- The scope of a template's own name: the caller's for the listed names. -/
def templateScope (callerNames : List String) (ident : String) : Scope :=
  .pending (if callerNames.contains ident then .caller else .template)

mutual

/-- The quoted form of a template; names listed in `callerNames` belong to the caller. -/
def Tree.quoted (callerNames : List String) : Tree → Tree
  | .literal d => .literal d
  | .call (.symbol op) args notes =>
    .call (.symbol op) (Tree.quotedList callerNames args) (Notes.opened notes)
  | .call (.tree f) args notes =>
    .call (.tree (f.quoted callerNames)) (Tree.quotedList callerNames args) (Notes.opened notes)
  | .placeholder target => .placeholder target
  | .name ident .source => .name ident (templateScope callerNames ident)
  | .name ident scope => .name ident scope
  | .marker (.unquote target) _ => .placeholder target
  | .marker kind none => .marker kind none
  | .marker kind (some body) => .marker kind (some (body.quoted callerNames))
  | .unhygienic ident => .name ident (.pending .caller)

/-- The quoted forms of some trees. -/
def Tree.quotedList (callerNames : List String) : List Tree → List Tree
  | [] => []
  | t :: ts => t.quoted callerNames :: Tree.quotedList callerNames ts

end

/-! ## Targets are used once -/

/-- A step of quoting, with the targets that were used before. -/
abbrev Quoting : Type → Type := StateT (List String) (Except Error)

/-- Uses a target, which must not have been used before. -/
def Quoting.use (target : String) : Quoting Unit := do
  if (← get).contains target then throw (.duplicateTarget target)
  modify (target :: ·)

/-- The placeholder for a target. -/
def Quoting.placeholder (target : String) : Quoting Tree := do
  Quoting.use target
  return .placeholder target

mutual

/-- The quoted form of a template, from left to right. The body of an injection point is only a
comment and is not looked at. -/
def Tree.quoting (callerNames : List String) : Tree → Quoting Tree
  | .literal d => pure (.literal d)
  | .call (.symbol op) args notes => do
    return .call (.symbol op) (← Tree.quotingList callerNames args) (Notes.opened notes)
  | .call (.tree f) args notes => do
    return .call (.tree (← f.quoting callerNames)) (← Tree.quotingList callerNames args)
      (Notes.opened notes)
  | .placeholder target => Quoting.placeholder target
  | .name ident .source => pure (.name ident (templateScope callerNames ident))
  | .name ident scope => pure (.name ident scope)
  | .marker (.unquote target) _ => Quoting.placeholder target
  | .marker kind none => pure (.marker kind none)
  | .marker kind (some body) => do return .marker kind (some (← body.quoting callerNames))
  | .unhygienic ident => pure (.name ident (.pending .caller))

/-- The quoted forms of some trees, from left to right. -/
def Tree.quotingList (callerNames : List String) : List Tree → Quoting (List Tree)
  | [] => pure []
  | t :: ts => do return (← t.quoting callerNames) :: (← Tree.quotingList callerNames ts)

end

/-- When a quotation is checked for markers. -/
def quotingContext : String := "after quoting"

/-- Quotes a template, or nested lists of templates that share their targets. -/
def Value.quote (template unhygienic : Value) : Except Error Value := do
  let callerNames ← unhygienic.nameSet .unhygienicNames
  let q ← (template.mapTrees (Tree.quoting callerNames)).run' []
  q.checkMarkers (.variety .quotation) quotingContext
  return q

end HygienicMacros
