import HygienicMacros.Value.Walk

/-! # Resolving open scopes

When a macro's output is put in place of the call, its open scopes are resolved: names and calls
of the template get the tag of this expansion, names of the caller get the scope of the place of
the call. All else stays as it is.
-/

namespace HygienicMacros

/-- The scope of the place of a call: the source, or an earlier expansion. -/
def callerScope (caller : Option Tag) : Scope :=
  match caller with
  | some t => .tag t
  | none => .source

/-- A scope, resolved. -/
def Scope.resolve (tag : Tag) (caller : Option Tag) : Scope → Scope
  | .pending .template => .tag tag
  | .pending .caller => callerScope caller
  | s => s

/-- The notes of a call, resolved: a template's scope becomes the tag, in place. -/
def Notes.resolve (tag : Tag) (notes : Notes) : Notes :=
  match Notes.scope? notes with
  | some (.pending .template) => Notes.set Notes.scopeKey (.int tag.number) notes
  | _ => notes

mutual

/-- A tree with its open scopes resolved. -/
def Tree.resolve (tag : Tag) (caller : Option Tag) : Tree → Tree
  | .literal d => .literal d
  | .call (.symbol op) args notes =>
    .call (.symbol op) (Tree.resolveList tag caller args) (Notes.resolve tag notes)
  | .call (.tree f) args notes =>
    .call (.tree (f.resolve tag caller)) (Tree.resolveList tag caller args)
      (Notes.resolve tag notes)
  | .placeholder target => .placeholder target
  | .name ident scope => .name ident (scope.resolve tag caller)
  | .marker kind none => .marker kind none
  | .marker kind (some body) => .marker kind (some (body.resolve tag caller))
  | .unhygienic ident => .unhygienic ident

/-- Trees with their open scopes resolved. -/
def Tree.resolveList (tag : Tag) (caller : Option Tag) : List Tree → List Tree
  | [] => []
  | t :: ts => t.resolve tag caller :: Tree.resolveList tag caller ts

end

/-- The tag that a value stands for. -/
def Tag.ofValue : Value → Except Error Tag
  | .int n => match Tag.ofInt? n with
    | some t => .ok t
    | none => .error (.unmet .hygieneTag (.int n))
  | v => .error (.unmet .hygieneTag v)

/-- The scope of a caller that a value stands for. -/
def callerOfValue : Value → Except Error (Option Tag)
  | .nothing => .ok none
  | .int n => match Tag.ofInt? n with
    | some t => .ok (some t)
    | none => .error (.unmet .callerScope (.int n))
  | v => .error (.unmet .callerScope v)

/-- The scope of a caller, as noted for a call: only a number counts, and it has to be positive. -/
def Notes.caller (notes : Notes) : Except Error (Option Tag) :=
  match Notes.scope? notes with
  | some (.int n) => callerOfValue (.int n)
  | _ => .ok none

/-- Resolves the open scopes of a tree or of nested lists of trees. -/
def Value.resolve (v tag caller : Value) : Except Error Value := do
  let t ← Tag.ofValue tag
  let c ← callerOfValue caller
  v.mapTrees fun tree => .ok (tree.resolve t c)

end HygienicMacros
