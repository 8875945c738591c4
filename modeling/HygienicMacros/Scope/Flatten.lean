import HygienicMacros.Value.Sum
import HygienicMacros.Value.Walk

/-! # Plain names for scoped ones

For a reader that does not understand scopes, a scoped name `x@3` is renamed to `x_3` in the source
scope. If that name is taken, the separator is repeated until the name is free.

* `Renaming`: the plain names chosen for scoped bindings.
* `grown`: the separator as it grows from try to try.
* `freeName`: the search for a free name.
* `Tree.flatten`: the tree with every scoped name renamed.
-/

namespace HygienicMacros

/-- Plain names for scoped bindings. -/
abbrev Renaming := List ((String × Tag) × String)

/-! ## Separators -/

/-- What a separator grows by: itself as it was given. A list grows in place, so that what it grows
by has grown too. -/
def growth (sep current : Value) : Value :=
  match current with
  | .list items => .list items
  | _ => sep

/-- The separator of the try after `k` others. A text stands there `k + 1` times. -/
def grown (sep : Value) : Nat → Except Error Value
  | 0 => .ok sep
  | k + 1 =>
    match grown sep k with
    | .error e => .error e
    | .ok current => current.plus "+=" (growth sep current)

/-! ## The search for a name -/

/-- The plain name with a separator between the spelling and the tag. -/
def candidateName (ident : String) (sep : Value) (tag : Tag) : String :=
  ident ++ sep.display ++ toString tag.number

/-- The first name from the `k`-th try that is not taken, among `fuel` of them, with its
separator. -/
def searchName (sep : Value) (ident : String) (tag : Tag) (taken : List String) :
    Nat → Nat → Except Error (String × Value)
  | 0, _ => .error .endlessRenaming
  | fuel + 1, k =>
    match grown sep k with
    | .error e => .error e
    | .ok current =>
      let name := candidateName ident current tag
      if taken.contains name then searchName sep ident tag taken fuel (k + 1)
      else .ok (name, current)

/-- The first name that is not taken, with its separator. As many tries as names are taken, and one
more, are enough: if all of those names are taken two of them are the same, the separator has
stopped to grow, and the search would never end. -/
def freeName (sep : Value) (ident : String) (tag : Tag) (taken : List String) :
    Except Error (String × Value) :=
  searchName sep ident tag taken (taken.length + 1) 0

/-- The plain names chosen so far, all names taken, and the separator for further ones. -/
structure Renames where
  chosen : Renaming
  taken : List String
  sep : Value

/-- Chooses a plain name for one more binding, if it needs one. -/
def Renames.add (r : Renames) (ident : String) : Scope → Except Error Renames
  | .source => .ok r
  | .pending p => .error (.invariant (.unresolvedName (.name ident (.pending p))))
  | .tag tag =>
    match r.chosen.lookup (ident, tag) with
    | some _ => .ok r
    | none => match freeName r.sep ident tag r.taken with
      | .error e => .error e
      | .ok (plain, current) =>
        .ok ⟨r.chosen ++ [((ident, tag), plain)], plain :: r.taken, growth r.sep current⟩

/-- Chooses plain names for bindings in order. -/
def Renames.addAll (r : Renames) : List (String × Scope) → Except Error Renames
  | [] => .ok r
  | (ident, scope) :: rest =>
    match r.add ident scope with
    | .error e => .error e
    | .ok r' => r'.addAll rest

/-- The names that the source scope already uses. -/
def sourceNames (bindings : List (String × Scope)) : List String :=
  bindings.filterMap fun
    | (ident, .source) => some ident
    | _ => none

/-- The plain names for all scoped bindings of a list. -/
def renamingFor (sep : Value) (bindings : List (String × Scope)) : Except Error Renaming :=
  ((Renames.mk [] (sourceNames bindings) sep).addAll bindings).map (·.chosen)

/-! ## Renamed trees -/

/-- A name under a renaming; names of the source scope and names not listed stay. -/
def Renaming.apply (r : Renaming) (ident : String) : Scope → Tree
  | .tag tag => match r.lookup (ident, tag) with
    | some plain => .name plain .source
    | none => .name ident (.tag tag)
  | scope => .name ident scope

mutual

/-- A tree with its scoped names renamed. -/
def Tree.rename (r : Renaming) : Tree → Tree
  | .literal d => .literal d
  | .call (.symbol op) args notes => .call (.symbol op) (Tree.renameList r args) notes
  | .call (.tree f) args notes => .call (.tree (f.rename r)) (Tree.renameList r args) notes
  | .placeholder target => .placeholder target
  | .name ident scope => r.apply ident scope
  | .marker kind none => .marker kind none
  | .marker kind (some body) => .marker kind (some (body.rename r))
  | .unhygienic ident => .unhygienic ident

/-- Trees with their scoped names renamed. -/
def Tree.renameList (r : Renaming) : List Tree → List Tree
  | [] => []
  | t :: ts => t.rename r :: Tree.renameList r ts

end

/-- The tree with every scoped name renamed to a plain one of its own. -/
def Tree.flatten (sep : String) (t : Tree) : Except Error Tree :=
  (renamingFor (.text sep) t.bindings).map t.rename

/-- The separator between a spelling and its tag. -/
def standardSeparator : String := "_"

/-- Flattens a tree, or nested lists of trees that share their names. Any value may separate a
spelling and its tag: it is shown between them, and only has to grow if a name is taken. -/
def Value.flatten (v sep : Value) : Except Error Value := do
  let bindings ← v.collect Tree.bindings
  let r ← renamingFor sep bindings
  v.mapTrees fun t => .ok (t.rename r)

end HygienicMacros
