import HygienicMacros.Tree.Notes
import HygienicMacros.Value.Inspect

/-! # Views of a tree

All questions about a tree go through one list: its nodes in scan order, a node before its
children, the operator of a call before the arguments, the body of a marker after the marker.
Placeholders, markers, open scopes and tags are what this list holds of each.

* `Tree.children`, `Tree.nodes`: the direct children and all nodes.
* `Tree.placeholders`, `Tree.ofVariety`, `Tree.openNodes`, `Tree.tags`: selections of the nodes.
* `Tree.line`: the source line found first.
* `Tree.skeleton`: how the tree is nested.
-/

namespace HygienicMacros

namespace Tree

/-- The direct children of a tree, in scan order. -/
def children : Tree → List Tree
  | .call (.symbol _) args _ => args
  | .call (.tree f) args _ => f :: args
  | .marker _ (some body) => [body]
  | .unhygienic ident => [.name ident .source]
  | _ => []

mutual

/-- All nodes of a tree, in scan order. -/
def nodes : Tree → List Tree
  | .literal d => [.literal d]
  | .call (.symbol op) args notes => .call (.symbol op) args notes :: nodesList args
  | .call (.tree f) args notes => .call (.tree f) args notes :: (nodes f ++ nodesList args)
  | .placeholder target => [.placeholder target]
  | .name ident scope => [.name ident scope]
  | .marker kind none => [.marker kind none]
  | .marker kind (some body) => .marker kind (some body) :: nodes body
  | .unhygienic ident => [.unhygienic ident, .name ident .source]

/-- All nodes of some trees, in scan order. -/
def nodesList : List Tree → List Tree
  | [] => []
  | t :: ts => nodes t ++ nodesList ts

end

/-! ## Selections -/

/-- The target of a placeholder. -/
def target? : Tree → Option String
  | .placeholder target => some target
  | _ => none

/-- The placeholders of a tree. -/
def placeholders (t : Tree) : List Tree := t.nodes.filter (·.target?.isSome)

/-- The targets of the placeholders of a tree. -/
def targets (t : Tree) : List String := t.nodes.filterMap target?

/-- The nodes of a tree that belong to a variety. -/
def ofVariety (v : Variety) (t : Tree) : List Tree := t.nodes.filter (·.variety.isA v)

/-- Whether this very node carries an open scope: a name, or a call in its notes. -/
def isOpen : Tree → Bool
  | .name _ scope => scope.isPending
  | .call _ _ notes => match Notes.scope? notes with
    | some (.pending _) => true
    | _ => false
  | _ => false

/-- The nodes of a tree that carry an open scope. -/
def openNodes (t : Tree) : List Tree := t.nodes.filter isOpen

/-- The number of the tag this very node carries. -/
def ownTag? : Tree → Option Int
  | .name _ (.tag t) => some t.number
  | .call _ _ notes => match Notes.scope? notes with
    | some (.int n) => some n
    | _ => none
  | _ => none

/-- The numbers of all tags in a tree. -/
def tags (t : Tree) : List Int := t.nodes.filterMap ownTag?

/-- The largest of some numbers, and zero if there are none. -/
def largest : List Int → Int
  | [] => 0
  | n :: ns => ns.foldl max n

/-- The largest tag in a tree, and zero if there is none. -/
def maxTag (t : Tree) : Int := largest t.tags

/-- The names of a tree, with their scopes. -/
def bindings (t : Tree) : List (String × Scope) :=
  t.nodes.filterMap fun
    | .name ident scope => some (ident, scope)
    | _ => none

/-! ## Source lines -/

mutual

/-- The source line of a tree: the line noted for a call, or else the first line found in the
children. A call whose noted line is `nothing` has none. -/
def line : Tree → Value
  | .call (.symbol _) args notes => match Notes.find? Notes.lineKey notes with
    | some v => v
    | none => lineList args
  | .call (.tree f) args notes => match Notes.find? Notes.lineKey notes with
    | some v => v
    | none => match line f with
      | .nothing => lineList args
      | v => v
  | .marker _ (some body) => line body
  | _ => .nothing

/-- The first source line found in some trees. -/
def lineList : List Tree → Value
  | [] => .nothing
  | t :: ts => match line t with
    | .nothing => lineList ts
    | v => v

end

end Tree

/-! ## Nesting -/

/-- How a tree is nested, whatever it says. -/
inductive Skeleton where
  | leaf
  | call (args : List Skeleton)
  | apply (f : Skeleton) (args : List Skeleton)
  | marker (body : Skeleton)

namespace Tree

mutual

/-- The skeleton of a tree. -/
def skeleton : Tree → Skeleton
  | .call (.symbol _) args _ => .call (skeletons args)
  | .call (.tree f) args _ => .apply (skeleton f) (skeletons args)
  | .marker _ (some body) => .marker (skeleton body)
  | .unhygienic _ => .marker .leaf
  | _ => .leaf

/-- The skeletons of trees. -/
def skeletons : List Tree → List Skeleton
  | [] => []
  | t :: ts => skeleton t :: skeletons ts

end

end Tree

namespace Skeleton

mutual

/-- How far a walk goes down at most, where each step into an operator, an argument or a body counts
as given. -/
def reach (operator argument body : Nat) : Skeleton → Nat
  | .leaf => 0
  | .call args => reachList operator argument body args
  | .apply f args => max (reach operator argument body f + operator)
      (reachList operator argument body args)
  | .marker b => reach operator argument body b + body

/-- How far a walk goes down at most through the arguments of a call. -/
def reachList (operator argument body : Nat) : List Skeleton → Nat
  | [] => 0
  | s :: ss => max (reach operator argument body s + argument)
      (reachList operator argument body ss)

end

end Skeleton

end HygienicMacros
