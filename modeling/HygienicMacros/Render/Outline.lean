import HygienicMacros.Render.Inline

/-! # Trees as outlines

An outline has one line for each node, in scan order. A call is shown by its operator, with its
arguments as children; a call of an operator tree is shown as `(call)`, and the operator is its
first child. Leaves are written as on one line.

* `Tree.outline`: the lines, as spans.
* `Tree.dump`: the plain text.
-/

namespace HygienicMacros

/-- What an outline shows besides the nodes. -/
structure OutlineStyle where
  /-- The role of an operator symbol. -/
  roleOf : String → Role
  /-- Whether the notes of calls are shown. -/
  showNotes : Bool

/-- The connector before a child. -/
def branchSpan (last : Bool) : Span :=
  .of .treeLines (if last then "└── " else "├── ")

/-- What stands under a connector, before the descendants of that child. -/
def trunkSpan (last : Bool) : Span :=
  if last then .plain "    " else .of .treeLines "│   "

/-- The mark of an operator tree among the children of a call. -/
def operatorMark : Span := .plain "(op) "

/-- The notes of a call, as they follow its operator. -/
def notesSpans (style : OutlineStyle) (notes : Notes) : List Span :=
  if style.showNotes && !notes.isEmpty then
    let entries := notes.map fun (k, v) => k.display ++ "=" ++ v.inspect
    [.plain "  ", .of .notes ("\x7b" ++ Text.commas entries ++ "\x7d")]
  else []

/-- A node's own label, without its descendants. -/
def Tree.label (style : OutlineStyle) : Tree → List Span
  | .call (.symbol op) _ notes => .of (style.roleOf op) op :: notesSpans style notes
  | .call (.tree _) _ notes => .of .operator "(call)" :: notesSpans style notes
  | .marker kind body => Tree.markerHead (.marker kind body)
  | .unhygienic ident => Tree.markerHead (.unhygienic ident)
  | t => t.spans style.roleOf

mutual

/-- The lines of an outline: `lead` stands before the node, `margin` before its descendants. -/
def Tree.outline (style : OutlineStyle) (lead margin : List Span) : Tree → List (List Span)
  | .call (.symbol op) args notes =>
    (lead ++ Tree.label style (.call (.symbol op) args notes)) ::
      Tree.outlineList style margin args
  | .call (.tree f) args notes =>
    (lead ++ Tree.label style (.call (.tree f) args notes)) ::
      (f.outline style (margin ++ [branchSpan args.isEmpty, operatorMark])
          (margin ++ [trunkSpan args.isEmpty]) ++
        Tree.outlineList style margin args)
  | .marker kind (some body) =>
    (lead ++ Tree.label style (.marker kind (some body))) ::
      body.outline style (margin ++ [branchSpan true]) (margin ++ [trunkSpan true])
  | .unhygienic ident =>
    [lead ++ Tree.label style (.unhygienic ident),
     margin ++ branchSpan true :: nameSpans ident .source]
  | .literal d => [lead ++ Tree.label style (.literal d)]
  | .placeholder target => [lead ++ Tree.label style (.placeholder target)]
  | .name ident scope => [lead ++ Tree.label style (.name ident scope)]
  | .marker kind none => [lead ++ Tree.label style (.marker kind none)]

/-- The lines of the last children of a node. -/
def Tree.outlineList (style : OutlineStyle) (margin : List Span) : List Tree → List (List Span)
  | [] => []
  | t :: ts =>
    t.outline style (margin ++ [branchSpan ts.isEmpty]) (margin ++ [trunkSpan ts.isEmpty]) ++
      Tree.outlineList style margin ts

end

/-- The spans of a whole outline. -/
def Tree.outlineSpans (style : OutlineStyle) (t : Tree) : List Span :=
  Span.intersperse (.plain "\n") (t.outline style [] [])

/-- The plain text of an outline. -/
def Tree.dump (showNotes : Bool) (t : Tree) : String :=
  Span.texts (t.outlineSpans ⟨Role.ofOperator, showNotes⟩)

end HygienicMacros
