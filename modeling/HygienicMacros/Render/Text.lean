import HygienicMacros.Macro.Registry
import HygienicMacros.Palette
import HygienicMacros.Value.Walk

/-! # Values as text

Rendering of values of any kind, plain or in colour: what is not a tree is refused by the renderers
of trees, and what is not the value of a literal by the renderer of these.

* `Value.unparse`, `Value.dump`: a tree on one line, and as an outline.
* `Value.literalText`, `Value.operatorText`, `Value.markerText`: parts of a tree.
* `Value.locationText`, `Value.contextText`: a tree in a report.
-/

namespace HygienicMacros

/-- The role of an operator symbol, if a registry may be at hand. -/
def roleIn (registry : Option Registry) : String → Role :=
  match registry with
  | some r => r.roleOf
  | none => Role.ofOperator

/-- A tree on one line. -/
def Value.unparse (v : Value) (shade : Shade) (registry : Option Registry) : Except Error String :=
  match v with
  | .tree t => shade.text (t.spans (roleIn registry))
  | v => .error (.unmet .tree v)

/-- A tree as an outline. -/
def Value.dump (v : Value) (shade : Shade) (showNotes : Bool) (registry : Option Registry) :
    Except Error String :=
  match v with
  | .tree t => shade.text (t.outlineSpans ⟨roleIn registry, showNotes⟩)
  | v => .error (.notOutlined v)

/-- The value of a literal. A tuple is taken for a pair. -/
def Value.literalText (shade : Shade) : Value → Except Error String
  | .tuple [first, second] =>
    match first.literalText shade with
    | .error e => .error e
    | .ok a => match second.literalText shade with
      | .error e => .error e
      | .ok b => .ok ("\x7b" ++ a ++ ", " ++ b ++ "\x7d")
  | .tuple items => .error (.fault (.unpack 2 items.length))
  | v => match v.datum? with
    | some d => shade.text d.spans
    | none => .error (.unmet .literalValue v)

/-- An operator. In plain text it is any value as it is. -/
def Value.operatorText (v : Value) (shade : Shade) (registry : Option Registry) :
    Except Error Value :=
  match shade, v with
  | .plain, v => .ok v
  | .colored p, .text op => (p.paint [.of (roleIn registry op) op]).map .text
  | .colored p, v => (p.paint [.of .operator v.display]).map .text

/-- The fields of a marker that are shown in its head. -/
def Variety.headFields (v : Variety) : List String := v.fields.filter (· ≠ "body")

/-- The head of a marker. A variety itself has no values for its fields. -/
def Value.markerText (v : Value) (shade : Shade) : Except Error String :=
  match v with
  | .tree t => shade.text t.markerHead
  | .variety w => match w.headFields with
    | [] => shade.text (markerSpans v.kindName [])
    | field :: _ => .error (.fault (.noAttribute v field))
  | v => .error (.fault (.noAttribute v "_fields"))

/-- Where a tree is: the label of its source, its line, and the tree itself. -/
def Value.locationText (v : Value) (filename : String) (shade : Shade) : Except Error String := do
  let filename ← shade.text [.of .sourceFile filename]
  let line ← v.line
  let code ← v.unparse shade none
  return filename ++ ":" ++ line.display ++ ": " ++ code

/-- The first `n` lines of a list; a negative `n` leaves out as many at the end. -/
def firstLines (n : Int) (lines : List String) : List String :=
  if 0 ≤ n then lines.take n.toNat else lines.take (lines.length - n.natAbs)

/-- What stands for the lines that are left out. -/
def ellipsis : String := "..."

/-- The first lines of the outline of a tree, and a mark if there are more. -/
def Value.contextText (v n : Value) (shade : Shade) : Except Error String := do
  let lines := Text.lines (← v.dump shade false none)
  match n, n.integer? with
  | _, some k =>
    let shown := Text.unlines (firstLines k lines)
    if k < lines.length then return shown ++ "\n" ++ (← shade.text [.of .greyedOut ellipsis])
    else return shown
  | .nothing, none => throw (.fault (.order ">" (.int lines.length) n))
  | _, none => throw (.fault .sliceIndex)

/-- How many lines of an outline are shown, unless another number is given. -/
def standardLines : Int := 5

end HygienicMacros
