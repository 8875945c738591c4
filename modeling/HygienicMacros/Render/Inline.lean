import HygienicMacros.Render.Span
import HygienicMacros.Tree.Views

/-! # Trees on one line

A call is written `op(arg, arg)`, and a call of an operator tree has the operator in brackets. A
name shows its scope as `name@tag`, a placeholder is `$target`, and a marker is `$Marker<fields>`
with its body in brackets.

* `Tree.spans`: the spans, given the role of each operator symbol.
* `Tree.unparse`: the plain text.
-/

namespace HygienicMacros

/-- The spans of the value of a literal. -/
def Datum.spans : Datum → List Span
  | .bool b => [.of .atom (if b then "true" else "false")]
  | .int n => [.of .number (toString n)]
  | .float x => [.of .number (x.write .standard)]
  | .text s => [.of .string (Text.doubleQuoted s)]
  | .atom name => [.of .atom (if name = "nil" then "nil" else ":" ++ name)]
  | .pair first second =>
    .plain "\x7b" :: (first.spans ++ .plain ", " :: (second.spans ++ [.plain "\x7d"]))

/-- The scope of a name, as it follows the spelling. -/
def Scope.spans : Scope → List Span
  | .source => []
  | .tag t => [.of .hygieneTag ("@" ++ toString t.number)]
  | .pending p => [.of .hygieneTag ("@" ++ p.word)]

/-- The spans of a name. -/
def nameSpans (ident : String) (scope : Scope) : List Span :=
  .of .bindingName ident :: scope.spans

/-- The fields of a tree other than a body, as they are shown in brackets. -/
def Tree.extras : Tree → List String
  | .literal d => ["value=" ++ d.inspect]
  | .call head args _ =>
    ["op=" ++ head.toValue.inspect, "args=" ++ tupleText (Tree.inspectList args)]
  | .placeholder target => ["target=" ++ Text.quoted target]
  | .name ident scope => ["name=" ++ Text.quoted ident, "scope=" ++ scope.inspect]
  | .marker (.unquote target) _ => ["target=" ++ Text.quoted target]
  | .marker _ _ | .unhygienic _ => []

/-- A marker without its body: the sign, the name of the variety, and the other fields. -/
def markerSpans (label : String) (extras : List String) : List Span :=
  .of .marker "$" :: .of .markerName label ::
    (if extras.isEmpty then [] else [.plain ("<" ++ Text.commas extras ++ ">")])

/-- The head of a tree written as a marker. -/
def Tree.markerHead (t : Tree) : List Span := markerSpans t.variety.label t.extras

mutual

/-- The spans of a tree on one line. `roleOf` gives the role of an operator symbol. -/
def Tree.spans (roleOf : String → Role) : Tree → List Span
  | .literal d => d.spans
  | .call (.symbol op) args _ =>
    .of (roleOf op) op :: .plain "(" :: (Tree.spansList roleOf args ++ [.plain ")"])
  | .call (.tree f) args _ =>
    .plain "(" :: (f.spans roleOf ++ .plain ")" :: .plain "(" ::
      (Tree.spansList roleOf args ++ [.plain ")"]))
  | .placeholder target => [.of .placeholder ("$" ++ target)]
  | .name ident scope => nameSpans ident scope
  | .marker kind none => Tree.markerHead (.marker kind none)
  | .marker kind (some body) =>
    Tree.markerHead (.marker kind (some body)) ++ .plain "(" :: (body.spans roleOf ++ [.plain ")"])
  | .unhygienic ident =>
    Tree.markerHead (.unhygienic ident) ++
      .plain "(" :: (nameSpans ident .source ++ [.plain ")"])

/-- The spans of some trees, with commas between them. -/
def Tree.spansList (roleOf : String → Role) : List Tree → List Span
  | [] => []
  | [t] => t.spans roleOf
  | t :: ts => t.spans roleOf ++ .plain ", " :: Tree.spansList roleOf ts

end

/-- The role of every operator symbol when no registry is at hand. -/
def Role.ofOperator (_ : String) : Role := .operator

/-- The plain text of a tree on one line. -/
def Tree.unparse (t : Tree) : String := Span.texts (t.spans Role.ofOperator)

/-- Where a tree is: the label of its source, its line, and the tree itself. -/
def Tree.location (filename : String) (t : Tree) : String :=
  filename ++ ":" ++ t.line.display ++ ": " ++ t.unparse

end HygienicMacros
