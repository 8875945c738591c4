import HygienicMacros.Number.Decimal
import HygienicMacros.Text.Quoted
import HygienicMacros.Text.Lines
import HygienicMacros.Tree.Basic

/-! # Values as text

Every value has an inspected form, which names its constructor and quotes its texts, and a display
form, which shows a bare text as itself. Messages use both, together with the name of the kind of
a value. Notes are not part of the inspected form of a call.
-/

namespace HygienicMacros

/-! ## Kinds -/

/-- The name of a variety. -/
def Variety.label : Variety → String
  | .node => "Node"
  | .literal => "Literal"
  | .call => "Call"
  | .placeholder => "Placeholder"
  | .name => "BindingName"
  | .marker => "NodeMarker"
  | .quotation => "QuoteMarker"
  | .unquote => "Unquote"
  | .unhygienic => "Unhygienic"

/-- The name of a variety with the place where it is defined. -/
def Variety.fullName : Variety → String
  | .marker => "treemacro.markers." ++ Variety.label .marker
  | .quotation => "treemacro.quotes." ++ Variety.label .quotation
  | .unquote => "treemacro.quotes." ++ Variety.label .unquote
  | .unhygienic => "treemacro.quotes." ++ Variety.label .unhygienic
  | v => "treemacro.nodes." ++ v.label

/-- The fields that take part in the inspected form and in equality, in order. -/
def Variety.fields : Variety → List String
  | .node => []
  | .literal => ["value"]
  | .call => ["op", "args"]
  | .placeholder => ["target"]
  | .name => ["name", "scope"]
  | .unquote => ["target", "body"]
  | .marker | .quotation | .unhygienic => ["body"]

/-- Whether a tree of the first variety is also one of the second. -/
def Variety.isA (v w : Variety) : Bool :=
  match v, w with
  | _, .node => true
  | .quotation, .marker | .unquote, .marker | .unhygienic, .marker => true
  | .unquote, .quotation | .unhygienic, .quotation => true
  | v, w => v == w

/-- The variety of a marker with an optional body. -/
def MarkerKind.variety : MarkerKind → Variety
  | .plain => .marker
  | .quotation => .quotation
  | .unquote _ => .unquote

/-- The variety of a tree. -/
def Tree.variety : Tree → Variety
  | .literal _ => .literal
  | .call .. => .call
  | .placeholder _ => .placeholder
  | .name .. => .name
  | .marker kind _ => kind.variety
  | .unhygienic _ => .unhygienic

/-- The name of the kind of a value. -/
def Value.kindName : Value → String
  | .nothing => "NoneType"
  | .bool _ => "bool"
  | .int _ => "int"
  | .float _ => "float"
  | .text _ => "str"
  | .atom _ => "Atom"
  | .pending _ => "PendingScope"
  | .tuple _ => "tuple"
  | .list _ => "list"
  | .record _ => "dict"
  | .variety _ => "type"
  | .tree t => t.variety.label

/-- A kind, given its full name, as it is shown in messages. -/
def classText (fullName : String) : String := "<class " ++ Text.quoted fullName ++ ">"

/-- The kind of a value as it is shown in messages. -/
def Value.kindText : Value → String
  | .atom _ => classText "treemacro.nodes.Atom"
  | .pending _ => classText "treemacro.nodes.PendingScope"
  | .tree t => classText t.variety.fullName
  | v => classText v.kindName

/-! ## Inspected form -/

/-- A truth value as a word. -/
def boolText (b : Bool) : String := if b then "True" else "False"

/-- An atom, inspected. -/
def atomText (name : String) : String := "Atom(" ++ Text.quoted name ++ ")"

/-- An open scope, inspected. -/
def Pending.inspect : Pending → String
  | .template => "TEMPLATE"
  | .caller => "CALLER"

/-- Parts of a tuple; a single part keeps a comma. -/
def tupleText : List String → String
  | [part] => "(" ++ part ++ ",)"
  | parts => "(" ++ Text.commas parts ++ ")"

/-- The inspected form of the value of a literal. -/
def Datum.inspect : Datum → String
  | .bool b => boolText b
  | .int n => toString n
  | .float x => x.write .standard
  | .text s => Text.quoted s
  | .atom name => atomText name
  | .pair first second => tupleText [first.inspect, second.inspect]

/-- The inspected form of a scope. -/
def Scope.inspect : Scope → String
  | .source => "None"
  | .tag t => toString t.number
  | .pending p => p.inspect

mutual

/-- The inspected form of a tree. -/
def Tree.inspect : Tree → String
  | .literal d => "Literal(value=" ++ d.inspect ++ ")"
  | .call (.symbol op) args _ =>
    "Call(op=" ++ Text.quoted op ++ ", args=" ++ tupleText (Tree.inspectList args) ++ ")"
  | .call (.tree f) args _ =>
    "Call(op=" ++ f.inspect ++ ", args=" ++ tupleText (Tree.inspectList args) ++ ")"
  | .placeholder target => "Placeholder(target=" ++ Text.quoted target ++ ")"
  | .name ident scope =>
    "BindingName(name=" ++ Text.quoted ident ++ ", scope=" ++ scope.inspect ++ ")"
  | .marker kind none => MarkerKind.inspect kind "None"
  | .marker kind (some body) => MarkerKind.inspect kind body.inspect
  | .unhygienic ident =>
    "Unhygienic(body=BindingName(name=" ++ Text.quoted ident ++ ", scope=None))"

/-- The inspected forms of some trees. -/
def Tree.inspectList : List Tree → List String
  | [] => []
  | t :: ts => t.inspect :: Tree.inspectList ts

/-- The inspected form of a marker, given that of its body. -/
def MarkerKind.inspect : MarkerKind → String → String
  | .plain, body => "NodeMarker(body=" ++ body ++ ")"
  | .quotation, body => "QuoteMarker(body=" ++ body ++ ")"
  | .unquote target, body => "Unquote(target=" ++ Text.quoted target ++ ", body=" ++ body ++ ")"

end

mutual

/-- The inspected form of a value. -/
def Value.inspect : Value → String
  | .nothing => "None"
  | .bool b => boolText b
  | .int n => toString n
  | .float x => x.write .standard
  | .text s => Text.quoted s
  | .atom name => atomText name
  | .pending p => p.inspect
  | .tuple items => tupleText (Value.inspectList items)
  | .list items => "[" ++ Text.commas (Value.inspectList items) ++ "]"
  | .record entries => "\x7b" ++ Text.commas (Value.inspectEntries entries) ++ "\x7d"
  | .variety v => classText v.fullName
  | .tree t => t.inspect

/-- The inspected forms of some values. -/
def Value.inspectList : List Value → List String
  | [] => []
  | v :: vs => v.inspect :: Value.inspectList vs

/-- The inspected forms of the entries of a dictionary. -/
def Value.inspectEntries : List (Value × Value) → List String
  | [] => []
  | (key, v) :: rest => (key.inspect ++ ": " ++ v.inspect) :: Value.inspectEntries rest

end

/-- The display form of a value: a text is itself, anything else is inspected. -/
def Value.display : Value → String
  | .text s => s
  | v => v.inspect

/-! ## Literals as values -/

/-- The value of a literal, as a value. -/
def Datum.toValue : Datum → Value
  | .bool b => .bool b
  | .int n => .int n
  | .float x => .float x
  | .text s => .text s
  | .atom name => .atom name
  | .pair first second => .tuple [first.toValue, second.toValue]

mutual

/-- The value as the value of a literal, if it can be one: a truth value, a number, a text, an atom
or a pair of such values. -/
def Value.datum? : Value → Option Datum
  | .bool b => some (.bool b)
  | .int n => some (.int n)
  | .float x => some (.float x)
  | .text s => some (.text s)
  | .atom name => some (.atom name)
  | .tuple items =>
    match Value.dataList? items with
    | some [first, second] => some (.pair first second)
    | _ => none
  | _ => none

/-- All the values of a list as values of literals. -/
def Value.dataList? : List Value → Option (List Datum)
  | [] => some []
  | v :: vs =>
    match v.datum?, Value.dataList? vs with
    | some d, some ds => some (d :: ds)
    | _, _ => none

end

/-- The scope of a name, as a value. -/
def Scope.toValue : Scope → Value
  | .source => .nothing
  | .tag t => .int t.number
  | .pending p => .pending p

/-- The head of a call, as a value. -/
def Head.toValue : Head → Value
  | .symbol op => .text op
  | .tree t => .tree t

/-- The body of a marker, as a value. -/
def bodyValue : Option Tree → Value
  | none => .nothing
  | some t => .tree t

end HygienicMacros
