import HygienicMacros.Error
import HygienicMacros.Value.Equality

/-! # Building trees from values

The trees themselves are ordinary constructors. The functions here build them from values of any
kind and refuse those that do not fit, in the order in which the parts are checked.

* `Value.asTree`: a tree as it is, anything else as a literal.
* `Tree.callOf`, `Tree.nameOf`, `Tree.markerOf`, ...: one function for each form.
* `Tree.replace`: a tree with some of its fields replaced.
* `Value.iterate`: the items of a value that has items.
-/

namespace HygienicMacros

/-- The literal with a given value. -/
def Tree.literalOf (v : Value) : Except Error Tree :=
  match v.datum? with
  | some d => .ok (.literal d)
  | none => .error (.unmet .literalValue v)

/-- A tree as it is; nothing as the literal `nil`; any other value as a literal. -/
def Value.asTree : Value → Except Error Tree
  | .tree t => .ok t
  | .nothing => .ok (.literal .nil)
  | v => Tree.literalOf v

/-- The atom with a given name. -/
def Value.atomOf : Value → Except Error Value
  | .text name => if name.isEmpty then .error (.unmet .atomName (.text name)) else .ok (.atom name)
  | v => .error (.unmet .atomName v)

/-- The head of a call: a symbol or a tree. -/
def Head.ofValue : Value → Except Error Head
  | .text op => .ok (.symbol op)
  | .tree t => .ok (.tree t)
  | v => .error (.unmet .operator v)

/-- The arguments of a call, which have to be trees. -/
def argumentsOf : List Value → Except Error (List Tree)
  | [] => .ok []
  | .tree t :: vs => (argumentsOf vs).map (t :: ·)
  | v :: _ => .error (.unmet .argument v)

/-- A call from its head and its arguments as they are. -/
def Tree.callOf (head : Value) (args : List Value) (notes : Notes) : Except Error Tree := do
  let head ← Head.ofValue head
  let args ← argumentsOf args
  return .call head args notes

/-- A call whose arguments become trees first. -/
def Tree.wrappedCallOf (head : Value) (args : List Value) (notes : Notes) : Except Error Tree := do
  let trees ← args.mapM Value.asTree
  Tree.callOf head (trees.map .tree) notes

/-- A placeholder. -/
def Tree.placeholderOf : Value → Except Error Tree
  | .text target => .ok (.placeholder target)
  | v => .error (.unmet .placeholderTarget v)

/-- The scope that a value stands for: nothing, a positive number, or an open scope. -/
def Scope.ofValue? : Value → Option Scope
  | .nothing => some .source
  | .int n => (Tag.ofInt? n).map .tag
  | .pending p => some (.pending p)
  | _ => none

/-- A name with its scope. -/
def Tree.nameOf (ident scope : Value) : Except Error Tree :=
  match ident with
  | .text s =>
    if s.isEmpty then .error (.unmet .bindingName ident)
    else match Scope.ofValue? scope with
      | some sc => .ok (.name s sc)
      | none => .error (.unmet .bindingScope scope)
  | _ => .error (.unmet .bindingName ident)

/-- The body of a marker: a tree or nothing. -/
def bodyOf : Value → Except Error (Option Tree)
  | .nothing => .ok none
  | .tree t => .ok (some t)
  | v => .error (.unmet .markerBody v)

/-- A marker that is not an unquote. -/
def Tree.markerOf (kind : MarkerKind) (body : Value) : Except Error Tree :=
  (bodyOf body).map (.marker kind)

/-- An injection point of a template. -/
def Tree.unquoteOf (target body : Value) : Except Error Tree :=
  match target with
  | .text s =>
    if s.isEmpty then .error (.unmet .unquoteTarget target)
    else Tree.markerOf (.unquote s) body
  | _ => .error (.unmet .unquoteTarget target)

/-- A name marked to be resolved at the caller; the body has to be a name of the source scope. -/
def Tree.unhygienicBody : Value → Except Error Tree
  | .tree (.name ident .source) => .ok (.unhygienic ident)
  | .tree (.name ident scope) => .error (.scopedName (.name ident scope))
  | v => .error (.unmet .unhygienicBody v)

/-- A marked name from its spelling or from the name itself. -/
def Tree.unhygienicOf : Value → Except Error Tree
  | .text s => do Tree.unhygienicBody (.tree (← Tree.nameOf (.text s) .nothing))
  | v => Tree.unhygienicBody v

/-- The tree `inner` inside `n` calls of `op`. With `n` zero any value is itself. -/
def Tree.nestOf (op : Value) : Nat → Value → Except Error Value
  | 0, inner => .ok inner
  | n + 1, inner => do
    let t ← Tree.wrappedCallOf op [inner] []
    Tree.nestOf op n (.tree t)

/-! ## Iteration -/

/-- The items of a value: of a list or tuple, the characters of a text, the keys of a
dictionary. -/
def Value.iterate : Value → Except Error (List Value)
  | .tuple items => .ok items
  | .list items => .ok items
  | .text s => .ok (s.toList.map fun c => .text (String.singleton c))
  | .record entries => .ok (entries.map (·.1))
  | v => .error (.fault (.notIterable v))

/-- The number of slots over which a set of `n` members is spread. -/
def slotCount (n : Nat) : Nat := if n < 5 then 8 else if n < 19 then 32 else 128

/-- The slot of an integer; `-1` shares the slot of `-2`. -/
def slotOf (slots : Nat) (n : Int) : Nat := ((if n = -1 then -2 else n) % (slots : Int)).toNat

/-- The first of some items in the order in which a set is gone through: integers by their slots,
and other items as they were given. -/
def firstOfSet (slots : Nat) (first : Value) (rest : List Value) : Value :=
  rest.foldl (fun best v => match best.integer?, v.integer? with
    | some m, some n => if slotOf slots n < slotOf slots m then v else best
    | _, _ => best) first

/-- The distinct names that a value lists; `requirement` is what each item has to meet. -/
def Value.nameSet (requirement : Requirement) (v : Value) : Except Error (List String) := do
  let items ← v.iterate
  match Value.unhashableList? items with
  | some part => .error (.fault (.unhashable part))
  | none =>
    let names := items.filterMap fun
      | .text s => some s
      | _ => none
    let others := items.filter fun
      | .text _ => false
      | _ => true
    match others with
    | [] => return names.eraseDups
    | first :: rest =>
      let slots := slotCount (Value.distinct items).length
      .error (.unmet requirement (firstOfSet slots first rest))

/-- Named arguments; every name has to be a text. -/
def Fields.ofEntries : List (Value × Value) → Except Error Fields
  | [] => .ok []
  | (.text name, v) :: rest => (Fields.ofEntries rest).map ((name, v) :: ·)
  | _ :: _ => .error (.fault (.keywords "keywords must be strings"))

/-! ## Replacing fields -/

/-- The fields of a tree that can be replaced, with their values. -/
def Tree.fieldValues : Tree → Fields
  | .literal d => [("value", d.toValue)]
  | .call head args notes =>
    [("op", head.toValue), ("args", .tuple (args.map .tree)), ("metadata", .record notes)]
  | .placeholder target => [("target", .text target)]
  | .name ident scope => [("name", .text ident), ("scope", scope.toValue)]
  | .marker (.unquote target) body => [("target", .text target), ("body", bodyValue body)]
  | .marker _ body => [("body", bodyValue body)]
  | .unhygienic ident => [("body", .tree (.name ident .source))]

/-- The value of a field; nothing if there is no such field. -/
def Fields.value (fields : Fields) (key : String) : Value :=
  (fields.lookup key).getD .nothing

/-- One entry of a dictionary given as a sequence of pairs. -/
def entryOf (index : Nat) (v : Value) : Except Error (Value × Value) :=
  match v.iterate with
  | .error _ => .error (.fault (.entryForm index))
  | .ok [k, x] => .ok (k, x)
  | .ok items => .error (.fault (.entryLength index items.length))

/-- Entries of a dictionary from a sequence of pairs, numbered from `index`. -/
def entriesOf (index : Nat) : List Value → Except Error Notes
  | [] => .ok []
  | v :: vs => do
    let (k, x) ← entryOf index v
    match k.unhashable? with
    | some part => .error (.fault (.unhashable part))
    | none => return (k, x) :: (← entriesOf (index + 1) vs)

/-- Notes from a value: a dictionary, pairs, or anything that counts as false for none. -/
def notesOf (v : Value) : Except Error Notes :=
  if v.truthy then
    match v with
    | .record entries => .ok entries
    | v => do return Notes.ofEntries (← entriesOf 0 (← v.iterate))
  else .ok []

/-- The tree of a variety with the given fields, checked like a new tree. -/
def Tree.ofFields (t : Tree) (fields : Fields) : Except Error Tree :=
  let field := fields.value
  match t with
  | .literal _ => Tree.literalOf (field "value")
  | .call .. => do
    let head ← Head.ofValue (field "op")
    let args ← argumentsOf (← (field "args").iterate)
    return .call head args (← notesOf (field "metadata"))
  | .placeholder _ => Tree.placeholderOf (field "target")
  | .name .. => Tree.nameOf (field "name") (field "scope")
  | .marker (.unquote _) _ => Tree.unquoteOf (field "target") (field "body")
  | .marker kind _ => Tree.markerOf kind (field "body")
  | .unhygienic _ => Tree.unhygienicBody (field "body")

/-- The tree with some fields replaced. A field that the tree does not have is refused before any
value is looked at. -/
def Tree.replace (t : Tree) (changes : Fields) : Except Error Tree :=
  let fields := t.fieldValues
  match List.find? (fun (k, _) => (fields.lookup k).isNone) changes with
  | some (k, _) => .error (.fault (.noField t.variety k))
  | none => t.ofFields (fields.setAll changes)

end HygienicMacros
