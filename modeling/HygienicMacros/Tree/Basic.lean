import HygienicMacros.Number.Binary64

/-! # Syntax trees

Every expression is a uniform tree: literals, calls, placeholders of templates, names with a
hygiene scope, and the markers with which a template is written. A call carries notes, an ordered
list of values by keys such as its source line; the note `scope` belongs to hygiene.

Values are what surrounds trees: notes, what a template is filled with, what a transformer
answers. A tree is one kind of value.

* `Tree`, `Head`, `Value`: the three types, defined together.
* `Tree.induct`: induction over trees that leaves notes alone.
-/

namespace HygienicMacros

/-! ## Names and scopes -/

/-- The number of an expansion, from 1. -/
structure Tag where
  number : Nat
  positive : 0 < number
  deriving DecidableEq, Repr

/-- The tag with a given number, if the number is positive. -/
def Tag.ofInt? (n : Int) : Option Tag :=
  if h : 0 < n then some ⟨n.toNat, Int.lt_toNat.mpr h⟩ else none

/-- A scope that a template leaves open: its own names get the tag of the expansion, names of the
caller the scope of the place where the macro was called. -/
inductive Pending where
  | template
  | caller
  deriving DecidableEq, Repr

/-- The word for an open scope. -/
def Pending.word : Pending → String
  | .template => "template"
  | .caller => "caller"

/-- Where a name belongs: to the source text, to one expansion, or to a template still open. -/
inductive Scope where
  | source
  | tag (t : Tag)
  | pending (p : Pending)
  deriving DecidableEq, Repr

/-- Whether the scope is still open. -/
def Scope.isPending : Scope → Bool
  | .pending _ => true
  | _ => false

/-! ## Trees and values -/

/-- The value of a literal. -/
inductive Datum where
  | bool (b : Bool)
  | int (n : Int)
  | float (x : Binary64)
  | text (s : String)
  | atom (name : String)
  | pair (first second : Datum)
  deriving DecidableEq, Repr

/-- The atom that stands for nothing. -/
def Datum.nil : Datum := .atom "nil"

/-- What a marker with an optional body stands for. Only an unquote has a target. -/
inductive MarkerKind where
  | plain
  | quotation
  | unquote (target : String)
  deriving DecidableEq, Repr

/-- The varieties of trees, from the most general one. -/
inductive Variety where
  | node
  | literal
  | call
  | placeholder
  | name
  | marker
  | quotation
  | unquote
  | unhygienic
  deriving DecidableEq, Repr

mutual

/-- A syntax tree. The name in an `unhygienic` marker always has the source scope. -/
inductive Tree where
  | literal (datum : Datum)
  | call (head : Head) (args : List Tree) (notes : List (Value × Value))
  | placeholder (target : String)
  | name (ident : String) (scope : Scope)
  | marker (kind : MarkerKind) (body : Option Tree)
  | unhygienic (ident : String)

/-- What is called: an operator symbol, or the tree of an operator expression. -/
inductive Head where
  | symbol (op : String)
  | tree (t : Tree)

/-- A value. -/
inductive Value where
  | nothing
  | bool (b : Bool)
  | int (n : Int)
  | float (x : Binary64)
  | text (s : String)
  | atom (name : String)
  | pending (p : Pending)
  | tuple (items : List Value)
  | list (items : List Value)
  | record (entries : List (Value × Value))
  | variety (v : Variety)
  | tree (t : Tree)

end

instance : Inhabited Tree := ⟨.literal .nil⟩
instance : Inhabited Head := ⟨.symbol ""⟩
instance : Inhabited Value := ⟨.nothing⟩

/-- The values that a call carries besides its arguments, by their keys, in the order in which they
were given. Most keys are texts. -/
abbrev Notes := List (Value × Value)

/-- Values by name. -/
abbrev Fields := List (String × Value)

/-- The cases of an induction over trees: a call follows from its operator tree and its arguments,
a marker from its body. -/
structure Tree.Cases (P : Tree → Prop) : Prop where
  literal : ∀ d, P (.literal d)
  call : ∀ op args notes, (∀ a ∈ args, P a) → P (.call (.symbol op) args notes)
  apply : ∀ f args notes, P f → (∀ a ∈ args, P a) → P (.call (.tree f) args notes)
  placeholder : ∀ target, P (.placeholder target)
  name : ∀ ident scope, P (.name ident scope)
  bare : ∀ kind, P (.marker kind none)
  marker : ∀ kind body, P body → P (.marker kind (some body))
  unhygienic : ∀ ident, P (.unhygienic ident)

mutual

/-- What the cases give holds of every tree. -/
theorem Tree.Cases.all {P : Tree → Prop} (c : Tree.Cases P) : ∀ t, P t
  | .literal d => c.literal d
  | .call (.symbol op) args notes => c.call op args notes (c.allList args)
  | .call (.tree f) args notes => c.apply f args notes (c.all f) (c.allList args)
  | .placeholder target => c.placeholder target
  | .name ident scope => c.name ident scope
  | .marker kind none => c.bare kind
  | .marker kind (some body) => c.marker kind body (c.all body)
  | .unhygienic ident => c.unhygienic ident

/-- What the cases give holds of every tree of a list. -/
theorem Tree.Cases.allList {P : Tree → Prop} (c : Tree.Cases P) : ∀ ts : List Tree, ∀ a ∈ ts, P a
  | [] => List.forall_mem_nil P
  | t :: ts => List.forall_mem_cons.2 ⟨c.all t, c.allList ts⟩

end

/-- Induction over trees that leaves notes alone. -/
theorem Tree.induct {P : Tree → Prop}
    (literal : ∀ d, P (.literal d))
    (call : ∀ op args notes, (∀ a ∈ args, P a) → P (.call (.symbol op) args notes))
    (apply : ∀ f args notes, P f → (∀ a ∈ args, P a) → P (.call (.tree f) args notes))
    (placeholder : ∀ target, P (.placeholder target))
    (name : ∀ ident scope, P (.name ident scope))
    (bare : ∀ kind, P (.marker kind none))
    (marker : ∀ kind body, P body → P (.marker kind (some body)))
    (unhygienic : ∀ ident, P (.unhygienic ident)) (t : Tree) : P t :=
  Tree.Cases.all ⟨literal, call, apply, placeholder, name, bare, marker, unhygienic⟩ t

end HygienicMacros
