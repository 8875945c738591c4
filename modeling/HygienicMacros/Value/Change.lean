import HygienicMacros.Value.Walk

/-! # Changing and copying values

Trees never change; a changed tree is a new one. Trees, atoms and open scopes refuse to be assigned
to. A copy is made of all parts of a value, from the inside out, and the first part that cannot be
copied is an error: atoms, because a copy would have to be assigned to, and the notes of a call.
-/

namespace HygienicMacros

/-- The refusal of an atom. -/
def atomReadOnly : Error := .fault (.readOnly "Atom is immutable")

/-! ## Assignment -/

/-- The error of setting a field of a value. -/
def Value.assign (v : Value) (field : String) : Error :=
  match v with
  | .tree t => .fault (.readOnly
      (t.variety.label ++ " is immutable; cannot set '" ++ field ++ "' (use `replace`)"))
  | .atom _ => atomReadOnly
  | .pending _ => .fault (.readOnly "PendingScope is immutable")
  | v => .fault (.noAttribute v field)

/-- The error of deleting a field of a value. -/
def Value.delete (v : Value) (field : String) : Error :=
  match v with
  | .tree t => .fault (.readOnly
      (t.variety.label ++ " is immutable; cannot delete '" ++ field ++ "'"))
  | v => .fault (.noAttribute v field)

/-- The name of the parameter that stands for the tree itself. -/
def ownParameter : String := "self"

/-- The error about named arguments that the replacement of fields does not take. -/
def replaceRefusal (message : String) : Error := .fault (.keywords message)

/-- A tree with some fields replaced, where the tree itself is given apart from the changes. -/
def Tree.replaceApart (t : Tree) (changes : Fields) : Except Error Tree :=
  match changes.lookup ownParameter with
  | some _ => .error (replaceRefusal
      ("Node.replace() got multiple values for argument '" ++ ownParameter ++ "'"))
  | none => t.replace changes

/-- A tree with some fields replaced, where the tree itself is one of the named arguments. -/
def replaceNamed (changes : Fields) : Except Error Tree :=
  match changes.lookup ownParameter with
  | some (.tree t) => t.replace (List.filter (fun (k, _) => k != ownParameter) changes)
  | some v => .error (v.misfit?.getD (.fault (.noAttribute v "replace")))
  | none => .error (replaceRefusal
      ("Node.replace() missing 1 required positional argument: '" ++ ownParameter ++ "'"))

/-- A value with some fields replaced, which only trees have. A variety takes the tree itself as one
of the named arguments, and the operation of this name on texts takes none at all. -/
def Value.replace (v : Value) (entries : List (Value × Value)) : Except Error Value :=
  let named := (Fields.ofEntries entries).map (Fields.setAll [])
  match v with
  | .tree t => do return .tree (← t.replaceApart (← named))
  | .variety _ => do return .tree (← replaceNamed (← named))
  | .text _ => do
    if (← named).isEmpty then throw (replaceRefusal "replace expected at least 2 arguments, got 0")
    else throw (replaceRefusal "str.replace() takes no keyword arguments")
  | v => .error (.fault (.noAttribute v "replace"))

/-! ## Copies -/

/-- Whether a literal holds an atom. -/
def Datum.hasAtom : Datum → Bool
  | .atom _ => true
  | .pair first second => first.hasAtom || second.hasAtom
  | _ => false

mutual

/-- Why a tree cannot be copied. -/
def Tree.uncopied? : Tree → Option Error
  | .literal d => if d.hasAtom then some atomReadOnly else none
  | .call (.symbol _) args _ => (Tree.uncopiedList? args).or (some (.fault .noCopy))
  | .call (.tree f) args _ =>
    (f.uncopied?.or (Tree.uncopiedList? args)).or (some (.fault .noCopy))
  | .marker _ (some body) => body.uncopied?
  | _ => none

/-- Why the first tree that cannot be copied cannot. -/
def Tree.uncopiedList? : List Tree → Option Error
  | [] => none
  | t :: ts => t.uncopied?.or (Tree.uncopiedList? ts)

end

mutual

/-- Why a value cannot be copied. -/
def Value.uncopied? : Value → Option Error
  | .atom _ => some atomReadOnly
  | .tree t => t.uncopied?
  | .tuple items => Value.uncopiedList? items
  | .list items => Value.uncopiedList? items
  | .record entries => Value.uncopiedEntries? entries
  | _ => none

/-- Why the first value that cannot be copied cannot. -/
def Value.uncopiedList? : List Value → Option Error
  | [] => none
  | v :: vs => v.uncopied?.or (Value.uncopiedList? vs)

/-- Why the first entry that cannot be copied cannot. -/
def Value.uncopiedEntries? : List (Value × Value) → Option Error
  | [] => none
  | (key, v) :: rest => (v.uncopied?.or key.uncopied?).or (Value.uncopiedEntries? rest)

end

/-- A copy of a value, and whether it equals the value. The copy has the same numbers in it, so
only a NaN by itself does not equal its copy. -/
def Value.copy (v : Value) : Except Error (Value × Bool) :=
  match v.uncopied? with
  | some e => .error e
  | none => .ok (v, v.equal v)

end HygienicMacros
