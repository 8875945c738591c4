import HygienicMacros.Tree.Notes
import HygienicMacros.Value.Inspect

/-! # Equality

Two trees are equal when they agree after all notes are erased. Literals are compared by exact
kind and value: `1`, `1.0` and the true literal are three different literals. Outside of literals
numbers are compared by value alone, and a truth value counts as 0 or 1. A NaN by itself equals
nothing; as a part of something else it equals itself.

* `Tree.equal`, `Value.equal`: the two relations.
* `Value.unhashable?`: the part of a value that keeps it from being a key.
* `Notes.put`, `Notes.ofEntries`: entries by keys of any kind.
-/

namespace HygienicMacros

/-- Literals agree in kind and value, at every depth of pairs. -/
def Datum.equal : Datum → Datum → Bool
  | .bool a, .bool b => a == b
  | .int a, .int b => a == b
  | .float a, .float b => a.agrees b
  | .text a, .text b => a == b
  | .atom a, .atom b => a == b
  | .pair a b, .pair c d => a.equal c && b.equal d
  | _, _ => false

mutual

/-- Trees agree up to notes. -/
def Tree.equal : Tree → Tree → Bool
  | .literal a, .literal b => a.equal b
  | .call (.symbol f) as _, .call (.symbol g) bs _ => f == g && Tree.equalList as bs
  | .call (.tree f) as _, .call (.tree g) bs _ => f.equal g && Tree.equalList as bs
  | .placeholder a, .placeholder b => a == b
  | .name a s, .name b t => a == b && s == t
  | .marker k none, .marker l none => k == l
  | .marker k (some a), .marker l (some b) => k == l && a.equal b
  | .unhygienic a, .unhygienic b => a == b
  | _, _ => false

/-- Lists of trees agree, tree by tree. -/
def Tree.equalList : List Tree → List Tree → Bool
  | [], [] => true
  | a :: as, b :: bs => a.equal b && Tree.equalList as bs
  | _, _ => false

end

/-- The integer a value counts as. -/
def Value.integer? : Value → Option Int
  | .bool b => some (if b then 1 else 0)
  | .int n => some n
  | _ => none

/-- Numbers, compared by value. -/
def Value.equalNumber (a b : Value) : Bool :=
  match a, b with
  | .float x, .float y => x.equal y
  | .float x, b => match b.integer? with
    | some n => x.equalInt n
    | none => false
  | a, .float y => match a.integer? with
    | some n => y.equalInt n
    | none => false
  | a, b => match a.integer?, b.integer? with
    | some m, some n => m == n
    | _, _ => false

/-- Whether two values are one and the same NaN. -/
def Value.sameNan : Value → Value → Bool
  | .float (.nan a), .float (.nan b) => a == b
  | _, _ => false

mutual

/-- Values are equal. Tuples and lists are compared item by item, dictionaries without regard to
order. -/
def Value.equal : Value → Value → Bool
  | .nothing, .nothing => true
  | .text a, .text b => a == b
  | .atom a, .atom b => a == b
  | .pending a, .pending b => a == b
  | .tuple as, .tuple bs => Value.equalList as bs
  | .list as, .list bs => Value.equalList as bs
  | .record as, .record bs => as.length == bs.length && Value.equalEntries as bs
  | .variety a, .variety b => a == b
  | .tree a, .tree b => a.equal b
  | a, b => a.equalNumber b

/-- Lists of values agree, value by value. -/
def Value.equalList : List Value → List Value → Bool
  | [], [] => true
  | a :: as, b :: bs => (a.equal b || a.sameNan b) && Value.equalList as bs
  | _, _ => false

/-- Every entry of the first list has an equal one in the second. -/
def Value.equalEntries : List (Value × Value) → List (Value × Value) → Bool
  | [], _ => true
  | (key, a) :: rest, bs =>
    (bs.any fun (other, b) =>
      (key.equal other || key.sameNan other) && (a.equal b || a.sameNan b)) &&
        Value.equalEntries rest bs

end

mutual

/-- The part of a value that keeps it from being a key: a list or a dictionary. -/
def Value.unhashable? : Value → Option Value
  | .list items => some (.list items)
  | .record entries => some (.record entries)
  | .tuple items => Value.unhashableList? items
  | _ => none

/-- The first such part among some values. -/
def Value.unhashableList? : List Value → Option Value
  | [] => none
  | v :: vs => match v.unhashable? with
    | some part => some part
    | none => Value.unhashableList? vs

end

/-- Equality of a part with a part of something else: a NaN equals itself. -/
def Value.agrees (a b : Value) : Bool := a.equal b || a.sameNan b

/-- Values without those that agree with an earlier one. -/
def Value.distinct (items : List Value) : List Value :=
  items.foldl (fun kept v => if kept.any (v.agrees ·) then kept else kept ++ [v]) []

namespace Notes

/-- The entries with `key` set to `value`, where the key may be of any kind. An equal key that is
there already stays. -/
def put (key value : Value) : Notes → Notes
  | [] => [(key, value)]
  | (k, v) :: rest => if k.agrees key then (k, value) :: rest else (k, v) :: put key value rest

/-- Entries in order, where a later one for an equal key replaces the value. -/
def ofEntries (entries : List (Value × Value)) : Notes :=
  entries.foldl (fun notes (k, v) => notes.put k v) []

end Notes

/-- Whether a value counts as true: all but nothing, false, zero and what is empty. -/
def Value.truthy : Value → Bool
  | .nothing => false
  | .bool b => b
  | .int n => n != 0
  | .float x => !x.equalInt 0
  | .text s => !s.isEmpty
  | .tuple items => !items.isEmpty
  | .list items => !items.isEmpty
  | .record entries => !entries.isEmpty
  | _ => true

/-- Whether two trees are names of the same binding: the same spelling in the same scope. -/
def Tree.sameBinding : Tree → Tree → Bool
  | .name a s, .name b t => a == b && s == t
  | _, _ => false

/-- For each value the index of the first one equal to it, or the first value that cannot be a
key. -/
def Value.firstIndices (items : List Value) : Except Value (List Nat) :=
  go [] items
where
  /-- Goes on where `seen` holds the values before the rest, in order. -/
  go (seen : List Value) : List Value → Except Value (List Nat)
    | [] => .ok []
    | v :: vs =>
      match v.unhashable? with
      | some part => .error part
      | none =>
        let index := (seen.findIdx? (v.agrees ·)).getD seen.length
        (go (seen ++ [v]) vs).map (index :: ·)

end HygienicMacros
