import HygienicMacros.Error
import HygienicMacros.Value.Equality

/-! # Sums of values

Numbers are added by value, where a truth value counts as 0 or 1. Texts, tuples and lists are joined
with others of their kind.
-/

namespace HygienicMacros

/-- The sum of a float and an integer. -/
def addMixed (x : Binary64) (n : Int) : Except Error Value :=
  match Binary64.ofInt? n with
  | some y => .ok (.float (x.add y))
  | none => .error (.fault .intTooLarge)

/-- The sum of two numbers; `sign` names the operation where one of the values is no number. -/
def Value.plusNumber (sign : String) (a b : Value) : Except Error Value :=
  match a, b with
  | .float x, .float y => .ok (.float (x.add y))
  | .float x, b => match b.integer? with
    | some n => addMixed x n
    | none => .error (.fault (.operands sign a b))
  | a, .float y => match a.integer? with
    | some n => addMixed y n
    | none => .error (.fault (.operands sign a b))
  | a, b => match a.integer?, b.integer? with
    | some m, some n => .ok (.int (m + n))
    | _, _ => .error (.fault (.operands sign a b))

/-- The sum of two values; `sign` names the operation where they have none. -/
def Value.plus (sign : String) : Value → Value → Except Error Value
  | .text s, .text t => .ok (.text (s ++ t))
  | .tuple as, .tuple bs => .ok (.tuple (as ++ bs))
  | .list as, .list bs => .ok (.list (as ++ bs))
  | a, b => a.plusNumber sign b

end HygienicMacros
