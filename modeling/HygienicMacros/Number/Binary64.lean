/-! # Binary floating point

A double precision number is NaN, an infinity, or `± mantissa * 2 ^ exponent`. All operations are
exact on the rational value and round once, to the nearest number and on a tie to the even
mantissa, so nothing here depends on the floating point unit of the machine.

* `Binary64.ofRatio`: the number nearest to a ratio.
* `Binary64.add`: the sum, rounded once.
* `Binary64.equal`, `Binary64.equalInt`: comparison by value; NaN equals nothing.
* `Binary64.agrees`: comparison inside of other values, where NaN equals itself.
-/

namespace HygienicMacros

/-- What tells one NaN from another: the place where it was written, and the run of a macro's body
in which that place was read. -/
structure Origin where
  place : Nat
  run : Nat
  deriving DecidableEq, Repr

/-- The origin of a NaN that was not written anywhere. -/
def Origin.unwritten : Origin := ⟨0, 0⟩

/-- A double precision number. A finite one is in its unique form when its mantissa has 53 bits,
or fewer with the least exponent `-1074`. -/
inductive Binary64 where
  | nan (origin : Origin)
  | infinite (negative : Bool)
  | finite (negative : Bool) (mantissa : Nat) (exponent : Int)
  deriving DecidableEq, Repr

namespace Binary64

/-- The exponent of the smallest positive number. -/
def leastExponent : Int := -1074

/-- The largest exponent of a finite number. -/
def greatestExponent : Int := 971

/-- Zero, with its sign. -/
def zero (negative : Bool) : Binary64 := .finite negative 0 leastExponent

/-- The ratio `(num, den)` divided by `2 ^ e`, again as a ratio of naturals. -/
def scaled (num den : Nat) (e : Int) : Nat × Nat :=
  if 0 ≤ e then (num, den * Nat.pow 2 e.toNat) else (num * Nat.pow 2 (-e).toNat, den)

/-- The quotient rounded to the nearest natural, a tie to the even one. -/
def roundDiv (num den : Nat) : Nat :=
  let q := num / den
  let r := num % den
  if den < 2 * r ∨ (2 * r = den ∧ q % 2 = 1) then q + 1 else q

/-- The exponent at which a positive ratio has a mantissa of 53 bits, but never below the least
exponent. -/
def fittingExponent (num den : Nat) : Int :=
  let low : Int := (num.log2 : Int) - (den.log2 : Int) - 53
  let (n, d) := scaled num den low
  let e := if n / d < Nat.pow 2 53 then low else low + 1
  max e leastExponent

/-- The number nearest to `num / den`; an infinity when the magnitude is beyond the finite ones. -/
def ofRatio (negative : Bool) (num den : Nat) : Binary64 :=
  if num = 0 then zero negative
  else
    let e := fittingExponent num den
    let (n, d) := scaled num den e
    let m := roundDiv n d
    let (m, e) := if m = Nat.pow 2 53 then (Nat.pow 2 52, e + 1) else (m, e)
    if greatestExponent < e then .infinite negative else .finite negative m e

/-- The number nearest to an integer, or `none` when it is beyond the finite ones. -/
def ofInt? (n : Int) : Option Binary64 :=
  match ofRatio (n < 0) n.natAbs 1 with
  | .infinite _ => none
  | x => some x

/-- The integer `± mantissa * 2 ^ (exponent - unit)`, for a `unit` not above the exponent. -/
def atUnit (negative : Bool) (mantissa : Nat) (exponent unit : Int) : Int :=
  let n : Int := (mantissa * Nat.pow 2 (exponent - unit).toNat : Nat)
  if negative then -n else n

/-- The sum, rounded once. An exact zero is negative only if both terms are. -/
def add : Binary64 → Binary64 → Binary64
  | .nan _, _ | _, .nan _ => .nan .unwritten
  | .infinite a, .infinite b => if a = b then .infinite a else .nan .unwritten
  | .infinite a, .finite .. => .infinite a
  | .finite .., .infinite b => .infinite b
  | .finite na ma ea, .finite nb mb eb =>
    let unit := min ea eb
    let total := atUnit na ma ea unit + atUnit nb mb eb unit
    if total = 0 then zero (na && nb)
    else
      let (n, d) := scaled total.natAbs 1 (-unit)
      ofRatio (total < 0) n d

/-- Equality of values: the two zeros are equal, and NaN equals nothing. -/
def equal : Binary64 → Binary64 → Bool
  | .infinite a, .infinite b => a == b
  | .finite na ma ea, .finite nb mb eb =>
    let unit := min ea eb
    atUnit na ma ea unit == atUnit nb mb eb unit
  | _, _ => false

/-- Equality inside of another value: a NaN there equals itself, though no other one. -/
def agrees : Binary64 → Binary64 → Bool
  | .nan a, .nan b => a == b
  | x, y => x.equal y

/-- The number as it was written at a place, which only shows in a NaN. -/
def writtenAt (origin : Origin) : Binary64 → Binary64
  | .nan _ => .nan origin
  | x => x

/-- Whether the number is exactly the integer `n`. -/
def equalInt : Binary64 → Int → Bool
  | .finite negative m e, n =>
    let unit := min e 0
    atUnit negative m e unit == n * (Nat.pow 2 (-unit).toNat : Nat)
  | _, _ => false

/-- The integer that the number is, if it is one. -/
def integer? : Binary64 → Option Int
  | .finite negative m e =>
    let (n, d) := scaled m 1 (-e)
    if n % d = 0 then some (if negative then -((n / d : Nat) : Int) else (n / d : Nat)) else none
  | _ => none

end Binary64

end HygienicMacros
