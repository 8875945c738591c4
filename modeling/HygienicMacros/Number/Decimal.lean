import HygienicMacros.Number.Binary64
import HygienicMacros.Text.Digit
import HygienicMacros.Text.Lines

/-! # Decimal text of binary floating point

Reading a decimal rounds it to the nearest number. Writing chooses the fewest digits that read
back as the same number and, among those of that length, the nearest to the exact value.

* `Binary64.read?`: the number a decimal denotes.
* `Binary64.shortest`: the digits and the power of ten of the written form.
* `DecimalFormat`, `Binary64.write`: how the digits are laid out.
-/

namespace HygienicMacros

namespace Binary64

/-! ## Writing -/

/-- The number of decimal digits of a natural. -/
def digitCount (n : Nat) : Nat := (Nat.toDigits 10 n).length

/-- Whether the ratio `num / den` is at least `10 ^ p`. -/
def atLeastPower (num den : Nat) (p : Int) : Bool :=
  if 0 ≤ p then den * Nat.pow 10 p.toNat ≤ num else den ≤ num * Nat.pow 10 (-p).toNat

/-- The power of ten of the leading digit of a positive ratio. -/
def leadingPower (num den : Nat) : Int :=
  let guess : Int := (digitCount num : Int) - (digitCount den : Int)
  if atLeastPower num den guess then guess else guess - 1

/-- The ratio `digits * 10 ^ p`. -/
def decimalRatio (digits : Nat) (p : Int) : Nat × Nat :=
  if 0 ≤ p then (digits * Nat.pow 10 p.toNat, 1) else (digits, Nat.pow 10 (-p).toNat)

/-- The distance between two ratios, over the product of the denominators. -/
def gap (a b : Nat × Nat) : Nat := ((a.1 * b.2 : Int) - (b.1 * a.2 : Int)).natAbs

/-- The digits on the grid `10 ^ p` that read back as `x`, the nearer first, a tie to the even. -/
def onGrid? (x : Binary64) (value : Nat × Nat) (p : Int) : Option Nat :=
  let (n, d) := if 0 ≤ p then (value.1, value.2 * Nat.pow 10 p.toNat)
    else (value.1 * Nat.pow 10 (-p).toNat, value.2)
  let low := n / d
  let readsBack (digits : Nat) : Bool :=
    let (a, b) := decimalRatio digits p
    ofRatio false a b == x
  let below := gap (decimalRatio low p) value * (decimalRatio (low + 1) p).2
  let above := gap (decimalRatio (low + 1) p) value * (decimalRatio low p).2
  let lowFirst := below < above || (below == above && low % 2 == 0)
  let (first, second) := if lowFirst then (low, low + 1) else (low + 1, low)
  if readsBack first then some first
  else if readsBack second then some second
  else none

/-- Drops trailing zeros of the digits, raising the power of ten; `fuel` bounds their number. -/
def dropZeros : Nat → Nat → Int → Nat × Int
  | 0, digits, p => (digits, p)
  | fuel + 1, digits, p =>
    if digits % 10 = 0 ∧ digits ≠ 0 then dropZeros fuel (digits / 10) (p + 1) else (digits, p)

/-- The first grid, from the coarsest, with digits that read back. Seventeen digits always do. -/
def searchGrids (x : Binary64) (value : Nat × Nat) (leading : Int) : Nat → Nat → Nat × Int
  | 0, used => (0, leading - used)
  | fuel + 1, used =>
    let p := leading - used
    match onGrid? x value p with
    | some digits => dropZeros (used + 2) digits p
    | none => searchGrids x value leading fuel (used + 1)

/-- The digits and the power of ten of the shortest decimal of a positive finite number. -/
def shortest (mantissa : Nat) (exponent : Int) : Nat × Int :=
  let value := scaled mantissa 1 (-exponent)
  searchGrids (.finite false mantissa exponent) value (leadingPower value.1 value.2) 17 0

end Binary64

/-- Where positional notation ends, and the least width of a written exponent. -/
structure DecimalFormat where
  /-- The least power of the leading digit that is written positionally. -/
  lowest : Int
  /-- The first power of the leading digit that is written with an exponent. -/
  beyond : Int
  /-- Exponents are padded with zeros to this many digits. -/
  exponentWidth : Nat

/-- Numbers are written positionally from `0.0001` up to below `10 ^ 16`, and an exponent has two
digits at least. -/
def DecimalFormat.standard : DecimalFormat := ⟨-4, 16, 2⟩

namespace DecimalFormat

/-- A run of `n` zeros. -/
def zeros (n : Nat) : String := String.ofList (List.replicate n '0')

/-- An exponent with its sign, padded with zeros. -/
def exponentText (format : DecimalFormat) (p : Int) : String :=
  let digits := toString p.natAbs
  (if p < 0 then "-" else "+") ++ zeros (format.exponentWidth - digits.length) ++ digits

/-- The decimal `digits * 10 ^ p` as text, always with a point or an exponent. -/
def layout (format : DecimalFormat) (digits : Nat) (p : Int) : String :=
  let ds := Nat.toDigits 10 digits
  let leading : Int := p + ds.length - 1
  if format.lowest ≤ leading ∧ leading < format.beyond then
    if leading < 0 then "0." ++ zeros (-leading - 1).toNat ++ String.ofList ds
    else
      let whole := leading.toNat + 1
      if ds.length ≤ whole then String.ofList ds ++ zeros (whole - ds.length) ++ ".0"
      else String.ofList (ds.take whole) ++ "." ++ String.ofList (ds.drop whole)
  else
    let rest := ds.drop 1
    String.ofList (ds.take 1) ++ (if rest.isEmpty then "" else "." ++ String.ofList rest) ++ "e" ++
      exponentText format leading

end DecimalFormat

namespace Binary64

/-- The written form of a number. -/
def write (format : DecimalFormat) : Binary64 → String
  | .nan _ => "nan"
  | .infinite negative => if negative then "-inf" else "inf"
  | .finite negative m e =>
    (if negative then "-" else "") ++
      (if m = 0 then "0.0" else
        let (digits, p) := shortest m e
        format.layout digits p)

/-! ## Reading -/

/-- Whether each underscore stands between two digits. -/
def underscoresFit : Option Char → List Char → Bool
  | _, [] => true
  | before, c :: rest =>
    (c != '_' || (before.any Char.isDigit && rest.head?.any Char.isDigit)) &&
      underscoresFit (some c) rest

/-- The value of a list of digits. -/
def digitsValue (cs : List Char) : Nat :=
  cs.foldl (fun n c => 10 * n + (c.toNat - 48)) 0

/-- An optional sign: whether it is a minus, and what follows. -/
def readSign : List Char → Bool × List Char
  | '-' :: rest => (true, rest)
  | '+' :: rest => (false, rest)
  | rest => (false, rest)

/-- An exponent part, or nothing at the end of the text. -/
def readExponent? : List Char → Option Int
  | [] => some 0
  | c :: rest =>
    if c = 'e' ∨ c = 'E' then
      let (negative, digits) := readSign rest
      if digits.isEmpty || !digits.all Char.isDigit then none
      else
        let n : Int := digitsValue digits
        some (if negative then -n else n)
    else none

/-- A decimal with an optional point and an optional exponent. Exponents far outside the range of
the format are clamped: they make no difference to the result. -/
def readMagnitude? (negative : Bool) (cs : List Char) : Option Binary64 :=
  let whole := cs.takeWhile Char.isDigit
  let rest := cs.dropWhile Char.isDigit
  let (part, rest) := match rest with
    | '.' :: r => (r.takeWhile Char.isDigit, r.dropWhile Char.isDigit)
    | r => ([], r)
  if whole.isEmpty && part.isEmpty then none
  else (readExponent? rest).map fun e =>
    let digits := digitsValue (whole ++ part)
    let span : Int := whole.length + part.length + 400
    let p := max (-span) (min span e) - part.length
    let (n, d) := decimalRatio digits p
    ofRatio negative n d

/-- Whether a character is blank at the ends of a number. -/
def isMargin (c : Char) : Bool := c == ' ' || (9 ≤ c.toNat && c.toNat ≤ 13)

/-- A character with its plain form: the common digit for a digit of another script, and the space
for a wider blank. -/
def plainChar (c : Char) : Char :=
  if c.toNat < 0x80 then c
  else if Text.isBlank c then ' '
  else match Text.digit? c with
    | some n => Char.ofNat (48 + n)
    | none => c

/-- The number a text denotes: a decimal, an infinity or `nan`, with blanks around it ignored. -/
def read? (text : String) : Option Binary64 :=
  let plain := text.toList.map plainChar
  let trimmed := ((plain.dropWhile isMargin).reverse.dropWhile isMargin).reverse
  let (negative, body) := readSign trimmed
  let word := String.ofList (body.map Char.toLower)
  if word = "inf" ∨ word = "infinity" then some (.infinite negative)
  else if word = "nan" then some (.nan .unwritten)
  else if underscoresFit none body then readMagnitude? negative (body.filter (· != '_'))
  else none

end Binary64

end HygienicMacros
