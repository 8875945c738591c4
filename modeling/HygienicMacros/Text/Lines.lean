/-! # Lines of text

* `Text.lines`, `Text.unlines`: a text cut at its newlines, and put together again.
* `Text.indent`: a margin before every line that is not blank, where lines end at any of the usual
  line boundaries.
* `Text.sorted`: texts in the order of their code points.
-/

namespace HygienicMacros.Text

/-! ## Newlines -/

/-- A list cut at every occurrence of a character: one more piece than there are cuts. -/
def cut (at_ : Char) : List Char → List (List Char)
  | [] => [[]]
  | c :: cs =>
    if c = at_ then [] :: cut at_ cs
    else match cut at_ cs with
      | [] => [[c]]
      | piece :: pieces => (c :: piece) :: pieces

/-- The lines of a text, cut at newlines only. -/
def lines (s : String) : List String := (cut '\n' s.toList).map String.ofList

/-- Lines put together with a newline between each two. -/
def unlines (ls : List String) : String := "\n".intercalate ls

/-- The texts with a comma and a space between each two. -/
def commas (ts : List String) : String := ", ".intercalate ts

/-! ## Margins -/

/-- Characters after which a line ends; a return directly before a newline ends it only with the
newline. -/
def isBoundary (c : Char) : Bool :=
  let n := c.toNat
  (10 ≤ n && n ≤ 13) || (0x1c ≤ n && n ≤ 0x1e) || n == 0x85 || n == 0x2028 || n == 0x2029

/-- Characters that leave a line blank. -/
def isBlank (c : Char) : Bool :=
  let n := c.toNat
  (9 ≤ n && n ≤ 13) || (0x1c ≤ n && n ≤ 0x20) || n == 0x85 || n == 0xa0 || n == 0x1680 ||
    (0x2000 ≤ n && n ≤ 0x200a) || n == 0x2028 || n == 0x2029 || n == 0x202f || n == 0x205f ||
    n == 0x3000

/-- A text cut after every line boundary; the boundaries stay with their lines, and there is no
last line after a final boundary. -/
def boundedLines : List Char → List (List Char)
  | [] => []
  | '\r' :: '\n' :: rest => ['\r', '\n'] :: boundedLines rest
  | c :: rest =>
    if isBoundary c then [c] :: boundedLines rest
    else match boundedLines rest with
      | [] => [[c]]
      | line :: more => (c :: line) :: more

/-- The text with `margin` before each line that is not blank. -/
def indent (margin s : String) : String :=
  String.ofList <| (boundedLines s.toList).flatMap fun line =>
    if line.all isBlank then line else margin.toList ++ line

/-! ## Order -/

/-- The texts in the order of their code points. -/
def sorted (texts : List String) : List String := texts.mergeSort (· ≤ ·)

end HygienicMacros.Text
