import HygienicMacros.Text.Printable

/-! # Quoted text

Two ways to write a text as a quoted literal. `Text.quoted` prefers single quotes and escapes what
cannot be printed; `Text.doubleQuoted` always uses double quotes and escapes control characters
only.
-/

namespace HygienicMacros.Text

/-- The single quote. -/
def singleQuote : Char := Char.ofNat 39

/-- The double quote. -/
def doubleQuote : Char := Char.ofNat 34

/-- The `width` lowest hexadecimal digits of a number, in lower case. -/
def hex : Nat → Nat → List Char
  | 0, _ => []
  | width + 1, n => hex width (n / 16) ++ [Nat.digitChar (n % 16)]

/-- A hidden character as an escape, with as few hexadecimal digits as its size allows. -/
def hexEscape (c : Char) : List Char :=
  let n := c.toNat
  if n < 0x100 then ['\\', 'x'] ++ hex 2 n
  else if n < 0x10000 then ['\\', 'u'] ++ hex 4 n
  else ['\\', 'U'] ++ hex 8 n

/-- One character inside quotes `quote`. -/
def quotedChar (quote c : Char) : List Char :=
  if c = '\\' then ['\\', '\\']
  else if c = quote then ['\\', c]
  else if c = '\n' then ['\\', 'n']
  else if c = '\r' then ['\\', 'r']
  else if c = '\t' then ['\\', 't']
  else if isPrintable c then [c]
  else hexEscape c

/-- The quote for a text: the single one, unless the text holds single quotes and no double one. -/
def quoteFor (cs : List Char) : Char :=
  if cs.contains singleQuote && !cs.contains doubleQuote then doubleQuote else singleQuote

/-- The text in quotes, with everything that cannot be printed escaped. -/
def quoted (s : String) : String :=
  let cs := s.toList
  let quote := quoteFor cs
  String.ofList (quote :: (cs.flatMap (quotedChar quote) ++ [quote]))

/-- One character of a text in double quotes. -/
def doubleQuotedChar (c : Char) : List Char :=
  if c = doubleQuote then ['\\', c]
  else if c = '\\' then ['\\', '\\']
  else if c = '\n' then ['\\', 'n']
  else if c = '\r' then ['\\', 'r']
  else if c = '\t' then ['\\', 't']
  else if c.toNat = 8 then ['\\', 'b']
  else if c.toNat = 12 then ['\\', 'f']
  else if c.toNat < 0x20 then ['\\', 'u'] ++ hex 4 c.toNat
  else [c]

/-- The text in double quotes; only quotes, backslashes and controls are escaped. -/
def doubleQuoted (s : String) : String :=
  String.ofList (doubleQuote :: (s.toList.flatMap doubleQuotedChar ++ [doubleQuote]))

end HygienicMacros.Text
