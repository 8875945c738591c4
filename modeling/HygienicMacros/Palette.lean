import HygienicMacros.Error
import HygienicMacros.Render.Outline
import HygienicMacros.Text.Case

/-! # Palettes

A palette gives each role a style: the text of a terminal escape sequence, or nested sequences of
such texts. Painting a span puts a reset and its style before it and a reset after it. Which texts
these are is up to the console.

* `Console`: the escape texts that a console understands.
* `escapeOf`: the escape text of some styles.
* `Palette.standard`: the colours used unless others are set.
* `Palette.paint`: spans as coloured text.
-/

namespace HygienicMacros

/-! ## Escape sequences -/

/-- The escape texts that a console understands: one that ends all styles, three weights and some
colours. -/
structure Console where
  reset : String
  bright : String
  dim : String
  normal : String
  red : String
  green : String
  yellow : String
  blue : String
  magenta : String
  cyan : String
  lightBlue : String

/-- The escape sequence that selects display attribute `code`. -/
def escapeCode (code : Nat) : String :=
  String.ofList [Char.ofNat 27, '['] ++ toString code ++ "m"

/-- A console that selects display attributes by their numbers. -/
def Console.numbered : Console where
  reset := escapeCode 0
  bright := escapeCode 1
  dim := escapeCode 2
  normal := escapeCode 22
  red := escapeCode 31
  green := escapeCode 32
  yellow := escapeCode 33
  blue := escapeCode 34
  magenta := escapeCode 35
  cyan := escapeCode 36
  lightBlue := escapeCode 94

/-- Texts joined, where every item has to be a text; `index` counts the items. -/
def joinTexts (index : Nat) : List Value → Except Error String
  | [] => .ok ""
  | .text s :: rest => (joinTexts (index + 1) rest).map (s ++ ·)
  | v :: _ => .error (.fault (.joinedItem index v))

mutual

/-- A style with its nested sequences joined; anything but a sequence is left as it is. -/
def Value.joined : Value → Except Error Value
  | .tuple items => Value.joinedSequence items
  | .list items => Value.joinedSequence items
  | v => .ok v

/-- The texts of a sequence joined, inner sequences first. -/
def Value.joinedSequence (items : List Value) : Except Error Value :=
  match Value.joinedList items with
  | .error e => .error e
  | .ok parts => (joinTexts 0 parts).map .text

/-- The items of a sequence, each with its nested sequences joined. -/
def Value.joinedList : List Value → Except Error (List Value)
  | [] => .ok []
  | v :: vs =>
    match v.joined with
    | .error e => .error e
    | .ok part => (Value.joinedList vs).map (part :: ·)

end

/-- The escape text of some styles, one after the other. -/
def escapeOf (styles : List Value) : Except Error String :=
  match Value.joinedList styles with
  | .error e => .error e
  | .ok parts => joinTexts 0 parts

/-- The escape text that sets styles, after a reset if one is asked for. -/
def setStyles (console : Console) (reset : Bool) (styles : List Value) : Except Error String :=
  (escapeOf styles).map ((if reset then console.reset else "") ++ ·)

/-- A text between its styles and a reset. -/
def colorize (console : Console) (styles : List Value) (text : String) : Except Error String :=
  (setStyles console true styles).map (· ++ text ++ console.reset)

/-! ## Palettes -/

/-- The styles of all roles on a console, and further settings that no role uses, in the order in
which they were set. -/
structure Palette where
  console : Console
  style : Role → Value
  extras : Fields

namespace Palette

/-- The standard style of a role. -/
def standardStyle (console : Console) : Role → Value
  | .macroName => .text console.blue
  | .terminal => .tuple [.text console.bright, .text console.yellow]
  | .operator => .text console.bright
  | .string | .number => .text console.green
  | .atom => .text console.cyan
  | .bindingName => .text console.normal
  | .hygieneTag => .text console.dim
  | .placeholder => .tuple [.text console.bright, .text console.magenta]
  | .marker => .text console.dim
  | .markerName => .text console.yellow
  | .treeLines | .notes => .text console.dim
  | .heading | .testHeading => .tuple [.text console.bright, .text console.lightBlue]
  | .subheading => .text console.lightBlue
  | .sourceFile => .text console.bright
  | .greyedOut => .text console.dim
  | .testPass => .tuple [.text console.bright, .text console.green]
  | .testFail => .tuple [.text console.bright, .text console.red]
  | .testError => .tuple [.text console.bright, .text console.yellow]

/-- The standard palette of a console. -/
def standard (console : Console) : Palette := ⟨console, standardStyle console, []⟩

/-- The palette with one setting changed, or added if no role uses it. -/
def set (p : Palette) (key : String) (style : Value) : Palette :=
  match Role.all.find? (·.key == key) with
  | some role => { p with style := fun r => if r = role then style else p.style r }
  | none => { p with extras := p.extras.set key style }

/-- The palette with settings changed in order. -/
def setAll (p : Palette) (settings : Fields) : Palette :=
  settings.foldl (fun p (key, style) => p.set key style) p

/-- The name under which the settings are asked for. -/
def listingKey : String := "keys"

/-- All listed settings, in the order of their definition: those with a name in capitals. A setting
that takes the name of this very question leaves it without an answer. -/
def settings (p : Palette) : Except Error Fields :=
  match p.extras.lookup listingKey with
  | some v => .error (.fault (.notCallable v))
  | none => .ok ((Role.all.map (fun r => (r.key, p.style r)) ++ p.extras).filter fun (key, _) =>
      Text.isUpperCase key)

/-- The escape text that switches to a role. -/
def switchTo (p : Palette) (role : Role) : Except Error String :=
  setStyles p.console true [p.style role]

/-- A coloured span. -/
def paintSpan (p : Palette) (s : Span) : Except Error String :=
  match s.role with
  | none => .ok s.text
  | some role => colorize p.console [p.style role] s.text

/-- Coloured spans, the first bad style refused. -/
def paint (p : Palette) : List Span → Except Error String
  | [] => .ok ""
  | s :: rest =>
    match p.paintSpan s with
    | .error e => .error e
    | .ok text => (p.paint rest).map (text ++ ·)

end Palette

/-- How text is shown: plain, or in the colours of a palette. -/
inductive Shade where
  | plain
  | colored (palette : Palette)

namespace Shade

/-- Spans as text. -/
def text (shade : Shade) (spans : List Span) : Except Error String :=
  match shade with
  | .plain => .ok (Span.texts spans)
  | .colored p => p.paint spans

/-- The escape text that switches to a role, and nothing in plain text. -/
def switchTo (shade : Shade) (role : Role) : Except Error String :=
  match shade with
  | .plain => .ok ""
  | .colored p => p.switchTo role

/-- The escape text that ends all styles, and nothing in plain text. -/
def reset : Shade → String
  | .plain => ""
  | .colored p => p.console.reset

end Shade

end HygienicMacros
