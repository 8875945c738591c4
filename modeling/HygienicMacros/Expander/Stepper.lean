import HygienicMacros.Expander.Entry
import HygienicMacros.Palette

/-! # Watching an expansion

A stepper expands a tree one step at a time and prints the tree before the first step and after
each. In detail, it also prints each macro application of a step, with the call and its result.

* `Layout`: whether trees are printed on one line or as outlines.
* `Stepper.run`: the computation, on a new expander.
* `stepExpansion`: the outcome and what was printed until then.
-/

namespace HygienicMacros

/-- How trees are printed. -/
inductive Layout where
  | line
  | outline
  deriving DecidableEq, Repr

/-- The layout that a value names. -/
def Layout.ofValue : Value → Except Error Layout
  | .text "unparse" => .ok .line
  | .text "dump" => .ok .outline
  | v => .error (.unknownMode v)

/-- A tree in a layout. -/
def Layout.render (layout : Layout) (shade : Shade) (roleOf : String → Role) (t : Tree) :
    Except Error String :=
  match layout with
  | .line => shade.text (t.spans roleOf)
  | .outline => shade.text (t.outlineSpans ⟨roleOf, false⟩)

/-- A tree in a layout; any other value is refused. -/
def Layout.renderValue (layout : Layout) (shade : Shade) (roleOf : String → Role) :
    Value → Except Error String
  | .tree t => layout.render shade roleOf t
  | v => .error (match layout with
    | .line => .unmet .tree v
    | .outline => .notOutlined v)

/-- How an expansion is watched. -/
structure Stepper where
  layout : Layout
  shade : Shade
  detailed : Bool
  filename : String

namespace Stepper

/-- The margin of a tree and of what is said about a step. -/
def margin : String := "  "

/-- The margin of the trees of a macro application. -/
def innerMargin : String := "    "

/-- The name of the tree that is watched; `ID` stands for its number. -/
def treeName : String := "0xID"

/-- A heading up to its end, without the final reset. -/
def openHeading (s : Stepper) (title : String) : Except Error String := do
  let heading ← s.shade.switchTo .heading
  let subheading ← s.shade.switchTo .subheading
  return heading ++ "Tree " ++ subheading ++ treeName ++ " (" ++ s.filename ++ ") " ++ heading ++
    title

/-- A heading on a line of its own. -/
def heading (s : Stepper) (title : String) : Except Error String := do
  return (← s.openHeading title) ++ s.shade.reset ++ "\n"

/-- A text with a margin, as lines of its own. -/
def block (margin : String) (text : Except Error String) : Except Error String :=
  text.map fun t => Text.indent margin t ++ "\n"

/-- Which clause is applied. -/
def applying (s : Stepper) (macroName label : String) : Except Error String := do
  let subheading ← s.shade.switchTo .subheading
  let name ← s.shade.switchTo .macroName
  return subheading ++ "Applying " ++ name ++ macroName ++ subheading ++ " (" ++ label ++ "):" ++
    s.shade.reset

/-- The title of the result of an application. -/
def resultTitle (s : Stepper) : Except Error String := do
  return (← s.shade.switchTo .subheading) ++ "Result:" ++ s.shade.reset

/-- What is printed about a macro application. The number is the one after the running step. -/
def pieces (s : Stepper) (roleOf : String → Role) (step : Nat) (t : Transition) :
    List (Except Error String) :=
  [(s.openHeading ("processing step " ++ toString (step + 1) ++ ":")).map (· ++ "\n"),
   block margin (s.applying t.macroName t.label),
   block innerMargin (s.layout.render s.shade roleOf t.invocation),
   block margin s.resultTitle,
   block innerMargin (s.layout.render s.shade roleOf t.expansion)]

/-- The hook during a step. -/
def hook (s : Stepper) (roleOf : String → Role) (step : Nat) : Option Hook :=
  if s.detailed then some ⟨s.pieces roleOf step⟩ else none

/-- Prints a tree under a title. -/
def present (s : Stepper) (roleOf : String → Role) (title : String) (v : Value) : Run Unit :=
  printPieces [s.heading title, block margin (s.layout.renderValue s.shade roleOf v)]

/-- Takes steps until no macro calls are left, at most `remaining` more; `step` were taken before.
Answers the tree and the number of all steps. -/
def steps (s : Stepper) : Nat → Nat → Value → Run (Value × Nat)
  | remaining, step, v => do
    let registry := (← get).registry
    match ← (v.macroCalls registry : Except Error _) with
    | [] => pure (v, step)
    | _ :: _ => match remaining with
      | 0 => do throw (.depthExceeded (.steps s.filename) (← get).maxDepth)
      | remaining + 1 => do
        let v ← withHook (s.hook registry.roleOf (step + 1)) (visitOnce v)
        s.present registry.roleOf ("after step " ++ toString (step + 1) ++ ":") v
        steps s remaining (step + 1) v

/-- What is said at the end. -/
def closing (count : Nat) : String :=
  "macro expansion complete after " ++ toString count ++ " step" ++
    (if count = 1 then "." else "s.")

/-- Expands a value in steps and checks the result. -/
def run (s : Stepper) (v : Value) : Run Value := do
  let start ← get
  s.present start.registry.roleOf "before macro expansion:" v
  let (v, count) ← s.steps start.maxDepth 0 v
  printPiece (s.heading (closing count))
  v.finish (some start.registry)

end Stepper

/-- Expands a value in steps: the outcome, and what was printed until then. -/
def stepExpansion (source : Registry) (v mode : Value) (detailed : Bool) (shade : Shade)
    (maxDepth label : Value) : Except Error Value × String :=
  match Layout.ofValue mode with
  | .error e => (.error e, "")
  | .ok layout => match Expander.create source maxDepth label with
    | .error e => (.error e, "")
    | .ok expander =>
      let r := Stepper.run ⟨layout, shade, detailed, label.display⟩ v expander
      (r.1, r.2.printed)

end HygienicMacros
