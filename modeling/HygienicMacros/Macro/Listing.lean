import HygienicMacros.Macro.Registry
import HygienicMacros.Palette

/-! # Listing a registry

A report on all macros, with the pattern and the transformer of each clause, and on all terminal
operators, both sorted by name.
-/

namespace HygienicMacros

/-- A coloured word, as a piece of a listing. -/
def Shade.word (shade : Shade) (role : Role) (text : String) : Except Error String :=
  shade.text [.of role text]

/-- A heading on a line of its own. -/
def Shade.headingLine (shade : Shade) (title : String) : Except Error String := do
  return (← shade.switchTo .heading) ++ title ++ shade.reset ++ "\n"

/-- The lines of some clauses. -/
def clauseLines (shade : Shade) : List Clause → Except Error String
  | [] => .ok ""
  | c :: cs => do
    let name ← shade.word .macroName c.name
    let rest ← clauseLines shade cs
    return "    " ++ name ++ c.pattern.describe ++ ": " ++ c.transformer.label ++ "\n" ++ rest

/-- The lines of some terminal operators. -/
def terminalLines (shade : Shade) : List String → Except Error String
  | [] => .ok ""
  | op :: ops => do
    let name ← shade.word .terminal op
    let rest ← terminalLines shade ops
    return "    " ++ name ++ "\n" ++ rest

/-- All clauses, sorted by the names of their macros. -/
def Registry.allClauses (r : Registry) : List Clause := r.names.flatMap r.clauses

/-- The report on a registry. -/
def Registry.listing (r : Registry) (shade : Shade) : Except Error String := do
  let macroHeading ← shade.headingLine "Macros:"
  let macroPart ← if r.macros.isEmpty then shade.word .greyedOut "    <no macros>\n"
    else clauseLines shade r.allClauses
  let terminalHeading ← shade.headingLine "Terminal primitives:"
  let terminalPart ← if r.terminals.isEmpty then shade.word .greyedOut "    <none>\n"
    else terminalLines shade (Text.sorted r.terminals)
  return macroHeading ++ macroPart ++ terminalHeading ++ terminalPart

end HygienicMacros
