import HygienicMacros.Catalogue
import HygienicMacros.Expander.Stepper
import HygienicMacros.Macro.Listing
import HygienicMacros.Scope.Flatten

/-! # Demonstrations

Two short shows. The first lists a registry and watches an expansion twice, on one line in detail
and as outlines. The second expands two trees with hygienic macros and shows the scopes, in colour
as tags and in plain text as spellings.
-/

namespace HygienicMacros

/-- What a demonstration prints, in its two channels. -/
structure Printout where
  out : String
  err : String

namespace Demonstration

open Catalogue

/-- The tree of the first demonstration. -/
def unlessTree : Tree :=
  .call (.symbol "unless")
    [truth false, op "do_block" [.literal (.text "entered")]] [(.text Notes.lineKey, .int 1)]

/-- The text printed by a stepper, or its error. -/
def watched (palette : Palette) (mode : String) (detailed : Bool) : Except Error String :=
  match stepExpansion shortControlFlow (.tree unlessTree) (.text mode) detailed (.colored palette)
      (.int Expander.standardDepth) (.text "control_flow") with
  | (.error e, _) => .error e
  | (.ok _, printed) => .ok printed

/-- Layered control flow. -/
def controlFlow (palette : Palette) : Except Error Printout := do
  let listing ← shortControlFlow.listing (.colored palette)
  let lines ← watched palette "unparse" true
  let outlines ← watched palette "dump" false
  return ⟨listing ++ "\n", lines ++ outlines⟩

/-- The trees of the second demonstration. -/
def hygieneTrees : List Tree :=
  [op "swap" [var "tmp", var "x"],
   op "aif" [op "lookup" [.literal (.text "key")], op "print" [var "it"],
     op "print" [.literal (.text "not found")]]]

/-- A tree, its expansion in colour, and the expansion with plain names. -/
def hygieneLines (palette : Palette) (t : Tree) : Except Error String := do
  let (outcome, _) := expandMacros assignment (.tree t) (.int Expander.standardDepth)
    Expander.standardLabel
  let expanded ← requireTree (← outcome)
  let colored ← Shade.text (.colored palette) (expanded.spans assignment.roleOf)
  let flat ← expanded.flatten standardSeparator
  return t.unparse ++ "\n  --> " ++ colored ++ "\n  --> " ++ flat.unparse ++ "\n"

/-- Hygienic macros, and one that opts out. -/
def hygiene (palette : Palette) : Except Error Printout := do
  let texts ← hygieneTrees.mapM (hygieneLines palette)
  return ⟨String.join texts, ""⟩

/-- The demonstration with a given name. -/
def named? : String → Option (Palette → Except Error Printout)
  | "control_flow" => some controlFlow
  | "hygiene" => some hygiene
  | _ => none

end Demonstration

end HygienicMacros
