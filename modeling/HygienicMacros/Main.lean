import HygienicMacros.Demonstration

/-! # Command line

Shows the demonstrations that are named on the command line, and all of them if none is named.
-/

namespace HygienicMacros

/-- Prints one demonstration, or why there is nothing to print. -/
def printDemonstration (name : String) : IO UInt32 := do
  match Demonstration.named? name with
  | none =>
    IO.eprintln ("unknown demonstration: " ++ name)
    return 2
  | some demonstration => match demonstration (.standard .numbered) with
    | .error e =>
      IO.eprintln e.message
      return 1
    | .ok printout =>
      IO.print printout.out
      IO.eprint printout.err
      return 0

/-- Prints demonstrations in order, up to the first that fails. -/
def printDemonstrations : List String → IO UInt32
  | [] => return 0
  | name :: rest => do
    let code ← printDemonstration name
    if code = 0 then printDemonstrations rest else return code

end HygienicMacros

/-- Runs the named demonstrations. -/
def main (args : List String) : IO UInt32 :=
  HygienicMacros.printDemonstrations (if args.isEmpty then ["control_flow", "hygiene"] else args)
