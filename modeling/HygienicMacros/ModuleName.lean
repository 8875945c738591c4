import HygienicMacros.Text.Lines

/-! # Names of test modules

A file in a folder is known by a dotted name: the steps of the path and the name of the file
without its ending.
-/

namespace HygienicMacros.ModuleName

/-- The ending of a source file. -/
def ending : List Char := ".py".toList

/-- The ending, backwards, dropped from a reversed name. -/
def dropReversed (name : List Char) : List Char :=
  if ending.reverse.isPrefixOf name then name.drop ending.length else name

/-- A file name without its ending. The ending may also stand before a final line break, which is
kept. -/
def withoutEnding (name : String) : String :=
  match name.toList.reverse with
  | '\n' :: rest => String.ofList (('\n' :: dropReversed rest).reverse)
  | rest => String.ofList (dropReversed rest).reverse

/-- A path with dots between its steps. -/
def dotted (path : String) : String :=
  String.ofList (path.toList.map fun c => if c = '/' then '.' else c)

/-- The name of a file in a folder; the current folder adds nothing. -/
def ofFile (path filename : String) : String :=
  let base := dotted path
  if base = "" ∨ base = "." then withoutEnding filename
  else base ++ "." ++ withoutEnding filename

/-- The names of files in a folder, sorted. -/
def ofFiles (path : String) (filenames : List String) : List String :=
  Text.sorted (filenames.map (ofFile path))

end HygienicMacros.ModuleName
