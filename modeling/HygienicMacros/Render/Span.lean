/-! # Spans

Rendered text is a list of spans. A span may have a role, which a palette turns into a colour; the
plain text of a rendering is the same spans without any colour. So a colour can never change what
is written.
-/

namespace HygienicMacros

/-- What a coloured piece of text is. -/
inductive Role where
  | macroName
  | terminal
  | operator
  | string
  | number
  | atom
  | bindingName
  | hygieneTag
  | placeholder
  | marker
  | markerName
  | treeLines
  | notes
  | heading
  | subheading
  | sourceFile
  | greyedOut
  | testHeading
  | testPass
  | testFail
  | testError
  deriving DecidableEq, Repr

/-- All roles, in the order in which a palette lists them. -/
def Role.all : List Role :=
  [.macroName, .terminal, .operator, .string, .number, .atom, .bindingName, .hygieneTag,
   .placeholder, .marker, .markerName, .treeLines, .notes, .heading, .subheading, .sourceFile,
   .greyedOut, .testHeading, .testPass, .testFail, .testError]

/-- The name under which a palette keeps the colour of a role. -/
def Role.key : Role → String
  | .macroName => "MACRONAME"
  | .terminal => "TERMINAL"
  | .operator => "OPERATOR"
  | .string => "STRING"
  | .number => "NUMBER"
  | .atom => "ATOM"
  | .bindingName => "BINDINGNAME"
  | .hygieneTag => "HYGIENETAG"
  | .placeholder => "PLACEHOLDER"
  | .marker => "NODEMARKER"
  | .markerName => "NODEMARKERCLASS"
  | .treeLines => "TREELINES"
  | .notes => "METADATA"
  | .heading => "HEADING1"
  | .subheading => "HEADING2"
  | .sourceFile => "SOURCEFILENAME"
  | .greyedOut => "GREYEDOUT"
  | .testHeading => "TESTHEADING"
  | .testPass => "TESTPASS"
  | .testFail => "TESTFAIL"
  | .testError => "TESTERROR"

/-- A piece of text, with a role if it can be coloured. -/
structure Span where
  role : Option Role
  text : String
  deriving DecidableEq, Repr

namespace Span

/-- Text without a role. -/
def plain (text : String) : Span := ⟨none, text⟩

/-- Text with a role. -/
def of (role : Role) (text : String) : Span := ⟨some role, text⟩

/-- The plain text of some spans. -/
def texts : List Span → String
  | [] => ""
  | s :: rest => s.text ++ texts rest

@[simp] theorem texts_nil : texts [] = "" := rfl

@[simp] theorem texts_cons (s : Span) (rest : List Span) :
    texts (s :: rest) = s.text ++ texts rest := rfl

@[simp] theorem texts_append (a b : List Span) : texts (a ++ b) = texts a ++ texts b := by
  induction a with
  | nil => simp
  | cons s rest ih => simp [ih, String.append_assoc]

/-- Rows of spans in one list, with `separator` between each two. -/
def intersperse (separator : Span) : List (List Span) → List Span
  | [] => []
  | [row] => row
  | row :: rows => row ++ separator :: intersperse separator rows

end Span

end HygienicMacros
