import HygienicMacros.Render.Inline

/-! # Errors

An error is a cause, with the values that explain it. `Error.message` words each cause, and
`Error.kind` sorts the causes; the kinds that belong to expansion itself are those of
`ErrorKind.isExpansion`, and a transformer can recover from exactly these.
-/

namespace HygienicMacros

/-! ## Kinds -/

/-- The kinds of errors. -/
inductive ErrorKind where
  | typeFault
  | valueFault
  | attributeFault
  | keyFault
  | indexFault
  | assertionFault
  | rangeFault
  | syntaxFault
  | runtimeFault
  | stackOverflow
  | expansion
  | duplicateTarget
  | unresolvedPlaceholder
  | noMatchingClause
  | depthExceeded
  | invariantViolation
  | registryFrozen
  | application
  deriving DecidableEq, Repr

/-- Whether errors of this kind come from expansion itself, not from a fault in what a transformer
or a predicate did. -/
def ErrorKind.isExpansion : ErrorKind → Bool
  | .expansion | .duplicateTarget | .unresolvedPlaceholder | .noMatchingClause | .depthExceeded
  | .invariantViolation | .registryFrozen | .application => true
  | _ => false

/-! ## Causes -/

/-- What a value was required to be. -/
inductive Requirement where
  | atomName
  | literalValue
  | operator
  | argument
  | placeholderTarget
  | bindingName
  | bindingScope
  | markerBody
  | unquoteTarget
  | unhygienicBody
  | unhygienicNames
  | substitution (target : String)
  | matcherOperator
  | matcher
  | arity
  | pattern
  | terminalName
  | macroName
  | transformer
  | transformerResult
  | tree
  | hygieneTag
  | callerScope
  | depthLimit
  deriving DecidableEq, Repr

/-- The beginning of the message about a value that does not meet a requirement. -/
def Requirement.lead : Requirement → String
  | .atomName => "Atom name must be a non-empty str, got "
  | .literalValue => "not a literal value: "
  | .operator => "Call operator must be a str symbol or a Node, got "
  | .argument => "Call arguments must be Nodes, got "
  | .placeholderTarget => "Placeholder target must be str, got "
  | .bindingName => "BindingName name must be a non-empty str, got "
  | .bindingScope => "BindingName scope must be None, a positive int or a pending scope, got "
  | .markerBody => "marker body must be a Node or None, got "
  | .unquoteTarget => "unquote target must be a non-empty str, got "
  | .unhygienicBody => "`unhygienic` expects a BindingName, got "
  | .unhygienicNames => "`unhygienic` names must be str, got "
  | .substitution target =>
    "substitution value for '" ++ target ++ "' must be a Node or a literal value, got "
  | .matcherOperator => "operator must be str, got "
  | .matcher => "expected an argument matcher (None, str, node variant or callable), got "
  | .arity => "arity must be a non-negative int or None, got "
  | .pattern => "expected a Pattern, an int arity, a sequence of matchers or None, got "
  | .terminalName => "terminal primitive names must be str, got "
  | .macroName => "macro name must be a non-empty str, got "
  | .transformer => "transformer must be callable, got "
  | .transformerResult => "expected transformer to return a Node, got "
  | .tree => "expected a Node, got "
  | .hygieneTag => "hygiene tag must be a positive int, got "
  | .callerScope => "caller scope must be None or a positive int, got "
  | .depthLimit => "`max_depth` must be a positive int, got "

/-- A value of the wrong kind is a type fault; a number out of range, or one that stands for a
number, is a value fault. -/
def Requirement.kind : Requirement → ErrorKind
  | .arity | .hygieneTag | .callerScope | .depthLimit => .valueFault
  | _ => .typeFault

/-- An operation that a value does not support. -/
inductive Fault where
  | noAttribute (value : Value) (field : String)
  | readOnly (message : String)
  | unhashable (value : Value)
  | notIterable (value : Value)
  | unpack (expected got : Nat)
  | joinedItem (index : Nat) (value : Value)
  | notVariety
  | indexRange
  | assertion
  | missingKey (key : Value)
  | operands (sign : String) (left right : Value)
  | order (sign : String) (left right : Value)
  | sliceIndex
  | intTooLarge
  | badDecimal (text : String)
  | noCopy
  | noField (variety : Variety) (field : String)
  | entryForm (index : Nat)
  | entryLength (index length : Nat)
  | keywords (message : String)
  | notCallable (value : Value)

/-- An invariant of expansion that does not hold, with the nodes that break it. -/
inductive Violation where
  | unresolvedInput (filename : String) (node : Tree)
  | unexpectedNode (filename : String) (node : Tree)
  | markersRemain (context : String) (first : Tree) (rest : List Tree)
  | placeholdersRemain (first : Tree) (rest : List Tree)
  | scopesRemain (first : Tree) (rest : List Tree)
  | callsRemain (first : Tree) (rest : List Tree)
  | unresolvedName (node : Tree)

/-- How an expansion went too deep. -/
inductive DepthCause where
  /-- Expansions nested beyond the limit; `path` holds the macro calls, outermost first. -/
  | nested (filename : String) (path : List (String × Tree))
  /-- Macro calls were left when all allowed steps were taken. -/
  | steps (filename : String)
  /-- The stack overflowed after a number of macro applications. -/
  | overflow (filename : String) (applications : Nat)

/-- An error, by its cause. -/
inductive Error where
  | unmet (requirement : Requirement) (value : Value)
  | fault (fault : Fault)
  | raised (kind : ErrorKind) (message : String)
  /-- An error raised with a message, whose own class makes it count as false. -/
  | hollow (kind : ErrorKind) (message : String)
  | scopedName (name : Tree)
  | notVariant (value : Value)
  | arityClash (arity : Value) (length : Nat)
  | terminalMacro (name : String)
  | contextNotFrozen
  | notOutlined (value : Value)
  | unknownMode (value : Value)
  | unknownOperator (head : Value)
  | noCase (value : Value)
  | notEvaluated (tree : Value)
  | endlessRenaming
  | duplicateTarget (target : String)
  | unresolvedPlaceholder (target : String) (available : List String)
  | noMatchingClause (filename : String) (invocation : Tree) (macroName : Value)
      (patterns : List String)
  | depthExceeded (cause : DepthCause) (limit : Nat)
  | invariant (violation : Violation)
  | frozen (name : String)
  /-- A failed macro application. The expander files one text, its report; a transformer may raise
  this error with any arguments, or with none. -/
  | application (args : List Value) (cause : Error)
  | stackOverflow

/-! ## Messages -/

/-- The message of a fault. -/
def Fault.message : Fault → String
  | .noAttribute (.variety v) field =>
    "type object '" ++ v.label ++ "' has no attribute '" ++ field ++ "'"
  | .noAttribute v field =>
    "'" ++ v.kindName ++ "' object has no attribute '" ++ field ++ "'"
  | .readOnly message => message
  | .unhashable v => "unhashable type: '" ++ v.kindName ++ "'"
  | .notIterable v => "'" ++ v.kindName ++ "' object is not iterable"
  | .unpack expected got =>
    if expected < got then "too many values to unpack (expected " ++ toString expected ++ ")"
    else "not enough values to unpack (expected " ++ toString expected ++ ", got " ++
      toString got ++ ")"
  | .joinedItem index v =>
    "sequence item " ++ toString index ++ ": expected str instance, " ++ v.kindName ++ " found"
  | .notVariety => "isinstance() arg 2 must be a type, a tuple of types, or a union"
  | .indexRange => "tuple index out of range"
  | .assertion => ""
  | .missingKey key => key.inspect
  | .operands sign left right =>
    "unsupported operand type(s) for " ++ sign ++ ": '" ++ left.kindName ++ "' and '" ++
      right.kindName ++ "'"
  | .order sign left right =>
    "'" ++ sign ++ "' not supported between instances of '" ++ left.kindName ++ "' and '" ++
      right.kindName ++ "'"
  | .sliceIndex => "slice indices must be integers or None or have an __index__ method"
  | .intTooLarge => "int too large to convert to float"
  | .badDecimal text => "could not convert string to float: " ++ Text.quoted text
  | .noCopy => "cannot pickle 'mappingproxy' object"
  | .noField variety field => variety.label ++ " has no field '" ++ field ++ "'"
  | .entryForm index =>
    "cannot convert dictionary update sequence element #" ++ toString index ++ " to a sequence"
  | .entryLength index length =>
    "dictionary update sequence element #" ++ toString index ++ " has length " ++
      toString length ++ "; 2 is required"
  | .keywords message => message
  | .notCallable v => "'" ++ v.kindName ++ "' object is not callable"

/-- The kind of a fault. -/
def Fault.kind : Fault → ErrorKind
  | .noAttribute .. | .readOnly _ => .attributeFault
  | .unpack .. | .badDecimal _ | .entryLength .. => .valueFault
  | .indexRange => .indexFault
  | .assertion => .assertionFault
  | .missingKey _ => .keyFault
  | .intTooLarge => .rangeFault
  | _ => .typeFault

/-- One indented line for each tree. -/
def Tree.listing (ts : List Tree) : String :=
  Text.unlines (ts.map fun t => "    " ++ t.unparse)

/-- The message of a violated invariant. -/
def Violation.message : Violation → String
  | .unresolvedInput filename node =>
    filename ++ ": cannot expand a tree with unsanitized hygiene scopes; first one: " ++
      node.unparse
  | .unexpectedNode filename node =>
    filename ++ ": unexpected " ++ node.variety.label ++ " in tree being expanded: " ++
      node.unparse
  | .markersRemain context first rest =>
    "markers remaining " ++ context ++ ":\n" ++ Tree.listing (first :: rest)
  | .placeholdersRemain first rest =>
    "placeholders remaining after expansion: " ++
      Text.commas ((first :: rest).map Tree.unparse)
  | .scopesRemain first rest =>
    "unsanitized hygiene scopes remaining:\n" ++ Tree.listing (first :: rest)
  | .callsRemain first rest =>
    "macro invocations remaining after expansion:\n" ++ Tree.listing (first :: rest)
  | .unresolvedName node => "cannot flatten unsanitized name " ++ node.unparse

/-- The first node that breaks the invariant. -/
def Violation.node : Violation → Tree
  | .unresolvedInput _ node | .unexpectedNode _ node | .unresolvedName node => node
  | .markersRemain _ first _ | .placeholdersRemain first _ | .scopesRemain first _
  | .callsRemain first _ => first

/-- A path of macro calls, rendered. -/
def renderPath (path : List (String × Tree)) : List (String × String) :=
  path.map fun (name, invocation) => (name, invocation.unparse)

/-- How many of the innermost macro calls a depth error shows. -/
def shownCalls : Nat := 5

/-- The innermost calls of a rendered path, one on a line, after a count of the others. -/
def pathReport (rendered : List (String × String)) : String :=
  let hidden := rendered.length - shownCalls
  let shown := (rendered.drop hidden).map fun (name, code) => "    " ++ name ++ ": " ++ code
  Text.unlines (if hidden = 0 then shown else ("    ... (" ++ toString hidden ++ " more)") :: shown)

/-- The message about an expansion that went too deep. -/
def DepthCause.message (limit : Nat) : DepthCause → String
  | .nested filename path =>
    filename ++ ": macro expansion nested deeper than " ++ toString limit ++
      " levels; most recent expansions last:\n" ++ pathReport (renderPath path)
  | .steps filename =>
    filename ++ ": macro invocations still remaining after " ++ toString limit ++
      " expansion steps"
  | .overflow filename 0 =>
    filename ++ ": input tree is nested too deeply to walk " ++
      "(Python recursion limit reached before any macro was applied)"
  | .overflow filename applications =>
    filename ++ ": Python recursion limit reached after " ++ toString applications ++
      " macro applications; the tree or a macro's output is nested too deeply, " ++
      "or a transformer recursed without bound"

/-- The rendered path of a depth error, outermost first. -/
def DepthCause.path : DepthCause → List (String × String)
  | .nested _ path => renderPath path
  | _ => []

/-- The varieties that a matcher can ask for, as they are listed in messages. -/
def variantList : String :=
  (Value.list ([Variety.literal, .call, .placeholder, .name].map (.text ·.label))).inspect

/-- What is shown of the arguments that an error was raised with. -/
def argumentText : List Value → String
  | [] => ""
  | [v] => v.display
  | vs => (Value.tuple vs).inspect

/-- The message of an error. -/
def Error.message : Error → String
  | .unmet requirement v => requirement.lead ++ v.kindText ++ " with value " ++ v.inspect
  | .fault f => f.message
  | .raised _ message | .hollow _ message => message
  | .scopedName t => "`unhygienic` expects an unscoped name, got " ++ t.inspect
  | .notVariant v => "expected one of " ++ variantList ++ ", got " ++ v.inspect
  | .arityClash arity length =>
    "arity " ++ arity.display ++ " does not agree with shape of length " ++ toString length
  | .terminalMacro name => "'" ++ name ++ "' is a terminal primitive; it cannot be a macro"
  | .contextNotFrozen => "ExpansionContext needs a frozen registry; use `registry.snapshot()`"
  | .notOutlined v => "expected Node, got " ++ Text.quoted v.kindName
  | .unknownMode v => "unknown mode " ++ v.inspect ++ "; expected 'unparse' or 'dump'"
  | .unknownOperator head => "unknown operator " ++ head.inspect
  | .noCase v => "no case clause matching " ++ v.inspect
  | .notEvaluated v => "cannot evaluate " ++ v.inspect
  | .endlessRenaming => "no free name can be made"
  | .duplicateTarget target =>
    "unquote target '" ++ target ++ "' used more than once in the same template"
  | .unresolvedPlaceholder target available =>
    "no value for placeholder '$" ++ target ++ "'; available targets: " ++
      (Value.list (available.map .text)).inspect
  | .noMatchingClause filename invocation macroName patterns =>
    invocation.location filename ++ "\nno clause of macro '" ++ macroName.display ++
      "' matches the arguments; tried: " ++
      Text.commas (patterns.map (macroName.display ++ ·))
  | .depthExceeded cause limit => cause.message limit
  | .invariant v => v.message
  | .frozen name => "cannot register macro '" ++ name ++ "': registry is frozen"
  | .application args _ => argumentText args
  | .stackOverflow => "maximum recursion depth exceeded"

/-- The kind of an error. -/
def Error.kind : Error → ErrorKind
  | .unmet requirement _ => requirement.kind
  | .fault f => f.kind
  | .raised kind _ | .hollow kind _ => kind
  | .notVariant _ | .notOutlined _ | .notEvaluated _ => .typeFault
  | .scopedName _ | .arityClash .. | .terminalMacro _ | .contextNotFrozen | .unknownMode _
  | .unknownOperator _ | .noCase _ | .endlessRenaming => .valueFault
  | .duplicateTarget _ => .duplicateTarget
  | .unresolvedPlaceholder .. => .unresolvedPlaceholder
  | .noMatchingClause .. => .noMatchingClause
  | .depthExceeded .. => .depthExceeded
  | .invariant _ => .invariantViolation
  | .frozen _ => .registryFrozen
  | .application .. => .application
  | .stackOverflow => .stackOverflow

/-- The error behind an error, where one was given. -/
def Error.cause? : Error → Option Error
  | .application _ cause => some cause
  | .depthExceeded (.overflow ..) _ => some .stackOverflow
  | _ => none

/-- Whether the error comes from expansion itself. -/
def Error.isExpansion (e : Error) : Bool := e.kind.isExpansion

/-- Whether the error counts as true, as all errors do whose class says nothing about it. -/
def Error.counts : Error → Bool
  | .hollow .. => false
  | _ => true

end HygienicMacros
