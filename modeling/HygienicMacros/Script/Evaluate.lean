import HygienicMacros.Script.Basic
import HygienicMacros.Template.Quote
import HygienicMacros.Template.Substitute

/-! # What scripts describe

A script becomes the action that a transformer takes on a macro call. Parts are evaluated from left
to right. A script that asks an expander for nothing has an outcome by itself.

* `Occasion`: when a script is carried out, which tells its NaNs from those of other times.
* `Script.plan`: the action of a script.
* `Script.outcome`, `RegistryScript.outcome`: the outcome without an expander.
-/

namespace HygienicMacros

/-! ## Requests -/

/-- The expansion of a value. -/
def expanded (mode : Mode) (v : Value) : Action Value := .expand mode v .ofExcept

/-- A new tag. -/
def nextTag : Action Tag := .freshTag .answer

/-- The state of the expansion. -/
def observeState : Action Observation := .observe .answer

/-- The registration of a macro. -/
def registered (site : Site) (name : Value) (pattern : PatternForm) (candidate : Candidate) :
    Action Unit := .register site name pattern candidate .ofExcept

/-! ## Parts of a macro call -/

/-- The error about an argument that a macro call does not have. -/
def noArgument : Error := .raised .valueFault "no such argument"

/-- The error about a part that a tree does not have. -/
def noChild : Error := .raised .valueFault "no such child"

/-- The arguments of a macro call. -/
def argumentsAt : Option Tree → List Tree
  | some (.call _ args _) => args
  | _ => []

/-- The value down a path. -/
def partAt : Value → List Step → Except Error Value
  | v, [] => .ok v
  | .tree (.call head _ _), .operator :: path => partAt head.toValue path
  | .tree (.call _ args _), .argument i :: path =>
    match args[i]? with
    | some t => partAt (.tree t) path
    | none => .error noChild
  | _, _ :: _ => .error noChild

/-- A part of an argument of a macro call. -/
def argumentAt (invocation : Option Tree) (index : Nat) (path : List Step) : Except Error Value :=
  match (argumentsAt invocation)[index]? with
  | some t => partAt (.tree t) path
  | none => .error noArgument

/-- The answer to a query. -/
def Query.plan (invocation : Option Tree) : Query → Action Value
  | .depth => do return .int (← observeState).depth
  | .path => do return .text ("/".intercalate (← observeState).path)
  | .transitions => do return .int (← observeState).transitions
  | .fresh => do return .int (← nextTag).number
  | .phase => do return .text (← observeState).phase.word
  | .recursive => do return .bool (← observeState).recursive
  | .label => do return (← observeState).label
  | .line => pure (match invocation with
    | some t => t.line
    | none => .nothing)

/-! ## Evaluation -/

/-- When a script is carried out: outside of macros, or on a macro call. Each time the body of a
macro is carried out is a run of its own. -/
structure Occasion where
  invocation : Option Tree
  run : Nat

/-- Outside of macros. -/
def Occasion.outside : Occasion := ⟨none, 0⟩

/-- The name of the parameter that a call cannot also take as a note. -/
def headParameter : String := "op"

/-- A call with notes given as named arguments. -/
def notedCall (head : Value) (args : List Value) (entries : List (Value × Value)) :
    Except Error Value := do
  let fields ← Fields.ofEntries entries
  if (fields.lookup headParameter).isSome then
    .error (.fault (.keywords ("call() got multiple values for argument '" ++ headParameter ++
      "'")))
  else (Tree.wrappedCallOf head args (Notes.ofEntries entries)).map .tree

/-- The number that a decimal text at a place stands for. -/
def decimalValue (text : String) (origin : Origin) : Except Error Value :=
  match Binary64.read? text with
  | some x => .ok (.float (x.writtenAt origin))
  | none => .error (.fault (.badDecimal text))

mutual

/-- The plan of a script on an occasion. -/
def Script.plan (now : Occasion) : Script → Action Value
  | .value v => pure v
  | .decimal text place => .ofExcept (decimalValue text ⟨place, now.run⟩)
  | .atom name => do .ofExcept (← name.plan now).atomOf
  | .tuple items => do return .tuple (← Script.planList now items)
  | .list items => do return .list (← Script.planList now items)
  | .record entries => do
    return .record (Notes.ofEntries (← Script.planEntries now entries))
  | .literal s => do
    let v ← s.plan now
    .ofExcept ((Tree.literalOf v).map .tree)
  | .call head args notes => do
    let head ← head.plan now
    let args ← Script.planList now args
    let notes ← Script.planEntries now notes
    .ofExcept (notedCall head args notes)
  | .exactCall head args notes => do
    let head ← head.plan now
    let args ← Script.planList now args
    let notes ← Script.planEntries now notes
    .ofExcept ((Tree.callOf head args (Notes.ofEntries notes)).map .tree)
  | .placeholder target => do
    let target ← target.plan now
    .ofExcept ((Tree.placeholderOf target).map .tree)
  | .name ident scope => do
    let ident ← ident.plan now
    let scope ← scope.plan now
    .ofExcept ((Tree.nameOf ident scope).map .tree)
  | .unquote target body => do
    let target ← target.plan now
    let body ← body.plan now
    .ofExcept ((Tree.unquoteOf target body).map .tree)
  | .unhygienic s => do
    let v ← s.plan now
    .ofExcept ((Tree.unhygienicOf v).map .tree)
  | .marker kind body => do
    let body ← body.plan now
    .ofExcept ((Tree.markerOf kind body).map .tree)
  | .nest count op inner => do
    let inner ← inner.plan now
    let op ← op.plan now
    .ofExcept (Tree.nestOf op count inner)
  | .wide count op arg => do
    let arg ← arg.plan now
    let op ← op.plan now
    .ofExcept ((Tree.wrappedCallOf op (List.replicate count arg) []).map .tree)
  | .quote template callerNames => do
    let template ← template.plan now
    let names ← Script.planList now callerNames
    .ofExcept (template.quote (.list names))
  | .fill template entries => do
    let template ← template.plan now
    let entries ← Script.planEntries now entries
    .ofExcept (template.substitute entries)
  | .argument index path => .ofExcept (argumentAt now.invocation index path)
  | .rest index => pure (.list (((argumentsAt now.invocation).drop index).map .tree))
  | .invocation => pure (match now.invocation with
    | some t => .tree t
    | none => .nothing)
  | .expand mode s => do expanded mode (← s.plan now)
  | .raise kind message => .fail (.raised kind message)
  | .recover s other => (s.plan now).recover (other.plan now)
  | .query q => q.plan now.invocation
  | .register site name pattern body next => do
    let name ← name.plan now
    let pattern ← pattern.plan now
    let candidate ← body.plan now
    registered site name pattern candidate
    next.plan now

/-- The plan of some scripts; `rest` stands for any number of values. -/
def Script.planList (now : Occasion) : List Script → Action (List Value)
  | [] => pure []
  | .rest index :: more => do
    let values ← Script.planList now more
    return ((argumentsAt now.invocation).drop index).map .tree ++ values
  | s :: more => do
    let v ← s.plan now
    let values ← Script.planList now more
    return v :: values

/-- The plan of scripts with keys. -/
def Script.planEntries (now : Occasion) :
    List (Value × Script) → Action (List (Value × Value))
  | [] => pure []
  | (key, s) :: more => do
    let v ← s.plan now
    let values ← Script.planEntries now more
    return (key, v) :: values

/-- The plan of a pattern. -/
def PatternScript.plan (now : Occasion) : PatternScript → Action PatternForm
  | .any => pure (.pattern .any)
  | .arity n => do
    let n ← n.plan now
    .ofExcept ((Pattern.ofParts n none).map .pattern)
  | .shape matchers => do
    let forms ← MatcherScript.planList now matchers
    .ofExcept ((Pattern.ofParts .nothing (some forms)).map .pattern)
  | .parts n none => do
    let n ← n.plan now
    .ofExcept ((Pattern.ofParts n none).map .pattern)
  | .parts n (some matchers) => do
    let n ← n.plan now
    let forms ← MatcherScript.planList now matchers
    .ofExcept ((Pattern.ofParts n (some forms)).map .pattern)
  | .sequence matchers => do return .matchers (← MatcherScript.planList now matchers)
  | .value s => do return .value (← s.plan now)

/-- The plan of a matcher. -/
def MatcherScript.plan (now : Occasion) : MatcherScript → Action MatcherForm
  | .variant s => do
    let v ← s.plan now
    .ofExcept ((Matcher.variantOf v).map .matcher)
  | .head op arity => do
    let op ← op.plan now
    let arity ← arity.plan now
    .ofExcept ((Matcher.headOf op arity).map .matcher)
  | .equals label s => do
    let v ← s.plan now
    return .matcher (.predicate label fun t => .ok (t.equal v))
  | .constant label s => do
    let v ← s.plan now
    return .matcher (.predicate label fun _ => .ok v.truthy)
  | .raises label kind message =>
    pure (.matcher (.predicate label fun _ => .error (.raised kind message)))
  | .value s => do return .value (← s.plan now)

/-- The plan of some matchers. -/
def MatcherScript.planList (now : Occasion) :
    List MatcherScript → Action (List MatcherForm)
  | [] => pure []
  | m :: more => do
    let form ← m.plan now
    let forms ← MatcherScript.planList now more
    return form :: forms

/-- The plan of what is offered as a transformer. A function is not carried out now, but on every
macro call it gets. -/
def BodyScript.plan (now : Occasion) : BodyScript → Action Candidate
  | .function label s => pure (.function label fun t => do
    let state ← observeState
    s.plan ⟨some t, state.calls⟩)
  | .value s => do return .value (← s.plan now)

end

/-! ## Scripts outside of macros -/

/-- The value of a script that asks an expander for nothing. -/
def Script.outcome (s : Script) : Except Error Value := (s.plan .outside).outcome

/-- The pattern of a script that asks an expander for nothing. -/
def PatternScript.outcome (s : PatternScript) : Except Error PatternForm :=
  (s.plan .outside).outcome

/-- The candidate of a script that asks an expander for nothing. -/
def BodyScript.outcome (s : BodyScript) : Except Error Candidate := (s.plan .outside).outcome

/-- The name, the pattern and the candidate of a macro, in this order. -/
def MacroScript.outcome (m : MacroScript) : Except Error (Value × PatternForm × Candidate) := do
  return (← m.name.outcome, ← m.pattern.outcome, ← m.body.outcome)

/-- Registers the macros that scripts describe, in order. -/
def Registry.registerScripts (r : Registry) : List MacroScript → Except Error Registry
  | [] => .ok r
  | m :: more => do
    let (name, pattern, candidate) ← m.outcome
    let (r, _) ← r.register name pattern candidate
    r.registerScripts more

/-- The registry that a script describes. -/
def RegistryScript.outcome : RegistryScript → Except Error Registry
  | .ready r => .ok r
  | .build terminals macros freeze => do
    let r ← match terminals with
      | none => pure (Registry.empty Registry.standardTerminals)
      | some s => do Registry.ofTerminals (← s.outcome)
    let r ← r.registerScripts macros
    return if freeze then r.freeze else r

end HygienicMacros
