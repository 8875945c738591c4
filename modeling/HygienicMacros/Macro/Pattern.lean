import HygienicMacros.Tree.Construct

/-! # Patterns

A pattern says which arguments a clause of a macro takes: any, a fixed number, or one for each of
its matchers. Matching looks at the form of the arguments only.

* `Matcher`, `Matcher.accepts`: what one argument has to be.
* `Pattern`, `Pattern.fits`: what the arguments have to be.
* `MatcherForm.resolve`, `PatternForm.resolve`: matchers and patterns from the shorter forms in
  which they may be written.
-/

namespace HygienicMacros

/-! ## Matchers -/

/-- What one argument has to be: anything, a call of an operator (with a number of arguments, if
one is asked for), a tree of a variety, or what a predicate accepts. -/
inductive Matcher where
  | anything
  | head (op : String) (arity : Value)
  | variant (v : Variety)
  | predicate (label : String) (test : Value → Except Error Bool)

namespace Matcher

/-- How a matcher is shown. -/
def describe : Matcher → String
  | .anything => "_"
  | .head op .nothing => op
  | .head op arity => op ++ "/" ++ arity.display
  | .variant v => v.label
  | .predicate label _ => label

/-- Whether an argument is a call of an operator with the given number of arguments. -/
def isCallOf (op : String) (arity : Value) : Value → Bool
  | .tree (.call (.symbol f) args _) =>
    f == op && (match arity with
      | .nothing => true
      | n => Value.equal (.int args.length) n)
  | _ => false

/-- Whether an argument is a tree of exactly this variety. -/
def isVariant (v : Variety) : Value → Bool
  | .tree t => t.variety == v
  | _ => false

/-- Whether a matcher accepts an argument; only a predicate can fail to answer. -/
def accepts : Matcher → Value → Except Error Bool
  | .anything, _ => .ok true
  | .head op arity, v => .ok (isCallOf op arity v)
  | .variant w, v => .ok (isVariant w v)
  | .predicate _ test, v => test v

/-- The matcher for calls of an operator. -/
def headOf (op arity : Value) : Except Error Matcher :=
  match op with
  | .text s => .ok (.head s arity)
  | v => .error (.unmet .matcherOperator v)

/-- The matcher for trees of a variety; only the four varieties of finished trees can be asked
for. -/
def variantOf : Value → Except Error Matcher
  | .variety .literal => .ok (.variant .literal)
  | .variety .call => .ok (.variant .call)
  | .variety .placeholder => .ok (.variant .placeholder)
  | .variety .name => .ok (.variant .name)
  | v => .error (.notVariant v)

end Matcher

/-- A matcher as it may be written: as itself, or as a value that stands for one. -/
inductive MatcherForm where
  | matcher (m : Matcher)
  | value (v : Value)

/-- The matcher that is meant: nothing is anything, a text is an operator, a variety is itself. -/
def MatcherForm.resolve : MatcherForm → Except Error Matcher
  | .matcher m => .ok m
  | .value .nothing => .ok .anything
  | .value (.text op) => Matcher.headOf (.text op) .nothing
  | .value (.variety v) => Matcher.variantOf (.variety v)
  | .value v => .error (.unmet .matcher v)

/-- Matchers from their forms, the first bad one refused. -/
def MatcherForm.resolveAll : List MatcherForm → Except Error (List Matcher)
  | [] => .ok []
  | f :: fs => do
    let m ← f.resolve
    return m :: (← resolveAll fs)

/-! ## Patterns -/

/-- What the arguments of a macro call have to be. -/
inductive Pattern where
  | any
  | arity (n : Nat)
  | shape (matchers : List Matcher)

namespace Pattern

/-- The number of arguments a pattern takes, if it is fixed. -/
def arity? : Pattern → Option Nat
  | .any => none
  | .arity n => some n
  | .shape matchers => some matchers.length

/-- How a pattern is shown. -/
def describe : Pattern → String
  | .any => "(...)"
  | .arity n => "(/" ++ toString n ++ ")"
  | .shape matchers => "(" ++ Text.commas (matchers.map Matcher.describe) ++ ")"

/-- Whether each matcher accepts its argument. The first one that rejects ends the search, and so
does the first that fails. -/
def allAccept : List Matcher → List Value → Except Error Bool
  | m :: ms, v :: vs =>
    match m.accepts v with
    | .ok true => allAccept ms vs
    | answer => answer
  | _, _ => .ok true

/-- Whether the arguments fit. With the wrong number of arguments no matcher is asked. -/
def fits : Pattern → List Value → Except Error Bool
  | .any, _ => .ok true
  | .arity n, args => .ok (args.length == n)
  | .shape matchers, args =>
    if args.length = matchers.length then allAccept matchers args else .ok false

/-- A pattern from a number of arguments and matchers, each of them optional. Where both are given
they have to agree, and the number has to be a plain natural number. -/
def ofParts (arity : Value) (shape : Option (List MatcherForm)) : Except Error Pattern := do
  match shape with
  | some forms =>
    let matchers ← MatcherForm.resolveAll forms
    match arity with
    | .nothing => return .shape matchers
    | n =>
      if Value.equal n (.int matchers.length) then
        match n with
        | .int _ => return .shape matchers
        | v => throw (.unmet .arity v)
      else throw (.arityClash n matchers.length)
  | none =>
    match arity with
    | .nothing => return .any
    | .int n => if 0 ≤ n then return .arity n.toNat else throw (.unmet .arity (.int n))
    | v => throw (.unmet .arity v)

end Pattern

/-- A pattern as it may be written: as itself, as matchers, or as a value that stands for one. -/
inductive PatternForm where
  | pattern (p : Pattern)
  | matchers (forms : List MatcherForm)
  | value (v : Value)

/-- The pattern that is meant: nothing takes any arguments, a number that many, a sequence one for
each of its matchers. -/
def PatternForm.resolve : PatternForm → Except Error Pattern
  | .pattern p => .ok p
  | .matchers forms => Pattern.ofParts .nothing (some forms)
  | .value .nothing => .ok .any
  | .value (.int n) => Pattern.ofParts (.int n) none
  | .value (.list items) => Pattern.ofParts .nothing (some (items.map .value))
  | .value (.tuple items) => Pattern.ofParts .nothing (some (items.map .value))
  | .value v => .error (.unmet .pattern v)

end HygienicMacros
