import HygienicMacros.Tree.Construct
import HygienicMacros.Value.Sum

/-! # A small language

What an expanded tree means, for a few operators: choice by `case`, negation `!`, sums `+`,
variables bound by `let`, and sequences `do_block`. Names with different scopes are different
variables, so hygiene shows in what a tree evaluates to.

* `Environment`: the values of the variables in scope.
* `evaluate`: the value of a tree.
-/

namespace HygienicMacros

/-! ## Environments -/

/-- The values of variables, a variable being a spelling and a scope. The first entry counts. -/
abbrev Environment := List ((String × Scope) × Value)

namespace Environment

/-- The environment in which a variable has a value. -/
def bind (ident : String) (scope : Scope) (v : Value) (env : Environment) : Environment :=
  ((ident, scope), v) :: env

/-- The scope that a value is equal to: a truth value or a float may stand for its number. -/
def scopeKey? : Value → Option Scope
  | .nothing => some .source
  | .pending p => some (.pending p)
  | .float x => (x.integer?.bind Tag.ofInt?).map .tag
  | v => (v.integer?.bind Tag.ofInt?).map .tag

/-- An environment from entries of a spelling, a scope and a value. A later entry for a variable
replaces an earlier one. An entry that no name can ask for is left out, unless it could not even
be a key. -/
def ofEntries (env : Environment) : List (Value × Value × Value) → Except Error Environment
  | [] => .ok env
  | (ident, scope, v) :: rest =>
    match Value.unhashable? (.tuple [ident, scope]) with
    | some part => .error (.fault (.unhashable part))
    | none => match ident, scopeKey? scope with
      | .text s, some sc => ofEntries (env.bind s sc v) rest
      | _, _ => ofEntries env rest

end Environment

/-! ## Operations on values -/

/-- Whether a value counts as true in this language: all but nothing and false. -/
def Value.holds : Value → Bool
  | .nothing => false
  | .bool b => b
  | _ => true

/-- Whether two values are equal and of the same kind. -/
def Value.same (a b : Value) : Bool := a.equal b && a.kindName == b.kindName

/-- The value of a literal: `nil` is nothing, and another atom is its name. -/
def Datum.meaning : Datum → Value
  | .atom "nil" => .nothing
  | .atom name => .text name
  | d => d.toValue

/-! ## Evaluation -/

/-- The operator between the pattern and the body of a clause of `case`. -/
def arrow : String := "->"

mutual

/-- The value of a tree. -/
def evaluate (env : Environment) : Tree → Except Error Value
  | .literal d => .ok d.meaning
  | .name ident scope => match env.lookup (ident, scope) with
    | some v => .ok v
    | none => .error (.fault (.missingKey (.tuple [.text ident, scope.toValue])))
  | .call (.symbol op) args _ =>
    if op = "case" then
      match args with
      | [] => .error (.fault .indexRange)
      | subject :: clauses =>
        match evaluate env subject with
        | .error e => .error e
        | .ok v => evaluateCases env v clauses
    else if op = "!" then
      match args with
      | [] => .error (.fault .indexRange)
      | arg :: _ => (evaluate env arg).map fun v => .bool !v.holds
    else if op = "+" then evaluateSum env (.int 0) args
    else if op = "let" then
      match args with
      | [target, value, body] =>
        match evaluate env value with
        | .error e => .error e
        | .ok v => match target with
          | .name ident scope => evaluate (env.bind ident scope v) body
          | t => .error (.fault (.noAttribute (.tree t) "name"))
      | args => .error (.fault (.unpack 3 args.length))
    else if op = "do_block" then evaluateBlock env .nothing args
    else .error (.unknownOperator (.text op))
  | .call (.tree f) _ _ => .error (.unknownOperator (.tree f))
  | .placeholder target => .error (.notEvaluated (.tree (.placeholder target)))
  | .marker kind body => .error (.notEvaluated (.tree (.marker kind body)))
  | .unhygienic ident => .error (.notEvaluated (.tree (.unhygienic ident)))

/-- The body of the first clause whose pattern has the value `v`. -/
def evaluateCases (env : Environment) (v : Value) : List Tree → Except Error Value
  | [] => .error (.noCase v)
  | .call (.symbol op) args _ :: rest =>
    if op = arrow then
      match args with
      | [pattern, body] =>
        match evaluate env pattern with
        | .error e => .error e
        | .ok p => if p.same v then evaluate env body else evaluateCases env v rest
      | args => .error (.fault (.unpack 2 args.length))
    else .error (.fault .assertion)
  | _ :: _ => .error (.fault .assertion)

/-- The sum of the values of some trees, added from the left to `total`. -/
def evaluateSum (env : Environment) (total : Value) : List Tree → Except Error Value
  | [] => .ok total
  | t :: ts =>
    match evaluate env t with
    | .error e => .error e
    | .ok v => match total.plus "+" v with
      | .error e => .error e
      | .ok total => evaluateSum env total ts

/-- The value of the last of some trees, all of which are evaluated; `last` if there are none. -/
def evaluateBlock (env : Environment) (last : Value) : List Tree → Except Error Value
  | [] => .ok last
  | t :: ts =>
    match evaluate env t with
    | .error e => .error e
    | .ok v => evaluateBlock env v ts

end

/-- The value of a tree; no other value can be evaluated. -/
def Value.evaluate (v : Value) (env : Environment) : Except Error Value :=
  match v with
  | .tree t => HygienicMacros.evaluate env t
  | v => .error (.notEvaluated v)

end HygienicMacros
