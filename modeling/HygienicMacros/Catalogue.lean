import HygienicMacros.Macro.Registry
import HygienicMacros.Template.Quote
import HygienicMacros.Template.Substitute

/-! # Ready registries

Four small registries whose macros fill templates with parts of the macro call.

* `Catalogue.controlFlow`: `unless` over `if`, and `if` over the terminal `case`.
* `Catalogue.binding`: macros that bind names, with and without hygiene.
* `Catalogue.shortControlFlow`, `Catalogue.assignment`: the registries of the two demonstrations.
-/

namespace HygienicMacros.Catalogue

/-! ## Writing templates -/

/-- A call of an operator. -/
def op (name : String) (args : List Tree) : Tree := .call (.symbol name) args []

/-- An injection point. -/
def hole (target : String) : Tree := .marker (.unquote target) none

/-- A name of the source. -/
def var (ident : String) : Tree := .name ident .source

/-- A truth value. -/
def truth (b : Bool) : Tree := .literal (.bool b)

/-- A transformer that fills a template with parts of the arguments. Its clause's pattern only
lets arguments through that have these parts. -/
def filling (label : String) (template : Tree) (parts : List Tree → Option Substitution) :
    Transformer :=
  .pure label fun
    | .call _ args _ => match parts args with
      | some m => (template.substitute m).map .tree
      | none => .error (.fault .indexRange)
    | t => .error (.fault (.noAttribute (.tree t) "args"))

/-! ## Control flow -/

/-- The block that runs if the condition holds. -/
def blockMatcher : Matcher := .head "do_block" (.int 1)

/-- The block that runs otherwise. -/
def elseMatcher : Matcher := .head "else_block" (.int 1)

/-- A condition and a block. -/
def conditional : Pattern := .shape [.anything, blockMatcher]

/-- A condition and two blocks. -/
def alternative : Pattern := .shape [.anything, blockMatcher, elseMatcher]

/-- The template of `if` with one block. -/
def ifTemplate : Tree :=
  (op "case" [hole "cond", op "->" [truth true, hole "body"],
    op "->" [truth false, .literal .nil]]).quoted []

/-- The template of `if` with two blocks. -/
def ifElseTemplate : Tree :=
  (op "case" [hole "cond", op "->" [truth true, hole "body"],
    op "->" [truth false, hole "otherwise"]]).quoted []

/-- The template of `unless`, by `if` and a negation. -/
def unlessTemplate : Tree :=
  (op "if" [op "!" [hole "cond"], op "do_block" [hole "body"]]).quoted []

/-- The parts of a condition and a block. -/
def conditionalParts : List Tree → Option Substitution
  | [cond, .call _ (body :: _) _] => some [("cond", cond), ("body", body)]
  | _ => none

/-- The parts of a condition and two blocks. -/
def alternativeParts : List Tree → Option Substitution
  | [cond, .call _ (body :: _) _, .call _ (otherwise :: _) _] =>
    some [("cond", cond), ("body", body), ("otherwise", otherwise)]
  | _ => none

/-- The macros `if` and `unless` over the terminal `case`. -/
def controlFlow : Registry :=
  (((Registry.empty ["case"]).add "if" conditional
      (filling "treemacro.test.macros.if_" ifTemplate conditionalParts)).add "if" alternative
      (filling "treemacro.test.macros.if_else" ifElseTemplate alternativeParts)).add
    "unless" conditional
      (filling "treemacro.test.macros.unless" unlessTemplate conditionalParts)

/-- The macros `if`, with one block, and `unless` over the terminal `case`. -/
def shortControlFlow : Registry :=
  ((Registry.empty ["case"]).add "if" conditional
      (filling "demo.control_flow.if_" ifTemplate conditionalParts)).add
    "unless" conditional
      (filling "demo.control_flow.unless" unlessTemplate conditionalParts)

/-! ## Bindings -/

/-- Binds the macro's own `x` around a body. -/
def withXTemplate : Tree := (op "let" [var "x", .literal (.int 1), hole "body"]).quoted []

/-- Binds the caller's `it` around a body. -/
def withItTemplate : Tree :=
  (op "let" [.unhygienic "it", .literal (.int 1), hole "body"]).quoted []

/-- Binds the macro's own `tmp` to a value, and adds it to itself. -/
def twiceTemplate : Tree :=
  (op "let" [var "tmp", hole "value", op "+" [var "tmp", var "tmp"]]).quoted []

/-- The only argument, under a target. -/
def onePart (target : String) : List Tree → Option Substitution
  | [t] => some [(target, t)]
  | _ => none

/-- Macros that bind names around their argument. -/
def binding : Registry :=
  (((Registry.empty ["let", "+"]).add "with_x" (.arity 1)
      (filling "treemacro.test.macros.with_x" withXTemplate (onePart "body"))).add
    "with_it" (.arity 1)
      (filling "treemacro.test.macros.with_it" withItTemplate (onePart "body"))).add
    "twice" (.arity 1)
      (filling "treemacro.test.macros.twice" twiceTemplate (onePart "value"))

/-- Exchanges two places through the macro's own `tmp`. -/
def swapTemplate : Tree :=
  (op "let" [var "tmp", hole "a",
    op "do_block" [op "set" [hole "a2", hole "b"], op "set" [hole "b2", var "tmp"]]]).quoted []

/-- A choice in which the caller's `it` is the outcome of the test. -/
def aifTemplate : Tree :=
  (op "let" [.unhygienic "it", hole "test",
    op "case" [var "it", op "->" [truth false, hole "otherwise"],
      op "->" [var "_", hole "then"]]]).quoted []

/-- Both places, each for its two uses. -/
def swapParts : List Tree → Option Substitution
  | [a, b] => some [("a", a), ("a2", a), ("b", b), ("b2", b)]
  | _ => none

/-- The test and the two branches. -/
def aifParts : List Tree → Option Substitution
  | [test, yes, no] => some [("test", test), ("then", yes), ("otherwise", no)]
  | _ => none

/-- A hygienic `swap`, and an `aif` that binds `it` for its branches. -/
def assignment : Registry :=
  ((Registry.empty ["let", "set", "case", "->", "do_block"]).add
    "swap" (.shape [.anything, .anything])
      (filling "demo.hygiene.swap" swapTemplate swapParts)).add
    "aif" (.arity 3)
      (filling "demo.hygiene.aif" aifTemplate aifParts)

end HygienicMacros.Catalogue
