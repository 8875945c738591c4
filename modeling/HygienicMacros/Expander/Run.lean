import HygienicMacros.Expander.State
import HygienicMacros.Scope.Resolve

/-! # Expansion

The expander scans a tree from the root. A call of a macro is replaced by the transformer's answer
with its open scopes resolved, and in recursive mode the replacement is scanned again, one frame
deeper. All other calls are kept and their parts are scanned.

The recursion has three levels. Inside one tree it follows the tree; from a macro call to its
replacement the number of expansions that may still be nested decreases; and from a transformer
back into the expander the room on the stack decreases. Each of them is an activity that takes its
part of the stack while it lasts.

* `scan`: a tree, given what to do with a macro call.
* `expandCall`: a macro call, given what a transformer's request for an expansion does.
* `enter`: the entry point of a whole tree and of a transformer's requests.
-/

namespace HygienicMacros

/-! ## Reports -/

/-- The heading of a report about nested macro applications. -/
def nestedHeading : List String :=
  ["An exception occurred during macro expansion.", "",
   "Macro use site (most recent macro application last):"]

/-- A use site report put before a report of an inner application. The heading stands once, before
all reports. -/
def telescope (report inner : String) : String :=
  let lines := Text.lines inner
  let inner := if lines.head? = nestedHeading.head? then
    Text.unlines (lines.drop nestedHeading.length) else inner
  Text.unlines nestedHeading ++ "\n" ++ report ++ "\n" ++ inner

/-- The error of a failed application: errors of expansion and stack overflows pass unchanged,
reports of inner applications get this one put before them, and any other error becomes the cause
of this report. A report is recognised by its cause, if that counts as true, and must then be a
text. -/
def Error.applied (report : String) (e : Error) : Error :=
  match e with
  | .application args cause =>
    if cause.counts then
      match args with
      | .text inner :: _ => .application [.text (telescope report inner)] cause
      | v :: _ => .fault (.noAttribute v "split")
      | [] => .fault .indexRange
    else e
  | e => if e.isExpansion || e.kind == .stackOverflow then e else .application [.text report] e

/-- The report about the place where a clause was applied. -/
def useSite (filename : String) (clause : Clause) (invocation : Tree) : String :=
  invocation.location filename ++ "\nin macro invocation for '" ++ clause.name ++ "' (clause " ++
    toString clause.index ++ ", " ++ clause.transformer.label ++ ")"

/-! ## One application -/

/-- Does what an action asks for; `reenter` expands on behalf of the transformer. -/
def perform {α : Type} (reenter : Mode → Value → Run Value) : Action α → Run α
  | .answer v => pure v
  | .fail e => throw e
  | .expand mode v next => do perform reenter (next (← attempt (reenter mode v)))
  | .freshTag next => do perform reenter (next (← freshTag))
  | .observe next => do perform reenter (next (← get).observation)
  | .register .own name pattern candidate next => do
    -- The registry of an expander is frozen, so this only ever answers an error.
    let outcome := (← get).registry.register name pattern candidate
    perform reenter (next (outcome.map fun _ => ()))
  | .register .source name pattern candidate next => do
    let s ← get
    match s.source.register name pattern candidate with
    | .error e => perform reenter (next (.error e))
    | .ok (source, _) => do
      set { s with source := source }
      perform reenter (next (.ok ()))

/-- The tree that an action answers. -/
def performTree (reenter : Mode → Value → Run Value) (action : Action Value) : Run Tree := do
  match ← perform reenter action with
  | .tree t => pure t
  | v => throw (.unmet .transformerResult v)

/-- The answer of a clause's transformer to a macro call. -/
def applyClause (reenter : Mode → Value → Run Value) (clause : Clause) (invocation : Tree) :
    Run Tree := do
  modify fun s => { s with calls := s.calls + 1 }
  match ← attempt (during .application
      (performTree reenter (clause.transformer.body invocation))) with
  | .ok t => pure t
  | .error e => failWith (e.applied (useSite (← get).filename clause invocation))

/-- Looks up a clause of a macro that fits the arguments. -/
def matchClause (invocation : Tree) (head : Head) (args : List Tree) : Run Clause := do
  setPhase .matched
  let s ← get
  let found := match head with
    | .symbol op => s.registry.lookup op (args.map .tree)
    | .tree _ => .ok none
  match found with
  | .error e => throw e
  | .ok (some clause) => pure clause
  | .ok none =>
    let tried := match head with
      | .symbol op => (s.registry.clauses op).map (·.pattern.describe)
      | .tree _ => []
    failWith (.noMatchingClause s.filename invocation head.toValue tried)

/-- Resolves the open scopes of an answer with a fresh tag, and files the application. -/
def settle (clause : Clause) (invocation : Tree) (notes : Notes) (answer : Tree) : Run Tree := do
  let tag ← freshTag
  match Notes.caller notes with
  | .error e => throw e
  | .ok caller =>
    let s ← get
    if s.budget.covers (.resolution answer.skeleton) then
      let expansion := answer.resolve tag caller
      record ⟨clause.name, invocation, answer, tag, expansion, clause.transformer.label,
        s.frame.depth⟩
      pure expansion
    else throw .stackOverflow

/-! ## Scanning -/

mutual

/-- Scans a tree: macro calls are handed to `expandCall`, anything else that may be part of a
finished tree is kept. -/
def scan (expandCall : Tree → Run Tree) : Tree → Run Tree
  | .literal d => pure (.literal d)
  | .name ident scope => pure (.name ident scope)
  | .call (.symbol op) args notes => do
    let registry := (← get).registry
    if registry.isMacro op then expandCall (.call (.symbol op) args notes)
    else
      setPhase (if registry.isTerminal op then .terminal else .scanning)
      let args ← during (.arguments args.length) (scanList expandCall args)
      pure (.call (.symbol op) args notes)
  | .call (.tree f) args notes => do
    setPhase .scanning
    let f ← during .operator (scan expandCall f)
    let args ← during (.arguments args.length) (scanList expandCall args)
    pure (.call (.tree f) args notes)
  | .placeholder target => unexpected (.placeholder target)
  | .marker kind body => unexpected (.marker kind body)
  | .unhygienic ident => unexpected (.unhygienic ident)

/-- Scans trees from left to right. -/
def scanList (expandCall : Tree → Run Tree) : List Tree → Run (List Tree)
  | [] => pure []
  | t :: ts => do
    let t ← scan expandCall t
    let ts ← scanList expandCall ts
    pure (t :: ts)

/-- Refuses a node that cannot be part of a finished tree. -/
def unexpected (t : Tree) : Run Tree := do
  failWith (.invariant (.unexpectedNode (← get).filename t))

end

/-- Expands a macro call, where `remaining` more expansions may be nested. -/
def expandCall (reenter : Mode → Value → Run Value) (remaining : Nat) (invocation : Tree) :
    Run Tree :=
  match invocation with
  | .call head args notes => do
    let clause ← matchClause invocation head args
    let s ← get
    let inside := s.frame.inside clause.name invocation
    match remaining with
    | 0 => failWith (.depthExceeded (.nested s.filename inside.path) s.maxDepth)
    | remaining + 1 => do
      let answer ← applyClause reenter clause invocation
      let expansion ← settle clause invocation notes answer
      if (← get).recursive then
        withFrame inside (during .replacement (scan (expandCall reenter remaining) expansion))
      else pure expansion
  | t => throw (.fault (.noAttribute (.tree t) "op"))

mutual

/-- Scans a tree, or the trees of nested lists. -/
def scanValue (expandCall : Tree → Run Tree) : Value → Run Value
  | .tree t => do pure (.tree (← scan expandCall t))
  | .list items => do pure (.list (← during .items (scanValues expandCall items)))
  | v => failWith (.unmet .tree v)

/-- Scans values from left to right. -/
def scanValues (expandCall : Tree → Run Tree) : List Value → Run (List Value)
  | [] => pure []
  | v :: vs => do
    let v ← scanValue expandCall v
    let vs ← scanValues expandCall vs
    pure (v :: vs)

end

/-! ## Entry points -/

/-- Gets ready to expand a value: there must be room to look through it, it may have no open scopes,
and the tags it uses are taken out of the supply. -/
def prepare (v : Value) : Run Unit := do
  let s ← get
  let (trees, misfit) := v.forest
  if trees.all fun t => s.budget.covers (.survey t.skeleton) then
    match misfit, trees.flatMap Tree.openNodes with
    | some e, _ => throw e
    | none, first :: _ => throw (.invariant (.unresolvedInput s.filename first))
    | none, [] =>
      set { s with tags := s.tags.skipPast (Tree.largest (trees.flatMap Tree.tags)) }
  else throw .stackOverflow

/-- Expands a value in a mode; `room` is how many of these may be running one inside another. Each
of them is on the stack, so there are never more than it has room for. -/
def enter : Nat → Mode → Value → Run Value
  | 0, _, _ => throw .stackOverflow
  | room + 1, mode, v => during .entry do
    prepare v
    let remaining := (← get).remaining
    withMode mode (scanValue (expandCall (enter room) remaining) v)

/-- Expands the macro calls in a value until none are left. -/
def visitRecursively (v : Value) : Run Value := do enter (← get).budget.left .recursive v

/-- Expands each outermost macro call in a value once. -/
def visitOnce (v : Value) : Run Value := do enter (← get).budget.left .once v

/-- Expands in the mode that is set, without getting ready first. -/
def visit (v : Value) : Run Value := do
  let s ← get
  during .entry (scanValue (expandCall (enter s.budget.left) s.remaining) v)

/-- Expands one macro call in the mode that is set. -/
def visitCall : Value → Run Value
  | .tree t => do
    let s ← get
    return .tree (← expandCall (enter s.budget.left) s.remaining t)
  | v => throw (.fault (.noAttribute v "op"))

end HygienicMacros
