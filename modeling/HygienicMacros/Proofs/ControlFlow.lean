import HygienicMacros.Proofs.Evaluation
import HygienicMacros.Proofs.Meaning
import HygienicMacros.Proofs.Positions

/-! # What control flow macros mean

`Catalogue.controlFlow` has `if` over the operator `case`, and `unless` over `if`. Read as operators
of the small language, `if` chooses by a truth value and `unless` runs its block if a condition does
not hold; `control` evaluates trees with them. A tree is expanded if, on every way down, the
expansions that its macros take are within the limit: one for an `if`, two for an `unless`
(`ControlTree.within`, `ControlTree.expands`). The outcome then evaluates to what the tree means,
with the same errors (`expandMacros_control`).
-/

namespace HygienicMacros

/-- Only a truth value is of the same kind as one. -/
theorem Value.same_bool {b : Bool} {v : Value} : (Value.bool b).same v = true ↔ v = .bool b := by
  cases v with
  | bool c => cases b <;> cases c <;> simp [same, equal, equalNumber, integer?]
  | tree t => cases hv : t.variety <;> simp [same, kindName, hv, Variety.label]
  | _ => simp [same, kindName]

theorem Notes.caller_of_unscoped {notes : Notes} (h : scope? notes = none) :
    caller notes = .ok none := by
  simp [caller, h]

/-! ## Trees that have an expansion -/

/-- The tree has an expansion with at most `k` macro applications inside one another. -/
def Expandable (R : Registry) (k : Nat) (t : Tree) : Prop :=
  ∃ as r, Scans R (Rewrites R R.Applies .recursive k) [t] as [r]

namespace Expandable

variable {R : Registry} {k : Nat} {op : String} {args : List Tree} {notes : Notes}

theorem part (h : Expandable R k (.call (.symbol op) args notes)) (hop : R.isMacro op = false)
    {a : Tree} (ha : a ∈ args) : Expandable R k a := by
  obtain ⟨as, r, h⟩ := h
  exact h.of_call hop ha

/-- A macro call is expanded through what it is replaced by, with one nested expansion less. -/
theorem replaced {out : Tag → Tree}
    (h : Expandable R k (.call (.symbol op) args notes)) (hop : R.isMacro op = true)
    (hout : R.Replaces (.call (.symbol op) args notes) out) :
    ∃ l tag, k = l + 1 ∧ Expandable R l (out tag) := by
  obtain ⟨as, r, h⟩ := h
  cases h with
  | call hop' _ _ => rw [hop] at hop'; cases hop'
  | expand _ result rest =>
    cases k with
    | zero => exact result.elim
    | succ l =>
      obtain ⟨a, bs, -, happ, hinv, hscan⟩ := result
      exact ⟨l, a.tag, rfl, bs, r, hout.only a happ hinv ▸ hscan⟩

end Expandable

namespace Catalogue

/-! ## The language -/

/-- The source trees over the operators of the small language and the macros of `controlFlow`. -/
inductive ControlTree : Tree → Prop
  | literal (d : Datum) : ControlTree (.literal d)
  | name (ident : String) : ControlTree (.name ident .source)
  | form {op : String} {args : List Tree} {notes : Notes}
      (hop : op ∈ ["case", "->", "!", "+", "let", "do_block"])
      (hnotes : Notes.scope? notes = none) (hargs : ∀ a ∈ args, ControlTree a) :
      ControlTree (.call (.symbol op) args notes)
  | ifThen {c b : Tree} {notes block : Notes} (hnotes : Notes.scope? notes = none)
      (hblock : Notes.scope? block = none) (hc : ControlTree c) (hb : ControlTree b) :
      ControlTree (.call (.symbol "if") [c, .call (.symbol "do_block") [b] block] notes)
  | ifElse {c b e : Tree} {notes block block' : Notes} (hnotes : Notes.scope? notes = none)
      (hblock : Notes.scope? block = none) (hblock' : Notes.scope? block' = none)
      (hc : ControlTree c) (hb : ControlTree b) (he : ControlTree e) :
      ControlTree (.call (.symbol "if") [c, .call (.symbol "do_block") [b] block,
        .call (.symbol "else_block") [e] block'] notes)
  | unlessThen {c b : Tree} {notes block : Notes} (hnotes : Notes.scope? notes = none)
      (hblock : Notes.scope? block = none) (hc : ControlTree c) (hb : ControlTree b) :
      ControlTree (.call (.symbol "unless") [c, .call (.symbol "do_block") [b] block] notes)

/-- The number of expansions that a macro call takes. -/
def controlWeight : Tree → Nat
  | .call (.symbol op) _ _ => if op = "if" then 1 else if op = "unless" then 2 else 0
  | _ => 0

/-- A choice by a truth value; nothing else is a case of it. -/
def choose (v : Value) (yes no : Except Error Value) : Except Error Value :=
  match v with
  | .bool true => yes
  | .bool false => no
  | v => .error (.noCase v)

mutual

/-- The value of a tree in which the macros are operators. -/
def control (env : Environment) : Tree → Except Error Value
  | .call (.symbol op) args _ =>
    if op = "if" then
      match args with
      | [c, .call _ [b] _] => do
        let v ← control env c
        choose v (control env b) (.ok .nothing)
      | [c, .call _ [b] _, .call _ [e] _] => do
        let v ← control env c
        choose v (control env b) (control env e)
      | _ => .error (.unknownOperator (.text op))
    else if op = "unless" then
      match args with
      | [c, .call _ [b] _] => do
        let v ← control env c
        match v with
        | .nothing => control env b
        | .bool false => control env b
        | _ => .ok .nothing
      | _ => .error (.unknownOperator (.text op))
    -- The operators of the language, as in `evaluate`, with the macros below them.
    else if op = "case" then
      match args with
      | [] => .error (.fault .indexRange)
      | subject :: clauses => do
        let v ← control env subject
        controlCases env v clauses
    else if op = "!" then
      match args with
      | [] => .error (.fault .indexRange)
      | arg :: _ => do
        let v ← control env arg
        return .bool !v.holds
    else if op = "+" then controlSum env (.int 0) args
    else if op = "let" then
      match args with
      | [.name ident scope, value, body] => do
        let v ← control env value
        control (env.bind ident scope v) body
      | [target, value, _] => do
        let _ ← control env value
        throw (.fault (.noAttribute (.tree target) "name"))
      | args => .error (.fault (.unpack 3 args.length))
    else if op = "do_block" then controlBlock env .nothing args
    else .error (.unknownOperator (.text op))
  | t => evaluate env t

/-- The body of the first clause whose pattern has the value `v`. -/
def controlCases (env : Environment) (v : Value) : List Tree → Except Error Value
  | [] => .error (.noCase v)
  | .call (.symbol op) args _ :: rest =>
    if op = arrow then
      match args with
      | [pattern, body] => do
        let p ← control env pattern
        if p.same v then control env body else controlCases env v rest
      | args => .error (.fault (.unpack 2 args.length))
    else .error (.fault .assertion)
  | _ :: _ => .error (.fault .assertion)

/-- The sum of the values of some trees, added from the left to `total`. -/
def controlSum (env : Environment) (total : Value) : List Tree → Except Error Value
  | [] => .ok total
  | t :: ts => do
    let v ← control env t
    let total ← total.plus "+" v
    controlSum env total ts

/-- The value of the last of some trees, all of which are evaluated; `last` if there are none. -/
def controlBlock (env : Environment) (last : Value) : List Tree → Except Error Value
  | [] => .ok last
  | t :: ts => do
    let v ← control env t
    controlBlock env v ts

end

/-! ## The operators, one call at a time -/

section
variable (env : Environment)

theorem controlCases_eq (v : Value) (cs : List Tree) :
    controlCases env v cs = caseValue control env v cs := by
  induction cs with
  | nil => rw [controlCases, caseValue]
  | cons c rest ih =>
    rw [caseValue]
    rcases c with _ | ⟨op | f, args, notes⟩ | _ | _ | _ | _
    case call.symbol =>
      rw [controlCases.eq_def, Tree.clause?]
      by_cases hop : op = arrow
      · simp only [if_pos hop]
        rcases args with _ | ⟨pattern, _ | ⟨body, _ | _⟩⟩ <;> try rfl
        dsimp only
        rw [ih]
        rfl
      · simp only [if_neg hop]
    all_goals simp [controlCases, Tree.clause?]

theorem controlSum_eq (total : Value) (ts : List Tree) :
    controlSum env total ts = sumValue control env total ts := by
  induction ts generalizing total with
  | nil => rw [controlSum, sumValue]
  | cons t ts ih =>
    rw [controlSum, sumValue]
    simp only [ih]
    rfl

theorem controlBlock_eq (last : Value) (ts : List Tree) :
    controlBlock env last ts = blockValue control env last ts := by
  induction ts generalizing last with
  | nil => rw [controlBlock, blockValue]
  | cons t ts ih =>
    rw [controlBlock, blockValue]
    simp only [ih]
    rfl

theorem control_call {op : String} (hop : op ∈ ["case", "->", "!", "+", "let", "do_block"])
    (args : List Tree) (notes : Notes) :
    control env (.call (.symbol op) args notes) = callValue control env op args := by
  have hif : op ≠ "if" := by rintro rfl; simp at hop
  have hunless : op ≠ "unless" := by rintro rfl; simp at hop
  rw [control.eq_def, callValue.eq_def]
  dsimp only
  rw [if_neg hif, if_neg hunless]
  refine ite_congr rfl (fun _ => ?_) fun _ => ite_congr rfl (fun _ => rfl) fun _ =>
    ite_congr rfl (fun _ => controlSum_eq env _ args) fun _ => ite_congr rfl (fun _ => ?_) fun _ =>
    ite_congr rfl (fun _ => controlBlock_eq env _ args) fun _ => rfl
  · rcases args with _ | ⟨subject, clauses⟩
    · rfl
    · simp only [controlCases_eq]
      rfl
  · rcases args with _ | ⟨target, _ | ⟨value, _ | ⟨body, _ | _⟩⟩⟩
    · rfl
    · cases target <;> rfl
    · cases target <;> rfl
    · cases target <;> rfl
    · cases target <;> rfl

theorem control_ifThen (c b : Tree) (head : Head) (block notes : Notes) :
    control env (.call (.symbol "if") [c, .call head [b] block] notes) =
      (control env c).bind fun v => choose v (control env b) (.ok .nothing) := by
  rw [control.eq_def]
  rfl

theorem control_ifElse (c b e : Tree) (head head' : Head) (block block' notes : Notes) :
    control env (.call (.symbol "if") [c, .call head [b] block, .call head' [e] block'] notes) =
      (control env c).bind fun v => choose v (control env b) (control env e) := by
  rw [control.eq_def]
  rfl

theorem control_unless (c b : Tree) (head : Head) (block notes : Notes) :
    control env (.call (.symbol "unless") [c, .call head [b] block] notes) =
      (control env c).bind fun v => choose (.bool !v.holds) (control env b) (.ok .nothing) := by
  rw [control.eq_def]
  cases hc : control env c with
  | error e => simp [hc, bind, Except.bind]
  | ok v => rcases v with _ | (_ | _) | _ <;> simp [hc, bind, Except.bind, Value.holds, choose]

end

/-! ## What the macros are replaced by -/

/-- A choice by `case`, between what holds and what does not. -/
def choice (notes : Notes) (c b e : Tree) : Tree :=
  .call (.symbol "case") [c, .call (.symbol "->") [truth true, b] notes,
    .call (.symbol "->") [truth false, e] notes] notes

theorem evaluate_choice (env : Environment) (notes : Notes) (c b e : Tree) :
    evaluate env (choice notes c b e) =
      (evaluate env c).bind fun v => choose v (evaluate env b) (evaluate env e) := by
  have hclauses : ∀ v, caseValue evaluate env v [.call (.symbol "->") [truth true, b] notes,
      .call (.symbol "->") [truth false, e] notes] =
      choose v (evaluate env b) (evaluate env e) := by
    intro v
    have htruth : ∀ x, evaluate env (truth x) = .ok (.bool x) := fun _ => rfl
    simp only [caseValue, Tree.clause?, if_pos (show "->" = arrow from rfl), htruth, Except.bind]
    rcases v with _ | (_ | _) | _ <;> simp [Value.same_bool, choose]
  rw [choice, evaluate_call]
  exact congrArg _ (funext hclauses)

section
variable {c b e : Tree} (hc : c.openNodes = []) (hb : b.openNodes = []) (tag : Tag)
  (caller : Option Tag)
include hc hb

theorem resolve_ifThen : (ifTemplate.fill [("cond", c), ("body", b)]).resolve tag caller =
    choice (introduced tag) c b (.literal .nil) := by
  have hc' := Tree.resolve_of_closed hc tag caller
  have hb' := Tree.resolve_of_closed hb tag caller
  change choice (introduced tag) (c.resolve tag caller) (b.resolve tag caller) (.literal .nil) = _
  rw [hc', hb']

theorem resolve_ifElse (he : e.openNodes = []) :
    (ifElseTemplate.fill [("cond", c), ("body", b), ("otherwise", e)]).resolve tag caller =
      choice (introduced tag) c b e := by
  have hc' := Tree.resolve_of_closed hc tag caller
  have hb' := Tree.resolve_of_closed hb tag caller
  have he' := Tree.resolve_of_closed he tag caller
  change choice (introduced tag) (c.resolve tag caller) (b.resolve tag caller)
    (e.resolve tag caller) = _
  rw [hc', hb', he']

theorem resolve_unless : (unlessTemplate.fill [("cond", c), ("body", b)]).resolve tag caller =
    .call (.symbol "if") [.call (.symbol "!") [c] (introduced tag),
      .call (.symbol "do_block") [b] (introduced tag)] (introduced tag) := by
  have hc' := Tree.resolve_of_closed hc tag caller
  have hb' := Tree.resolve_of_closed hb tag caller
  change Tree.call (.symbol "if") [.call (.symbol "!") [c.resolve tag caller] (introduced tag),
      .call (.symbol "do_block") [b.resolve tag caller] (introduced tag)] (introduced tag) = _
  rw [hc', hb']

end

section
variable {c b e : Tree} {notes block block' : Notes} {caller : Option Tag}
  (hc : c.openNodes = []) (hb : b.openNodes = []) (hcaller : Notes.caller notes = .ok caller)
include hc hb hcaller

theorem replaces_ifThen : controlFlow.snapshot.Replaces
    (.call (.symbol "if") [c, .call (.symbol "do_block") [b] block] notes)
    fun tag => choice (introduced tag) c b (.literal .nil) := by
  have h : controlFlow.snapshot.Replaces
      (.call (.symbol "if") [c, .call (.symbol "do_block") [b] block] notes)
      fun tag => (ifTemplate.fill [("cond", c), ("body", b)]).resolve tag caller :=
    replaces_filling rfl rfl rfl rfl hcaller
  simpa only [resolve_ifThen hc hb] using h

theorem replaces_ifElse (he : e.openNodes = []) : controlFlow.snapshot.Replaces
    (.call (.symbol "if") [c, .call (.symbol "do_block") [b] block,
      .call (.symbol "else_block") [e] block'] notes)
    fun tag => choice (introduced tag) c b e := by
  have h : controlFlow.snapshot.Replaces
      (.call (.symbol "if") [c, .call (.symbol "do_block") [b] block,
        .call (.symbol "else_block") [e] block'] notes)
      fun tag => (ifElseTemplate.fill [("cond", c), ("body", b), ("otherwise", e)]).resolve tag
        caller :=
    replaces_filling rfl rfl rfl rfl hcaller
  simpa only [resolve_ifElse hc hb _ _ he] using h

theorem replaces_unless : controlFlow.snapshot.Replaces
    (.call (.symbol "unless") [c, .call (.symbol "do_block") [b] block] notes)
    fun tag => .call (.symbol "if") [.call (.symbol "!") [c] (introduced tag),
      .call (.symbol "do_block") [b] (introduced tag)] (introduced tag) := by
  have h : controlFlow.snapshot.Replaces
      (.call (.symbol "unless") [c, .call (.symbol "do_block") [b] block] notes)
      fun tag => (unlessTemplate.fill [("cond", c), ("body", b)]).resolve tag caller :=
    replaces_filling rfl rfl rfl rfl hcaller
  simpa only [resolve_unless hc hb] using h

end

theorem ControlTree.openNodes {t : Tree} (ht : ControlTree t) : t.openNodes = [] := by
  have block : ∀ {op : String} {b : Tree} {notes : Notes}, Notes.scope? notes = none →
      b.openNodes = [] → (Tree.call (.symbol op) [b] notes).openNodes = [] := by
    intro op b notes hnotes hb
    exact Tree.openNodes_call (Mark.isOpen_of_unscoped hnotes) (List.forall_mem_singleton.2 hb)
  induction ht with
  | literal d => rfl
  | name ident => rfl
  | form _ hnotes _ ih => exact Tree.openNodes_call (Mark.isOpen_of_unscoped hnotes) ih
  | ifThen hnotes hblock _ _ ihc ihb =>
    refine Tree.openNodes_call (Mark.isOpen_of_unscoped hnotes) ?_
    simp [ihc, block hblock ihb]
  | ifElse hnotes hblock hblock' _ _ _ ihc ihb ihe =>
    refine Tree.openNodes_call (Mark.isOpen_of_unscoped hnotes) ?_
    simp [ihc, block hblock ihb, block hblock' ihe]
  | unlessThen hnotes hblock _ _ ihc ihb =>
    refine Tree.openNodes_call (Mark.isOpen_of_unscoped hnotes) ?_
    simp [ihc, block hblock ihb]

/-! ## The limit -/

section
variable {k : Nat}

theorem within_operator {op : String} {args : List Tree} {notes : Notes} (hif : op ≠ "if")
    (hunless : op ≠ "unless") : (Tree.call (.symbol op) args notes).Within controlWeight k ↔
      ∀ a ∈ args, a.Within controlWeight k := by
  rw [Tree.within_iff]
  simp [controlWeight, hif, hunless, Tree.children]

theorem within_block {op : String} {b : Tree} {notes : Notes} (hif : op ≠ "if")
    (hunless : op ≠ "unless") : (Tree.call (.symbol op) [b] notes).Within controlWeight k ↔
      b.Within controlWeight k := by
  rw [within_operator hif hunless, List.forall_mem_singleton]

theorem within_ifThen {c b : Tree} {notes block : Notes} :
    (Tree.call (.symbol "if") [c, .call (.symbol "do_block") [b] block] notes).Within
      controlWeight k ↔ ∃ l, k = l + 1 ∧ c.Within controlWeight l ∧ b.Within controlWeight l := by
  rw [Tree.within_iff]
  cases k with
  | zero => simp [controlWeight]
  | succ l =>
    have hb := @within_block l "do_block" b block (by decide) (by decide)
    simp [controlWeight, Tree.children, hb]

theorem within_ifElse {c b e : Tree} {notes block block' : Notes} :
    (Tree.call (.symbol "if") [c, .call (.symbol "do_block") [b] block,
        .call (.symbol "else_block") [e] block'] notes).Within controlWeight k ↔
      ∃ l, k = l + 1 ∧ c.Within controlWeight l ∧ b.Within controlWeight l ∧
        e.Within controlWeight l := by
  rw [Tree.within_iff]
  cases k with
  | zero => simp [controlWeight]
  | succ l =>
    have hb := @within_block l "do_block" b block (by decide) (by decide)
    have he := @within_block l "else_block" e block' (by decide) (by decide)
    simp [controlWeight, Tree.children, hb, he]

theorem within_unlessThen {c b : Tree} {notes block : Notes} :
    (Tree.call (.symbol "unless") [c, .call (.symbol "do_block") [b] block] notes).Within
      controlWeight k ↔ ∃ l, k = l + 2 ∧ c.Within controlWeight l ∧ b.Within controlWeight l := by
  rw [Tree.within_iff]
  rcases k with _ | _ | l
  · simp [controlWeight]
  · simp [controlWeight]
  · have hb := @within_block l "do_block" b block (by decide) (by decide)
    simp [controlWeight, Tree.children, hb]

end

theorem isMacro_control : ∀ op ∈ ["case", "->", "!", "+", "let", "do_block"],
    controlFlow.snapshot.isMacro op = false ∧ op ≠ "if" ∧ op ≠ "unless" := by decide

theorem caller_introduced (tag : Tag) : Notes.caller (introduced tag) = .ok (some tag) :=
  Notes.caller_of_scope? (Notes.scope?_set _ _)

theorem expandable_choice {k : Nat} {c b e : Tree} {notes : Notes}
    (h : Expandable controlFlow.snapshot k (choice notes c b e)) :
    Expandable controlFlow.snapshot k c ∧ Expandable controlFlow.snapshot k b ∧
      Expandable controlFlow.snapshot k e := by
  have hyes := h.part rfl (.tail _ (.head _))
  have hno := h.part rfl (.tail _ (.tail _ (.head _)))
  exact ⟨h.part rfl (.head _), hyes.part rfl (.tail _ (.head _)), hno.part rfl (.tail _ (.head _))⟩

/-- What is expanded is within the limit. -/
theorem ControlTree.within {t : Tree} (ht : ControlTree t) : ∀ {k : Nat},
    Expandable controlFlow.snapshot k t → t.Within controlWeight k := by
  induction ht with
  | literal d => exact fun _ => Tree.within_iff.2 ⟨Nat.zero_le _, List.forall_mem_nil _⟩
  | name ident => exact fun _ => Tree.within_iff.2 ⟨Nat.zero_le _, List.forall_mem_nil _⟩
  | form hop _ _ ih =>
    intro k h
    obtain ⟨hplain, hif, hunless⟩ := isMacro_control _ hop
    exact (within_operator hif hunless).2 fun a ha => ih a ha (h.part hplain ha)
  | ifThen hnotes _ hc hb ihc ihb =>
    intro k h
    obtain ⟨l, tag, rfl, hout⟩ := h.replaced rfl
      (replaces_ifThen hc.openNodes hb.openNodes (Notes.caller_of_unscoped hnotes))
    obtain ⟨hc', hb', -⟩ := expandable_choice hout
    exact within_ifThen.2 ⟨l, rfl, ihc hc', ihb hb'⟩
  | ifElse hnotes _ _ hc hb he ihc ihb ihe =>
    intro k h
    obtain ⟨l, tag, rfl, hout⟩ := h.replaced rfl
      (replaces_ifElse hc.openNodes hb.openNodes (Notes.caller_of_unscoped hnotes) he.openNodes)
    obtain ⟨hc', hb', he'⟩ := expandable_choice hout
    exact within_ifElse.2 ⟨l, rfl, ihc hc', ihb hb', ihe he'⟩
  | @unlessThen c b notes block hnotes _ hc hb ihc ihb =>
    intro k h
    obtain ⟨_, tag, rfl, hif⟩ := h.replaced rfl
      (replaces_unless hc.openNodes hb.openNodes (Notes.caller_of_unscoped hnotes))
    -- the `if` that stands for it takes another expansion
    have hnot : (Tree.call (.symbol "!") [c] (introduced tag)).openNodes = [] :=
      Tree.openNodes_call rfl (List.forall_mem_singleton.2 hc.openNodes)
    obtain ⟨l, tag', rfl, hout⟩ := hif.replaced rfl
      (replaces_ifThen hnot hb.openNodes (caller_introduced tag))
    obtain ⟨hc', hb', -⟩ := expandable_choice hout
    exact within_unlessThen.2 ⟨l, rfl, ihc (hc'.part rfl (.head _)), ihb hb'⟩

/-! ## Meaning is kept -/

/-- What the user sees of an error. -/
def report (e : Error) : ErrorKind × String := (e.kind, e.message)

/-- What comes out evaluates to what the source means, wherever it stands. -/
def KeepsControl (t r : Tree) : Prop := Simulates report Eq control evaluate t r

theorem keeps_literal (d : Datum) : KeepsControl (.literal d) (.literal d) where
  value := by rintro env _ rfl; rfl
  clause := .none
  noTarget := rfl
  target := .none

theorem keeps_name (ident : String) (scope : Scope) :
    KeepsControl (.name ident scope) (.name ident scope) where
  value := by rintro env _ rfl; rfl
  clause := .none
  noTarget := rfl
  target := .some fun _ _ _ h => by rw [h]

theorem keeps_form {op : String} (hop : op ∈ ["case", "->", "!", "+", "let", "do_block"])
    {args rs : List Tree} (notes : Notes) (h : List.Forall₂ KeepsControl args rs) :
    KeepsControl (.call (.symbol op) args notes) (.call (.symbol op) rs notes) where
  value env env' henv := by
    rw [control_call env hop, evaluate_call]
    exact callValue_simulates op h henv
  clause := by
    simp only [Tree.clause?]
    split
    · exact .some (h.imp fun _ _ h => h.value)
    · exact .none
  noTarget := rfl
  target := .none

/-- A macro call is no clause and no target, and neither is a choice. -/
theorem keeps_choice {op : String} {args : List Tree} {notes notes' : Notes} {c b e : Tree}
    (hop : op ≠ arrow) (h : ∀ env, SameOutcome report
      (control env (.call (.symbol op) args notes)) (evaluate env (choice notes' c b e))) :
    KeepsControl (.call (.symbol op) args notes) (choice notes' c b e) where
  value := by rintro env _ rfl; exact h env
  clause := by
    rw [Tree.clause?, if_neg hop]
    exact .none
  noTarget := rfl
  target := .none

theorem sameOutcome_choose {v : Value} {x x' y y' : Except Error Value}
    (hx : SameOutcome report x x') (hy : SameOutcome report y y') :
    SameOutcome report (choose v x y) (choose v x' y') := by
  rcases v with _ | (_ | _) | _
  case bool.true => exact hx
  case bool.false => exact hy
  all_goals rfl

section
variable {c b e c' b' e' : Tree} {block block' notes notes' inner : Notes} {head head' : Head}
  (hc : KeepsControl c c') (hb : KeepsControl b b')
include hc hb

theorem keeps_ifThen : KeepsControl (.call (.symbol "if") [c, .call head [b] block] notes)
    (choice notes' c' b' (.literal .nil)) := by
  refine keeps_choice (by decide) fun env => ?_
  rw [control_ifThen, evaluate_choice]
  exact (hc.value _ _ rfl).bind fun v => sameOutcome_choose (hb.value _ _ rfl) rfl

theorem keeps_ifElse (he : KeepsControl e e') :
    KeepsControl (.call (.symbol "if") [c, .call head [b] block, .call head' [e] block'] notes)
      (choice notes' c' b' e') := by
  refine keeps_choice (by decide) fun env => ?_
  rw [control_ifElse, evaluate_choice]
  exact (hc.value _ _ rfl).bind fun v => sameOutcome_choose (hb.value _ _ rfl) (he.value _ _ rfl)

theorem keeps_unlessThen : KeepsControl (.call (.symbol "unless") [c, .call head [b] block] notes)
    (choice notes' (.call (.symbol "!") [c'] inner) b' (.literal .nil)) := by
  refine keeps_choice (by decide) fun env => ?_
  have hnot : evaluate env (.call (.symbol "!") [c'] inner) =
      (evaluate env c').bind fun v => .ok (.bool !v.holds) := evaluate_call env "!" [c'] inner
  have hbind : ∀ (x : Except Error Value) (f : Value → Except Error Value),
      (x.bind fun v => .ok (.bool !v.holds)).bind f = x.bind fun v => f (.bool !v.holds) := by
    intro x f
    cases x <;> rfl
  rw [control_unless, evaluate_choice, hnot, hbind]
  exact (hc.value _ _ rfl).bind fun v => sameOutcome_choose (hb.value _ _ rfl) rfl

end

section
variable {k : Nat} {P Q S T : Tree → Prop} {c b e : Tree}

theorem expands_choice {notes : Notes} (hc : Expands controlFlow.snapshot k c P)
    (hb : Expands controlFlow.snapshot k b Q) (he : Expands controlFlow.snapshot k e S)
    (h : ∀ c' b' e', P c' → Q b' → S e' → T (choice notes c' b' e')) :
    Expands controlFlow.snapshot k (choice notes c b e) T := by
  have clause : ∀ {x : Bool} {b : Tree} {Q : Tree → Prop}, Expands controlFlow.snapshot k b Q →
      Expands controlFlow.snapshot k (.call (.symbol "->") [truth x, b] notes)
        fun r => ∃ b', r = .call (.symbol "->") [truth x, b'] notes ∧ Q b' := by
    intro x b Q hb
    have htruth : Expands controlFlow.snapshot k (truth x) (· = truth x) :=
      .of_finished (Tree.finished_literal _) rfl
    refine .call rfl (.cons htruth (.cons hb .nil)) ?_
    rintro _ (_ | ⟨rfl, _ | ⟨hb', _ | _⟩⟩)
    exact ⟨_, rfl, hb'⟩
  refine .call rfl (.cons hc (.cons (clause hb) (.cons (clause he) .nil))) ?_
  rintro _ (_ | ⟨hc', _ | ⟨⟨b', rfl, hb'⟩, _ | ⟨⟨e', rfl, he'⟩, _ | _⟩⟩⟩)
  exact h _ _ _ hc' hb' he'

end

/-- What is within the limit is expanded to what evaluates to its meaning. -/
theorem ControlTree.expands {t : Tree} (ht : ControlTree t) : ∀ {k : Nat},
    t.Within controlWeight k → Expands controlFlow.snapshot k t (KeepsControl t) := by
  have hnil : ∀ {k : Nat}, Expands controlFlow.snapshot k (.literal .nil)
      (· = .literal .nil) := .of_finished (Tree.finished_literal _) rfl
  induction ht with
  | literal d =>
    intro k _
    exact .of_finished (Tree.finished_literal d) (keeps_literal d)
  | name ident =>
    intro k _
    exact .of_finished (Tree.finished_name ident .source) (keeps_name ident .source)
  | @form op args notes hop hnotes hargs ih =>
    intro k hk
    obtain ⟨hplain, hif, hunless⟩ := isMacro_control op hop
    have hparts : List.Forall₂ (Expands controlFlow.snapshot k) args (args.map KeepsControl) := by
      rw [List.forall₂_map_right_iff, List.forall₂_same]
      exact fun a ha => ih a ha ((within_operator hif hunless).1 hk a ha)
    refine .call hplain hparts fun rs hrs => ?_
    rw [List.forall₂_map_left_iff] at hrs
    exact keeps_form hop notes hrs
  | ifThen hnotes _ hc hb ihc ihb =>
    intro k hk
    obtain ⟨l, rfl, hkc, hkb⟩ := within_ifThen.1 hk
    refine .of_replaces rfl
      (replaces_ifThen hc.openNodes hb.openNodes (Notes.caller_of_unscoped hnotes)) fun tag => ?_
    refine expands_choice (ihc hkc) (ihb hkb) hnil ?_
    rintro c' b' _ hc' hb' rfl
    exact keeps_ifThen hc' hb'
  | ifElse hnotes _ _ hc hb he ihc ihb ihe =>
    intro k hk
    obtain ⟨l, rfl, hkc, hkb, hke⟩ := within_ifElse.1 hk
    refine .of_replaces rfl (replaces_ifElse hc.openNodes hb.openNodes
      (Notes.caller_of_unscoped hnotes) he.openNodes) fun tag => ?_
    refine expands_choice (ihc hkc) (ihb hkb) (ihe hke) ?_
    exact fun c' b' e' hc' hb' he' => keeps_ifElse hc' hb' he'
  | @unlessThen c b notes block hnotes _ hc hb ihc ihb =>
    intro k hk
    obtain ⟨l, rfl, hkc, hkb⟩ := within_unlessThen.1 hk
    refine .of_replaces rfl
      (replaces_unless hc.openNodes hb.openNodes (Notes.caller_of_unscoped hnotes)) fun tag => ?_
    have hnot : (Tree.call (.symbol "!") [c] (introduced tag)).openNodes = [] :=
      Tree.openNodes_call rfl (List.forall_mem_singleton.2 hc.openNodes)
    have hcond : Expands controlFlow.snapshot l (.call (.symbol "!") [c] (introduced tag))
        fun r => ∃ c', r = .call (.symbol "!") [c'] (introduced tag) ∧ KeepsControl c c' := by
      refine .call rfl (.cons (ihc hkc) .nil) ?_
      rintro _ (_ | ⟨hc', _ | _⟩)
      exact ⟨_, rfl, hc'⟩
    refine .of_replaces rfl (replaces_ifThen hnot hb.openNodes (caller_introduced tag))
      fun tag' => ?_
    refine expands_choice hcond (ihb hkb) hnil ?_
    rintro _ b' _ ⟨c', rfl, hc'⟩ hb' rfl
    exact keeps_unlessThen hc' hb'

/-! ## The registry -/

/-- What a block holds. -/
def blockBody? : Tree → Option Tree
  | .call _ (b :: _) _ => some b
  | _ => none

theorem blockBody?_retag (ρ : Tag → Tag) (t : Tree) :
    blockBody? (t.retag ρ) = (blockBody? t).map (Tree.retag ρ) := by
  rcases t with _ | ⟨_ | _, _ | _, _⟩ | _ | _ | ⟨_, _ | _⟩ | _ <;> rfl

theorem mem_marks_blockBody {t b : Tree} (h : blockBody? t = some b) {x : Mark} (hx : x ∈ b.marks) :
    x ∈ t.marks := by
  rcases t with _ | ⟨_ | _, _ | ⟨b', _⟩, _⟩ | _ | _ | _ | _ <;> cases h
  · simp [hx]
  · simp [hx]

theorem conditionalParts_eq (args : List Tree) : conditionalParts args = match args with
    | [c, b] => (blockBody? b).map fun b => [("cond", c), ("body", b)]
    | _ => none := by
  rcases args with _ | ⟨c, _ | ⟨b, _ | ⟨e, es⟩⟩⟩
  · rfl
  · rfl
  · rcases b with _ | ⟨_, _ | _, _⟩ | _ | _ | _ | _ <;> rfl
  · rcases b with _ | ⟨_, _ | _, _⟩ | _ | _ | _ | _ <;> rfl

theorem alternativeParts_eq (args : List Tree) : alternativeParts args = match args with
    | [c, b, e] => (blockBody? b).bind fun b => (blockBody? e).map fun e =>
      [("cond", c), ("body", b), ("otherwise", e)]
    | _ => none := by
  rcases args with _ | ⟨c, _ | ⟨b, _ | ⟨e, es⟩⟩⟩
  · rfl
  · rfl
  · rcases b with _ | ⟨_, _ | _, _⟩ | _ | _ | _ | _ <;> rfl
  · rcases b with _ | ⟨_, _ | _, _⟩ | _ | _ | _ | _
    case call.cons => rcases e with _ | ⟨_, _ | _, _⟩ | _ | _ | _ | _ <;> cases es <;> rfl
    all_goals cases es <;> rfl

theorem conditionalParts_fills {template : Tree} (htags : template.tags = [])
    (hcalls : ∀ m ∈ template.marks, ¬ m.IsCallerCall) : Fills template conditionalParts where
  partsOf := by
    intro args m h p hp x hx
    rw [conditionalParts_eq] at h
    split at h
    · obtain ⟨b, hb, rfl⟩ := Option.map_eq_some_iff.1 h
      simp only [List.mem_cons, List.not_mem_nil, or_false] at hp
      rcases hp with rfl | rfl
      · simp [hx]
      · simp [mem_marks_blockBody hb hx]
    · cases h
  natural ρ args := by
    rw [conditionalParts_eq, conditionalParts_eq]
    rcases args with _ | ⟨c, _ | ⟨b, _ | ⟨e, es⟩⟩⟩
    · rfl
    · rfl
    · simp only [List.map_cons, List.map_nil, blockBody?_retag]
      cases blockBody? b <;> rfl
    · rfl
  tags := htags
  calls := hcalls

theorem alternativeParts_fills {template : Tree} (htags : template.tags = [])
    (hcalls : ∀ m ∈ template.marks, ¬ m.IsCallerCall) : Fills template alternativeParts where
  partsOf := by
    intro args m h p hp x hx
    rw [alternativeParts_eq] at h
    split at h
    · obtain ⟨b, hb, h⟩ := Option.bind_eq_some_iff.1 h
      obtain ⟨e, he, rfl⟩ := Option.map_eq_some_iff.1 h
      simp only [List.mem_cons, List.not_mem_nil, or_false] at hp
      rcases hp with rfl | rfl | rfl
      · simp [hx]
      · simp [mem_marks_blockBody hb hx]
      · simp [mem_marks_blockBody he hx]
    · cases h
  natural ρ args := by
    rw [alternativeParts_eq, alternativeParts_eq]
    rcases args with _ | ⟨c, _ | ⟨b, _ | ⟨e, _ | ⟨f, fs⟩⟩⟩⟩
    · rfl
    · rfl
    · rfl
    · simp only [List.map_cons, List.map_nil, blockBody?_retag]
      cases blockBody? b with
      | none => rfl
      | some b => cases blockBody? e <;> rfl
    · rfl
  tags := htags
  calls := hcalls

theorem blind_conditional : conditional.Blind := by
  refine Pattern.blind_shape ?_
  simp [Matcher.blind_anything, blockMatcher, Matcher.blind_head]

theorem blind_alternative : alternative.Blind := by
  refine Pattern.blind_shape ?_
  simp [Matcher.blind_anything, blockMatcher, elseMatcher, Matcher.blind_head]

theorem controlFlow_fromTemplate : ∀ c ∈ controlFlow.rules, c.FromTemplate := by
  refine Registry.forall_rules_add
    ⟨blind_conditional, _, _, _, rfl, conditionalParts_fills rfl (by decide)⟩ ?_
  refine Registry.forall_rules_add
    ⟨blind_alternative, _, _, _, rfl, alternativeParts_fills rfl (by decide)⟩ ?_
  refine Registry.forall_rules_add
    ⟨blind_conditional, _, _, _, rfl, conditionalParts_fills rfl (by decide)⟩ ?_
  exact Registry.forall_rules_empty _

theorem controlFlow_regular : controlFlow.Regular :=
  Registry.regular_of_templates controlFlow_fromTemplate

/-! ## Whole expansions -/

/-- What the expansions of `t` with the limit `d` return, on any stack. -/
structure ControlExpansion (t : Tree) (d : Nat) (run : Budget → Except Error Value) : Prop where
  /-- Whatever the activities take of the stack, with enough room on it the tree is expanded, and
  with less the stack overflows, if and only if on every way down its macros take no more
  expansions than the limit. -/
  returns : ∀ costs, (∃ r N, ∀ limit, if N ≤ limit then run ⟨limit, costs⟩ = .ok (.tree r)
    else Overflowed (run ⟨limit, costs⟩)) ↔ t.Within controlWeight d
  /-- On any stack, what is returned evaluates to what the tree means, with the same errors. -/
  meaning : ∀ budget r, run budget = .ok (.tree r) → t.Within controlWeight d ∧
    ∀ env, SameOutcome report (control env t) (evaluate env r)

theorem ControlTree.expansion {t : Tree} (ht : ControlTree t) (d : Nat) (label : Value) :
    ControlExpansion t d fun budget => expandWithin budget controlFlow t d label := by
  have hsound : ∀ budget r, expandWithin budget controlFlow t d label = .ok (.tree r) →
      t.Within controlWeight d := by
    intro budget r hr
    obtain ⟨as, hscan, -⟩ := derivation_of_expandWithin controlFlow_regular hr
    exact ht.within ⟨as, r, hscan⟩
  constructor
  case returns =>
    intro costs
    constructor
    · rintro ⟨r, N, h⟩
      exact hsound ⟨N, costs⟩ r (returns_of_threshold h).2
    · intro h
      obtain ⟨r, -, hreturns⟩ :=
        expandWithin_of_expands controlFlow_regular ht.openNodes (ht.expands h) label
      exact ⟨r, hreturns costs⟩
  case meaning =>
    intro budget r hr
    have hwithin := hsound budget r hr
    obtain ⟨r', hkeeps, hreturns⟩ :=
      expandWithin_of_expands controlFlow_regular ht.openNodes (ht.expands hwithin) label
    -- what is returned on one stack is what is returned on every other
    obtain ⟨N, hN⟩ := hreturns budget.costs
    have hsame := (returns_of_threshold hN).1 budget.left (not_overflowed hr)
    cases hr.symm.trans hsame
    exact ⟨hwithin, fun env => hkeeps.value env env rfl⟩

/-- **Control flow macros keep the meaning.** With enough room on the stack, a tree of the language
is expanded if and only if its macros are within the limit, and on any stack what comes out
evaluates to what the tree means. -/
theorem expandMacros_control {t : Tree} (ht : ControlTree t) {d : Nat} (hd : 0 < d)
    (label : Value) :
    ControlExpansion t d (fun budget => expandWithin budget controlFlow t d label) ∧
      (expandMacros controlFlow (.tree t) (.int d) label).1 =
        expandWithin Expander.standardBudget controlFlow t d label :=
  ⟨ht.expansion d label, expandMacros_eq_within controlFlow t hd label⟩

theorem within_literal (d : Datum) (k : Nat) : (Tree.literal d).Within controlWeight k :=
  Tree.within_iff.2 ⟨Nat.zero_le _, List.forall_mem_nil _⟩

/-- Macros in the condition and in the block of an `unless`. -/
def layered : Tree :=
  op "unless" [op "if" [truth false, op "do_block" [truth true], op "else_block" [.literal .nil]],
    op "do_block" [op "if" [truth true, op "do_block" [.literal (.int 7)]]]]

theorem layered_controlTree : ControlTree layered :=
  .unlessThen rfl rfl (.ifElse rfl rfl rfl (.literal _) (.literal _) (.literal _))
    (.ifThen rfl rfl (.literal _) (.literal _))

theorem layered_within {k : Nat} : layered.Within controlWeight k ↔ 3 ≤ k := by
  constructor
  · intro h
    obtain ⟨l, rfl, hc, -⟩ := within_unlessThen.1 h
    obtain ⟨m, rfl, -⟩ := within_ifElse.1 hc
    omega
  · intro h
    obtain ⟨m, rfl⟩ : ∃ m, k = m + 3 := ⟨k - 3, by omega⟩
    refine within_unlessThen.2 ⟨m + 1, rfl, within_ifElse.2 ⟨m, rfl, ?_⟩,
      within_ifThen.2 ⟨m, rfl, ?_⟩⟩
    · exact ⟨within_literal _ _, within_literal _ _, within_literal _ _⟩
    · exact ⟨within_literal _ _, within_literal _ _⟩

theorem expandMacros_control_layered : ControlTree layered ∧
    control [] layered = .ok (.int 7) ∧
    (∃ r, (expandMacros controlFlow (.tree layered) (.int 3) Expander.standardLabel).1 =
        .ok (.tree r) ∧ ∀ env, SameOutcome report (control env layered) (evaluate env r)) ∧
    ¬ ∃ r, (expandMacros controlFlow (.tree layered) (.int 2) Expander.standardLabel).1 =
        .ok (.tree r) := by
  obtain ⟨h3, hrun3⟩ := expandMacros_control layered_controlTree (d := 3) (by decide)
    Expander.standardLabel
  obtain ⟨h2, hrun2⟩ := expandMacros_control layered_controlTree (d := 2) (by decide)
    Expander.standardLabel
  refine ⟨layered_controlTree, rfl, ?_, fun ⟨r, hr⟩ => ?_⟩
  · obtain ⟨r, hr, -⟩ := exists_of_returnedTags (x := (expandMacros controlFlow (.tree layered)
      (.int 3) Expander.standardLabel).1) (by decide +kernel)
    exact ⟨r, hr, (h3.meaning _ r (hrun3.symm.trans hr)).2⟩
  · exact absurd (layered_within.1 (h2.meaning _ r (hrun2.symm.trans hr)).1) (by decide)

theorem denials_controlTree : ∀ n, ControlTree (denials n)
  | 0 => .literal _
  | n + 1 => .form (by decide) rfl (List.forall_mem_singleton.2 (denials_controlTree n))

theorem within_denials (k : Nat) : ∀ n, (denials n).Within controlWeight k
  | 0 => within_literal _ k
  | n + 1 => (within_block (by decide) (by decide)).2 (within_denials k n)

/-- A tree without macros need not be expanded: it can be too deep. -/
theorem expandMacros_control_denials : ControlTree (denials 3000) ∧
    (denials 3000).Within controlWeight Expander.standardDepth ∧
    ∀ r, (expandMacros controlFlow (.tree (denials 3000)) (.int Expander.standardDepth)
      Expander.standardLabel).1 ≠ .ok (.tree r) := by
  have hn : 1000 ≤ 3000 := by decide
  have hd : 0 < Expander.standardDepth := by decide
  exact ⟨denials_controlTree _, within_denials _ _,
    fun r => expandMacros_denials_ne controlFlow hn hd _ _⟩

end Catalogue

end HygienicMacros
