import Mathlib.Data.List.Forall2
import Mathlib.Data.Option.Defs
import HygienicMacros.Evaluator

/-! # Evaluation, one call at a time

The value of a call depends on its arguments in three ways only: on their values, on what they are
as clauses of a `case`, and on what they are as targets of a `let`. `callValue` computes it from an
evaluator for the arguments, and `evaluate` is one that follows it (`evaluate_call`).

So two evaluators that follow it agree on two calls of an operator as soon as they agree on the
arguments in these three ways (`callValue_simulates`). Errors are compared through a view `π` of
them, since an error can quote a tree.
-/

namespace HygienicMacros

variable {α : Type}

/-- The same value, or two errors that look the same through `π`. -/
def SameOutcome (π : Error → α) (x y : Except Error Value) : Prop :=
  x.mapError π = y.mapError π

theorem SameOutcome.refl (π : Error → α) (x : Except Error Value) : SameOutcome π x x := rfl

theorem SameOutcome.bind {π : Error → α} {x y : Except Error Value}
    {f g : Value → Except Error Value} (h : SameOutcome π x y)
    (hf : ∀ v, SameOutcome π (f v) (g v)) : SameOutcome π (x.bind f) (y.bind g) := by
  unfold SameOutcome at h
  cases x with
  | error e =>
    cases y with
    | error e' => exact h
    | ok w => cases h
  | ok v =>
    cases y with
    | error e' => cases h
    | ok w =>
      cases h
      exact hf v

/-! ## The value of a call -/

/-- A way to evaluate trees. -/
abbrev Evaluation := Environment → Tree → Except Error Value

namespace Tree

/-- The parts of a clause of `case`. -/
def clause? : Tree → Option (List Tree)
  | .call (.symbol op) args _ => if op = arrow then some args else none
  | _ => none

/-- The variable that a target of `let` is. -/
def binder? : Tree → Option (String × Scope)
  | .name ident scope => some (ident, scope)
  | _ => none

end Tree

section
variable (ev : Evaluation) (env : Environment)

def caseValue (v : Value) : List Tree → Except Error Value
  | [] => .error (.noCase v)
  | c :: rest => match c.clause? with
    | none => .error (.fault .assertion)
    | some [pattern, body] => (ev env pattern).bind fun p =>
      if p.same v then ev env body else caseValue v rest
    | some args => .error (.fault (.unpack 2 args.length))

def sumValue (total : Value) : List Tree → Except Error Value
  | [] => .ok total
  | t :: ts => (ev env t).bind fun v => (total.plus "+" v).bind fun total => sumValue total ts

def blockValue (last : Value) : List Tree → Except Error Value
  | [] => .ok last
  | t :: ts => (ev env t).bind fun v => blockValue v ts

def letValue : List Tree → Except Error Value
  | [target, value, body] => (ev env value).bind fun v =>
    match target.binder? with
    | some (ident, scope) => ev (env.bind ident scope v) body
    | none => .error (.fault (.noAttribute (.tree target) "name"))
  | args => .error (.fault (.unpack 3 args.length))

/-- The value of a call of an operator, by an evaluator for its arguments. -/
def callValue (op : String) (args : List Tree) : Except Error Value :=
  if op = "case" then
    match args with
    | [] => .error (.fault .indexRange)
    | subject :: clauses => (ev env subject).bind fun v => caseValue ev env v clauses
  else if op = "!" then
    match args with
    | [] => .error (.fault .indexRange)
    | arg :: _ => (ev env arg).map fun v => .bool !v.holds
  else if op = "+" then sumValue ev env (.int 0) args
  else if op = "let" then letValue ev env args
  else if op = "do_block" then blockValue ev env .nothing args
  else .error (.unknownOperator (.text op))

end

section
variable (env : Environment)

theorem evaluateCases_eq (v : Value) (cs : List Tree) :
    evaluateCases env v cs = caseValue evaluate env v cs := by
  induction cs with
  | nil => rw [evaluateCases, caseValue]
  | cons c rest ih =>
    rw [caseValue]
    rcases c with _ | ⟨op | f, args, notes⟩ | _ | _ | _ | _
    case call.symbol =>
      rw [evaluateCases.eq_def, Tree.clause?]
      by_cases hop : op = arrow
      · simp only [if_pos hop]
        rcases args with _ | ⟨pattern, _ | ⟨body, _ | _⟩⟩ <;> try rfl
        dsimp only
        rw [ih]
        cases evaluate env pattern <;> rfl
      · simp only [if_neg hop]
    all_goals simp [evaluateCases, Tree.clause?]

theorem evaluateSum_eq_sumValue (total : Value) (ts : List Tree) :
    evaluateSum env total ts = sumValue evaluate env total ts := by
  induction ts generalizing total with
  | nil => rw [evaluateSum, sumValue]
  | cons t ts ih =>
    rw [evaluateSum, sumValue]
    cases evaluate env t with
    | error e => rfl
    | ok v =>
      dsimp only [Except.bind]
      cases total.plus "+" v with
      | error e => rfl
      | ok total => exact ih total

theorem evaluateBlock_eq_blockValue (last : Value) (ts : List Tree) :
    evaluateBlock env last ts = blockValue evaluate env last ts := by
  induction ts generalizing last with
  | nil => rw [evaluateBlock, blockValue]
  | cons t ts ih =>
    rw [evaluateBlock, blockValue]
    cases evaluate env t with
    | error e => rfl
    | ok v => exact ih v

theorem evaluate_call (op : String) (args : List Tree) (notes : Notes) :
    evaluate env (.call (.symbol op) args notes) = callValue evaluate env op args := by
  rw [evaluate.eq_def, callValue.eq_def]
  refine ite_congr rfl (fun _ => ?_) fun _ => ite_congr rfl (fun _ => rfl) fun _ =>
    ite_congr rfl (fun _ => ?_) fun _ => ite_congr rfl (fun _ => ?_) fun _ =>
    ite_congr rfl (fun _ => ?_) fun _ => rfl
  · rcases args with _ | ⟨subject, clauses⟩
    · rfl
    · dsimp only
      cases evaluate env subject with
      | error e => rfl
      | ok v => exact evaluateCases_eq env v clauses
  · exact evaluateSum_eq_sumValue env _ args
  · rcases args with _ | ⟨target, _ | ⟨value, _ | ⟨body, _ | _⟩⟩⟩ <;> try rfl
    dsimp only [letValue]
    cases evaluate env value with
    | error e => rfl
    | ok v => cases target <;> rfl
  · exact evaluateBlock_eq_blockValue env _ args

end

/-! ## Two evaluators -/

/-- In environments related by `E`, the evaluator `f` makes of `t` what `g` makes of `u`: as a
value, as a clause of a `case`, and as a target of a `let`. -/
structure Simulates (π : Error → α) (E : Environment → Environment → Prop) (f g : Evaluation)
    (t u : Tree) : Prop where
  value : ∀ env env', E env env' → SameOutcome π (f env t) (g env' u)
  clause : Option.Rel
    (List.Forall₂ fun t u => ∀ env env', E env env' → SameOutcome π (f env t) (g env' u))
    t.clause? u.clause?
  noTarget : π (.fault (.noAttribute (.tree t) "name")) = π (.fault (.noAttribute (.tree u) "name"))
  target : Option.Rel (fun x y => ∀ env env' v, E env env' →
    E (env.bind x.1 x.2 v) (env'.bind y.1 y.2 v)) t.binder? u.binder?

section
variable {π : Error → α} {E : Environment → Environment → Prop} {f g : Evaluation}
  {env env' : Environment} {ts us : List Tree}

theorem caseValue_simulates (h : List.Forall₂ (Simulates π E f g) ts us) (henv : E env env')
    (v : Value) : SameOutcome π (caseValue f env v ts) (caseValue g env' v us) := by
  induction h with
  | nil => rfl
  | @cons t u ts us h _ ih =>
    rw [caseValue, caseValue]
    have hclause := h.clause
    generalize t.clause? = ct at hclause ⊢
    generalize u.clause? = cu at hclause ⊢
    rcases hclause with ⟨_ | ⟨hpattern, _ | ⟨hbody, _ | ⟨_, hrest⟩⟩⟩⟩ | _
    · rfl
    · rfl
    · refine (hpattern _ _ henv).bind fun p => ?_
      split
      · exact hbody _ _ henv
      · exact ih
    · simp only [List.length_cons, hrest.length_eq, SameOutcome]
    · rfl

theorem sumValue_simulates (h : List.Forall₂ (Simulates π E f g) ts us) (henv : E env env')
    (total : Value) : SameOutcome π (sumValue f env total ts) (sumValue g env' total us) := by
  induction h generalizing total with
  | nil => rfl
  | cons h _ ih => exact (h.value _ _ henv).bind fun v => (SameOutcome.refl π _).bind ih

theorem blockValue_simulates (h : List.Forall₂ (Simulates π E f g) ts us) (henv : E env env')
    (last : Value) : SameOutcome π (blockValue f env last ts) (blockValue g env' last us) := by
  induction h generalizing last with
  | nil => rfl
  | cons h _ ih => exact (h.value _ _ henv).bind ih

theorem letValue_simulates (h : List.Forall₂ (Simulates π E f g) ts us) (henv : E env env') :
    SameOutcome π (letValue f env ts) (letValue g env' us) := by
  rcases h with _ | ⟨ht, _ | ⟨hv, _ | ⟨hb, _ | ⟨_, hrest⟩⟩⟩⟩
  · rfl
  · rfl
  · rfl
  · refine (hv.value _ _ henv).bind fun v => ?_
    have htarget := ht.target
    rcases hx : Tree.binder? _ with _ | x <;> rcases hy : Tree.binder? _ with _ | y
    all_goals rw [hx, hy] at htarget
    · exact congrArg Except.error ht.noTarget
    · cases htarget
    · cases htarget
    · cases htarget with
      | some hbind => exact hb.value _ _ (hbind env env' v henv)
  · simp only [letValue, List.length_cons, hrest.length_eq, SameOutcome]

/-- Calls of one operator are evaluated alike if their arguments are. -/
theorem callValue_simulates (op : String) (h : List.Forall₂ (Simulates π E f g) ts us)
    (henv : E env env') : SameOutcome π (callValue f env op ts) (callValue g env' op us) := by
  unfold callValue
  split
  · rcases h with _ | ⟨hsubject, hclauses⟩
    · rfl
    · exact (hsubject.value _ _ henv).bind fun v => caseValue_simulates hclauses henv v
  split
  · rcases h with _ | ⟨harg, _⟩
    · rfl
    · exact (harg.value _ _ henv).bind fun v => .refl π (.ok (.bool !v.holds))
  split
  · exact sumValue_simulates h henv _
  split
  · exact letValue_simulates h henv
  split
  · exact blockValue_simulates h henv _
  · rfl

end

end HygienicMacros
