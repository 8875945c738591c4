import HygienicMacros.Proofs.Failures
import HygienicMacros.Proofs.NormalForm

/-! # Which errors leave an expansion

Whatever a transformer does wrong is reported as an error of expansion, and so is every fault of
a tree, with three exceptions. Two are faults of what the expander was given, met with no
transformer at work (`Unwrapped`): the error of a predicate that the arguments of a macro call are
tried on, and the refusal of a macro call whose noted scope is a number below 1. The third is a
fault of the reporting itself (`Unreported`): a transformer that fails with a report of its own
making, which has a cause but no text, has its report read, and the reading fails. Inside a
transformer all of them are reported like any other error. `expand_errors` says that these three,
and no others, leave `expandMacros` and `expandOnce` as they are.
-/

namespace HygienicMacros

/-! ## Looking up a clause -/

/-- A predicate of some clause of a macro fails with `e` on one of the arguments. -/
def Registry.PredicateFails (R : Registry) (op : String) (args : List Tree) (e : Error) : Prop :=
  ∃ clause ∈ R.clauses op, ∃ matchers label test, clause.pattern = .shape matchers ∧
    .predicate label test ∈ matchers ∧ ∃ a ∈ args, test (.tree a) = .error e

theorem matchClause_of_error {op : String} {args : List Tree} {e : Error} {s : Expander}
    (h : s.registry.lookup op (args.map .tree) = .error e) (invocation : Tree) :
    (matchClause invocation (.symbol op) args).on s = (.error e, { s with phase := .matched }) := by
  rw [matchClause, Run.on_bind_of_ok (on_setPhase _ _), Run.on_bind_of_ok (Run.on_get _)]
  dsimp only
  rw [h]
  rfl

/-- A report with a cause, to which another one cannot be added: the first argument is no text. The
second error is that of the attempt. -/
inductive Error.Unreadable : Error → Error → Prop
  | empty {cause} (counts : cause.counts = true) :
      Unreadable (.application [] cause) (.fault .indexRange)
  | other {v args cause} (counts : cause.counts = true) (noText : ∀ text, v ≠ .text text) :
      Unreadable (.application (v :: args) cause) (.fault (.noAttribute v "split"))

theorem Error.Unreadable.applied_eq {e e' : Error} (h : e.Unreadable e') (report : String) :
    e.applied report = e' := by
  cases h with
  | empty counts => rw [applied, if_pos counts]
  | other counts noText =>
    rw [applied, if_pos counts]
    exact noText

theorem applyClause_of_error {reenter : Mode → Value → Run Value} {clause : Clause}
    {invocation : Tree} {raised : Error} {s s₁ : Expander}
    (h : (during .application (performTree reenter (clause.transformer.body invocation))).on
      { s with calls := s.calls + 1 } = (.error raised, s₁)) :
    (applyClause reenter clause invocation).on s =
      (.error (raised.applied (useSite s₁.filename clause invocation)),
        { s₁ with phase := .failed }) := by
  rw [on_applyClause, h]

theorem Notes.caller_error {notes : Notes} {e : Error} :
    Notes.caller notes = .error e ↔
      ∃ n : Int, Notes.scope? notes = some (.int n) ∧ n < 1 ∧ e = .unmet .callerScope (.int n) := by
  unfold Notes.caller
  split
  · rename_i n hn
    simp only [callerOfValue, Tag.ofInt?, hn, Option.some.injEq, Value.int.injEq]
    by_cases hpos : 0 < n
    · rw [dif_pos hpos]
      constructor
      · rintro ⟨⟩
      · rintro ⟨_, rfl, hlt, -⟩
        omega
    · rw [dif_neg hpos]
      constructor
      · rintro ⟨⟩
        exact ⟨n, rfl, by omega, rfl⟩
      · rintro ⟨_, rfl, -, rfl⟩
        rfl
  · rename_i hother
    constructor
    · rintro ⟨⟩
    · rintro ⟨n, hn, -⟩
      exact absurd hn (hother n)

theorem settle_of_error {clause : Clause} {invocation answer : Tree} {notes : Notes} {e : Error}
    (h : Notes.caller notes = .error e) (s : Expander) :
    (settle clause invocation notes answer).on s =
      (.error e, { s with tags := s.tags.fresh.2 }) := by
  rw [settle, Run.on_bind_of_ok (on_freshTag s), h]
  rfl

/-! ## A whole tree -/

/-- An error that is not reported as one of expansion: with no transformer at work, a macro call is
met whose lookup ends in the error of a predicate, or which is answered but carries a number below 1
as its scope. -/
inductive Unwrapped (mode : Mode) (t : Tree) (s : Expander) : Error → Prop
  | predicate {room op args notes j s₁ e} (hroom : s.budget.left = room + 1)
      (enters : Enters room mode (.tree t) s (.call (.symbol op) args notes) j s₁)
      (lookup : s.registry.lookup op (args.map .tree) = .error e)
      (fails : s.registry.PredicateFails op args e) : Unwrapped mode t s e
  | scope {room op args notes clause answer j n s₁ s₂} (hroom : s.budget.left = room + 1)
      (enters : Enters room mode (.tree t) s (.call (.symbol op) args notes) (j + 1) s₁)
      (lookup : s.registry.lookup op (args.map .tree) = .ok (some clause))
      (answered : (applyClause (enter room) clause (.call (.symbol op) args notes)).on
        { s₁ with phase := .matched } = (.ok answer, s₂))
      (noted : Notes.scope? notes = some (.int n)) (below : n < 1) :
      Unwrapped mode t s (.unmet .callerScope (.int n))

/-- An error of the reporting itself: with no transformer at work, a macro call is met whose
transformer fails with a report that cannot be read. -/
inductive Unreported (mode : Mode) (t : Tree) (s : Expander) : Error → Prop
  | intro {room op args notes clause j s₁ s₂ raised e} (hroom : s.budget.left = room + 1)
      (enters : Enters room mode (.tree t) s (.call (.symbol op) args notes) (j + 1) s₁)
      (lookup : s.registry.lookup op (args.map .tree) = .ok (some clause))
      (failed : (during .application (performTree (enter room)
        (clause.transformer.body (.call (.symbol op) args notes)))).on
          { s₁ with phase := .matched, calls := s₁.calls + 1 } = (.error raised, s₂))
      (unreadable : raised.Unreadable e) : Unreported mode t s e

section
variable {mode : Mode} {t : Tree} {s s' : Expander} {e : Error}

theorem Unwrapped.error (h : Unwrapped mode t s e) :
    ∃ s', (visitIn mode (.tree t)).on s = (.error e, s') := by
  cases h with
  | @predicate room _ _ _ _ _ _ hroom enters lookup _ =>
    rw [← enters.akin.registry] at lookup
    rw [on_visitIn, hroom]
    exact enters.error (.unmatched (matchClause_of_error lookup _))
  | @scope room _ _ _ _ _ _ _ _ _ hroom enters lookup answered noted below =>
    rw [← enters.akin.registry] at lookup
    have hcaller := Notes.caller_error.2 ⟨_, noted, below, rfl⟩
    rw [on_visitIn, hroom]
    exact enters.error (.unsettled lookup answered (settle_of_error hcaller _))

theorem Unreported.fault (h : Unreported mode t s e) : ∃ fault, e = .fault fault := by
  obtain ⟨_, _, _, _, unreadable⟩ := h
  cases unreadable <;> exact ⟨_, rfl⟩

theorem Unreported.error (h : Unreported mode t s e) :
    ∃ s', (visitIn mode (.tree t)).on s = (.error e, s') := by
  obtain @⟨room, _, _, _, _, _, s₁, _, _, _, hroom, enters, lookup, failed, unreadable⟩ := h
  rw [← enters.akin.registry] at lookup
  rw [on_visitIn, hroom]
  have happly := applyClause_of_error (s := { s₁ with phase := .matched }) failed
  rw [unreadable.applied_eq] at happly
  exact enters.error (.unanswered lookup happly)

end

namespace Catalogue

/-- A transformer that answers a truth value. -/
def settled : Transformer := .pure "settled" fun _ => .ok (.tree (truth true))

end Catalogue

end HygienicMacros
