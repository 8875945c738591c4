import HygienicMacros.Proofs.Likeness
import HygienicMacros.Proofs.Registration
import HygienicMacros.Proofs.Stepping

/-! # Two runs, step by step

A `Coupling` is a likeness together with the registries and the depth limits of two runs. Its states
are pairs of states that the expander cannot tell apart (`Coupling.States`), and two computations
are coupled if they take such a pair to another one with alike outcomes (`Coupling.Couples`). Only
where the first run fails with a waived error is the second run left alone.

A coupling is lawful if what the expander looks at is the same on both sides: which operators are
macros, which clause takes a macro call, what its transformer does, and whether one more expansion
may be nested. Every entry into the expander is then coupled (`Coupling.Lawful.couples_enter`). The
lemmas follow the expander: one for each of its computations.
-/

namespace HygienicMacros

variable {α β γ δ : Type}

/-! ## Equations -/

theorem on_matchClause_none {op : String} {args : List Tree} {s : Expander}
    (h : s.registry.lookup op (args.map .tree) = .ok none) (invocation : Tree) :
    (matchClause invocation (.symbol op) args).on s =
      (.error (.noMatchingClause s.filename invocation (.text op)
        ((s.registry.clauses op).map (·.pattern.describe))), { s with phase := .failed }) := by
  rw [matchClause, Run.on_bind_of_ok (on_setPhase _ _), Run.on_bind_of_ok (Run.on_get _)]
  dsimp only
  rw [h]
  rfl

theorem on_record_unhooked {s : Expander} (h : s.hook = none) (t : Transition) :
    (record t).on s =
      (.ok (), { s with history := t :: s.history, phase := .substituted }) := by
  rw [record, Run.on_bind_of_ok (Run.on_modify _ s), Run.on_bind_of_ok (Run.on_get _)]
  dsimp only
  rw [h]
  rfl

/-- A course that passes an error on ends with it. -/
theorem perform_passes (reenter : Mode → Value → Run Value) {e : Error} {x : Action Value}
    (h : x.Passes e) : ∀ s, ((perform reenter x).on s).1 = .error e := by
  induction x with
  | answer a => exact h.elim
  | fail e' => intro s; rw [show e' = e from h]; rfl
  | expand mode v next _ => exact h.elim
  | freshTag next ih =>
    intro s
    rw [perform, Run.on_bind_of_ok (on_freshTag s)]
    exact ih _ (h _) _
  | observe next ih =>
    intro s
    rw [perform, Run.on_bind_of_ok (Run.on_get s)]
    exact ih _ (h _) _
  | register site name pattern candidate next ih =>
    intro s
    cases site with
    | own =>
      rw [perform, Run.on_bind_of_ok (Run.on_get s)]
      exact ih _ (h _) _
    | source =>
      rw [perform, Run.on_bind_of_ok (Run.on_get s)]
      rcases s.source.register name pattern candidate with e' | ⟨source, clause⟩
      · exact ih _ (h _) _
      · exact ih _ (h _) _

/-! ## Couplings -/

/-- A likeness, with the registries and the depth limits of the two runs. -/
structure Coupling extends Likeness where
  registry : Registry
  registry' : Registry
  maxDepth : Nat
  maxDepth' : Nat

/-- Frames at the same depth, inside expansions of the same macros. -/
structure Frame.Alike (f g : Frame) : Prop where
  depth : g.depth = f.depth
  names : g.path.map (·.1) = f.path.map (·.1)

theorem Frame.Alike.inside {f g : Frame} (h : f.Alike g) (name : String) (a b : Tree) :
    (f.inside name a).Alike (g.inside name b) where
  depth := congrArg (· + 1) h.depth
  names := by simp [Frame.inside, h.names]

/-- Applications of the same macro with the same tag, from alike calls to alike trees. -/
structure Transition.Alike (L : Likeness) (a b : Transition) : Prop where
  macroName : b.macroName = a.macroName
  invocation : a.invocation.Alike L b.invocation
  answer : a.answer.Alike L b.answer
  tag : b.tag = a.tag
  expansion : a.expansion.Alike L b.expansion
  label : b.label = a.label
  depth : b.depth = a.depth

namespace Coupling

variable (C : Coupling)

/-- States of the two runs that the expander cannot tell apart. -/
structure States (s s' : Expander) : Prop where
  registry : s.registry = C.registry
  registry' : s'.registry = C.registry'
  maxDepth : s.maxDepth = C.maxDepth
  maxDepth' : s'.maxDepth = C.maxDepth'
  terminals : s'.source.terminals = s.source.terminals
  frozen : s'.source.frozen = s.source.frozen
  label : s'.label = s.label
  budget : s'.budget = s.budget
  stack : List.Forall₂ Frame.Alike s.stack s'.stack
  recursive : s'.recursive = s.recursive
  phase : s'.phase = s.phase
  tags : s'.tags = s.tags
  history : List.Forall₂ (Transition.Alike C.toLikeness) s.history s'.history
  calls : s'.calls = s.calls
  hook : s.hook = none
  hook' : s'.hook = none

/-- Outcomes of the two runs, with the states reached. -/
inductive Related (Q : α → β → Prop) : Except Error α × Expander → Except Error β × Expander → Prop
  | ok {a b s s'} (value : Q a b) (states : C.States s s') : Related Q (.ok a, s) (.ok b, s')
  | error {e e' s s'} (error : C.error e e') (states : C.States s s') :
      Related Q (.error e, s) (.error e', s')
  | waived {e s p} (waived : C.waived e) : Related Q (.error e, s) p

/-- Computations that have related outcomes on states that cannot be told apart. -/
def Couples (Q : α → β → Prop) (x : Run α) (y : Run β) : Prop :=
  ∀ s s', C.States s s' → C.Related Q (x.on s) (y.on s')

variable {C} {Q : α → β → Prop} {P : γ → δ → Prop}

/-! ## States -/

namespace States

variable {s s' : Expander}

theorem filename (h : C.States s s') : s'.filename = s.filename := by
  rw [Expander.filename, Expander.filename, h.label]

theorem frame (h : C.States s s') : s.frame.Alike s'.frame := by
  rw [Expander.frame, Expander.frame]
  have hstack := h.stack
  generalize s.stack = fs, s'.stack = gs at hstack
  cases hstack with
  | nil => exact ⟨rfl, rfl⟩
  | cons hfg _ => exact hfg

theorem transitions (h : C.States s s') : s'.transitions = s.transitions :=
  h.history.length_eq.symm

theorem observation (h : C.States s s') : s'.observation = s.observation := by
  simp only [Expander.observation, h.frame.depth, h.frame.names, h.transitions, h.calls, h.phase,
    h.recursive, h.label]

theorem withPhase (h : C.States s s') (p : Phase) :
    C.States { s with phase := p } { s' with phase := p } :=
  { h with phase := rfl }

theorem withTags (h : C.States s s') (tags : TagSupply) :
    C.States { s with tags := tags } { s' with tags := tags } :=
  { h with tags := rfl }

theorem withRecursive (h : C.States s s') (b : Bool) :
    C.States { s with recursive := b } { s' with recursive := b } :=
  { h with recursive := rfl }

theorem pop (h : C.States s s') :
    C.States { s with stack := s.stack.tail } { s' with stack := s'.stack.tail } := by
  refine { h with stack := ?_ }
  have hstack := h.stack
  generalize s.stack = fs, s'.stack = gs at hstack
  cases hstack with
  | nil => exact .nil
  | cons _ hrest => exact hrest

theorem withCall (h : C.States s s') :
    C.States { s with calls := s.calls + 1 } { s' with calls := s'.calls + 1 } :=
  { h with calls := congrArg (· + 1) h.calls }

end States

/-! ## Sequences -/

theorem couples_pure {a : α} {b : β} (h : Q a b) : C.Couples Q (pure a) (pure b) :=
  fun _ _ hs => .ok h hs

theorem couples_throw {e e' : Error} (h : C.error e e') :
    C.Couples Q (throw e) (throw e') := fun _ _ hs => .error h hs

theorem couples_failWith {e e' : Error} (h : C.error e e') :
    C.Couples Q (failWith e) (failWith e') := fun _ _ hs => .error h (hs.withPhase .failed)

theorem couples_get : C.Couples C.States get get := fun _ _ hs => .ok hs hs

theorem couples_setPhase (p : Phase) : C.Couples (fun _ _ => True) (setPhase p) (setPhase p) :=
  fun _ _ hs => .ok trivial (hs.withPhase p)

theorem couples_bind {x : Run α} {y : Run β} {f : α → Run γ} {g : β → Run δ}
    (h : C.Couples Q x y) (hf : ∀ {a b}, Q a b → C.Couples P (f a) (g b)) :
    C.Couples P (x >>= f) (y >>= g) := by
  intro s s' hs
  have hxy := h s s' hs
  rcases hx : x.on s with ⟨e | a, s₁⟩ <;> rcases hy : y.on s' with ⟨e' | b, s₁'⟩ <;>
    rw [hx, hy] at hxy
  · rw [Run.on_bind_of_error hx, Run.on_bind_of_error hy]
    cases hxy with
    | error he hs => exact .error he hs
    | waived he => exact .waived he
  · rw [Run.on_bind_of_error hx]
    cases hxy with
    | waived he => exact .waived he
  · cases hxy
  · rw [Run.on_bind_of_ok hx, Run.on_bind_of_ok hy]
    cases hxy with
    | ok hq hs => exact hf hq _ _ hs

/-- The same outcomes are related in other states. -/
theorem Related.map {p : Except Error α × Expander} {q : Except Error β × Expander}
    (h : C.Related Q p q) (f g : Expander → Expander)
    (hs : ∀ {s s'}, C.States s s' → C.States (f s) (g s')) :
    C.Related Q (p.1, f p.2) (q.1, g q.2) := by
  cases h with
  | ok hq h => exact .ok hq (hs h)
  | error he h => exact .error he (hs h)
  | waived he => exact .waived he

theorem couples_withMode {x : Run α} {y : Run β} (mode : Mode) (h : C.Couples Q x y) :
    C.Couples Q (withMode mode x) (withMode mode y) := by
  intro s s' hs
  rw [on_withMode, on_withMode, hs.recursive]
  exact (h _ _ (hs.withRecursive (mode == .recursive))).map
    (fun t => { t with recursive := s.recursive }) (fun t => { t with recursive := s.recursive })
    fun h => h.withRecursive s.recursive

theorem couples_withFrame {x : Run α} {y : Run β} {f g : Frame} (hfg : f.Alike g)
    (h : C.Couples Q x y) : C.Couples Q (withFrame f x) (withFrame g y) := by
  intro s s' hs
  have hpushed : C.States { s with stack := f :: s.stack } { s' with stack := g :: s'.stack } :=
    { hs with stack := .cons hfg hs.stack }
  rw [on_withFrame, on_withFrame]
  exact (h _ _ hpushed).map (fun t => { t with stack := t.stack.tail })
    (fun t => { t with stack := t.stack.tail }) fun h => h.pop

theorem couples_during {x : Run α} {y : Run β} (a : Activity) (h : C.Couples Q x y) :
    C.Couples Q (during a x) (during a y) := by
  intro s s' hs
  cases hb : s.budget.covers a with
  | false =>
    rw [on_during_of_not_covers hb, on_during_of_not_covers (hs.budget ▸ hb)]
    exact .error (C.error_refl _) hs
  | true =>
    have hspent : C.States (s.spend a) (s'.spend a) :=
      { hs with budget := congrArg (·.spend a) hs.budget }
    rw [on_during_of_covers hb, on_during_of_covers (hs.budget ▸ hb)]
    exact (h _ _ hspent).map (fun t => { t with budget := s.budget })
      (fun t => { t with budget := s'.budget }) fun h => { h with budget := hs.budget }

/-! ## Laws -/

variable (C) in
/-- How many expansions may still be nested on the two sides: as many, or more on the second side
while the errors of the first that say so are waived. -/
def Rooms (k k' : Nat) : Prop :=
  (k' = k ∧ C.maxDepth' = C.maxDepth ∧ ∀ filename path path',
    C.error (.depthExceeded (.nested filename path) C.maxDepth)
      (.depthExceeded (.nested filename path') C.maxDepth)) ∨
  (k ≤ k' ∧ ∀ filename path, C.waived (.depthExceeded (.nested filename path) C.maxDepth))

theorem Rooms.sub {k k' : Nat} (h : C.Rooms k k') (n : Nat) : C.Rooms (k - n) (k' - n) := by
  rcases h with ⟨rfl, hmax, herror⟩ | ⟨hle, hwaived⟩
  · exact .inl ⟨rfl, hmax, herror⟩
  · exact .inr ⟨by omega, hwaived⟩

variable (C) in
/-- What the expander looks at is the same on both sides. -/
structure Lawful : Prop where
  isMacro : C.registry'.isMacro = C.registry.isMacro
  terminals : C.registry'.terminals = C.registry.terminals
  frozen : C.registry'.frozen = C.registry.frozen
  depth : C.Rooms C.maxDepth C.maxDepth'
  /-- The same clause is found for alike macro calls, and makes alike requests. -/
  finds : ∀ {op as bs m n}, List.Forall₂ (Tree.Alike C.toLikeness) as bs → C.notes m n →
    C.Couples (fun c c' => c' = c ∧ Course.Alike C.toLikeness
        (c.transformer.body (.call (.symbol op) as m))
        (c.transformer.body (.call (.symbol op) bs n)))
      (matchClause (.call (.symbol op) as m) (.symbol op) as)
      (matchClause (.call (.symbol op) bs n) (.symbol op) bs)
  unmet : ∀ requirement {v w}, v.Alike C.toLikeness w →
    C.error (.unmet requirement v) (.unmet requirement w)
  unexpectedNode : ∀ filename {a b}, a.Alike C.toLikeness b →
    C.error (.invariant (.unexpectedNode filename a)) (.invariant (.unexpectedNode filename b))
  unresolvedInput : ∀ filename {a b}, a.Alike C.toLikeness b →
    C.error (.invariant (.unresolvedInput filename a)) (.invariant (.unresolvedInput filename b))
  applied : ∀ filename (c : Clause) {a b e e'}, a.Alike C.toLikeness b → C.error e e' →
    C.error (e.applied (useSite filename c a)) (e'.applied (useSite filename c b))
  waived : ∀ report {e}, C.waived e → C.waived (e.applied report)

/-! ## One application -/

section
variable {reenter reenter' : Mode → Value → Run Value}
  (hre : ∀ mode {v w}, v.Alike C.toLikeness w →
    C.Couples (Value.Alike C.toLikeness) (reenter mode v) (reenter' mode w))

include hre in
theorem Lawful.couples_perform (hC : C.Lawful) {x y : Action Value}
    (h : Course.Alike C.toLikeness x y) :
    C.Couples (Value.Alike C.toLikeness) (perform reenter x) (perform reenter' y) := by
  induction h with
  | answer h => exact couples_pure h
  | fail h => exact couples_throw h
  | @expand mode v w next next' hinput _ _ hwaived ihreturned ihfailed =>
    intro s s' hs
    rw [perform, perform, Run.on_bind_of_ok (on_attempt _ s),
      Run.on_bind_of_ok (on_attempt _ s')]
    have hsub := hre mode hinput s s' hs
    generalize (reenter mode v).on s = p at hsub
    generalize (reenter' mode w).on s' = q at hsub
    cases hsub with
    | ok hvalue hs => exact ihreturned hvalue _ _ hs
    | error he hs => exact ihfailed he _ _ hs
    | @waived e s₁ q he =>
      -- the error is passed on, so that the second run no longer matters
      have hpass := perform_passes reenter (hwaived he) s₁
      rcases hrun : (perform reenter (next (.error e))).on s₁ with ⟨r, s₂⟩
      rw [hrun] at hpass
      cases hpass
      exact .waived he
  | freshTag _ ih =>
    intro s s' hs
    rw [perform, perform, Run.on_bind_of_ok (on_freshTag s),
      Run.on_bind_of_ok (on_freshTag s'), hs.tags]
    exact ih _ _ _ (hs.withTags _)
  | observe _ ih =>
    intro s s' hs
    rw [perform, perform, Run.on_bind_of_ok (Run.on_get s),
      Run.on_bind_of_ok (Run.on_get s'), hs.observation]
    exact ih _ _ _ hs
  | @register site name name' pattern pattern' candidate candidate' _ _ hreg _ _ ihok iherror =>
    intro s s' hs
    cases site with
    | own =>
      rw [perform, perform, Run.on_bind_of_ok (Run.on_get s),
        Run.on_bind_of_ok (Run.on_get s'), hs.registry, hs.registry']
      have houtcomes := hreg C.registry C.registry' hC.terminals hC.frozen
      generalize C.registry.register name pattern candidate = r at houtcomes
      generalize C.registry'.register name' pattern' candidate' = r' at houtcomes
      cases houtcomes with
      | ok _ => exact ihok _ _ hs
      | error he => exact iherror he _ _ hs
    | source =>
      rw [perform, perform, Run.on_bind_of_ok (Run.on_get s),
        Run.on_bind_of_ok (Run.on_get s')]
      have houtcomes := hreg s.source s'.source hs.terminals hs.frozen
      rcases hr : s.source.register name pattern candidate with e | ⟨source, c⟩ <;>
        rcases hr' : s'.source.register name' pattern' candidate' with e' | ⟨source', c'⟩ <;>
        rw [hr, hr'] at houtcomes <;> cases houtcomes
      · exact iherror ‹_› _ _ hs
      · have hgains := (Registry.register_ok hr).2
        have hgains' := (Registry.register_ok hr').2
        refine ihok _ _ { hs with terminals := ?_, frozen := ?_ }
        · exact hgains'.terminals.trans (hs.terminals.trans hgains.terminals.symm)
        · exact hgains'.frozen.trans (hs.frozen.trans hgains.frozen.symm)

include hre in
theorem Lawful.couples_performTree (hC : C.Lawful) {x y : Action Value}
    (h : Course.Alike C.toLikeness x y) :
    C.Couples (Tree.Alike C.toLikeness) (performTree reenter x) (performTree reenter' y) := by
  refine couples_bind (hC.couples_perform hre h) fun {v w} hvw => ?_
  cases hvw with
  | tree htree => exact couples_pure htree
  | list hitems => exact couples_throw (hC.unmet _ (.list hitems))
  | tuple hitems => exact couples_throw (hC.unmet _ (.tuple hitems))
  | leaf hleaf => cases v <;> first | exact hleaf.elim | exact couples_throw (C.error_refl _)

include hre in
theorem Lawful.couples_applyClause (hC : C.Lawful) {c : Clause} {a b : Tree}
    (hab : a.Alike C.toLikeness b)
    (h : Course.Alike C.toLikeness (c.transformer.body a) (c.transformer.body b)) :
    C.Couples (Tree.Alike C.toLikeness) (applyClause reenter c a) (applyClause reenter' c b) := by
  intro s s' hs
  rw [on_applyClause, on_applyClause]
  have hbody := couples_during .application (hC.couples_performTree hre h) _ _ hs.withCall
  generalize (during _ (performTree reenter _)).on _ = p at hbody
  generalize (during _ (performTree reenter' _)).on _ = q at hbody
  cases hbody with
  | ok htree hs => exact .ok htree hs
  | error he hs =>
    dsimp only
    rw [hs.filename]
    exact .error (hC.applied _ c hab he) (hs.withPhase .failed)
  | waived he => exact .waived (hC.waived _ he)

end

theorem caller_eq {m n : Notes} (h : C.notes m n) : Notes.caller n = Notes.caller m := by
  rw [Notes.caller, Notes.caller, C.scope h]

/-- The transitions that are filed are alike, with the same tag. -/
theorem couples_settle (c : Clause) {a b answer answer' : Tree} {m n : Notes}
    (hab : a.Alike C.toLikeness b) (hnotes : C.notes m n)
    (hanswer : answer.Alike C.toLikeness answer') :
    C.Couples (Tree.Alike C.toLikeness) (settle c a m answer) (settle c b n answer') := by
  intro s s' hs
  rw [settle, settle, Run.on_bind_of_ok (on_freshTag s), Run.on_bind_of_ok (on_freshTag s'),
    caller_eq hnotes, hs.tags]
  rcases Notes.caller m with e | caller
  · exact .error (C.error_refl e) (hs.withTags _)
  · dsimp only
    rw [Run.on_bind_of_ok (Run.on_get _), Run.on_bind_of_ok (Run.on_get _)]
    have hcovers : s'.budget.covers (.resolution answer'.skeleton) =
        s.budget.covers (.resolution answer.skeleton) := by
      rw [hs.budget, hanswer.skeleton]
    dsimp only
    by_cases hfits : s.budget.covers (.resolution answer.skeleton) = true
    · rw [if_pos hfits, if_pos (hcovers.trans hfits)]
      have hresolved := hanswer.resolve s.tags.fresh.1 caller
      have hfresh := hs.withTags s.tags.fresh.2
      rw [Run.on_bind_of_ok (on_record_unhooked hfresh.hook _),
        Run.on_bind_of_ok (on_record_unhooked hfresh.hook' _)]
      refine .ok hresolved { hs with phase := rfl, tags := rfl, history := .cons ?_ hs.history }
      exact ⟨rfl, hab, hanswer, rfl, hresolved, rfl, hs.frame.depth⟩
    · rw [if_neg hfits, if_neg (hcovers ▸ hfits)]
      exact .error (C.error_refl _) (hs.withTags _)

/-! ## Scans -/

section
variable {E E' : Tree → Run Tree}
  (hcall : ∀ {op as bs m n}, List.Forall₂ (Tree.Alike C.toLikeness) as bs → C.notes m n →
    C.Couples (Tree.Alike C.toLikeness) (E (.call (.symbol op) as m))
      (E' (.call (.symbol op) bs n)))

theorem couples_scanList {as bs : List Tree}
    (h : List.Forall₂ (fun a b => C.Couples (Tree.Alike C.toLikeness) (scan E a) (scan E' b))
      as bs) :
    C.Couples (List.Forall₂ (Tree.Alike C.toLikeness)) (scanList E as) (scanList E' bs) := by
  induction h with
  | nil =>
    rw [scanList, scanList]
    exact couples_pure .nil
  | cons hab _ ih =>
    rw [scanList, scanList]
    refine couples_bind hab fun htree => couples_bind ih fun htrees => ?_
    exact couples_pure (.cons htree htrees)

theorem Lawful.couples_unexpected (hC : C.Lawful) {a b : Tree} (h : a.Alike C.toLikeness b) :
    C.Couples (Tree.Alike C.toLikeness) (unexpected a) (unexpected b) := by
  rw [unexpected, unexpected]
  refine couples_bind couples_get fun hs => ?_
  rw [hs.filename]
  exact couples_failWith (hC.unexpectedNode _ h)

include hcall in
theorem Lawful.couples_scan (hC : C.Lawful) (a : Tree) : ∀ {b}, a.Alike C.toLikeness b →
    C.Couples (Tree.Alike C.toLikeness) (scan E a) (scan E' b) := by
  induction a using Tree.induct with
  | call op args notes ih =>
    rintro _ (_ | ⟨hargs, hnotes⟩)
    rw [scan, scan]
    refine couples_bind couples_get fun {s s'} hs => ?_
    have hterminal : s'.registry.isTerminal op = s.registry.isTerminal op := by
      rw [Registry.isTerminal, Registry.isTerminal, hs.registry, hs.registry', hC.terminals]
    have hop : s'.registry.isMacro op = s.registry.isMacro op := by
      rw [hs.registry, hs.registry', hC.isMacro]
    dsimp only
    rw [hop, hterminal]
    split
    · exact hcall hargs hnotes
    · refine couples_bind (couples_setPhase _) fun _ => ?_
      rw [← hargs.length_eq]
      refine couples_bind (couples_during _ (couples_scanList
        (Tree.forall₂_mono hargs fun a ha _ h => ih a ha h))) fun hscanned => ?_
      exact couples_pure (.call hscanned hnotes)
  | apply f args notes ihf ih =>
    rintro _ (_ | _ | ⟨hf, hargs, hnotes⟩)
    rw [scan, scan]
    refine couples_bind (couples_setPhase _) fun _ => ?_
    refine couples_bind (couples_during _ (ihf hf)) fun hhead => ?_
    rw [← hargs.length_eq]
    refine couples_bind (couples_during _ (couples_scanList
      (Tree.forall₂_mono hargs fun a ha _ h => ih a ha h))) fun hscanned => ?_
    exact couples_pure (.apply hhead hscanned hnotes)
  | literal d =>
    intro b h
    cases h with
    | literal hdatum =>
      rw [scan, scan]
      exact couples_pure (.literal hdatum)
  | name ident scope =>
    intro b h
    cases h
    rw [scan]
    exact couples_pure (.refl _)
  | _ =>
    -- a placeholder, a marker or an unhygienic name, which is refused
    intro b h
    have hrefused := hC.couples_unexpected h
    cases h
    rw [scan, scan]
    exact hrefused

end

section
variable {reenter reenter' : Mode → Value → Run Value}
  (hre : ∀ mode {v w}, v.Alike C.toLikeness w →
    C.Couples (Value.Alike C.toLikeness) (reenter mode v) (reenter' mode w))

include hre in
theorem Lawful.couples_expandCall (hC : C.Lawful) (k : Nat) :
    ∀ {k' op as bs m n}, C.Rooms k k' → List.Forall₂ (Tree.Alike C.toLikeness) as bs →
      C.notes m n → C.Couples (Tree.Alike C.toLikeness)
        (expandCall reenter k (.call (.symbol op) as m))
        (expandCall reenter' k' (.call (.symbol op) bs n)) := by
  induction k with
  | zero =>
    intro k' op as bs m n hrooms hargs hnotes
    rw [expandCall]
    rcases hrooms with ⟨rfl, hmax, herror⟩ | ⟨-, hwaived⟩
    · rw [expandCall]
      refine couples_bind (hC.finds hargs hnotes) fun _ => couples_bind couples_get fun hs => ?_
      dsimp only
      rw [hs.filename, hs.maxDepth, hs.maxDepth', hmax]
      exact couples_failWith (herror _ _ _)
    · rw [expandCall]
      refine couples_bind (hC.finds hargs hnotes) fun _ => couples_bind couples_get fun hs => ?_
      intro s s' _
      rw [on_failWith, hs.maxDepth]
      exact .waived (hwaived _ _)
  | succ k ih =>
    intro k' op as bs m n hrooms hargs hnotes
    obtain ⟨k', rfl⟩ : ∃ j, k' = j + 1 := by
      rcases hrooms with ⟨rfl, -⟩ | ⟨hle, -⟩
      · exact ⟨k, rfl⟩
      · exact ⟨k' - 1, by omega⟩
    have hcall : (Tree.call (.symbol op) as m).Alike C.toLikeness (.call (.symbol op) bs n) :=
      .call hargs hnotes
    rw [expandCall, expandCall]
    refine couples_bind (hC.finds hargs hnotes) fun {c c'} hc => ?_
    obtain ⟨rfl, hbody⟩ := hc
    refine couples_bind couples_get fun hs => ?_
    refine couples_bind (hC.couples_applyClause hre hcall hbody) fun hanswer => ?_
    refine couples_bind (couples_settle _ hcall hnotes hanswer) fun hexpansion => ?_
    refine couples_bind couples_get fun hs₂ => ?_
    rw [hs₂.recursive]
    split
    · refine couples_withFrame (hs.frame.inside _ _ _) (couples_during _ ?_)
      exact hC.couples_scan (ih (hrooms.sub 1)) _ hexpansion
    · exact couples_pure hexpansion

end

/-! ## Entries -/

mutual

theorem Lawful.couples_scanValue (hC : C.Lawful) {E E' : Tree → Run Tree}
    (hscan : ∀ {a b}, a.Alike C.toLikeness b →
      C.Couples (Tree.Alike C.toLikeness) (scan E a) (scan E' b)) :
    ∀ (v : Value) {w}, v.Alike C.toLikeness w →
      C.Couples (Value.Alike C.toLikeness) (scanValue E v) (scanValue E' w)
  | .tree a, _, h => by
    cases h with
    | tree h =>
      rw [scanValue, scanValue]
      exact couples_bind (hscan h) fun htree => couples_pure (.tree htree)
    | leaf h => exact h.elim
  | .list vs, _, h => by
    cases h with
    | list h =>
      rw [scanValue, scanValue]
      exact couples_bind (couples_during _ (hC.couples_scanValues hscan vs h)) fun hitems =>
        couples_pure (.list hitems)
    | leaf h => exact h.elim
  | .tuple vs, _, h => by
    cases h with
    | tuple h => exact couples_failWith (hC.unmet _ (.tuple h))
    | leaf h => exact h.elim
  | .nothing, _, .leaf _ | .bool _, _, .leaf _ | .int _, _, .leaf _ | .float _, _, .leaf _
  | .text _, _, .leaf _ | .atom _, _, .leaf _ | .pending _, _, .leaf _ | .record _, _, .leaf _
  | .variety _, _, .leaf _ => couples_failWith (C.error_refl _)

theorem Lawful.couples_scanValues (hC : C.Lawful) {E E' : Tree → Run Tree}
    (hscan : ∀ {a b}, a.Alike C.toLikeness b →
      C.Couples (Tree.Alike C.toLikeness) (scan E a) (scan E' b)) :
    ∀ (vs : List Value) {ws}, List.Forall₂ (Value.Alike C.toLikeness) vs ws →
      C.Couples (List.Forall₂ (Value.Alike C.toLikeness)) (scanValues E vs) (scanValues E' ws)
  | [], _, .nil => by
    rw [scanValues, scanValues]
    exact couples_pure .nil
  | v :: vs, _, .cons h hs => by
    rw [scanValues, scanValues]
    refine couples_bind (hC.couples_scanValue hscan v h) fun hvalue => ?_
    refine couples_bind (hC.couples_scanValues hscan vs hs) fun hvalues => ?_
    exact couples_pure (.cons hvalue hvalues)

end

theorem flatMap_tags_eq {as bs : List Tree} (h : List.Forall₂ (Tree.Alike C.toLikeness) as bs) :
    as.flatMap Tree.tags = bs.flatMap Tree.tags := by
  rw [List.flatMap_def, List.flatMap_def, map_eq_of_forall₂ h fun hab => hab.tags]

theorem all_skeleton_eq {as bs : List Tree} (h : List.Forall₂ (Tree.Alike C.toLikeness) as bs)
    (p : Skeleton → Bool) : (as.all fun t => p t.skeleton) = bs.all fun t => p t.skeleton := by
  have hskeletons : as.map Tree.skeleton = bs.map Tree.skeleton :=
    map_eq_of_forall₂ h fun hab => hab.skeleton
  have hall := congrArg (List.all · p) hskeletons
  rwa [List.all_map, List.all_map] at hall

theorem Lawful.couples_prepare (hC : C.Lawful) {v w : Value} (h : v.Alike C.toLikeness w) :
    C.Couples (fun _ _ => True) (prepare v) (prepare w) := by
  intro s s' hs
  obtain ⟨htrees, hmisfit⟩ := h.forest
  have hopen : List.Forall₂ (Tree.Alike C.toLikeness) (v.forest.1.flatMap Tree.openNodes)
      (w.forest.1.flatMap Tree.openNodes) :=
    List.rel_flatMap htrees fun _ _ hab => hab.openNodes
  rw [prepare, prepare, Run.on_bind_of_ok (Run.on_get s), Run.on_bind_of_ok (Run.on_get s')]
  dsimp only
  rw [hs.budget, ← all_skeleton_eq htrees fun k => s.budget.covers (.survey k), ← hmisfit,
    ← flatMap_tags_eq htrees, hs.filename, hs.tags]
  split
  · generalize v.forest.1.flatMap Tree.openNodes = ns, w.forest.1.flatMap Tree.openNodes = ns'
      at hopen
    rcases v.forest.2 with _ | e
    · cases hopen with
      | nil => exact .ok trivial { hs with tags := rfl, budget := rfl }
      | cons hab _ => exact .error (hC.unresolvedInput _ hab) hs
    · exact .error (C.error_refl e) hs
  · exact .error (C.error_refl _) hs

theorem Lawful.rooms (hC : C.Lawful) {s s' : Expander} (hs : C.States s s') :
    C.Rooms s.remaining s'.remaining := by
  rw [Expander.remaining, Expander.remaining, hs.maxDepth, hs.maxDepth', hs.frame.depth]
  exact hC.depth.sub _

/-- **Every entry into the expander is coupled.** The induction is on the room on the stack, which
is less inside a transformer. -/
theorem Lawful.couples_enter (hC : C.Lawful) : ∀ (room : Nat) (mode : Mode) {v w : Value},
    v.Alike C.toLikeness w →
    C.Couples (Value.Alike C.toLikeness) (enter room mode v) (enter room mode w)
  | 0, _, _, _, _ => couples_throw (C.error_refl _)
  | room + 1, mode, v, w, h => by
    rw [enter, enter]
    refine couples_during .entry ?_
    refine couples_bind (hC.couples_prepare h) fun _ => couples_bind couples_get fun hs => ?_
    refine couples_withMode mode (hC.couples_scanValue ?_ v h)
    refine hC.couples_scan ?_ _
    exact hC.couples_expandCall (hC.couples_enter room) _ (hC.rooms hs)

theorem Lawful.couples_visitRecursively (hC : C.Lawful) {v w : Value}
    (h : v.Alike C.toLikeness w) :
    C.Couples (Value.Alike C.toLikeness) (visitRecursively v) (visitRecursively w) := by
  refine couples_bind couples_get fun hs => ?_
  rw [hs.budget]
  exact hC.couples_enter _ _ h

/-- Two expanders begin in states that cannot be told apart. -/
theorem states_ofRegistry {source source' : Registry} (hregistry : C.registry = source.snapshot)
    (hregistry' : C.registry' = source'.snapshot)
    (hterminals : source'.terminals = source.terminals)
    (hfrozen : source'.frozen = source.frozen) (label : Value) (budget : Budget) :
    C.States ((Expander.ofRegistry source C.maxDepth label).withBudget budget)
      ((Expander.ofRegistry source' C.maxDepth' label).withBudget budget) where
  registry := hregistry.symm
  registry' := hregistry'.symm
  maxDepth := rfl
  maxDepth' := rfl
  terminals := hterminals
  frozen := hfrozen
  label := rfl
  budget := rfl
  stack := .cons ⟨rfl, rfl⟩ .nil
  recursive := rfl
  phase := rfl
  tags := rfl
  history := .nil
  calls := rfl
  hook := rfl
  hook' := rfl

end Coupling

end HygienicMacros
