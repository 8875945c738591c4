import HygienicMacros.Expander.Run

/-! # Running computations

`Run.on x s` is the outcome of `x` on the state `s`, with the state reached. Each primitive
computation has its equation here, and a sequence is opened by `on_bind` or, where it succeeds, by
`on_bind_ok`; later proofs do not look at how `Run` is built.

`Expander.Later s s'` says what no computation of the expander changes, and what only grows:
`Run.Steady x` is that relation between the states before and after `x`, whatever the outcome.
Every computation of the expander is steady (`steady_enter`), with any transformers: a transformer
may re-enter the expander, and its failures are handed back to it.
-/

namespace HygienicMacros

variable {α β : Type}

namespace Run

/-- The outcome of a computation on a state, and the state reached. -/
def on (x : Run α) (s : Expander) : Except Error α × Expander := x s

@[simp] theorem on_pure (a : α) (s : Expander) : on (pure a) s = (.ok a, s) := rfl

@[simp] theorem on_throw (e : Error) (s : Expander) :
    on (throw e : Run α) s = (.error e, s) := rfl

@[simp] theorem on_get (s : Expander) : on (get : Run Expander) s = (.ok s, s) := rfl

@[simp] theorem on_set (s' s : Expander) : on (set s' : Run PUnit) s = (.ok ⟨⟩, s') := rfl

@[simp] theorem on_modify (f : Expander → Expander) (s : Expander) :
    on (modify f : Run PUnit) s = (.ok ⟨⟩, f s) := rfl

@[simp] theorem on_lift (x : Except Error α) (s : Expander) : on (liftM x : Run α) s = (x, s) := by
  cases x <;> rfl

theorem on_bind (x : Run α) (f : α → Run β) (s : Expander) :
    on (x >>= f) s = match x.on s with
      | (.ok a, s') => (f a).on s'
      | (.error e, s') => (.error e, s') := by
  change (match x s with | (a, s') => ExceptT.bindCont f a s') = _
  unfold on
  rcases x s with ⟨_ | _, _⟩ <;> rfl

theorem on_of_isOk {x : Run α} {s : Expander} (h : (x.on s).1.isOk = true) :
    ∃ a, x.on s = (.ok a, (x.on s).2) := by
  generalize x.on s = p at h ⊢
  rcases p with ⟨_ | a, s'⟩
  · cases h
  · exact ⟨a, rfl⟩

theorem on_bind_of_ok {x : Run α} {f : α → Run β} {s s' : Expander} {a : α}
    (h : x.on s = (.ok a, s')) : on (x >>= f) s = (f a).on s' := by
  rw [on_bind, h]

theorem on_bind_of_error {x : Run α} {f : α → Run β} {s s' : Expander} {e : Error}
    (h : x.on s = (.error e, s')) : on (x >>= f) s = (.error e, s') := by
  rw [on_bind, h]

theorem on_bind_ok {x : Run α} {f : α → Run β} {s s' : Expander} {b : β} :
    on (x >>= f) s = (.ok b, s') ↔
      ∃ a s₁, x.on s = (.ok a, s₁) ∧ (f a).on s₁ = (.ok b, s') := by
  rw [on_bind]
  rcases x.on s with ⟨e | a, s₁⟩
  · simp
  · constructor
    · intro h
      exact ⟨a, s₁, rfl, h⟩
    · rintro ⟨_, _, ⟨⟩, h⟩
      exact h

end Run

open Run

@[simp] theorem on_setPhase (p : Phase) (s : Expander) :
    on (setPhase p) s = (.ok (), { s with phase := p }) := rfl

@[simp] theorem on_failWith (e : Error) (s : Expander) :
    on (failWith e : Run α) s = (.error e, { s with phase := .failed }) := rfl

@[simp] theorem on_freshTag (s : Expander) :
    on freshTag s = (.ok s.tags.fresh.1, { s with tags := s.tags.fresh.2 }) := rfl

@[simp] theorem on_attempt (x : Run α) (s : Expander) :
    on (attempt x) s = (.ok (x.on s).1, (x.on s).2) := rfl

@[simp] theorem on_withFrame (f : Frame) (x : Run α) (s : Expander) :
    on (withFrame f x) s = ((x.on { s with stack := f :: s.stack }).1,
      { (x.on { s with stack := f :: s.stack }).2 with
        stack := (x.on { s with stack := f :: s.stack }).2.stack.tail }) := rfl

@[simp] theorem on_withMode (mode : Mode) (x : Run α) (s : Expander) :
    on (withMode mode x) s = ((x.on { s with recursive := mode == .recursive }).1,
      { (x.on { s with recursive := mode == .recursive }).2 with recursive := s.recursive }) := rfl

@[simp] theorem on_withHook (hook : Option Hook) (x : Run α) (s : Expander) :
    on (withHook hook x) s = ((x.on { s with hook := hook }).1,
      { (x.on { s with hook := hook }).2 with hook := s.hook }) := rfl

theorem on_during_of_covers {a : Activity} {x : Run α} {s : Expander}
    (h : s.budget.covers a = true) :
    on (during a x) s = ((x.on (s.spend a)).1,
      { (x.on (s.spend a)).2 with budget := s.budget }) := by
  simp [during, on, h]

theorem on_during_of_not_covers {a : Activity} {x : Run α} {s : Expander}
    (h : s.budget.covers a = false) : on (during a x) s = (.error .stackOverflow, s) := by
  simp [during, on, h]

@[simp] theorem on_printPiece_error (e : Error) (s : Expander) :
    on (printPiece (.error e)) s = (.error e, s) := rfl

@[simp] theorem on_printPiece_ok (text : String) (s : Expander) :
    on (printPiece (.ok text)) s = (.ok (), { s with printed := s.printed ++ text }) := rfl

theorem withFrame_ok {f : Frame} {x : Run α} {s s' : Expander} {a : α}
    (h : (withFrame f x).on s = (.ok a, s')) :
    ∃ s₁, x.on { s with stack := f :: s.stack } = (.ok a, s₁) ∧
      s' = { s₁ with stack := s₁.stack.tail } := by
  rw [on_withFrame] at h
  obtain ⟨h1, rfl⟩ := Prod.mk.inj h
  exact ⟨_, Prod.ext h1 rfl, rfl⟩

theorem withMode_ok {mode : Mode} {x : Run α} {s s' : Expander} {a : α}
    (h : (withMode mode x).on s = (.ok a, s')) :
    ∃ s₁, x.on { s with recursive := mode == .recursive } = (.ok a, s₁) ∧
      s' = { s₁ with recursive := s.recursive } := by
  rw [on_withMode] at h
  obtain ⟨h1, rfl⟩ := Prod.mk.inj h
  exact ⟨_, Prod.ext h1 rfl, rfl⟩

theorem withHook_ok {hook : Option Hook} {x : Run α} {s s' : Expander} {a : α}
    (h : (withHook hook x).on s = (.ok a, s')) :
    ∃ s₁, x.on { s with hook := hook } = (.ok a, s₁) ∧ s' = { s₁ with hook := s.hook } := by
  rw [on_withHook] at h
  obtain ⟨h1, rfl⟩ := Prod.mk.inj h
  exact ⟨_, Prod.ext h1 rfl, rfl⟩

theorem during_ok {a : Activity} {x : Run α} {s s' : Expander} {v : α}
    (h : (during a x).on s = (.ok v, s')) :
    ∃ s₁, x.on (s.spend a) = (.ok v, s₁) ∧ s' = { s₁ with budget := s.budget } := by
  cases hb : s.budget.covers a with
  | false =>
    rw [on_during_of_not_covers hb] at h
    cases h
  | true =>
    rw [on_during_of_covers hb] at h
    obtain ⟨h1, rfl⟩ := Prod.mk.inj h
    exact ⟨_, Prod.ext h1 rfl, rfl⟩

/-! ## What a computation leaves alone -/

/-- How a state is related to the states after it: the registry, the limits, the budget, the frames,
the mode and the hook are the same, and tags and applications have only been added. -/
structure Expander.Later (s s' : Expander) : Prop where
  registry : s'.registry = s.registry
  maxDepth : s'.maxDepth = s.maxDepth
  label : s'.label = s.label
  budget : s'.budget = s.budget
  stack : s'.stack = s.stack
  recursive : s'.recursive = s.recursive
  hook : s'.hook = s.hook
  tags : s.tags.last ≤ s'.tags.last
  history : ∃ new, s'.history = new ++ s.history

namespace Expander.Later

theorem refl (s : Expander) : s.Later s :=
  ⟨rfl, rfl, rfl, rfl, rfl, rfl, rfl, Nat.le_refl _, [], rfl⟩

theorem trans {s₁ s₂ s₃ : Expander} (h : s₁.Later s₂) (h' : s₂.Later s₃) : s₁.Later s₃ := by
  obtain ⟨new, hn⟩ := h.history
  obtain ⟨new', hn'⟩ := h'.history
  refine ⟨h'.registry.trans h.registry, h'.maxDepth.trans h.maxDepth, h'.label.trans h.label,
    h'.budget.trans h.budget, h'.stack.trans h.stack, h'.recursive.trans h.recursive,
    h'.hook.trans h.hook, Nat.le_trans h.tags h'.tags, new' ++ new, ?_⟩
  rw [hn', hn, List.append_assoc]

theorem phase (s : Expander) (p : Phase) : s.Later { s with phase := p } :=
  ⟨rfl, rfl, rfl, rfl, rfl, rfl, rfl, Nat.le_refl _, [], rfl⟩

theorem fresh (s : Expander) : s.Later { s with tags := s.tags.fresh.2 } :=
  ⟨rfl, rfl, rfl, rfl, rfl, rfl, rfl, Nat.le_succ _, [], rfl⟩

theorem frame {s s' : Expander} (h : s.Later s') : s'.frame = s.frame := by
  rw [Expander.frame, Expander.frame, h.stack]

end Expander.Later

/-- A computation that, whatever its outcome, ends in a state later than the one it began in. -/
def Run.Steady (x : Run α) : Prop := ∀ s : Expander, s.Later (x.on s).2

theorem Run.Steady.later {x : Run α} (h : x.Steady) {s s' : Expander} {r : Except Error α}
    (hx : x.on s = (r, s')) : s.Later s' := by
  have := h s
  rwa [hx] at this

theorem steady_pure (a : α) : Steady (pure a) := fun s => .refl s

theorem steady_throw (e : Error) : Steady (throw e : Run α) := fun s => .refl s

theorem steady_get : Steady (get : Run Expander) := fun s => .refl s

theorem steady_bind {x : Run α} {f : α → Run β} (hx : x.Steady) (hf : ∀ a, (f a).Steady) :
    Steady (x >>= f) := by
  intro s
  rw [on_bind]
  have h := hx s
  rcases hs : x.on s with ⟨e | a, s₁⟩ <;> rw [hs] at h
  · exact h
  · exact h.trans (hf a s₁)

theorem steady_setPhase (p : Phase) : (setPhase p).Steady := fun s => .phase s p

theorem steady_failWith (e : Error) : (failWith e : Run α).Steady := fun s => .phase s .failed

theorem steady_freshTag : freshTag.Steady := fun s => .fresh s

theorem steady_attempt {x : Run α} (hx : x.Steady) : (attempt x).Steady := hx

theorem steady_withFrame {x : Run α} (hx : x.Steady) (f : Frame) : (withFrame f x).Steady := by
  intro s
  have h := hx { s with stack := f :: s.stack }
  rw [on_withFrame]
  exact ⟨h.registry, h.maxDepth, h.label, h.budget, by rw [h.stack]; rfl, h.recursive, h.hook,
    h.tags, h.history⟩

theorem steady_withMode {x : Run α} (hx : x.Steady) (mode : Mode) : (withMode mode x).Steady := by
  intro s
  have h := hx { s with recursive := mode == .recursive }
  rw [on_withMode]
  exact ⟨h.registry, h.maxDepth, h.label, h.budget, h.stack, rfl, h.hook, h.tags, h.history⟩

theorem Expander.Later.during {s s' : Expander} {a : Activity}
    (h : (s.spend a).Later s') : s.Later { s' with budget := s.budget } :=
  ⟨h.registry, h.maxDepth, h.label, rfl, h.stack, h.recursive, h.hook, h.tags, h.history⟩

theorem steady_during {x : Run α} (hx : x.Steady) (a : Activity) : (during a x).Steady := by
  intro s
  cases hb : s.budget.covers a with
  | false =>
    rw [on_during_of_not_covers hb]
    exact .refl s
  | true =>
    rw [on_during_of_covers hb]
    exact (hx _).during

/-! ## Applications -/

theorem steady_printPieces : ∀ pieces : List (Except Error String), (printPieces pieces).Steady
  | [] => steady_pure ()
  | piece :: rest => by
    refine steady_bind ?_ fun _ => steady_printPieces rest
    cases piece with
    | error e => exact steady_throw e
    | ok text => exact fun s => ⟨rfl, rfl, rfl, rfl, rfl, rfl, rfl, Nat.le_refl _, [], rfl⟩

theorem steady_record (t : Transition) : (record t).Steady := by
  refine steady_bind (fun s => ?_) fun _ => steady_bind steady_get fun s => ?_
  · exact ⟨rfl, rfl, rfl, rfl, rfl, rfl, rfl, Nat.le_refl _, [t], rfl⟩
  · cases s.hook with
    | none => exact steady_pure ()
    | some hook => exact steady_printPieces _

theorem steady_settle (clause : Clause) (invocation : Tree) (notes : Notes) (answer : Tree) :
    (settle clause invocation notes answer).Steady := by
  refine steady_bind steady_freshTag fun tag => ?_
  cases Notes.caller notes with
  | error e => exact steady_throw e
  | ok caller =>
    refine steady_bind steady_get fun s => ?_
    dsimp only
    split
    · exact steady_bind (steady_record _) fun _ => steady_pure _
    · exact steady_throw _

theorem steady_matchClause (invocation : Tree) (head : Head) (args : List Tree) :
    (matchClause invocation head args).Steady := by
  refine steady_bind (steady_setPhase _) fun _ => steady_bind steady_get fun s => ?_
  dsimp only
  split
  · exact steady_throw _
  · exact steady_pure _
  · exact steady_failWith _

/-- The requests of an action, each of which is steady. -/
theorem steady_perform {reenter : Mode → Value → Run Value}
    (h : ∀ mode v, (reenter mode v).Steady) (action : Action α) :
    (perform reenter action).Steady := by
  induction action with
  | answer a => exact steady_pure a
  | fail e => exact steady_throw e
  | expand mode v next ih => exact steady_bind (steady_attempt (h mode v)) fun r => ih r
  | freshTag next ih => exact steady_bind steady_freshTag fun t => ih t
  | observe next ih => exact steady_bind steady_get fun s => ih s.observation
  | register site name pattern candidate next ih =>
    cases site with
    | own => exact steady_bind steady_get fun s => ih _
    | source =>
      intro s
      rw [perform, on_bind_of_ok (on_get s)]
      rcases s.source.register name pattern candidate with e | ⟨source, clause⟩
      · exact ih _ s
      · have hs : s.Later { s with source := source } :=
          ⟨rfl, rfl, rfl, rfl, rfl, rfl, rfl, Nat.le_refl _, [], rfl⟩
        exact hs.trans (ih (.ok ()) _)

theorem steady_performTree {reenter : Mode → Value → Run Value}
    (h : ∀ mode v, (reenter mode v).Steady) (action : Action Value) :
    (performTree reenter action).Steady := by
  refine steady_bind (steady_perform h action) fun v => ?_
  cases v with
  | tree t => exact steady_pure t
  | _ => exact steady_throw _

theorem steady_applyClause {reenter : Mode → Value → Run Value}
    (h : ∀ mode v, (reenter mode v).Steady) (clause : Clause) (invocation : Tree) :
    (applyClause reenter clause invocation).Steady := by
  refine steady_bind (fun s => ?_) fun _ =>
    steady_bind (steady_attempt (steady_during (steady_performTree h _) _)) fun r => ?_
  · exact ⟨rfl, rfl, rfl, rfl, rfl, rfl, rfl, Nat.le_refl _, [], rfl⟩
  · cases r with
    | ok t => exact steady_pure t
    | error e => exact steady_bind steady_get fun s => steady_failWith _

/-! ## Scans and entries -/

section
variable {expandCall : Tree → Run Tree}

theorem steady_scanList : ∀ {ts : List Tree}, (∀ t ∈ ts, (scan expandCall t).Steady) →
    (scanList expandCall ts).Steady
  | [], _ => by
    rw [scanList]
    exact steady_pure []
  | t :: ts, ht => by
    rw [scanList]
    refine steady_bind (ht t (.head _)) fun _ => steady_bind ?_ fun _ => steady_pure _
    exact steady_scanList fun u hu => ht u (.tail _ hu)

theorem steady_unexpected (t : Tree) : (unexpected t).Steady := by
  rw [unexpected]
  exact steady_bind steady_get fun _ => steady_failWith _

theorem steady_scan (h : ∀ t, (expandCall t).Steady) (t : Tree) : (scan expandCall t).Steady := by
  induction t using Tree.induct with
  | literal d => rw [scan]; exact steady_pure _
  | name ident scope => rw [scan]; exact steady_pure _
  | call op args notes ih =>
    rw [scan]
    refine steady_bind steady_get fun s => ?_
    dsimp only
    split
    · exact h _
    · refine steady_bind (steady_setPhase _) fun _ => ?_
      exact steady_bind (steady_during (steady_scanList ih) _) fun _ => steady_pure _
  | apply f args notes ihf ih =>
    rw [scan]
    refine steady_bind (steady_setPhase _) fun _ => steady_bind (steady_during ihf _) fun _ => ?_
    exact steady_bind (steady_during (steady_scanList ih) _) fun _ => steady_pure _
  | placeholder target => rw [scan]; exact steady_unexpected _
  | bare kind => rw [scan]; exact steady_unexpected _
  | marker kind body _ => rw [scan]; exact steady_unexpected _
  | unhygienic ident => rw [scan]; exact steady_unexpected _

end

theorem steady_expandCall {reenter : Mode → Value → Run Value}
    (h : ∀ mode v, (reenter mode v).Steady) :
    ∀ (remaining : Nat) (t : Tree), (expandCall reenter remaining t).Steady := by
  intro remaining
  induction remaining with
  | zero =>
    intro t
    cases t with
    | call head args notes =>
      rw [expandCall]
      refine steady_bind (steady_matchClause _ _ _) fun clause => ?_
      exact steady_bind steady_get fun s => steady_failWith _
    | _ => exact steady_throw _
  | succ remaining ih =>
    intro t
    cases t with
    | call head args notes =>
      rw [expandCall]
      refine steady_bind (steady_matchClause _ _ _) fun clause => ?_
      refine steady_bind steady_get fun s => ?_
      refine steady_bind (steady_applyClause h _ _) fun answer => ?_
      refine steady_bind (steady_settle _ _ _ _) fun expansion => ?_
      refine steady_bind steady_get fun s' => ?_
      split
      · exact steady_withFrame (steady_during (steady_scan ih _) _) _
      · exact steady_pure _
    | _ => exact steady_throw _

mutual

theorem steady_scanValue {expandCall : Tree → Run Tree} (h : ∀ t, (expandCall t).Steady) :
    ∀ v : Value, (scanValue expandCall v).Steady
  | .tree t => by
    rw [scanValue]
    exact steady_bind (steady_scan h t) fun _ => steady_pure _
  | .list items => by
    rw [scanValue]
    exact steady_bind (steady_during (steady_scanValues h items) _) fun _ => steady_pure _
  | .nothing | .bool _ | .int _ | .float _ | .text _ | .atom _ | .pending _ | .tuple _
  | .record _ | .variety _ => steady_failWith _

theorem steady_scanValues {expandCall : Tree → Run Tree} (h : ∀ t, (expandCall t).Steady) :
    ∀ vs : List Value, (scanValues expandCall vs).Steady
  | [] => by
    rw [scanValues]
    exact steady_pure []
  | v :: vs => by
    rw [scanValues]
    refine steady_bind (steady_scanValue h v) fun _ => ?_
    exact steady_bind (steady_scanValues h vs) fun _ => steady_pure _

end

theorem TagSupply.last_le_skipPast (n : Int) (s : TagSupply) : s.last ≤ (s.skipPast n).last := by
  unfold skipPast
  split
  · simp only; omega
  · exact Nat.le_refl _

theorem steady_prepare (v : Value) : (prepare v).Steady := by
  intro s
  rw [prepare, on_bind_of_ok (on_get s)]
  dsimp only
  split
  · split
    · exact .refl s
    · exact .refl s
    · exact ⟨rfl, rfl, rfl, rfl, rfl, rfl, rfl, s.tags.last_le_skipPast _, [], rfl⟩
  · exact .refl s

/-- Every entry into the expander is steady, whatever the transformers do. -/
theorem steady_enter : ∀ (room : Nat) (mode : Mode) (v : Value), (enter room mode v).Steady
  | 0, _, _ => steady_throw _
  | room + 1, mode, v => by
    rw [enter]
    refine steady_during (steady_bind (steady_prepare v) fun _ => ?_) _
    refine steady_bind steady_get fun s => ?_
    exact steady_withMode (steady_scanValue (steady_expandCall (steady_enter room) _) v) mode

/-! ## One node -/

section
variable {E : Tree → Run Tree} {reenter : Mode → Value → Run Value} {s : Expander} {k : Nat}
  {op : String} {f : Tree} {args : List Tree} {notes : Notes} {clause : Clause}

theorem on_scan_macroCall (hop : s.registry.isMacro op = true) :
    (scan E (.call (.symbol op) args notes)).on s = (E (.call (.symbol op) args notes)).on s := by
  rw [scan, Run.on_bind_of_ok (Run.on_get s)]
  dsimp only
  rw [if_pos hop]

theorem on_scan_call (hop : s.registry.isMacro op = false) :
    (scan E (.call (.symbol op) args notes)).on s =
      Run.on (do
        let args ← during (.arguments args.length) (scanList E args)
        pure (.call (.symbol op) args notes))
        { s with phase := if s.registry.isTerminal op then .terminal else .scanning } := by
  rw [scan, Run.on_bind_of_ok (Run.on_get s)]
  dsimp only
  rw [if_neg (by rw [hop]; exact Bool.false_ne_true), Run.on_bind_of_ok (on_setPhase _ s)]

theorem on_scan_apply :
    (scan E (.call (.tree f) args notes)).on s =
      Run.on (do
        let f ← during .operator (scan E f)
        let args ← during (.arguments args.length) (scanList E args)
        pure (.call (.tree f) args notes)) { s with phase := .scanning } := by
  rw [scan, Run.on_bind_of_ok (on_setPhase _ s)]

theorem on_matchClause
    (h : s.registry.lookup op (args.map .tree) = .ok (some clause)) (invocation : Tree) :
    (matchClause invocation (.symbol op) args).on s =
      (.ok clause, { s with phase := .matched }) := by
  rw [matchClause, Run.on_bind_of_ok (on_setPhase _ _), Run.on_bind_of_ok (Run.on_get _)]
  dsimp only
  rw [h]
  rfl

/-- A macro call that a clause takes, with room for one more expansion. -/
theorem on_expandCall_succ (hlookup : s.registry.lookup op (args.map .tree) = .ok (some clause)) :
    (expandCall reenter (k + 1) (.call (.symbol op) args notes)).on s = Run.on (do
      let answer ← applyClause reenter clause (.call (.symbol op) args notes)
      let expansion ← settle clause (.call (.symbol op) args notes) notes answer
      if (← get).recursive then
        withFrame (s.frame.inside clause.name (.call (.symbol op) args notes))
          (during .replacement (scan (expandCall reenter k) expansion))
      else pure expansion) { s with phase := .matched } := by
  rw [expandCall, Run.on_bind_of_ok (on_matchClause hlookup _), Run.on_bind_of_ok (Run.on_get _)]
  rfl

theorem on_expandCall_zero (hlookup : s.registry.lookup op (args.map .tree) = .ok (some clause)) :
    (expandCall reenter 0 (.call (.symbol op) args notes)).on s =
      (.error (.depthExceeded (.nested s.filename
        (s.frame.inside clause.name (.call (.symbol op) args notes)).path) s.maxDepth),
        { s with phase := .failed }) := by
  rw [expandCall, Run.on_bind_of_ok (on_matchClause hlookup _), Run.on_bind_of_ok (Run.on_get _)]
  rfl

end

end HygienicMacros
