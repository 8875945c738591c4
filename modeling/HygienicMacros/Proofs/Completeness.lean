import HygienicMacros.Proofs.Adequacy

/-! # Derivations run

The converse of `derivation_of_functional`: a derivation whose tags are the next ones of the supply
is what the expander does. Only the stack can keep it from that. Whatever its activities cost, a
derivation needs a certain room on the stack: with that much the run returns what is derived, and
with less it overflows (`visitIn_needs`). One computation after another needs the larger of their
rooms (`Run.Needs.bind`), and one inside an activity needs the room of the activity as well
(`Run.Needs.during`).
-/

namespace HygienicMacros

variable {α β : Type}

/-! ## What a computation needs -/

/-- With `N` left on the stack the computation returns, and `Q` holds of what it returns and of the
state reached; with less it overflows. -/
def Run.Needs (x : Run α) (s : Expander) (N : Nat) (Q : α → Expander → Prop) : Prop :=
  ∃ r s', x.on s = (r, s') ∧ s.Later s' ∧
    if N ≤ s.budget.left then ∃ a, r = .ok a ∧ Q a s' else r = .error .stackOverflow

/-- What is returned is `a`, and `last` is the last tag then. -/
def Gives (a : α) (last : Nat) (b : α) (s : Expander) : Prop := b = a ∧ s.tags.last = last

namespace Run

variable {x : Run α} {s : Expander} {N : Nat} {Q : α → Expander → Prop}

theorem needs_of_ok {s' : Expander} {a : α} (h : x.on s = (.ok a, s')) (hs : s.Later s')
    (hQ : Q a s') : x.Needs s 0 Q :=
  ⟨_, _, h, hs, by rw [if_pos (Nat.zero_le _)]; exact ⟨a, rfl, hQ⟩⟩

theorem needs_pure {a : α} (hQ : Q a s) : Needs (pure a) s 0 Q := needs_of_ok rfl (.refl s) hQ

theorem Needs.bind {f : α → Run β} {N' : Nat} {Q' : β → Expander → Prop} (hx : x.Needs s N Q)
    (hf : ∀ a s', s.Later s' → Q a s' → (f a).Needs s' N' Q') :
    Needs (x >>= f) s (max N N') Q' := by
  obtain ⟨r, s₁, hrun, hlater, h⟩ := hx
  by_cases hN : N ≤ s.budget.left
  · rw [if_pos hN] at h
    obtain ⟨a, rfl, hQ⟩ := h
    obtain ⟨r', s₂, hrun', hlater', h'⟩ := hf a s₁ hlater hQ
    refine ⟨r', s₂, by rw [on_bind_of_ok hrun, hrun'], hlater.trans hlater', ?_⟩
    rw [hlater.budget] at h'
    simpa only [Nat.max_le, hN, true_and] using h'
  · rw [if_neg hN] at h
    subst h
    refine ⟨_, s₁, on_bind_of_error hrun, hlater, ?_⟩
    rw [if_neg (by omega)]

/-- What is done first takes nothing of the stack. -/
theorem Needs.after {y : Run β} {f : β → Run α} {s' : Expander} {b : β}
    (hy : y.on s = (.ok b, s')) (hs : s.Later s') (hf : (f b).Needs s' N Q) :
    Needs (y >>= f) s N Q := by
  obtain ⟨r, s₂, hrun, hlater, h⟩ := hf
  refine ⟨r, s₂, by rw [on_bind_of_ok hy, hrun], hs.trans hlater, ?_⟩
  rwa [hs.budget] at h

/-- The phase is no part of what is needed. -/
theorem Needs.of_phase {y : Run α} {p : Phase} (hy : y.on s = x.on { s with phase := p })
    (h : x.Needs { s with phase := p } N Q) : y.Needs s N Q := by
  obtain ⟨r, s', hrun, hlater, h⟩ := h
  exact ⟨r, s', hy.trans hrun, (Expander.Later.phase s p).trans hlater, h⟩

theorem Needs.map {f : α → β} {Q' : β → Expander → Prop} (hx : x.Needs s N Q)
    (hQ : ∀ a s', Q a s' → Q' (f a) s') : Needs (x >>= fun a => pure (f a)) s N Q' := by
  rw [← Nat.max_zero N]
  exact hx.bind fun a s' _ h => needs_pure (hQ a s' h)

theorem Needs.gives {a : α} {last : Nat} {f : α → β} (hx : x.Needs s N (Gives a last)) :
    Needs (x >>= fun a => pure (f a)) s N (Gives (f a) last) := by
  refine hx.map ?_
  rintro _ s' ⟨rfl, hlast⟩
  exact ⟨rfl, hlast⟩

/-- A computation in a changed state, with the change taken back afterwards. -/
theorem Needs.within {y : Run α} {e : Expander} {g : Expander → Expander}
    {Q' : α → Expander → Prop} (h : x.Needs e N Q)
    (hy : y.on s = ((x.on e).1, g (x.on e).2)) (hbudget : e.budget = s.budget)
    (hl : ∀ s', e.Later s' → s.Later (g s')) (hQ : ∀ a s', Q a s' → Q' a (g s')) :
    y.Needs s N Q' := by
  obtain ⟨r, s₁, hrun, hlater, h⟩ := h
  refine ⟨r, g s₁, by rw [hy, hrun], hl s₁ hlater, ?_⟩
  rw [hbudget] at h
  by_cases hN : N ≤ s.budget.left
  · rw [if_pos hN] at h ⊢
    obtain ⟨a, ha, hq⟩ := h
    exact ⟨a, ha, hQ a s₁ hq⟩
  · rwa [if_neg hN] at h ⊢

theorem Needs.withFrame {f : Frame} {a : α} {last : Nat}
    (h : x.Needs { s with stack := f :: s.stack } N (Gives a last)) :
    (withFrame f x).Needs s N (Gives a last) :=
  h.within (g := fun s' => { s' with stack := s'.stack.tail }) (on_withFrame f x s) rfl
    (fun _ hl => ⟨hl.registry, hl.maxDepth, hl.label, hl.budget, by rw [hl.stack]; rfl,
      hl.recursive, hl.hook, hl.tags, hl.history⟩)
    fun _ _ h => h

theorem Needs.withMode {mode : Mode} {a : α} {last : Nat}
    (h : x.Needs { s with recursive := mode == .recursive } N (Gives a last)) :
    (withMode mode x).Needs s N (Gives a last) :=
  h.within (g := fun s' => { s' with recursive := s.recursive }) (on_withMode mode x s) rfl
    (fun _ hl => ⟨hl.registry, hl.maxDepth, hl.label, hl.budget, hl.stack, rfl, hl.hook,
      hl.tags, hl.history⟩)
    fun _ _ h => h

theorem Needs.withHook {hook : Option Hook} {a : α} {last : Nat}
    (h : x.Needs { s with hook := hook } N (Gives a last)) :
    (withHook hook x).Needs s N (Gives a last) :=
  h.within (g := fun s' => { s' with hook := s.hook }) (on_withHook hook x s) rfl
    (fun _ hl => ⟨hl.registry, hl.maxDepth, hl.label, hl.budget, hl.stack, hl.recursive, rfl,
      hl.tags, hl.history⟩)
    fun _ _ h => h

/-- An activity takes its own room, and leaves the rest to what is done in it. -/
theorem Needs.during {a : Activity} {v : α} {last : Nat}
    (h : x.Needs (s.spend a) N (Gives v last)) :
    (during a x).Needs s (s.budget.costs.of a + N) (Gives v last) := by
  obtain ⟨r, s₁, hrun, hlater, h⟩ := h
  by_cases ha : s.budget.costs.of a ≤ s.budget.left
  · refine ⟨r, _, by rw [on_during_of_covers (Budget.covers_eq_true.2 ha), hrun], hlater.during, ?_⟩
    have hN : N ≤ s.budget.left - s.budget.costs.of a ↔
        s.budget.costs.of a + N ≤ s.budget.left := by omega
    simp only [Budget.spend, hN] at h
    exact h
  · refine ⟨_, _, on_during_of_not_covers (Budget.covers_eq_false.2 (Nat.lt_of_not_le ha)),
      .refl s, ?_⟩
    rw [if_neg (by omega)]

end Run

/-! ## Applications -/

/-- The hook, if there is one, never fails. -/
def Expander.Quiet (s : Expander) : Prop :=
  ∀ hook, s.hook = some hook → ∀ a, ∀ piece ∈ hook.pieces a, ∃ text, piece = .ok text

theorem Expander.Quiet.of_hook {s s' : Expander} (h : s.Quiet) (hhook : s'.hook = s.hook) :
    s'.Quiet := by
  rw [Expander.Quiet, hhook]
  exact h

theorem Expander.Quiet.later {s s' : Expander} (h : s.Quiet) (hs : s.Later s') : s'.Quiet :=
  h.of_hook hs.hook

/-- An expander that works on a registry in a mode, without a hook that could stop it, and whose
activities have given costs. -/
structure Expander.Ready (R : Registry) (mode : Mode) (costs : Costs) (s : Expander) : Prop
    extends s.Works R mode where
  quiet : s.Quiet
  costs : s.budget.costs = costs

section
variable {R : Registry} {mode : Mode} {costs : Costs} {s s' : Expander}

theorem Expander.Ready.later (h : s.Ready R mode costs) (hs : s.Later s') :
    s'.Ready R mode costs :=
  ⟨h.toWorks.later hs, h.quiet.later hs, (congrArg Budget.costs hs.budget).trans h.costs⟩

theorem Expander.Ready.frame (h : s.Ready R mode costs) (f : Frame) :
    { s with stack := f :: s.stack }.Ready R mode costs := ⟨h.toWorks.frame f, h.quiet, h.costs⟩

theorem Expander.Ready.spend (h : s.Ready R mode costs) (a : Activity) :
    (s.spend a).Ready R mode costs :=
  ⟨h.toWorks.budget _, h.quiet, h.costs⟩

end

theorem on_printPieces : ∀ {pieces : List (Except Error String)},
    (∀ piece ∈ pieces, ∃ text, piece = .ok text) → ∀ s : Expander,
    ∃ text, (printPieces pieces).on s = (.ok (), { s with printed := text })
  | [], _, s => ⟨s.printed, rfl⟩
  | piece :: rest, h, s => by
    obtain ⟨text, rfl⟩ := h piece (.head _)
    obtain ⟨text', h'⟩ := on_printPieces (fun p hp => h p (.tail _ hp))
      { s with printed := s.printed ++ text }
    refine ⟨text', ?_⟩
    rw [printPieces, Run.on_bind_of_ok (on_printPiece_ok text s), h']

theorem on_record {s : Expander} (hs : s.Quiet)
    (a : Transition) : ∃ text, (record a).on s =
      (.ok (), { s with history := a :: s.history, phase := .substituted, printed := text }) := by
  rw [record, Run.on_bind_of_ok (Run.on_modify _ _), Run.on_bind_of_ok (Run.on_get _)]
  dsimp only
  split
  · exact ⟨s.printed, rfl⟩
  · rename_i hook hhook
    exact on_printPieces (hs hook hhook a) _

/-- A transformer that answers at once needs the room of an application. -/
theorem applyClause_needs {clause : Clause} {invocation answer : Tree}
    (reenter : Mode → Value → Run Value)
    (h : clause.transformer.body invocation = .answer (.tree answer)) (s : Expander) :
    (applyClause reenter clause invocation).Needs s (s.budget.costs.of .application)
      (Gives answer s.tags.last) := by
  by_cases hN : s.budget.costs.of .application ≤ s.budget.left
  · refine ⟨_, _, applyClause_of_answer reenter h (Budget.covers_eq_true.2 hN),
      ⟨rfl, rfl, rfl, rfl, rfl, rfl, rfl, Nat.le_refl _, [], rfl⟩, ?_⟩
    rw [if_pos hN]
    exact ⟨answer, rfl, rfl, rfl⟩
  · refine ⟨_, _, applyClause_of_not_covers reenter clause invocation
      (Budget.covers_eq_false.2 (Nat.lt_of_not_le hN)),
      ⟨rfl, rfl, rfl, rfl, rfl, rfl, rfl, Nat.le_refl _, [], rfl⟩, ?_⟩
    rw [if_neg hN]

theorem settle_needs {s : Expander} (hs : s.Quiet) {clause : Clause} {invocation answer : Tree}
    {notes : Notes} {caller : Option Tag} (hcaller : Notes.caller notes = .ok caller) :
    (settle clause invocation notes answer).Needs s
      (s.budget.costs.of (.resolution answer.skeleton))
      (Gives (answer.resolve s.tags.fresh.1 caller) (s.tags.last + 1)) := by
  rw [settle]
  refine Run.Needs.after (on_freshTag s) (.fresh s) ?_
  rw [hcaller]
  refine Run.Needs.after (Run.on_get _) (.refl _) ?_
  dsimp only
  by_cases hN : s.budget.costs.of (.resolution answer.skeleton) ≤ s.budget.left
  · rw [if_pos (Budget.covers_eq_true.2 hN)]
    obtain ⟨text, hrecord⟩ := on_record (hs.later (.fresh s))
      (s.applied clause invocation answer caller)
    refine ⟨_, _, Run.on_bind_of_ok hrecord, ?_, ?_⟩
    · exact ⟨rfl, rfl, rfl, rfl, rfl, rfl, rfl, Nat.le_refl _, [_], rfl⟩
    · rw [if_pos hN]
      exact ⟨_, rfl, rfl, rfl⟩
  · rw [if_neg (mt Budget.covers_eq_true.1 hN)]
    exact ⟨_, _, rfl, .refl _, by rw [if_neg hN]⟩

/-! ## Scans -/

theorem scan_needs_of_singleton {expandCall : Tree → Run Tree} {t r : Tree} {s : Expander}
    {N last : Nat} (h : (scanList expandCall [t]).Needs s N (Gives [r] last)) :
    (scan expandCall t).Needs s N (Gives r last) := by
  obtain ⟨outcome, s', hrun, hlater, h⟩ := h
  rw [scanList, Run.on_bind] at hrun
  rcases hscan : (scan expandCall t).on s with ⟨e | r', s₁⟩ <;> rw [hscan] at hrun <;> cases hrun
  · refine ⟨_, _, hscan, hlater, ?_⟩
    by_cases hN : N ≤ s.budget.left
    · rw [if_pos hN] at h
      obtain ⟨_, ⟨⟩, -⟩ := h
    · rw [if_neg hN] at h ⊢
      cases h
      rfl
  · refine ⟨_, _, hscan, hlater, ?_⟩
    by_cases hN : N ≤ s.budget.left
    · rw [if_pos hN] at h ⊢
      obtain ⟨_, ⟨⟩, ⟨⟩, hlast⟩ := h
      exact ⟨_, rfl, rfl, hlast⟩
    · rw [if_neg hN] at h
      cases h

/-- With the applications `as` a computation returns `a`, wherever the expander is ready, the tags
of the applications are the next ones and there is room. How much room that is depends on the costs
alone, and not on what a transformer's requests would do. -/
def Run.Does (x : (Mode → Value → Run Value) → Run α) (R : Registry) (mode : Mode) (costs : Costs)
    (as : List Transition) (a : α) : Prop :=
  ∃ N, ∀ (reenter : Mode → Value → Run Value) {s : Expander} {n : Nat}, s.Ready R mode costs →
    s.tags.last = n → Numbered n as → (x reenter).Needs s N (Gives a (n + as.length))

section
variable {R : Registry} {mode : Mode} {costs : Costs}
  {x y : (Mode → Value → Run Value) → Run α} {as bs : List Transition} {a : α} {b : β}

theorem Run.does_pure (a : α) : Run.Does (fun _ => pure a) R mode costs [] a := by
  refine ⟨0, ?_⟩
  rintro reenter s n - hlast -
  exact Run.needs_pure ⟨rfl, hlast⟩

/-- One after the other, with the applications of both. -/
theorem Run.Does.bind {f : (Mode → Value → Run Value) → α → Run β}
    (hx : Run.Does x R mode costs as a)
    (hf : Run.Does (fun reenter => f reenter a) R mode costs bs b) :
    Run.Does (fun reenter => x reenter >>= f reenter) R mode costs (as ++ bs) b := by
  obtain ⟨N, hx⟩ := hx
  obtain ⟨N', hf⟩ := hf
  refine ⟨max N N', fun reenter {s n} hs hlast hnum => ?_⟩
  rw [numbered_append] at hnum
  rw [List.length_append, ← Nat.add_assoc]
  refine (hx reenter hs hlast hnum.1).bind ?_
  rintro _ s' hs' ⟨rfl, hlast'⟩
  exact hf reenter (hs.later hs') hlast' hnum.2

theorem Run.Does.map (hx : Run.Does x R mode costs as a) (f : α → β) :
    Run.Does (fun reenter => x reenter >>= fun a => pure (f a)) R mode costs as (f a) := by
  obtain ⟨N, hx⟩ := hx
  exact ⟨N, fun reenter {s n} hs hlast hnum => (hx reenter hs hlast hnum).gives⟩

theorem Run.Does.during (hx : Run.Does x R mode costs as a) (activity : Activity) :
    Run.Does (fun reenter => HygienicMacros.during activity (x reenter)) R mode costs as a := by
  obtain ⟨N, hx⟩ := hx
  refine ⟨costs.of activity + N, fun reenter {s n} hs hlast hnum => ?_⟩
  rw [← hs.costs]
  exact (hx reenter (hs.spend activity) hlast hnum).during

/-- The phase makes no difference. -/
theorem Run.Does.of_phase (hx : Run.Does x R mode costs as a)
    (hy : ∀ reenter {s : Expander}, s.Ready R mode costs →
      ∃ p, (y reenter).on s = (x reenter).on { s with phase := p }) :
    Run.Does y R mode costs as a := by
  obtain ⟨N, hx⟩ := hx
  refine ⟨N, fun reenter {s n} hs hlast hnum => ?_⟩
  obtain ⟨p, hp⟩ := hy reenter hs
  exact .of_phase hp (hx reenter (hs.later (.phase s p)) hlast hnum)

theorem scan_does_of_singleton {E : (Mode → Value → Run Value) → Tree → Run Tree} {t r : Tree}
    (h : Run.Does (fun reenter => scanList (E reenter) [t]) R mode costs as [r]) :
    Run.Does (fun reenter => scan (E reenter) t) R mode costs as r := by
  obtain ⟨N, h⟩ := h
  exact ⟨N, fun reenter {s n} hs hlast hnum => scan_needs_of_singleton (h reenter hs hlast hnum)⟩

/-- A scan does what is derived, if what it does with macro calls is. -/
theorem scanList_does {expandCall : (Mode → Value → Run Value) → Tree → Run Tree}
    {Call : Tree → List Transition → Tree → Prop}
    (hcall : ∀ {op args notes as r}, Call (.call (.symbol op) args notes) as r →
      Run.Does (fun reenter => expandCall reenter (.call (.symbol op) args notes)) R mode costs as
        r)
    {ts rs : List Tree} {as : List Transition} (d : Scans R Call ts as rs) :
    Run.Does (fun reenter => scanList (expandCall reenter) ts) R mode costs as rs := by
  induction d with
  | nil =>
    simp only [scanList]
    exact Run.does_pure []
  | literal rest ih =>
    simp only [scanList, scan]
    exact Run.Does.bind (Run.does_pure _) (ih.map _)
  | name rest ih =>
    simp only [scanList, scan]
    exact Run.Does.bind (Run.does_pure _) (ih.map _)
  | @call op args args' notes ts as bs rs hop parts rest ihp ih =>
    have hcall : Run.Does (fun reenter => do
        let args ← during (.arguments args.length) (scanList (expandCall reenter) args)
        pure (Tree.call (.symbol op) args notes)) R mode costs as
          (.call (.symbol op) args' notes) :=
      (ihp.during _).map _
    simp only [scanList]
    refine Run.Does.bind (hcall.of_phase ?_) (ih.map _)
    exact fun reenter s hs => ⟨_, on_scan_call (by rw [hs.registry, hop])⟩
  | @apply f f' args args' notes ts as bs cs rs head parts rest ihh ihp ih =>
    have hcall : Run.Does (fun reenter => do
        let f ← during .operator (scan (expandCall reenter) f)
        let args ← during (.arguments args.length) (scanList (expandCall reenter) args)
        pure (Tree.call (.tree f) args notes)) R mode costs (as ++ bs)
          (.call (.tree f') args' notes) :=
      Run.Does.bind ((scan_does_of_singleton ihh).during .operator) ((ihp.during _).map _)
    simp only [scanList]
    refine Run.Does.bind (hcall.of_phase ?_) (ih.map _)
    exact fun reenter s hs => ⟨_, on_scan_apply⟩
  | @expand op args notes r ts as bs rs hop result rest ih =>
    simp only [scanList]
    refine Run.Does.bind ((hcall result).of_phase ?_) (ih.map _)
    exact fun reenter s hs => ⟨s.phase, on_scan_macroCall (by rw [hs.registry, hop])⟩

/-- What follows once an application has been filed: in recursive mode the replacement is scanned
again, inside one more frame. -/
theorem rescan_needs {E : (Mode → Value → Run Value) → Tree → Run Tree} {expansion r : Tree}
    (honce : mode = .once → as = [] ∧ r = expansion)
    (hrecursive : mode = .recursive →
      Run.Does (fun reenter => scan (E reenter) expansion) R mode costs as r) :
    ∃ N, ∀ (reenter : Mode → Value → Run Value) {s : Expander} {n : Nat}, s.Ready R mode costs →
      s.tags.last = n → Numbered n as → ∀ inside : Frame,
      (if s.recursive then withFrame inside (during .replacement (scan (E reenter) expansion))
        else pure expansion).Needs s N (Gives r (n + as.length)) := by
  cases mode with
  | once =>
    obtain ⟨rfl, rfl⟩ := honce rfl
    refine ⟨0, fun reenter {s n} hs hlast _ inside => ?_⟩
    rw [hs.recursive]
    exact Run.needs_pure ⟨rfl, hlast⟩
  | recursive =>
    obtain ⟨N, hscan⟩ := (hrecursive rfl).during .replacement
    refine ⟨N, fun reenter {s n} hs hlast hnum inside => ?_⟩
    rw [hs.recursive]
    exact Run.Needs.withFrame (hscan reenter (hs.frame inside) hlast hnum)

/-- Expanding a macro call does what is derived. -/
theorem expandCall_does (k : Nat) : ∀ {op args notes as r},
    Rewrites R R.Applies mode k (.call (.symbol op) args notes) as r →
      Run.Does (fun reenter => expandCall reenter k (.call (.symbol op) args notes)) R mode costs
        as r := by
  induction k with
  | zero =>
    intro op args notes as r h
    exact h.elim
  | succ k ih =>
    intro op args notes as r h
    obtain ⟨a, bs, rfl, ⟨hlookup, hbody, hcaller⟩, hinv, hrest⟩ := h
    rename_i clause answer tag caller depth
    cases hinv
    obtain ⟨N, hN⟩ : ∃ N, ∀ (reenter : Mode → Value → Run Value) {s : Expander} {n : Nat},
        s.Ready R mode costs → s.tags.last = n → Numbered n bs → ∀ inside : Frame,
        (if s.recursive then withFrame inside (during .replacement
            (scan (expandCall reenter k) (answer.resolve tag caller)))
          else pure (answer.resolve tag caller)).Needs s N (Gives r (n + bs.length)) := by
      refine rescan_needs ?_ ?_
      · rintro rfl
        exact hrest
      · rintro rfl
        exact scan_does_of_singleton (scanList_does ih hrest)
    refine ⟨max (costs.of .application) (max (costs.of (.resolution answer.skeleton)) N),
      fun reenter {s n} hs hlast hnum => ?_⟩
    have htag : tag = s.tags.fresh.1 := by
      have := hnum.1
      rw [← hlast] at this
      cases tag
      cases this
      rfl
    subst htag
    rw [← hs.registry] at hlookup
    refine Run.Needs.of_phase (on_expandCall_succ hlookup) ?_
    have hs1 := hs.later (.phase s .matched)
    rw [← hs1.costs]
    refine Run.Needs.bind (applyClause_needs reenter hbody _) ?_
    rintro _ s' hs' ⟨rfl, hlast'⟩
    have hs2 := hs1.later hs'
    have htags : s'.tags = s.tags := congrArg TagSupply.mk hlast'
    rw [hs1.costs, ← hs2.costs]
    refine Run.Needs.bind (settle_needs hs2.quiet hcaller) ?_
    rintro _ s'' hs'' ⟨rfl, hlast''⟩
    refine Run.Needs.after (Run.on_get s'') (.refl s'') ?_
    have hlast3 : s''.tags.last = n + 1 := by rw [hlast'', htags, hlast]
    rw [List.length_cons, Nat.add_comm bs.length, ← Nat.add_assoc, htags]
    exact hN reenter (hs2.later hs'') hlast3 hnum.2 _

/-! ## Entries -/

theorem prepare_needs {s : Expander} {t : Tree} (hopen : t.openNodes = []) :
    (prepare (.tree t)).Needs s (s.budget.costs.of (.survey t.skeleton))
      (Gives () (s.tags.skipPast t.maxTag).last) := by
  rw [Run.Needs, on_prepare, hopen]
  by_cases hN : s.budget.costs.of (.survey t.skeleton) ≤ s.budget.left
  · rw [if_pos (Budget.covers_eq_true.2 hN)]
    refine ⟨_, _, rfl, ?_, ?_⟩
    · exact ⟨rfl, rfl, rfl, rfl, rfl, rfl, rfl, s.tags.last_le_skipPast _, [], rfl⟩
    · rw [if_pos hN]
      exact ⟨_, rfl, rfl, rfl⟩
  · rw [if_neg (mt Budget.covers_eq_true.1 hN)]
    exact ⟨_, _, rfl, .refl _, by rw [if_neg hN]⟩

theorem Expander.Later.remaining {s s' : Expander} (h : s.Later s') :
    s'.remaining = s.remaining := by
  rw [Expander.remaining, Expander.remaining, h.maxDepth, h.frame]

/-- An entry does what is derived with the tags that are not in use. -/
theorem visitIn_needs (costs : Costs) {t r : Tree} {as : List Transition} {k last : Nat}
    (hopen : t.openNodes = []) (d : Scans R (Rewrites R R.Applies mode k) [t] as [r])
    (hnum : Numbered last as) :
    ∃ N, ∀ {s : Expander}, s.registry = R → s.budget.costs = costs → s.Quiet → s.remaining = k →
      (s.tags.skipPast t.maxTag).last = last →
      (visitIn mode (.tree t)).Needs s N (Gives (.tree r) (last + as.length)) := by
  have hdoes : Run.Does (fun reenter => scanList (expandCall reenter k) [t]) R mode costs as [r] :=
    scanList_does (expandCall_does k) d
  obtain ⟨N, hscan⟩ := hdoes
  refine ⟨costs.of .entry + max (costs.of (.survey t.skeleton)) N,
    fun {s} hreg hcosts hquiet hrem hlast => ?_⟩
  suffices henter : (enter s.budget.left mode (.tree t)).Needs s
      (costs.of .entry + max (costs.of (.survey t.skeleton)) N)
      (Gives (.tree r) (last + as.length)) by
    rw [Run.Needs, on_visitIn]
    exact henter
  cases hroom : s.budget.left with
  | zero =>
    -- an entry takes some room
    have hpos := costs.pos .entry
    refine ⟨_, s, rfl, .refl s, ?_⟩
    rw [if_neg (by omega)]
  | succ room =>
    rw [enter, ← hcosts]
    refine Run.Needs.during (Run.Needs.bind (prepare_needs hopen) ?_)
    rintro _ s' hs' ⟨-, hlast'⟩
    have hrem' : s'.remaining = k := hs'.remaining.trans hrem
    refine Run.Needs.after (Run.on_get s') (.refl s') (Run.Needs.withMode ?_)
    rw [scanValue, hrem']
    refine Run.Needs.gives (scan_needs_of_singleton
      (hscan (enter room) ⟨⟨?_, rfl⟩, ?_, ?_⟩ ?_ hnum))
    · exact hs'.registry.trans hreg
    · exact hquiet.of_hook hs'.hook
    · exact (congrArg Budget.costs hs'.budget).trans hcosts
    · exact hlast'.trans hlast

end

end HygienicMacros
