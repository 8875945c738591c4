import HygienicMacros.Proofs.Nesting

/-! # Transformers see no open scopes

While a transformer builds its answer, trees with open scopes exist; but what it is handed has
none, and neither has what it gets back from the expander. An entry refuses a tree with open
scopes, and an answer is resolved before it is scanned. The only scope that this leaves open is
that of a call marked as its caller's, so the answers may not have such calls
(`Registry.Undeferring`). A transformer may pass on what it was handed or got back, so the condition
on its answers is only asked for where these are closed.

`enter_closed` is by induction on the room for entries inside one another: what a transformer gets
back is closed by the induction hypothesis, so its answer is closed when it is resolved.
-/

namespace HygienicMacros

/-! ## Answers that are closed when they are resolved -/

/-- No call of the tree is marked as its caller's. -/
def Tree.Undeferred (t : Tree) : Prop :=
  ∀ head args notes, .call head args notes ∈ t.nodes →
    Notes.scope? notes ≠ some (.pending .caller)

/-- An action that never answers a tree with a call marked as its caller's, as long as what it
gets back from the expander has no open scopes. -/
def Course.Undeferred : Action Value → Prop
  | .answer v => ∀ t, v = .tree t → t.Undeferred
  | .fail _ => True
  | .expand _ _ next => ∀ r, (∀ v, r = .ok v → v.openNodes = .ok []) → Undeferred (next r)
  | .freshTag next => ∀ tag, Undeferred (next tag)
  | .observe next => ∀ o, Undeferred (next o)
  | .register _ _ _ _ next => ∀ r, Undeferred (next r)

/-- No transformer answers a call marked as its caller's, as long as what it is handed and gets
back has no open scopes. -/
def Registry.Undeferring (R : Registry) : Prop :=
  ∀ t c, R.Takes t c → t.openNodes = [] → (c.transformer.body t).Undeferred

theorem Tree.undeferred_of_closed {t : Tree} (h : t.openNodes = []) : t.Undeferred := by
  intro head args notes hn hscope
  rw [openNodes, List.filter_eq_nil_iff] at h
  exact h _ hn (by simp [isOpen, hscope])

theorem Tree.Undeferred.openNodes_resolve {t : Tree} (h : t.Undeferred) (tag : Tag)
    (caller : Option Tag) : (t.resolve tag caller).openNodes = [] := by
  refine openNodes_eq_nil.2 fun m hm => ?_
  rw [marks_resolve, List.mem_map] at hm
  obtain ⟨m, hm, rfl⟩ := hm
  rw [Bool.eq_false_iff, Ne, Mark.isOpen_resolve]
  obtain ⟨u, hu, hmark⟩ := List.mem_filterMap.1 hm
  cases m with
  | name ident scope => exact id
  | call notes =>
    obtain ⟨head, args, rfl⟩ := mark?_eq_call.1 hmark
    exact h head args notes hu

/-! ## One application -/

section
variable {reenter : Mode → Value → Run Value} {s s' : Expander}

/-- What is got back is closed, so what is answered is undeferred. -/
theorem perform_undeferred {R : Registry} (hsteady : ∀ mode v, (reenter mode v).Steady)
    (hre : ∀ {mode v s w s'}, s.registry = R → (reenter mode v).on s = (.ok w, s') →
      w.openNodes = .ok []) (action : Action Value) :
    ∀ {s t s'}, action.Undeferred → s.registry = R →
      (perform reenter action).on s = (.ok (.tree t), s') → t.Undeferred := by
  induction action with
  | answer v =>
    intro s t s' h _ hrun
    cases hrun
    exact h t rfl
  | fail e => intro s t s' _ _ hrun; cases hrun
  | expand mode v next ih =>
    intro s t s' h hs hrun
    rw [perform, Run.on_bind_of_ok (on_attempt _ s)] at hrun
    refine ih _ (h _ fun w hw => ?_) ((hsteady mode v s).registry.trans hs) hrun
    exact hre hs (Prod.ext hw rfl)
  | freshTag next ih =>
    intro s t s' h hs hrun
    rw [perform, Run.on_bind_of_ok (on_freshTag s)] at hrun
    exact ih _ (h _) (s := { s with tags := s.tags.fresh.2 }) hs hrun
  | observe next ih =>
    intro s t s' h hs hrun
    rw [perform, Run.on_bind_of_ok (Run.on_get s)] at hrun
    exact ih _ (h _) hs hrun
  | register site name pattern candidate next ih =>
    intro s t s' h hs hrun
    cases site with
    | own =>
      rw [perform, Run.on_bind_of_ok (Run.on_get s)] at hrun
      exact ih _ (h _) hs hrun
    | source =>
      rw [perform, Run.on_bind_of_ok (Run.on_get s)] at hrun
      rcases hsource : s.source.register name pattern candidate with e | ⟨source, clause⟩ <;>
        rw [hsource] at hrun
      · exact ih _ (h _) hs hrun
      · exact ih _ (h _) (s := { s with source := source }) hs hrun

/-- The replacement of a macro call without open scopes has none. -/
theorem closed_of_settle {R : Registry} (hR : R.Undeferring)
    (hsteady : ∀ mode v, (reenter mode v).Steady)
    (hre : ∀ {mode v s w s'}, s.registry = R → (reenter mode v).on s = (.ok w, s') →
      w.openNodes = .ok []) {op : String} {args : List Tree} {notes : Notes} {clause : Clause}
    {answer expansion : Tree} {s₁ s₂ : Expander} (hs : s.registry = R)
    (hlookup : R.lookup op (args.map .tree) = .ok (some clause))
    (happly : (applyClause reenter clause (.call (.symbol op) args notes)).on s = (.ok answer, s₁))
    (hsettle : (settle clause (.call (.symbol op) args notes) notes answer).on s₁ =
      (.ok expansion, s₂)) (hopen : Tree.openNodes (.call (.symbol op) args notes) = []) :
    expansion.openNodes = [] := by
  have hbody := hR _ _ (.intro hlookup) hopen
  obtain ⟨s₃, hperform⟩ := applyClause_perform happly
  have hanswer := perform_undeferred hsteady hre _ hbody
    (s := Expander.spend { s with calls := s.calls + 1 } .application) hs hperform
  obtain ⟨caller, -, -, rfl, -⟩ := settle_ok hsettle
  exact hanswer.openNodes_resolve _ _

end

/-! ## Values -/

theorem Value.openNodes_eq_nil {v : Value} : v.openNodes = .ok [] ↔
    v.forest.2 = none ∧ ∀ t ∈ v.forest.1, t.openNodes = [] := by
  rw [openNodes, collect]
  rcases v.forest with ⟨trees, _ | e⟩ <;> simp

theorem Value.openNodes_list {vs : List Value} :
    (Value.list vs).openNodes = .ok [] ↔ ∀ v ∈ vs, v.openNodes = .ok [] := by
  induction vs with
  | nil => simp [openNodes, collect, forest, forestList]
  | cons v vs ih =>
    rw [List.forall_mem_cons, ← ih]
    simp only [openNodes_eq_nil, forest, forestList]
    rcases v.forest with ⟨trees, _ | e⟩
    · rcases forestList vs with ⟨more, _ | e⟩ <;> simp [or_imp, forall_and]
    · simp

mutual

theorem scanValue_closed {R : Registry} {mode : Mode} {E : Tree → Run Tree}
    (hE : ∀ t, (E t).Steady) (hscan : ∀ {t s r s'}, s.Works R mode → t.openNodes = [] →
      (scan E t).on s = (.ok r, s') → r.openNodes = []) :
    ∀ (v : Value) {s w s'}, s.Works R mode → v.openNodes = .ok [] →
      (scanValue E v).on s = (.ok w, s') → w.openNodes = .ok []
  | .tree t, s, w, s', hs, hv, h => by
    rw [scanValue] at h
    obtain ⟨r, s₁, hrun, hpure⟩ := Run.on_bind_ok.1 h
    cases hpure
    rw [Value.openNodes_eq_nil] at hv ⊢
    exact ⟨rfl, List.forall_mem_singleton.2 (hscan hs (hv.2 t (.head _)) hrun)⟩
  | .list items, s, w, s', hs, hv, h => by
    rw [scanValue] at h
    obtain ⟨ws, s₁, hrun, hpure⟩ := Run.on_bind_ok.1 h
    cases hpure
    obtain ⟨s₂, hitems, -⟩ := during_ok hrun
    exact Value.openNodes_list.2 (scanValues_closed hE hscan items (hs.budget _)
      (Value.openNodes_list.1 hv) hitems)
  | .nothing, _, _, _, _, _, h | .bool _, _, _, _, _, _, h | .int _, _, _, _, _, _, h
  | .float _, _, _, _, _, _, h | .text _, _, _, _, _, _, h | .atom _, _, _, _, _, _, h
  | .pending _, _, _, _, _, _, h | .tuple _, _, _, _, _, _, h | .record _, _, _, _, _, _, h
  | .variety _, _, _, _, _, _, h => by
    rw [scanValue] at h
    all_goals cases h

theorem scanValues_closed {R : Registry} {mode : Mode} {E : Tree → Run Tree}
    (hE : ∀ t, (E t).Steady) (hscan : ∀ {t s r s'}, s.Works R mode → t.openNodes = [] →
      (scan E t).on s = (.ok r, s') → r.openNodes = []) :
    ∀ (vs : List Value) {s ws s'}, s.Works R mode → (∀ v ∈ vs, v.openNodes = .ok []) →
      (scanValues E vs).on s = (.ok ws, s') → ∀ w ∈ ws, w.openNodes = .ok []
  | [], s, ws, s', _, _, h => by
    rw [scanValues] at h
    cases h
    exact List.forall_mem_nil _
  | v :: vs, s, ws, s', hs, hvs, h => by
    rw [scanValues] at h
    obtain ⟨w, s₁, hv, h⟩ := Run.on_bind_ok.1 h
    obtain ⟨ws', s₂, hrest, hpure⟩ := Run.on_bind_ok.1 h
    cases hpure
    rw [List.forall_mem_cons] at hvs ⊢
    have hs₁ := hs.later ((steady_scanValue hE v).later hv)
    exact ⟨scanValue_closed hE hscan v hs hvs.1 hv, scanValues_closed hE hscan vs hs₁ hvs.2 hrest⟩

end

/-! ## Entries -/

/-- An application that replaces a macro call without open scopes by a tree without any. -/
def Transition.Closing (a : Transition) : Prop :=
  a.invocation.openNodes = [] → a.expansion.openNodes = []

theorem any_trail : Trail fun _ _ _ => True :=
  ⟨fun _ _ => trivial, fun _ _ => trivial, fun _ _ => trivial, fun _ _ => trivial⟩

/-- What an entry returns has no open scopes. -/
theorem enter_closed {R : Registry} (hR : R.Undeferring) : ∀ (room : Nat) {mode v s w s'},
    s.registry = R → (enter room mode v).on s = (.ok w, s') → w.openNodes = .ok []
  | 0, _, _, _, _, _, _, h => by cases h
  | room + 1, mode, v, s, w, s', hs, h => by
    have hstep : ∀ {op args notes clause s answer s₁ expansion s₂}, s.registry = R →
        R.lookup op (args.map .tree) = .ok (some clause) →
        (applyClause (enter room) clause (.call (.symbol op) args notes)).on s =
          (.ok answer, s₁) →
        (settle clause (.call (.symbol op) args notes) notes answer).on s₁ =
          (.ok expansion, s₂) →
        ∃ a : Transition, a.Closing ∧ a.invocation = .call (.symbol op) args notes ∧
          a.expansion = expansion ∧ True := by
      intro op args notes clause s answer s₁ expansion s₂ hs hlookup happly hsettle
      have hclosed := closed_of_settle hR (steady_enter room) (enter_closed hR room) hs hlookup
        happly hsettle
      obtain ⟨caller, -, -, rfl, -⟩ := settle_ok hsettle
      exact ⟨s₁.applied clause (.call (.symbol op) args notes) answer caller, hclosed, rfl, rfl,
        trivial⟩
    rw [enter] at h
    obtain ⟨s₀, h, -⟩ := during_ok h
    obtain ⟨_, s₁, hprepare, h⟩ := Run.on_bind_ok.1 h
    rw [Run.on_bind_of_ok (Run.on_get s₁)] at h
    obtain ⟨s₂, hscan, -⟩ := withMode_ok h
    obtain ⟨hmisfit, htrees⟩ := prepare_forest hprepare
    have hworks : Expander.Works R mode { s₁ with recursive := mode == .recursive } :=
      ⟨((steady_prepare v).later hprepare).registry.trans hs, rfl⟩
    have hsteady := steady_expandCall (steady_enter room) s₁.remaining
    refine scanValue_closed hsteady ?_ v hworks
      (Value.openNodes_eq_nil.2 ⟨hmisfit, htrees⟩) hscan
    intro t s r s' hs ht hrun
    obtain ⟨as, d, -⟩ := Scans.of_scan any_trail hsteady
      (Rewrites.of_expandCall any_trail (steady_enter room) hstep s₁.remaining) t hs hrun
    exact d.closed (fun _ ha => ha) ht

theorem closed_handsDown {R : Registry} (hR : R.Undeferring) (room : Nat) :
    HandsDown (enter room) fun _ t s => s.registry = R ∧ t.openNodes = [] where
  later h hs := ⟨hs.registry.trans h.1, h.2⟩
  budget _ h := h
  child h hu :=
    ⟨h.1, Tree.openNodes_of_mem h.2 (Tree.mem_nodes_of_child hu (Tree.mem_nodes_self _))⟩
  replaced := by
    intro k op args notes clause answer expansion s s₁ s₂ h hlookup happly hsettle
    have happlied := (steady_applyClause (steady_enter room) _ _).later happly
    have hsettled := (steady_settle _ _ _ _).later hsettle
    rw [h.1] at hlookup
    exact ⟨(hsettled.registry.trans happlied.registry).trans h.1, closed_of_settle hR
      (steady_enter room) (enter_closed hR room) h.1 hlookup happly hsettle h.2⟩

namespace Entry

variable {e : Entry}

/-- A macro call that an entry comes to has no open scopes. -/
theorem Comes.closed (hR : e.state.registry.Undeferring) {c : Tree} {j : Nat} {s' : Expander}
    (h : e.Comes c j s') : c.openNodes = [] := by
  refine (h.handsDown (P := fun _ t s => s.registry = e.state.registry ∧ t.openNodes = [])
    (fun room _ => closed_handsDown hR room) ?_).2
  intro s₁ t hprepare ht
  exact ⟨((steady_prepare _).later hprepare).registry, (prepare_forest hprepare).2 t ht⟩

/-- At every moment of a transformer's work, each part of the macro call that it was handed can be
expanded, if there is room to look through it. -/
theorem Reaches.prepare (hR : e.state.registry.Undeferring) {a : Application} {x : Action Value}
    {s' : Expander} (h : e.Reaches a x s') {u : Tree} (hu : u ∈ a.invocation.nodes) :
    (prepare (.tree u)).on s' = if s'.budget.covers (.survey u.skeleton) then
      (.ok (), { s' with tags := s'.tags.skipPast u.maxTag }) else (.error .stackOverflow, s') := by
  obtain ⟨j, s₁, hcomes, -, -⟩ := h.comes
  rw [on_prepare, Tree.openNodes_of_mem (hcomes.closed hR) hu]

end Entry

/-- **Transformers see no open scopes.** Let no transformer answer a call marked as its caller's. In
every entry of a run, made from outside or by a transformer, every macro call that a transformer is
handed has no open scopes, and so has what the entry returns. So at any moment of its work a
transformer can have any part of its macro call expanded, and is not refused; only the room on the
stack can be too little to look through that part. -/
theorem visit_closed {s : Expander} (hR : s.registry.Undeferring) {mode : Mode} {v : Value}
    {e : Entry} (he : (Entry.visit mode v s).Nests e) :
    (∀ {a x s'}, e.Reaches a x s' → a.invocation.openNodes = [] ∧
      ∀ u ∈ a.invocation.nodes, (prepare (.tree u)).on s' =
        if s'.budget.covers (.survey u.skeleton) then
          (.ok (), { s' with tags := s'.tags.skipPast u.maxTag })
        else (.error .stackOverflow, s')) ∧
    ∀ {w s'}, e.outcome = (.ok w, s') → w.openNodes = .ok [] := by
  have hreg : e.state.registry = s.registry := he.akin.registry
  rw [← hreg] at hR
  refine ⟨fun hreaches => ?_, fun houtcome => enter_closed hR _ rfl houtcome⟩
  obtain ⟨j, s₁, hcomes, -, -⟩ := hreaches.comes
  exact ⟨hcomes.closed hR, fun u hu => hreaches.prepare hR hu⟩

namespace Catalogue

/-- What is answered around a tree: a name of the template is bound to it. -/
def bound (t : Tree) : Tree :=
  op "let" [.name "tmp" (.pending .template), t, .name "tmp" (.pending .template)]

/-- A transformer that expands its argument first, and binds a name to what comes back. If nothing
does, it binds the name to the argument as it is. -/
def eager : Transformer where
  label := "eager"
  body
    | .call _ [t] _ => .expand .recursive (.tree t) fun
      | .ok (.tree r) => .answer (.tree (bound r))
      | _ => .answer (.tree (bound t))
    | t => .fail (.unmet .tree (.tree t))

def patient : Registry := (Registry.empty []).add "eager" (.arity 1) eager

theorem undeferred_bound {t : Tree} (h : t.openNodes = []) : (bound t).Undeferred := by
  intro head args notes hn
  simp only [bound, op, Tree.nodes, Tree.nodesList_eq, List.flatMap_cons, List.flatMap_nil,
    List.mem_cons, List.mem_append, List.not_mem_nil, or_false, false_or, reduceCtorEq,
    Tree.call.injEq] at hn
  rcases hn with ⟨-, -, rfl⟩ | hn
  · simp [Notes.scope?, Notes.find?]
  · exact Tree.undeferred_of_closed h head args notes hn

theorem patient_undeferring : patient.snapshot.Undeferring := by
  have hrules : ∀ c ∈ patient.rules, ∀ t, t.openNodes = [] →
      (c.transformer.body t).Undeferred := by
    refine Registry.forall_rules_add (fun t ht => ?_) (Registry.forall_rules_empty _)
    unfold eager
    dsimp only
    split
    · rename_i head t notes
      have hpart : t.openNodes = [] := Tree.openNodes_of_mem ht
        (Tree.mem_nodes_of_child (by cases head <;> simp [Tree.children]) (Tree.mem_nodes_self t))
      intro r hr
      dsimp only
      split
      · intro u hu
        cases hu
        have hback := Value.openNodes_eq_nil.1 (hr _ rfl)
        exact undeferred_bound (hback.2 _ (.head _))
      · intro u hu
        cases hu
        exact undeferred_bound hpart
    · trivial
  exact fun t c h => hrules c h.mem t

/-- An expander that has called some transformers, which are all at work. -/
def waiting (calls left : Nat) : Expander :=
  { Expander.ofRegistry patient 9 Expander.standardLabel with
    phase := .matched, calls := calls, budget := ⟨left, Expander.standardBudget.costs⟩ }

theorem begins_eager {t : Tree} (room calls left : Nat)
    (hprepare : (prepare (.tree (op "eager" [t]))).on (waiting calls (left + 3)) =
      (.ok (), waiting calls (left + 3))) :
    Begins room .recursive (.tree (op "eager" [t])) (waiting calls (left + 6))
      ⟨⟨"eager", .arity 1, eager, 0⟩, op "eager" [t]⟩ (waiting (calls + 1) left) := by
  have hentry : (waiting calls (left + 6)).budget.covers .entry = true :=
    Budget.covers_eq_true.2 (Nat.le_add_left 3 (left + 3))
  have hroom : (waiting calls (left + 3)).budget.covers .application = true :=
    Budget.covers_eq_true.2 (Nat.le_add_left 3 left)
  have henters : Enters room .recursive (.tree (op "eager" [t])) (waiting calls (left + 6))
      (op "eager" [t]) 9 (waiting calls (left + 3)) := ⟨hentry, _, hprepare, .tree (.here rfl)⟩
  exact .intro henters rfl hroom

end Catalogue

open Catalogue in
/-- The inner of two macro calls, expanded on behalf of the transformer of the outer one. -/
theorem visit_closed_patient : ∃ e a x s',
    (Entry.visit .recursive (.tree (op "eager" [op "eager" [var "y"]])) (waiting 0 1000)).Nests e ∧
    e.value = .tree (op "eager" [var "y"]) ∧ e.Reaches a x s' ∧ a.invocation.openNodes = [] ∧
    (prepare (.tree (var "y"))).on s' = (.ok (), { s' with tags := s'.tags.skipPast 0 }) ∧
    ∀ w s', e.outcome = (.ok w, s') → w.openNodes = .ok [] := by
  have hnests : (Entry.visit .recursive (.tree (op "eager" [op "eager" [var "y"]]))
      (waiting 0 1000)).Nests ⟨999, .recursive, .tree (op "eager" [var "y"]), waiting 1 994⟩ :=
    .single ⟨⟨begins_eager 999 0 994 rfl, .refl⟩⟩
  have hreaches : Entry.Reaches ⟨999, .recursive, .tree (op "eager" [var "y"]), waiting 1 994⟩
      ⟨⟨"eager", .arity 1, eager, 0⟩, op "eager" [var "y"]⟩ _ (waiting 2 988) :=
    ⟨begins_eager 998 1 988 rfl, .refl⟩
  obtain ⟨hhanded, hreturned⟩ := visit_closed patient_undeferring hnests
  obtain ⟨hopen, hprepare⟩ := hhanded hreaches
  refine ⟨_, _, _, _, hnests, rfl, hreaches, hopen, ?_, fun _ _ => hreturned⟩
  exact hprepare (var "y") (.tail _ (.head _))

end HygienicMacros
