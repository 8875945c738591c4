import HygienicMacros.Proofs.Nesting

/-! # What the depth guard reports

Around the scan of a replacement there is one more frame, with the macro call that was replaced at
the end of its path. So the path of the innermost frame is as long as its depth, at every moment
and in every entry, and the guard stops a macro call exactly when there are as many calls on the
path as may be nested. In an entry from outside the path is a derivation: its first macro call is in
the tree, and each later one in the replacement of the one before (`Chain`). Only an entry that a
transformer makes takes over a path that its own trees have no part in; where no transformer makes
any, every report of the guard is a derivation (`guard_reports`).
-/

namespace HygienicMacros

/-! ## Frames that count their path -/

/-- The innermost frame counts the macro calls on its path, and they are not too many. -/
structure Expander.Balanced (s : Expander) : Prop where
  length : s.frame.path.length = s.frame.depth
  le : s.frame.depth ≤ s.maxDepth

theorem Expander.Balanced.later {s s' : Expander} (h : s.Balanced) (hs : s.Later s') :
    s'.Balanced := by
  refine ⟨?_, ?_⟩
  · rw [hs.frame]
    exact h.length
  · rw [hs.frame, hs.maxDepth]
    exact h.le

/-- A balanced state, with `k` more expansions to be nested of `d` in all. -/
structure Expander.Level (d k : Nat) (s : Expander) : Prop extends s.Balanced where
  maxDepth : s.maxDepth = d
  left : s.frame.depth + k = d

theorem level_handsDown (d room : Nat) : HandsDown (enter room) fun k _ s => s.Level d k where
  later h hs :=
    ⟨h.toBalanced.later hs, hs.maxDepth.trans h.maxDepth, by rw [hs.frame]; exact h.left⟩
  budget _ h := ⟨⟨h.length, h.le⟩, h.maxDepth, h.left⟩
  child h _ := h
  replaced := by
    intro k op args notes clause answer expansion s s₁ s₂ h _ happly hsettle
    have hlater := ((steady_applyClause (steady_enter room) _ _).later happly).trans
      ((steady_settle _ _ _ _).later hsettle)
    have hmax : s₂.maxDepth = d := hlater.maxDepth.trans h.maxDepth
    have hleft : s.frame.depth + 1 + k = d := by have := h.left; omega
    refine ⟨⟨?_, ?_⟩, hmax, hleft⟩
    · change (s.frame.path ++ [_]).length = s.frame.depth + 1
      rw [List.length_append, h.length]
      rfl
    · change s.frame.depth + 1 ≤ s₂.maxDepth
      omega

namespace Entry

variable {e e' : Entry} {c : Tree} {j : Nat} {a : Application} {x : Action Value} {s' : Expander}

theorem Comes.level (hs : e.state.Balanced) (h : e.Comes c j s') :
    s'.Level e.state.maxDepth j := by
  refine h.handsDown (P := fun k _ s => s.Level e.state.maxDepth k)
    (fun room _ => level_handsDown _ room) ?_
  intro s₁ t hprepare _
  have hlater := (steady_prepare _).later hprepare
  have hbalanced := Expander.Balanced.later (s := e.state.spend .entry) ⟨hs.length, hs.le⟩ hlater
  refine ⟨⟨hbalanced.length, hbalanced.le⟩, hlater.maxDepth, ?_⟩
  change s₁.frame.depth + (s₁.maxDepth - s₁.frame.depth) = e.state.maxDepth
  have hle := hbalanced.le
  have hmax : s₁.maxDepth = e.state.maxDepth := hlater.maxDepth
  omega

theorem Reaches.balanced (hs : e.state.Balanced) (h : e.Reaches a x s') :
    s'.Balanced ∧ s'.maxDepth = e.state.maxDepth := by
  obtain ⟨j, s₁, hcomes, -, hlater⟩ := h.comes
  have hlevel := hcomes.level hs
  have hbegins : Expander.Balanced (Expander.spend
      { s₁ with phase := .matched, calls := s₁.calls + 1 } .application) :=
    ⟨hlevel.length, hlevel.le⟩
  exact ⟨hbegins.later hlater, hlater.maxDepth.trans hlevel.maxDepth⟩

theorem Nests.balanced (hs : e.state.Balanced) (h : e.Nests e') :
    e'.state.Balanced ∧ e'.state.maxDepth = e.state.maxDepth := by
  induction h with
  | refl => exact ⟨hs, rfl⟩
  | tail _ hstep ih =>
    obtain ⟨asks⟩ := hstep
    obtain ⟨hbalanced, hmax⟩ := asks.balanced ih.1
    exact ⟨hbalanced, hmax.trans ih.2⟩

/-! ## The guard -/

/-- A macro call that a clause takes is handed to the transformer while more expansions may be
nested, if there is room for the transformer. -/
theorem Comes.reaches {clause : Clause} (h : e.Comes c (j + 1) s')
    (hc : e.state.registry.Takes c clause) (hfits : s'.budget.covers .application = true) :
    e.Reaches ⟨clause, c⟩ (Application.action ⟨clause, c⟩)
      (Expander.spend { s' with phase := .matched, calls := s'.calls + 1 } .application) := by
  obtain ⟨enters⟩ := h
  obtain ⟨lookup⟩ := hc
  exact ⟨.intro enters lookup hfits, .refl⟩

/-- Without that room the stack overflows. -/
theorem Comes.overflow {clause : Clause} (h : e.Comes c (j + 1) s')
    (hc : e.state.registry.Takes c clause) (hfits : s'.budget.covers .application = false) :
    e.outcome.1 = .error .stackOverflow := by
  have hakin := h.akin
  obtain @⟨room, mode, v, s, _, _, _, enters⟩ := h
  obtain ⟨lookup⟩ := hc
  rw [← hakin.registry] at lookup
  obtain ⟨s₁, henter⟩ := enters.error (.unanswered lookup
    (applyClause_of_not_covers _ _ _ (s := { s' with phase := .matched }) hfits))
  exact (Prod.ext_iff.1 henter).1

/-- When no more may be nested, the entry fails, and the path is reported with the macro call at its
end. -/
theorem Comes.guard {clause : Clause} (h : e.Comes c 0 s') (hc : e.state.registry.Takes c clause) :
    e.outcome.1 = .error (.depthExceeded (.nested e.state.filename
      (s'.frame.path ++ [(clause.name, c)])) s'.maxDepth) := by
  have hakin := h.akin
  obtain ⟨enters⟩ := h
  obtain ⟨lookup⟩ := hc
  rw [← hakin.registry] at lookup
  obtain ⟨s₁, henter⟩ := enters.error (.tooDeep lookup)
  rw [hakin.filename] at henter
  exact (Prod.ext_iff.1 henter).1

/-- What the depth guard does with the macro call `c` that an entry comes to in the state `s'`,
where `d` expansions may be nested. -/
structure Guards (e : Entry) (d : Nat) (c : Tree) (s' : Expander) : Prop where
  length : s'.frame.path.length = s'.frame.depth
  le : s'.frame.path.length ≤ d
  /-- The guard lets a shorter path through, so that only the room on the stack can keep the
  transformer from its work. -/
  passes : ∀ clause, e.state.registry.Takes c clause → s'.frame.path.length < d →
    if s'.budget.covers .application then
      e.Reaches ⟨clause, c⟩ (Application.action ⟨clause, c⟩)
        (Expander.spend { s' with phase := .matched, calls := s'.calls + 1 } .application)
    else e.outcome.1 = .error .stackOverflow
  /-- It stops a path with `d` macro calls, and reports it with `c` as one more. -/
  stops : ∀ clause, e.state.registry.Takes c clause → s'.frame.path.length = d → ∃ cause,
    e.outcome.1 = .error (.depthExceeded cause d) ∧
    cause = .nested e.state.filename (s'.frame.path ++ [(clause.name, c)]) ∧
    cause.path = (s'.frame.path ++ [(clause.name, c)]).map (fun p => (p.1, p.2.unparse)) ∧
    cause.path.length = d + 1

theorem Comes.guards (hs : e.state.Balanced) (h : e.Comes c j s') :
    e.Guards e.state.maxDepth c s' := by
  have hlevel := h.level hs
  have hlength := hlevel.length
  have hleft := hlevel.left
  refine ⟨hlength, by omega, fun clause hc hlt => ?_, fun clause hc heq => ?_⟩
  · obtain ⟨j, rfl⟩ : ∃ i, j = i + 1 := ⟨j - 1, by omega⟩
    split
    · rename_i hfits
      exact h.reaches hc hfits
    · rename_i hfits
      exact h.overflow hc (Bool.eq_false_iff.2 hfits)
  · obtain rfl : j = 0 := by omega
    refine ⟨_, ?_, rfl, rfl, ?_⟩
    · rw [← hlevel.maxDepth]
      exact h.guard hc
    · simp [DepthCause.path, renderPath, heq]

end Entry

/-! ## Chains of applications -/

/-- An application as the expander makes it, whatever the transformer does on the way: a clause
takes the macro call, its transformer comes to the answer, and the answer is resolved in the scope
of the macro call. -/
inductive Registry.Makes (R : Registry) : Transition → Prop
  | intro {op : String} {args : List Tree} {notes : Notes} {clause : Clause} {answer : Tree}
      {tag : Tag} {caller : Option Tag} {depth room : Nat} {s s' : Expander}
      (lookup : R.lookup op (args.map .tree) = .ok (some clause))
      (answers : (perform (enter room) (clause.transformer.body
        (.call (.symbol op) args notes))).on s = (.ok (.tree answer), s'))
      (scope : Notes.caller notes = .ok caller) :
      R.Makes ⟨clause.name, .call (.symbol op) args notes, answer, tag,
        answer.resolve tag caller, clause.transformer.label, depth⟩

/-- A chain of applications from the tree `t` to the tree `u`: the first macro call is a node of
`t`, each later one a node of the replacement of the one before, and so is `u` of the last one. -/
def Chain (t : Tree) : List Transition → Tree → Prop
  | [], u => u ∈ t.nodes
  | a :: as, u => a.invocation ∈ t.nodes ∧ Chain a.expansion as u

theorem Chain.part {u v : Tree} (hv : v ∈ u.nodes) : ∀ {as : List Transition} {t : Tree},
    Chain t as u → Chain t as v
  | [], _, h => Tree.mem_nodes_trans h hv
  | _ :: _, _, h => ⟨h.1, h.2.part hv⟩

theorem Chain.append {a : Transition} : ∀ {as : List Transition} {t : Tree},
    Chain t as a.invocation → Chain t (as ++ [a]) a.expansion
  | [], _, h => ⟨h, Tree.mem_nodes_self _⟩
  | _ :: _, _, h => ⟨h.1, h.2.append⟩

/-- The path of the innermost frame lists a chain of applications, all of them filed. -/
def Derives (R : Registry) (t : Tree) (u : Tree) (s : Expander) : Prop :=
  ∃ as : List Transition, s.frame.path = as.map (fun a => (a.macroName, a.invocation)) ∧
    Chain t as u ∧ ∀ a ∈ as, R.Makes a ∧ a ∈ s.history

theorem derives_handsDown (R : Registry) (t : Tree) (room : Nat) :
    HandsDown (enter room) fun _ u s => s.registry = R ∧ Derives R t u s where
  later := by
    rintro k u s s' ⟨hreg, as, hpath, hchain, has⟩ hs
    refine ⟨hs.registry.trans hreg, as, by rw [hs.frame, hpath], hchain, fun a ha => ?_⟩
    obtain ⟨new, hnew⟩ := hs.history
    rw [hnew]
    exact ⟨(has a ha).1, List.mem_append_right _ (has a ha).2⟩
  budget _ h := h
  child := by
    rintro k u v s ⟨hreg, as, hpath, hchain, has⟩ hv
    exact ⟨hreg, as, hpath, hchain.part (Tree.mem_nodes_of_child hv (Tree.mem_nodes_self v)), has⟩
  replaced := by
    rintro k op args notes clause answer expansion s s₁ s₂ ⟨hreg, as, hpath, hchain, has⟩ hlookup
      happly hsettle
    have happlied := (steady_applyClause (steady_enter room) _ _).later happly
    have hsettled := (steady_settle _ _ _ _).later hsettle
    rw [hreg] at hlookup
    obtain ⟨new, hnew⟩ := happlied.history
    obtain ⟨caller, text, hcaller, rfl, rfl⟩ := settle_ok hsettle
    obtain ⟨s₃, hperform⟩ := applyClause_perform happly
    refine ⟨happlied.registry.trans hreg,
      as ++ [s₁.applied clause (.call (.symbol op) args notes) answer caller], ?_,
      Chain.append hchain, ?_⟩
    · change s.frame.path ++ [_] = _
      rw [hpath, List.map_append]
      rfl
    · intro a ha
      rcases List.mem_append.1 ha with ha | ha
      · refine ⟨(has a ha).1, List.mem_cons_of_mem _ ?_⟩
        rw [hnew]
        exact List.mem_append_right _ (has a ha).2
      · obtain rfl := List.mem_singleton.1 ha
        exact ⟨.intro hlookup hperform hcaller, .head _⟩

/-- In an entry from outside, with no expansion around it, the path is a derivation. -/
theorem Entry.Comes.derives {mode : Mode} {t c : Tree} {j : Nat} {s s' : Expander}
    (hs : s.frame = Frame.outermost) (h : (Entry.visit mode (.tree t) s).Comes c j s') :
    Derives s.registry t c s' := by
  refine (h.handsDown (P := fun _ u s' => s'.registry = s.registry ∧ Derives s.registry t u s')
    (fun room _ => derives_handsDown _ t room) ?_).2
  intro s₁ u hprepare hu
  have hlater := (steady_prepare _).later hprepare
  obtain rfl := List.mem_singleton.1 hu
  refine ⟨hlater.registry, [], ?_, Tree.mem_nodes_self _, List.forall_mem_nil _⟩
  change s₁.frame.path = []
  rw [hlater.frame]
  change s.frame.path = []
  rw [hs]
  rfl

/-! ## Transformers that make no entries -/

/-- An action that never asks for an expansion. -/
def Course.Solitary : Action Value → Prop
  | .answer _ => True
  | .fail _ => True
  | .expand _ _ _ => False
  | .freshTag next => ∀ tag, Solitary (next tag)
  | .observe next => ∀ o, Solitary (next o)
  | .register _ _ _ _ next => ∀ r, Solitary (next r)

/-- No transformer asks for an expansion. -/
def Registry.Solitary (R : Registry) : Prop :=
  ∀ t c, R.Takes t c → (c.transformer.body t).Solitary

theorem Course.Solitary.proceed {reenter : Mode → Value → Run Value}
    {p q : Action Value × Expander} (hp : p.1.Solitary) (h : proceed reenter p = some q) :
    q.1.Solitary := by
  obtain ⟨x, s⟩ := p
  cases x with
  | answer a => cases h
  | fail e => cases h
  | expand mode v next => exact hp.elim
  | freshTag next => cases h; exact hp _
  | observe next => cases h; exact hp _
  | register site name pattern candidate next =>
    cases site with
    | own => cases h; exact hp _
    | source =>
      rw [HygienicMacros.proceed] at h
      split at h <;> cases h <;> exact hp _

theorem Course.Solitary.proceeds {reenter : Mode → Value → Run Value}
    {p q : Action Value × Expander} (hp : p.1.Solitary) (h : Proceeds reenter p q) :
    q.1.Solitary := by
  induction h with
  | refl => exact hp
  | tail _ hstep ih => exact ih.proceed hstep

/-- Where no transformer asks for an expansion, the entry from outside is the only one. -/
theorem Entry.Nests.eq_of_solitary {e e' : Entry} (hR : e.state.registry.Solitary)
    (h : e.Nests e') : e' = e := by
  induction h with
  | refl => rfl
  | tail _ hstep ih =>
    subst ih
    obtain ⟨⟨⟨enters, lookup, fits⟩, proceeds⟩⟩ := hstep
    exact ((hR _ _ (.intro lookup)).proceeds proceeds).elim

/-- **The depth guard reports a derivation.** Begin with an expander that is not inside any
expansion. With any transformers, in every entry of a run, made from outside or by a transformer,
the path is as long as the depth: when the entry begins and when it ends, at every macro call that
it comes to, and at every moment of a transformer's work. So a macro call that a clause takes is
handed to the transformer while the path is shorter than the depth limit (unless the stack
overflows), and otherwise the entry fails with that limit and the path, the macro call at its end,
as it is rendered, outermost first. If no transformer makes entries, there is only the one from
outside, and the path is a chain of applications from its tree to the macro call. -/
theorem guard_reports {s : Expander} (hs : s.stack = [Frame.outermost]) (mode : Mode) :
    (∀ {v e}, (Entry.visit mode v s).Nests e →
      e.state.frame.path.length = e.state.frame.depth ∧
      e.outcome.2.frame.path.length = e.outcome.2.frame.depth ∧
      (∀ {a x s'}, e.Reaches a x s' → s'.frame.path.length = s'.frame.depth) ∧
      ∀ {c j s'}, e.Comes c j s' → e.Guards s.maxDepth c s') ∧
    (s.registry.Solitary → ∀ {t e}, (Entry.visit mode (.tree t) s).Nests e →
      e.outcome = (visitIn mode (.tree t)).on s ∧
      ∀ {c j s'}, e.Comes c j s' → Derives s.registry t c s') := by
  have hframe : s.frame = Frame.outermost := by rw [Expander.frame, hs]; rfl
  have hbalanced : s.Balanced := by
    refine ⟨?_, ?_⟩ <;> rw [hframe]
    · rfl
    · exact Nat.zero_le _
  refine ⟨fun {v e} he => ?_, fun hR {t e} he => ?_⟩
  · obtain ⟨hstate, hmax⟩ := he.balanced hbalanced
    have hafter := hstate.later (steady_enter e.room e.mode e.value e.state)
    refine ⟨hstate.length, hafter.length, fun hreaches => (hreaches.balanced hstate).1.length,
      fun hcomes => ?_⟩
    have hguards := hcomes.guards hstate
    rw [hmax] at hguards
    exact hguards
  · obtain rfl := he.eq_of_solitary hR
    exact ⟨Entry.outcome_visit _ _ _, fun hcomes => hcomes.derives hframe⟩

namespace Catalogue

theorem endless_solitary : endless.snapshot.Solitary := by
  have hrules : ∀ c ∈ endless.rules, ∀ t, (c.transformer.body t).Solitary :=
    Registry.forall_rules_add (fun t => trivial) (Registry.forall_rules_empty _)
  exact fun t c h => hrules c h.mem t

/-- The only clause of the macro without end. -/
def endlessly : Clause :=
  ⟨"loop", .arity 0, .pure "loop" fun t => .ok (.tree (op "f" [t])), 0⟩

/-- The macro without end is met again inside as many expansions as may be nested, if there is room
for them. -/
theorem meets_loop (room : Nat) : ∀ (k : Nat) {s : Expander},
    s.Ready endless.snapshot .recursive Expander.standardBudget.costs →
    7 * k + 9 ≤ s.budget.left →
    ∃ s', Meets (enter room) k [op "loop" []] s (op "loop" []) 0 s' ∧
      s'.frame.path.length = s.frame.path.length + k
  | 0, s, hs, _ => ⟨s, .here (by rw [hs.registry]; rfl), rfl⟩
  | k + 1, s, hs, hroom => by
    let s₁ : Expander := { s with phase := .matched, calls := s.calls + 1 }
    have hlater : s.Later s₁ := ⟨rfl, rfl, rfl, rfl, rfl, rfl, rfl, Nat.le_refl _, [], rfl⟩
    have hlookup : s.registry.lookup "loop" [] = .ok (some endlessly) := by
      rw [hs.registry]
      rfl
    have hfits : ∀ a, Expander.standardCost a ≤ 9 → s.budget.costs.of a ≤ s.budget.left := by
      intro a ha
      rw [hs.costs]
      change Expander.standardCost a ≤ s.budget.left
      omega
    have happly : (applyClause (enter room) endlessly (op "loop" [])).on
        { s with phase := .matched } = (.ok (op "f" [op "loop" []]), s₁) :=
      applyClause_of_answer _ rfl (Budget.covers_eq_true.2 (hfits .application (by decide)))
    have hneeds : (settle endlessly (op "loop" []) [] (op "f" [op "loop" []])).Needs s₁ _
        (Gives (op "f" [op "loop" []]) _) := settle_needs (hs.quiet.later hlater) rfl
    obtain ⟨_, s₂, hsettle, hs₂, hgives⟩ := hneeds
    rw [if_pos (hfits (.resolution (op "f" [op "loop" []]).skeleton) (by decide))] at hgives
    obtain ⟨_, rfl, rfl, -⟩ := hgives
    have hready := hs.later (hlater.trans hs₂)
    have hbudget : s₂.budget = s.budget := (hlater.trans hs₂).budget
    let phase : Phase := if s₂.registry.isTerminal "f" then .terminal else .scanning
    obtain ⟨s', hmeets, hlength⟩ := meets_loop room k
      ((((hready.frame (s.frame.inside "loop" (op "loop" []))).spend .replacement).later
        (.phase _ phase)).spend (.arguments 1)) (by
          change 7 * k + 9 ≤ s₂.budget.left - s₂.budget.costs.of .replacement -
            s₂.budget.costs.of (.arguments 1)
          rw [hbudget, hs.costs]
          change 7 * k + 9 ≤ s.budget.left - 3 - 4
          omega)
    refine ⟨s', .again (by rw [hs.registry]; rfl) hlookup happly hsettle hready.recursive ?_
      (.part ?_ ?_ hmeets), ?_⟩
    · rw [hbudget]
      exact Budget.covers_eq_true.2 (hfits .replacement (by decide))
    · change s₂.registry.isMacro "f" = false
      rw [hready.registry]
      rfl
    · rw [Budget.covers_eq_true]
      change s₂.budget.costs.of (.arguments 1) ≤ s₂.budget.left - s₂.budget.costs.of .replacement
      rw [hbudget, hs.costs]
      change 4 ≤ s.budget.left - 3
      omega
    · rw [hlength]
      change (s.frame.path ++ [_]).length + k = _
      rw [List.length_append, List.length_singleton]
      omega

end Catalogue

open Catalogue in
theorem guard_reports_endless : ∃ s' cause,
    ((visitRecursively (.tree (op "loop" []))).on
      (.ofRegistry endless 2 Expander.standardLabel)).1 = .error (.depthExceeded cause 2) ∧
    cause.path.length = 3 ∧ Derives endless.snapshot (op "loop" []) (op "loop" []) s' ∧
    s'.frame.path.length = 2 := by
  have hready : Expander.Ready endless.snapshot .recursive Expander.standardBudget.costs
      (.ofRegistry endless 2 Expander.standardLabel) := ⟨⟨rfl, rfl⟩, fun _ h => (by cases h), rfl⟩
  obtain ⟨s', hmeets, hlength⟩ := meets_loop 999 2 (hready.spend .entry) (by decide)
  have hcomes : (Entry.visit .recursive (.tree (op "loop" []))
      (.ofRegistry endless 2 Expander.standardLabel)).Comes (op "loop" []) 0 s' :=
    ⟨⟨rfl, _, rfl, .tree hmeets⟩⟩
  obtain ⟨hany, hsolitary⟩ := guard_reports (s := .ofRegistry endless 2 Expander.standardLabel)
    rfl .recursive
  obtain ⟨houtcome, hderives⟩ := hsolitary endless_solitary .refl
  have hguards := (hany .refl).2.2.2 hcomes
  obtain ⟨cause, herror, -, -, hcount⟩ := hguards.stops endlessly (.intro rfl) hlength
  rw [houtcome] at herror
  exact ⟨s', cause, herror, hcount, hderives hcomes, hlength⟩

end HygienicMacros
