import HygienicMacros.Catalogue
import HygienicMacros.Expander.Entry
import HygienicMacros.Proofs.Adequacy

/-! # Recursive expansion reaches a normal form

Whatever the transformers do, what a recursive expansion returns is finished: no macro calls, no
placeholders and no markers at any depth. Of the checks at the end of `expandMacros` only the one
for open scopes can then refuse it, and only calls that some transformer marked as its caller's
are left open (`visitRecursively_normalForm`).
-/

namespace HygienicMacros

/-! ## The checks of a finished tree -/

theorem selectVariety_variety (v : Variety) (ts : List Tree) :
    selectVariety (.variety v) ts = .ok (ts.filter fun t => t.variety.isA v) := by
  induction ts with
  | nil => rfl
  | cons t ts ih =>
    rw [selectVariety, ih, List.filter_cons]
    rfl

namespace Value

variable (r : Tree)

theorem ofVariety_tree (v : Variety) :
    (tree r).ofVariety (.variety v) = .ok (r.ofVariety v) := by
  simp only [Value.ofVariety, forest, List.flatMap_cons, List.flatMap_nil, List.append_nil,
    selectVariety_variety]
  rfl

theorem checkMarkers_tree (context : String) : (tree r).checkMarkers .nothing context =
    match r.ofVariety .marker with
    | [] => .ok ()
    | first :: rest => .error (.invariant (.markersRemain context first rest)) := by
  rw [checkMarkers, if_neg (by decide), ofVariety_tree]
  cases r.ofVariety .marker <;> rfl

theorem checkMarkers_variety (v : Variety) (context : String) :
    (tree r).checkMarkers (.variety v) context = match r.ofVariety v with
    | [] => .ok ()
    | first :: rest => .error (.invariant (.markersRemain context first rest)) := by
  have htruthy : (variety v).truthy = true := rfl
  rw [checkMarkers, if_pos htruthy, ofVariety_tree]
  cases r.ofVariety v <;> rfl

theorem checkPlaceholders_tree : (tree r).checkPlaceholders = match r.placeholders with
    | [] => .ok ()
    | first :: rest => .error (.invariant (.placeholdersRemain first rest)) := by
  simp only [checkPlaceholders, collect, forest, List.flatMap_cons, List.flatMap_nil,
    List.append_nil]
  cases r.placeholders <;> rfl

theorem checkScopes_tree : (tree r).checkScopes = match r.openNodes with
    | [] => .ok ()
    | first :: rest => .error (.invariant (.scopesRemain first rest)) := by
  simp only [checkScopes, openNodes, collect, forest, List.flatMap_cons, List.flatMap_nil,
    List.append_nil]
  cases r.openNodes <;> rfl

theorem checkCalls_tree (R : Registry) : (tree r).checkCalls R = match r.macroCalls R with
    | [] => .ok ()
    | (_, first) :: rest => .error (.invariant (.callsRemain first (rest.map (·.2)))) := by
  simp only [checkCalls, macroCalls, collect, forest, List.flatMap_cons, List.flatMap_nil,
    List.append_nil]
  cases r.macroCalls R <;> rfl

variable {r}

/-- The check of a finished tree: no scope may be left open. -/
theorem finish_of_finished {R : Registry} (h : r.Finished R) :
    (tree r).finish (some R) = match r.openNodes with
      | [] => .ok (.tree r)
      | first :: rest => .error (.invariant (.scopesRemain first rest)) := by
  obtain ⟨hcalls, hholes, hmarkers⟩ := Tree.finished_iff.1 h
  simp only [finish, checkMarkers_tree, checkPlaceholders_tree, checkScopes_tree,
    checkCalls_tree, hcalls, hholes, hmarkers]
  cases r.openNodes <;> rfl

/-- Only a finished tree without open scopes passes all checks. -/
theorem finish_eq_ok {R : Registry} {w : Value} (h : (tree r).finish (some R) = .ok w) :
    w = tree r ∧ r.Finished R ∧ r.openNodes = [] := by
  simp only [finish, checkMarkers_tree, checkPlaceholders_tree, checkScopes_tree,
    checkCalls_tree] at h
  rw [Tree.finished_iff]
  rcases hm : r.ofVariety .marker with _ | ⟨m, ms⟩ <;> rw [hm] at h
  · rcases hp : r.placeholders with _ | ⟨p, ps⟩ <;> rw [hp] at h
    · rcases ho : r.openNodes with _ | ⟨o, os⟩ <;> rw [ho] at h
      · rcases hc : r.macroCalls R with _ | ⟨c, cs⟩ <;> rw [hc] at h
        · cases h
          exact ⟨rfl, ⟨rfl, rfl, rfl⟩, rfl⟩
        · cases h
      · cases h
    · cases h
  · cases h

end Value

/-! ## Whole expansions -/

theorem guardStack_of_ok {α : Type} {x : Run α} {s s' : Expander} {a : α}
    (h : x.on s = (.ok a, s')) : (guardStack x).on s = (.ok a, s') := by
  have : (attempt x).on s = (.ok (.ok a), s') := by rw [on_attempt, h]
  rw [guardStack, Run.on_bind_of_ok this]
  rfl

theorem guardStack_of_overflow {α : Type} {x : Run α} {s s' : Expander} {e : Error}
    (h : x.on s = (.error e, s')) (he : e.kind = .stackOverflow) : (guardStack x).on s =
      (.error (.depthExceeded (.overflow s'.filename s'.transitions) s'.maxDepth), s') := by
  have : (attempt x).on s = (.ok (.error e), s') := by rw [on_attempt, h]
  rw [guardStack, Run.on_bind_of_ok this]
  dsimp only
  rw [if_pos he]
  rfl

theorem guardStack_of_error {α : Type} {x : Run α} {s s' : Expander} {e : Error}
    (h : x.on s = (.error e, s')) (he : e.kind ≠ .stackOverflow) :
    (guardStack x).on s = (.error e, s') := by
  have : (attempt x).on s = (.ok (.error e), s') := by rw [on_attempt, h]
  rw [guardStack, Run.on_bind_of_ok this]
  dsimp only
  rw [if_neg he]
  rfl

theorem guardStack_ok {α : Type} {x : Run α} {s s' : Expander} {a : α}
    (h : (guardStack x).on s = (.ok a, s')) : x.on s = (.ok a, s') := by
  rcases hx : x.on s with ⟨e | b, s₁⟩
  · by_cases he : e.kind = .stackOverflow
    · rw [guardStack_of_overflow hx he] at h
      cases h
    · rw [guardStack_of_error hx he] at h
      cases h
  · rw [guardStack_of_ok hx] at h
    exact h

theorem on_expandFully (t : Tree) (s : Expander) :
    (expandFully (.tree t)).on s = Run.on (do
      let expanded ← guardStack (visitRecursively (.tree t))
      let s' ← get
      expanded.finish (some s'.registry)) s := by
  have htree : (liftM (requireTree (.tree t)) : Run Tree).on s = (.ok t, s) := Run.on_lift _ _
  rw [expandFully, Run.on_bind_of_ok htree]

/-- A tree that is expanded is then checked. -/
theorem expandFully_of_ok {t : Tree} {v : Value} {s s' : Expander}
    (h : (visitRecursively (.tree t)).on s = (.ok v, s')) :
    (expandFully (.tree t)).on s = (v.finish (some s'.registry), s') := by
  rw [on_expandFully, Run.on_bind_of_ok (guardStack_of_ok h), Run.on_bind_of_ok (Run.on_get s')]
  exact Run.on_lift _ _

theorem expandFully_of_error {t : Tree} {s s' : Expander} {e : Error}
    (h : (visitRecursively (.tree t)).on s = (.error e, s')) (he : e.kind ≠ .stackOverflow) :
    (expandFully (.tree t)).on s = (.error e, s') := by
  rw [on_expandFully, Run.on_bind_of_error (guardStack_of_error h he)]

theorem expandFully_of_overflow {t : Tree} {s s' : Expander} {e : Error}
    (h : (visitRecursively (.tree t)).on s = (.error e, s')) (he : e.kind = .stackOverflow) :
    (expandFully (.tree t)).on s =
      (.error (.depthExceeded (.overflow s'.filename s'.transitions) s'.maxDepth), s') := by
  rw [on_expandFully, Run.on_bind_of_error (guardStack_of_overflow h he)]

theorem expandFully_ok {t : Tree} {w : Value} {s s' : Expander}
    (h : (expandFully (.tree t)).on s = (.ok w, s')) :
    ∃ v, (visitRecursively (.tree t)).on s = (.ok v, s') ∧
      v.finish (some s'.registry) = .ok w := by
  rw [on_expandFully] at h
  obtain ⟨v, s₁, hvisit, h⟩ := Run.on_bind_ok.1 h
  rw [Run.on_bind_of_ok (Run.on_get s₁), Run.on_lift] at h
  obtain ⟨hfinish, rfl⟩ := Prod.mk.inj h
  exact ⟨v, guardStack_ok hvisit, hfinish⟩

theorem create_int (source : Registry) {d : Nat} (hd : 0 < d) (label : Value) :
    Expander.create source (.int d) label = .ok (.ofRegistry source d label) := by
  have hpos : (0 : Int) < d := Int.natCast_pos.2 hd
  simp only [Expander.create, Expander.depthLimit, if_pos hpos, Int.toNat_natCast]
  rfl

theorem expandMacros_eq {source : Registry} {maxDepth label : Value} {s : Expander}
    (h : Expander.create source maxDepth label = .ok s) (v : Value) :
    expandMacros source v maxDepth label =
      (((expandFully v).on s).1, ((expandFully v).on s).2.source) := by
  simp only [expandMacros, Registry.run, h]
  rfl

/-- What a recursive expansion, asked for by anyone, leaves open is a call that some transformer
marked as its caller's. -/
theorem openNodes_of_enter {room : Nat} {mode : Mode} {t r : Tree} {s s' : Expander}
    (h : (enter room mode (.tree t)).on s = (.ok (.tree r), s')) :
    ∃ new, s'.history = new ++ s.history ∧ ∀ n ∈ r.openNodes, ∃ head args notes,
      n = .call head args notes ∧ Notes.scope? notes = some (.pending .caller) ∧
      ∃ a ∈ new, ∃ head' args', .call head' args' notes ∈ a.answer.nodes := by
  obtain ⟨_, as, ⟨⟩, hopen, d, new, hnew, has⟩ := derivation_of_enter h
  refine ⟨new, hnew, fun n hn => ?_⟩
  obtain ⟨hn, m, hmark, hm⟩ := Tree.mem_openNodes.1 hn
  have hmem : m ∈ r.marks := List.mem_filterMap.2 ⟨n, hn, hmark⟩
  have hknown := (d.traced (Rewrites.traceable _ _ mode _) (K := { m | m ∈ t.marks }) (by simp)).2
  rcases hknown m (by simpa using hmem) with hmt | ⟨a, ha, hma⟩
  · -- the input has no open scopes, or it would have been refused
    rw [Tree.openNodes_eq_nil.1 hopen m hmt] at hm
    cases hm
  · obtain ⟨caller, hexp⟩ := d.steps (Rewrites.steps _) a ha
    rw [hexp, Tree.marks_resolve, List.mem_map] at hma
    obtain ⟨m', hm', rfl⟩ := hma
    have hcall := Mark.isOpen_resolve.1 hm
    rw [hcall.resolve_eq] at hmark
    cases m' with
    | name ident scope => exact hcall.elim
    | call notes =>
      obtain ⟨head, args, rfl⟩ := Tree.mark?_eq_call.1 hmark
      obtain ⟨u, hu, hmu⟩ := List.mem_filterMap.1 hm'
      obtain ⟨head', args', rfl⟩ := Tree.mark?_eq_call.1 hmu
      exact ⟨head, args, notes, rfl, hcall, a, has a ha, head', args', hu⟩

/-- **Recursive expansion reaches a normal form.** With any transformers, what a recursive
expansion returns has no macro calls, no placeholders and no markers, and `expandMacros` refuses it
only for scopes that a transformer left open, on calls marked as its caller's. -/
theorem visitRecursively_normalForm {s s' : Expander} {t : Tree} {v : Value}
    (h : (visitRecursively (.tree t)).on s = (.ok v, s')) :
    ∃ r, v = .tree r ∧ s'.registry = s.registry ∧
      (r.macroCalls s.registry = [] ∧ r.placeholders = [] ∧ r.ofVariety .marker = []) ∧
      (∀ source maxDepth label, Expander.create source maxDepth label = .ok s →
        (expandMacros source (.tree t) maxDepth label).1 = match r.openNodes with
          | [] => .ok (.tree r)
          | first :: rest => .error (.invariant (.scopesRemain first rest))) ∧
      ∃ new, s'.history = new ++ s.history ∧ ∀ n ∈ r.openNodes, ∃ head args notes,
        n = .call head args notes ∧ Notes.scope? notes = some (.pending .caller) ∧
        ∃ a ∈ new, ∃ head' args', .call head' args' notes ∈ a.answer.nodes := by
  have henter : (enter s.budget.left .recursive (.tree t)).on s = (.ok v, s') :=
    (on_visitIn .recursive _ s).symm.trans h
  obtain ⟨r, as, rfl, -, d, -⟩ := derivation_of_enter henter
  have hreg : s'.registry = s.registry := ((steady_enter _ _ _).later henter).registry
  have hfin : r.Finished s.registry := d.finished (Rewrites.finished _) r (.head _)
  refine ⟨r, rfl, hreg, Tree.finished_iff.1 hfin, ?_, openNodes_of_enter henter⟩
  intro source maxDepth label hs
  rw [expandMacros_eq hs, expandFully_of_ok h, hreg]
  exact Value.finish_of_finished hfin

/-- Answers what one step makes of its argument. If that step fails, it registers a macro and
answers a call that it leaves open. -/
def Catalogue.peek : Transformer where
  label := "peek"
  body
    | .call _ [t] _ => .expand .once (.tree t) fun
      | .ok v => .answer v
      | .error _ => .register .source (.text "late") (.pattern (.arity 0))
          (.value (.variety .node)) fun _ =>
            .answer (.tree (.call (.symbol "late") [] [(.text Notes.scopeKey, .pending .caller)]))
    | t => .fail (.unmet .tree (.tree t))

/-- A macro that steps into its argument, and one that is called in vain. -/
def Catalogue.restless : Registry :=
  ((Registry.empty []).add "peek" (.arity 1) peek).add "none" (.arity 1) peek

/-- The inner of two macros that step into their argument finds a macro called in vain. -/
def Catalogue.inVain : Tree := op "peek" [op "peek" [op "none" []]]

theorem visitRecursively_normalForm_inVain :
    ∃ r s' first, (visitRecursively (.tree Catalogue.inVain)).on
        (.ofRegistry Catalogue.restless 5 Expander.standardLabel) = (.ok (.tree r), s') ∧
      r.openNodes = [first] ∧ r.macroCalls Catalogue.restless.snapshot = [] ∧
      (expandMacros Catalogue.restless (.tree Catalogue.inVain) (.int 5)
        Expander.standardLabel).1 = .error (.invariant (.scopesRemain first [])) := by
  obtain ⟨v, hrun⟩ := Run.on_of_isOk (x := visitRecursively (.tree Catalogue.inVain))
    (s := .ofRegistry Catalogue.restless 5 Expander.standardLabel) (by decide +kernel)
  obtain ⟨r, rfl, -, ⟨hcalls, -, -⟩, hexpand, -⟩ := visitRecursively_normalForm hrun
  have hone : (((visitRecursively (.tree Catalogue.inVain)).on
      (.ofRegistry Catalogue.restless 5 Expander.standardLabel)).1.bind
        Value.openNodes).toOption.map List.length = some 1 := by
    decide +kernel
  rw [hrun] at hone
  have hlen : r.openNodes.length = 1 := by
    simpa [Except.bind, Except.toOption, Value.openNodes, Value.collect, Value.forest] using hone
  obtain ⟨first, hfirst⟩ := List.length_eq_one_iff.1 hlen
  refine ⟨r, _, first, hrun, hfirst, hcalls, ?_⟩
  rw [hexpand _ (.int 5) Expander.standardLabel rfl, hfirst]

end HygienicMacros
