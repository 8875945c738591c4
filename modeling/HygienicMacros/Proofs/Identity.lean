import HygienicMacros.Proofs.Failures
import HygienicMacros.Proofs.Meaning

/-! # Expansion is the identity on finished trees

A scan that applies no macro goes over finished trees only, and a finished tree is scanned without
leaving a trace but the phase (`Run.Idles`). So an entry that succeeds files an application if and
only if there was a macro call in its tree, and otherwise it returns the tree it was given. What
`expandMacros` returns is finished, so a second expansion returns it again (`expansion_identity`).
There may still be too little room on the stack for a finished tree, and nothing else can go wrong
with it.
-/

namespace HygienicMacros

/-! ## Scans that apply no macro -/

theorem Rewrites.ne_nil {R : Registry} {Step : Transition → Prop} {mode : Mode} :
    ∀ {k : Nat} {t r : Tree}, ¬ Rewrites R Step mode k t [] r
  | 0, _, _, h => h
  | _ + 1, _, _, h => by
    obtain ⟨a, bs, hnil, -⟩ := h
    cases hnil

/-- If every macro call takes an application, a scan without any goes over finished trees. -/
theorem Scans.finished_of_nil {R : Registry} {Call : Tree → List Transition → Tree → Prop}
    (hcall : ∀ t r, ¬ Call t [] r) {ts rs : List Tree} {as : List Transition}
    (h : Scans R Call ts as rs) (has : as = []) : ∀ t ∈ ts, t.Finished R := by
  induction h with
  | nil => simp
  | literal _ ih => exact List.forall_mem_cons.2 ⟨Tree.finished_literal _, ih has⟩
  | name _ ih => exact List.forall_mem_cons.2 ⟨Tree.finished_name _ _, ih has⟩
  | call hop _ _ ihp ih =>
    obtain ⟨hparts, hrest⟩ := List.append_eq_nil_iff.1 has
    exact List.forall_mem_cons.2 ⟨Tree.finished_call.2 ⟨hop, ihp hparts⟩, ih hrest⟩
  | apply _ _ _ ihh ihp ih =>
    obtain ⟨hfirst, hrest⟩ := List.append_eq_nil_iff.1 has
    obtain ⟨hhead, hparts⟩ := List.append_eq_nil_iff.1 hfirst
    exact List.forall_mem_cons.2
      ⟨Tree.finished_apply.2 ⟨ihh hhead _ (.head _), ihp hparts⟩, ih hrest⟩
  | expand _ result _ _ =>
    obtain ⟨hresult, -⟩ := List.append_eq_nil_iff.1 has
    rw [hresult] at result
    exact absurd result (hcall _ _)

/-! ## Finished trees -/

/-- The computation leaves no trace but the phase and the tags that it takes out of the supply, and
it returns `a` if there is room for `N` on the stack. -/
def Run.Idles {α : Type} (x : Run α) (s : Expander) (N : Nat) (a : α) : Prop :=
  ∃ p tags, x.on s = (if N ≤ s.budget.left then .ok a else .error .stackOverflow,
    { s with phase := p, tags := tags })

section
variable {α β : Type} {x : Run α} {f : α → Run β} {s : Expander} {N N' : Nat} {a : α} {b : β}

theorem Run.idles_pure (a : α) (s : Expander) : (pure a : Run α).Idles s 0 a :=
  ⟨s.phase, s.tags, by rw [if_pos (Nat.zero_le _)]; rfl⟩

theorem Run.Idles.of_phase {x y : Run α} {q : Phase} (hx : x.on s = y.on { s with phase := q })
    (h : y.Idles { s with phase := q } N a) : x.Idles s N a := by
  obtain ⟨p, tags, h⟩ := h
  exact ⟨p, tags, hx.trans h⟩

theorem Run.Idles.bind (h : x.Idles s N a)
    (hf : ∀ p tags, (f a).Idles { s with phase := p, tags := tags } N' b) :
    (x >>= f).Idles s (max N N') b := by
  obtain ⟨p, tags, hx⟩ := h
  by_cases hN : N ≤ s.budget.left
  · rw [if_pos hN] at hx
    obtain ⟨p', tags', hy⟩ := hf p tags
    refine ⟨p', tags', (Run.on_bind_of_ok hx).trans (hy.trans ?_)⟩
    by_cases hN' : N' ≤ s.budget.left
    · rw [if_pos hN', if_pos (max_le hN hN')]
    · rw [if_neg hN', if_neg fun h => hN' (le_trans (le_max_right _ _) h)]
  · rw [if_neg hN] at hx
    refine ⟨p, tags, (Run.on_bind_of_error hx).trans ?_⟩
    rw [if_neg fun h => hN (le_trans (le_max_left _ _) h)]

theorem Run.Idles.map (h : x.Idles s N a) (g : α → β) :
    (x >>= fun a => pure (g a)).Idles s N (g a) := by
  rw [← Nat.max_zero N]
  exact h.bind fun _ _ => Run.idles_pure _ _

theorem Run.Idles.during {act : Activity} (h : x.Idles (s.spend act) N a) :
    (during act x).Idles s (s.budget.costs.of act + N) a := by
  obtain ⟨p, tags, hx⟩ := h
  by_cases hact : s.budget.costs.of act ≤ s.budget.left
  · refine ⟨p, tags, ?_⟩
    rw [on_during_of_covers (Budget.covers_eq_true.2 hact), hx]
    have hN : N ≤ s.budget.left - s.budget.costs.of act ↔
        s.budget.costs.of act + N ≤ s.budget.left := by omega
    exact Prod.ext (if_congr hN rfl rfl) rfl
  · refine ⟨s.phase, s.tags, ?_⟩
    rw [on_during_of_not_covers (Budget.covers_eq_false.2 (Nat.lt_of_not_le hact)),
      if_neg (by omega)]

theorem Run.Idles.withMode {mode : Mode}
    (h : x.Idles { s with recursive := mode == .recursive } N a) :
    (withMode mode x).Idles s N a := by
  obtain ⟨p, tags, hx⟩ := h
  exact ⟨p, tags, by rw [on_withMode, hx]⟩

end

theorem scanList_idles {costs : Costs} {ts : List Tree}
    (h : ∀ t ∈ ts, ∃ N, ∀ {E : Tree → Run Tree} {s : Expander}, t.Finished s.registry →
      s.budget.costs = costs → (scan E t).Idles s N t) :
    ∃ N, ∀ {E : Tree → Run Tree} {s : Expander}, (∀ t ∈ ts, t.Finished s.registry) →
      s.budget.costs = costs → (scanList E ts).Idles s N ts := by
  induction ts with
  | nil =>
    refine ⟨0, fun _ _ => ?_⟩
    rw [scanList]
    exact Run.idles_pure _ _
  | cons t ts ih =>
    rw [List.forall_mem_cons] at h
    obtain ⟨N, ht⟩ := h.1
    obtain ⟨N', hts⟩ := ih h.2
    refine ⟨max N N', fun {E s} hfin hcosts => ?_⟩
    rw [List.forall_mem_cons] at hfin
    rw [scanList]
    refine (ht hfin.1 hcosts).bind fun p tags => ?_
    exact (hts (s := { s with phase := p, tags := tags }) hfin.2 hcosts).map _

/-- A finished tree is scanned without a trace but the phase. The room that it takes depends on
nothing but the tree. -/
theorem scan_idles (costs : Costs) (t : Tree) : ∃ N, ∀ {E : Tree → Run Tree} {s : Expander},
    t.Finished s.registry → s.budget.costs = costs → (scan E t).Idles s N t := by
  induction t using Tree.induct with
  | literal d =>
    refine ⟨0, fun _ _ => ?_⟩
    rw [scan]
    exact Run.idles_pure _ _
  | name ident scope =>
    refine ⟨0, fun _ _ => ?_⟩
    rw [scan]
    exact Run.idles_pure _ _
  | call op args notes ih =>
    obtain ⟨N, hargs⟩ := scanList_idles ih
    refine ⟨costs.of (.arguments args.length) + N, fun {E s} hfin hcosts => ?_⟩
    obtain ⟨hop, hparts⟩ := Tree.finished_call.1 hfin
    subst hcosts
    refine .of_phase (on_scan_call hop) (.map (.during ?_) (Tree.call (.symbol op) · notes))
    exact hargs hparts rfl
  | apply f args notes ihf ih =>
    obtain ⟨N, hf⟩ := ihf
    obtain ⟨N', hargs⟩ := scanList_idles ih
    refine ⟨max (costs.of .operator + N) (costs.of (.arguments args.length) + N'),
      fun {E s} hfin hcosts => ?_⟩
    obtain ⟨hhead, hparts⟩ := Tree.finished_apply.1 hfin
    subst hcosts
    refine .of_phase on_scan_apply (.bind (.during (hf hhead rfl)) fun p tags => ?_)
    refine .map (.during ?_) (Tree.call (.tree f) · notes)
    exact hargs hparts rfl
  | placeholder target => exact ⟨0, fun h => by cases h _ (.head _)⟩
  | bare kind => exact ⟨0, fun h => by cases h _ (.head _)⟩
  | marker kind body _ => exact ⟨0, fun h => by cases h _ (.head _)⟩
  | unhygienic ident => exact ⟨0, fun h => by cases h _ (.head _)⟩

theorem prepare_idles {t : Tree} (hopen : t.openNodes = []) (s : Expander) :
    (prepare (.tree t)).Idles s (s.budget.costs.of (.survey t.skeleton)) () := by
  rw [Run.Idles, on_prepare, hopen]
  by_cases h : s.budget.costs.of (.survey t.skeleton) ≤ s.budget.left
  · rw [if_pos h, if_pos (Budget.covers_eq_true.2 h)]
    exact ⟨s.phase, _, rfl⟩
  · rw [if_neg h, if_neg (mt Budget.covers_eq_true.1 h)]
    exact ⟨s.phase, s.tags, rfl⟩

/-- A finished tree without open scopes is returned as it is, if there is room for it. -/
theorem visitIn_idles (costs : Costs) {t : Tree} (hopen : t.openNodes = []) :
    ∃ N, ∀ (mode : Mode) {s : Expander}, t.Finished s.registry → s.budget.costs = costs →
      (visitIn mode (.tree t)).Idles s N (.tree t) := by
  obtain ⟨N, hscan⟩ := scan_idles costs t
  refine ⟨costs.of .entry + max (costs.of (.survey t.skeleton)) N, fun mode s hfin hcosts => ?_⟩
  subst hcosts
  rw [Run.Idles, on_visitIn]
  cases hroom : s.budget.left with
  | zero =>
    -- an entry takes some room
    have hpos := s.budget.costs.pos .entry
    rw [if_neg (by omega)]
    exact ⟨s.phase, s.tags, rfl⟩
  | succ room =>
    rw [enter, ← hroom]
    refine Run.Idles.during (.bind (prepare_idles hopen (s.spend .entry)) fun p tags => ?_)
    refine .of_phase (Run.on_bind_of_ok (Run.on_get _)) (.withMode ?_)
    rw [scanValue]
    refine .map ?_ Value.tree
    exact hscan hfin rfl

/-- An entry that succeeds files nothing if and only if its tree has no macro calls, and returns
the tree then. -/
theorem visitIn_ok_iff {mode : Mode} {s s' : Expander} {t : Tree} {v : Value}
    (h : (visitIn mode (.tree t)).on s = (.ok v, s')) :
    (s'.transitions = s.transitions ↔ t.macroCalls s.registry = []) ∧
      (t.macroCalls s.registry = [] → v = .tree t ∧ s'.history = s.history) := by
  have henter := (on_visitIn mode (.tree t) s).symm.trans h
  obtain ⟨r, as, rfl, hopen, d, new, hnew, has⟩ := derivation_of_enter henter
  have hfinished : as = [] → t.Finished s.registry := fun hnil =>
    d.finished_of_nil (fun _ _ => Rewrites.ne_nil) hnil t (.head _)
  have hid : t.macroCalls s.registry = [] → Value.tree r = .tree t ∧ s'.history = s.history := by
    intro hcalls
    obtain ⟨hnil, -⟩ := d.of_macroCalls_eq_nil (List.forall_mem_singleton.2 hcalls)
    obtain ⟨N, hidles⟩ := visitIn_idles s.budget.costs hopen
    obtain ⟨p, tags, hrun⟩ := hidles mode (hfinished hnil) rfl
    rw [hrun] at h
    split at h <;> cases h
    exact ⟨rfl, rfl⟩
  refine ⟨⟨fun hcount => ?_, fun hcalls => ?_⟩, hid⟩
  · -- what the derivation applies is filed, so it applies nothing
    rw [Expander.transitions, Expander.transitions, hnew, List.length_append] at hcount
    have hnone : new = [] := List.length_eq_zero_iff.1 (by omega)
    subst hnone
    have hnil : as = [] := List.eq_nil_iff_forall_not_mem.2 fun a ha => by simpa using has a ha
    exact (Tree.finished_iff.1 (hfinished hnil)).1
  · rw [Expander.transitions, Expander.transitions, (hid hcalls).2]

/-! ## Whole expansions -/

/-- The expansion of a finished tree, on any stack. -/
theorem expandWithin_of_finished {R : Registry} {t : Tree} (hfin : t.Finished R)
    (hopen : t.openNodes = []) (costs : Costs) : ∃ N, ∀ (limit d : Nat) (label : Value),
      expandWithin ⟨limit, costs⟩ R t d label =
        if N ≤ limit then .ok (.tree t)
        else .error (.depthExceeded (.overflow label.display 0) d) := by
  obtain ⟨N, hidles⟩ := visitIn_idles costs hopen
  refine ⟨N, fun limit d label => ?_⟩
  have hsnapshot : t.Finished R.snapshot := hfin
  obtain ⟨p, tags, hrun⟩ := hidles .recursive
    (s := (Expander.ofRegistry R d label).withBudget ⟨limit, costs⟩) hsnapshot rfl
  change _ = (if N ≤ limit then _ else _, _) at hrun
  by_cases hN : N ≤ limit
  · rw [if_pos hN] at hrun ⊢
    rw [expandWithin, expandFully_of_ok hrun]
    exact (Value.finish_of_finished hsnapshot).trans (by rw [hopen])
  · rw [if_neg hN] at hrun ⊢
    rw [expandWithin, expandFully_of_overflow hrun rfl]
    rfl

/-- What an expansion returns is finished, and has no open scopes. -/
theorem expandWithin_ok {R : Registry} {t : Tree} {budget : Budget} {d : Nat} {label v : Value}
    (h : expandWithin budget R t d label = .ok v) :
    ∃ r, v = .tree r ∧ r.Finished R ∧ r.openNodes = [] := by
  obtain ⟨w, hvisit, hfinish⟩ := expandFully_ok (Prod.ext h rfl)
  have henter := (on_visitIn .recursive (.tree t) _).symm.trans hvisit
  obtain ⟨r, -, rfl, -⟩ := derivation_of_enter henter
  rw [((steady_enter _ _ _).later henter).registry] at hfinish
  obtain ⟨rfl, hfin, hopen⟩ := Value.finish_eq_ok hfinish
  exact ⟨r, rfl, hfin, hopen⟩

/-- **Expansion is the identity on finished trees, and on nothing else.** An entry that succeeds
applies no macro if and only if its tree has no macro calls. A finished tree is returned, and so is
what an expansion returned before; only the room on the stack can be too little for it, in which
case nothing is done. -/
theorem expansion_identity :
    (∀ {mode : Mode} {s s' : Expander} {t : Tree} {v : Value},
      (visitIn mode (.tree t)).on s = (.ok v, s') →
        (s'.transitions = s.transitions ↔ t.macroCalls s.registry = []) ∧
        (t.macroCalls s.registry = [] → v = .tree t ∧ s'.history = s.history)) ∧
    (∀ {R : Registry} {t : Tree}, t.macroCalls R = [] → t.ofVariety .marker = [] →
      t.placeholders = [] → t.openNodes = [] → ∀ costs, ∃ N, ∀ (limit d : Nat) (label : Value),
        expandWithin ⟨limit, costs⟩ R t d label =
          if N ≤ limit then .ok (.tree t)
          else .error (.depthExceeded (.overflow label.display 0) d)) ∧
    (∀ {R : Registry} {t : Tree} {budget : Budget} {d : Nat} {label v : Value},
      expandWithin budget R t d label = .ok v → ∃ r, v = .tree r ∧
        ∀ costs, ∃ N, ∀ (limit' d' : Nat) (label' : Value),
          expandWithin ⟨limit', costs⟩ R r d' label' =
            if N ≤ limit' then .ok v
            else .error (.depthExceeded (.overflow label'.display 0) d')) ∧
    ∀ (R : Registry) (t : Tree) {d : Nat}, 0 < d → ∀ label : Value,
      (expandMacros R (.tree t) (.int d) label).1 =
        expandWithin Expander.standardBudget R t d label := by
  refine ⟨visitIn_ok_iff, ?_, ?_, ?_⟩
  · intro R t hcalls hmarkers hholes hopen
    exact expandWithin_of_finished (Tree.finished_iff.2 ⟨hcalls, hholes, hmarkers⟩) hopen
  · intro R t budget d label v h
    obtain ⟨r, rfl, hfin, hopen⟩ := expandWithin_ok h
    exact ⟨r, rfl, expandWithin_of_finished hfin hopen⟩
  · intro R t d hd label
    exact expandMacros_eq_within R t hd label

theorem expansion_identity_reused :
    ∃ r s', (visitRecursively (.tree Catalogue.reused)).on
        (.ofRegistry Catalogue.binding 2 Expander.standardLabel) = (.ok (.tree r), s') ∧
      s'.transitions ≠ 0 ∧
      (expandMacros Catalogue.binding (.tree Catalogue.reused) (.int 2)
        Expander.standardLabel).1 = .ok (.tree r) ∧
      (expandMacros Catalogue.binding (.tree r) (.int 1) Expander.standardLabel).1 =
        .ok (.tree r) := by
  obtain ⟨hcount, -, hagain, hwithin⟩ := expansion_identity
  obtain ⟨v, s', hrun⟩ : ∃ v s', (visitRecursively (.tree Catalogue.reused)).on
      (.ofRegistry Catalogue.binding 2 Expander.standardLabel) = (.ok v, s') := by
    obtain ⟨v, hrun⟩ := Run.on_of_isOk (x := visitRecursively (.tree Catalogue.reused))
      (s := .ofRegistry Catalogue.binding 2 Expander.standardLabel) (by decide +kernel)
    exact ⟨v, _, hrun⟩
  have hmacros : Catalogue.reused.macroCalls Catalogue.binding.snapshot ≠ [] := by
    rw [Ne, ← List.isEmpty_iff]
    decide +kernel
  have htwice : ((expandMacros Catalogue.binding (.tree Catalogue.reused) (.int 2)
      Expander.standardLabel).1.bind fun v => (expandMacros Catalogue.binding v (.int 1)
        Expander.standardLabel).1).isOk = true := by
    decide +kernel
  obtain ⟨r, rfl, -, -, hexpand, -⟩ := visitRecursively_normalForm hrun
  rw [hexpand _ (.int 2) _ rfl] at htwice
  rcases hopen : r.openNodes with _ | ⟨first, rest⟩ <;> rw [hopen] at htwice
  · have hfirst := hexpand _ (.int 2) _ rfl
    rw [hopen] at hfirst
    obtain ⟨_, ⟨⟩, hsecond⟩ := hagain ((hwithin _ _ (d := 2) (by decide) _).symm.trans hfirst)
    have hvisit : (visitIn .recursive (.tree Catalogue.reused)).on
        (.ofRegistry Catalogue.binding 2 Expander.standardLabel) = (.ok (.tree r), s') := hrun
    refine ⟨r, s', hrun, (hcount hvisit).1.not.2 hmacros, hfirst, ?_⟩
    obtain ⟨N, hN⟩ := hsecond Expander.standardBudget.costs
    have hstandard : (expandMacros Catalogue.binding (.tree r) (.int 1) Expander.standardLabel).1 =
        if N ≤ Expander.standardBudget.left then _ else _ :=
      (hwithin _ r (d := 1) (by decide) _).trans (hN _ 1 _)
    change (expandMacros Catalogue.binding (.tree r) (.int 1) _).1.isOk = true at htwice
    rw [hstandard] at htwice ⊢
    split at htwice
    · rename_i hfits
      rw [if_pos hfits]
    · cases htwice
  · cases htwice

namespace Catalogue

/-- A choice between a number and a tree nested `n` deep, by a number that picks the first. -/
def unread (n : Nat) : Tree :=
  op "case" [.literal (.int 1), op "->" [.literal (.int 1), .literal (.int 5)],
    op "->" [.literal (.int 2), denials n]]

theorem finished_denials {R : Registry} (h : R.isMacro "!" = false) :
    ∀ n, (denials n).Finished R
  | 0 => Tree.finished_literal _
  | n + 1 => Tree.finished_call.2 ⟨h, List.forall_mem_singleton.2 (finished_denials h n)⟩

theorem isOpen_denials : ∀ n, ∀ m ∈ (denials n).marks, m.isOpen = false
  | 0 => by simp [denials, truth]
  | n + 1 => by
    have hcall : (Mark.call []).isOpen = false := rfl
    simpa [denials, op, hcall] using isOpen_denials n

theorem reach_unread (n : Nat) : (unread n).skeleton.reach 3 3 3 = max 6 (n * 3 + 6) := by
  change max 3 (max 6 (max (max 3 (max ((denials n).skeleton.reach 3 3 3 + 3) 0) + 3) 0)) = _
  rw [reach_denials]
  omega

theorem standardBudget_unread {n : Nat} (hn : 1000 ≤ n) : Expander.standardBudget.left <
    Expander.standardBudget.costs.of (.survey (unread n).skeleton) := by
  change 1000 < (unread n).skeleton.reach 3 3 3 + 4
  rw [reach_unread]
  omega

/-- A finished tree need not be returned: it can be too deep. -/
theorem expandMacros_unread :
    (unread 3000).macroCalls (.empty Registry.standardTerminals) = [] ∧
    (unread 3000).ofVariety .marker = [] ∧ (unread 3000).placeholders = [] ∧
    (unread 3000).openNodes = [] ∧
    (expandMacros (.empty Registry.standardTerminals) (.tree (unread 3000))
      (.int Expander.standardDepth) Expander.standardLabel).1 =
        .error (.depthExceeded (.overflow "<tree>" 0) Expander.standardDepth) := by
  have hfin : (unread 3000).Finished (.empty Registry.standardTerminals) := by
    have hdenials := finished_denials (R := .empty Registry.standardTerminals) rfl 3000
    simp only [unread, op, Tree.finished_call, List.forall_mem_cons, List.not_mem_nil,
      false_imp_iff, implies_true, and_true, true_and, Tree.finished_literal, hdenials]
    exact ⟨rfl, rfl, rfl⟩
  have hopen : (unread 3000).openNodes = [] := by
    have hcall : (Mark.call []).isOpen = false := rfl
    rw [Tree.openNodes_eq_nil]
    simpa [unread, op, hcall] using isOpen_denials 3000
  obtain ⟨hcalls, hholes, hmarkers⟩ := Tree.finished_iff.1 hfin
  refine ⟨hcalls, hmarkers, hholes, hopen, ?_⟩
  have hn : 1000 ≤ 3000 := by decide
  have hd : 0 < Expander.standardDepth := by decide
  rw [expandMacros_eq_within _ _ hd, expandWithin_of_unsurveyed (standardBudget_unread hn)]
  rfl

end Catalogue

end HygienicMacros
