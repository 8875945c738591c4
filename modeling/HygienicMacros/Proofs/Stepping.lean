import HygienicMacros.Expander.Stepper
import HygienicMacros.Proofs.Layers
import HygienicMacros.Proofs.NormalForm
import HygienicMacros.Proofs.Templates

/-! # Expansion in steps

A stepper expands in layers and `expandMacros` depth first. Where the clauses of a registry are
functions that do not look at tags, and leave no call open for their caller, the one returns a tree
if and only if the other does, and the trees differ in the numbers of the tags only
(`stepExpansion_agrees`). The stack may overflow in the one and not in the other, so the
statement is about stacks with any room for any costs, the standard one among them.
-/

namespace HygienicMacros

/-! ## What an expansion leaves -/

section
variable {R : Registry} {mode : Mode} {k : Nat} {t r : Tree} {as : List Transition}

/-- What has no open scopes is expanded to what has none. -/
theorem Registry.Regular.closed (hR : R.Regular)
    (d : Scans R (Rewrites R R.Applies mode k) [t] as [r]) (ht : t.openNodes = []) :
    r.openNodes = [] := by
  refine d.closed ?_ ht
  rintro a ⟨hlookup, hbody, -⟩ hinv
  refine Tree.openNodes_eq_nil.2 fun m hm => ?_
  rw [Tree.marks_resolve, List.mem_map] at hm
  obtain ⟨m, hm, rfl⟩ := hm
  rw [Bool.eq_false_iff, Ne, Mark.isOpen_resolve]
  exact hR.closes (.intro hlookup) hinv hbody m hm

/-- The tags after an expansion are those before it and those it took. -/
theorem Registry.Regular.tags_le (hR : R.Regular)
    (d : Scans R (Rewrites R R.Applies mode k) [t] as [r]) {n : Nat} (hnum : Numbered n as)
    (ht : ∀ i ∈ t.tags, i ≤ (n : Int)) : ∀ i ∈ r.tags, i ≤ ((n + as.length : Nat) : Int) := by
  obtain ⟨htraced, hmarks⟩ := d.traced (Rewrites.traceable _ _ mode k)
    (K := { m | m ∈ t.marks }) (by simp)
  have hstep : ∀ a, R.Applies a ∧ a ∈ as →
      (∀ m ∈ a.invocation.marks, ∀ i, m.tag? = some i → i ≤ ((n + as.length : Nat) : Int)) →
      ∀ m ∈ a.expansion.marks, ∀ i, m.tag? = some i → i ≤ ((n + as.length : Nat) : Int) := by
    rintro a ⟨happ, ha⟩ hinv m hm i hmi
    have hinv' : ∀ j ∈ a.invocation.tags, j ≤ ((n + as.length : Nat) : Int) := by
      intro j hj
      obtain ⟨m', hm', hj'⟩ := Tree.mem_tags.1 hj
      exact hinv m' hm' j hj'
    rcases happ.tags (Tree.mem_tags.2 ⟨m, hm, hmi⟩) with rfl | h | h
    · have := ((mem_numbered hnum).1 (List.mem_map_of_mem ha)).2
      exact_mod_cast this
    · exact hinv' i h
    · obtain ⟨hlookup, hbody, -⟩ := happ
      rcases hR.tags_answer (.intro hlookup) hbody h with h | h
      · exact hinv' i h
      · omega
  have hknown := htraced.invariant hstep
    (fun a ha => ⟨d.steps (Rewrites.steps k) a ha, ha⟩) fun m hm i hmi => by
      have := ht i (Tree.mem_tags.2 ⟨m, hm, hmi⟩)
      push_cast
      omega
  intro i hi
  obtain ⟨m, hm, hmi⟩ := Tree.mem_tags.1 hi
  exact hknown m (hmarks m (by simpa using hm)) i hmi

end

/-! ## Tags that are taken -/

theorem Tree.largest_le {n : Nat} {ns : List Int} (h : ∀ i ∈ ns, i ≤ (n : Int)) :
    Tree.largest ns ≤ (n : Int) := by
  cases ns with
  | nil => exact Int.natCast_nonneg n
  | cons m ns => exact h _ (List.max?_eq_some_iff.1 List.max?_cons').1

theorem TagSupply.skipPast_of_le {s : TagSupply} {t : Tree} (h : ∀ i ∈ t.tags, i ≤ (s.last : Int)) :
    s.skipPast t.maxTag = s :=
  if_neg (Int.not_lt.2 (Tree.largest_le h))

theorem TagSupply.le_last_skipPast (s : TagSupply) (t : Tree) :
    ∀ i ∈ t.tags, i ≤ ((s.skipPast t.maxTag).last : Int) := by
  intro i hi
  have : i ≤ t.maxTag := Tree.le_largest hi
  rw [TagSupply.last_skipPast]
  omega

/-! ## Printing -/

/-- Every role has a style that can be shown, so that printing never fails. -/
def Shade.Sound (shade : Shade) : Prop := ∀ role, ∃ text, shade.switchTo role = .ok text

theorem Shade.plain_sound : Shade.plain.Sound := fun _ => ⟨"", rfl⟩

theorem Shade.Sound.text {shade : Shade} (h : shade.Sound) (spans : List Span) :
    ∃ text, shade.text spans = .ok text := by
  cases shade with
  | plain => exact ⟨_, rfl⟩
  | colored p =>
    change ∃ text, p.paint spans = .ok text
    induction spans with
    | nil => exact ⟨"", rfl⟩
    | cons span spans ih =>
      obtain ⟨rest, hrest⟩ := ih
      obtain ⟨text, htext⟩ : ∃ text, p.paintSpan span = .ok text := by
        unfold Palette.paintSpan
        cases span.role with
        | none => exact ⟨_, rfl⟩
        | some role =>
          obtain ⟨style, hstyle⟩ := h role
          have hset : setStyles p.console true [p.style role] = .ok style := hstyle
          simp only [colorize, hset]
          exact ⟨_, rfl⟩
      rw [Palette.paint, htext]
      simp only [hrest]
      exact ⟨_, rfl⟩

namespace Stepper

variable {st : Stepper}

theorem render_ok (h : st.shade.Sound) (roleOf : String → Role) (t : Tree) :
    ∃ text, st.layout.render st.shade roleOf t = .ok text := by
  unfold Layout.render
  split
  · exact h.text _
  · exact h.text _

theorem openHeading_ok (h : st.shade.Sound) (title : String) :
    ∃ text, st.openHeading title = .ok text := by
  obtain ⟨x, hx⟩ := h .heading
  obtain ⟨y, hy⟩ := h .subheading
  simp only [openHeading, hx, hy]
  exact ⟨_, rfl⟩

theorem heading_ok (h : st.shade.Sound) (title : String) :
    ∃ text, st.heading title = .ok text := by
  obtain ⟨x, hx⟩ := openHeading_ok h title
  simp only [heading, hx]
  exact ⟨_, rfl⟩

theorem block_ok {piece : Except Error String} (h : ∃ text, piece = .ok text) (margin : String) :
    ∃ text, block margin piece = .ok text := by
  obtain ⟨x, rfl⟩ := h
  exact ⟨_, rfl⟩

/-- What is printed about an application does not fail. -/
theorem hook_quiet (h : st.shade.Sound) (roleOf : String → Role) (step : Nat) (s : Expander) :
    Expander.Quiet { s with hook := st.hook roleOf step } := by
  intro hook hhook a piece hpiece
  unfold Stepper.hook at hhook
  split at hhook
  · cases hhook
    simp only [pieces, List.mem_cons, List.not_mem_nil, or_false] at hpiece
    obtain ⟨x, hx⟩ := h .subheading
    obtain ⟨y, hy⟩ := h .macroName
    rcases hpiece with rfl | rfl | rfl | rfl | rfl
    · obtain ⟨z, hz⟩ := openHeading_ok h ("processing step " ++ toString (step + 1) ++ ":")
      rw [hz]
      exact ⟨_, rfl⟩
    · refine block_ok ?_ _
      simp only [applying, hx, hy]
      exact ⟨_, rfl⟩
    · exact block_ok (render_ok h _ _) _
    · refine block_ok ?_ _
      simp only [resultTitle, hx]
      exact ⟨_, rfl⟩
    · exact block_ok (render_ok h _ _) _
  · cases hhook

theorem on_present (h : st.shade.Sound) (roleOf : String → Role) (title : String) (t : Tree)
    (s : Expander) : ∃ text, (st.present roleOf title (.tree t)).on s =
      (.ok (), { s with printed := text }) := by
  refine on_printPieces ?_ s
  simp only [List.forall_mem_cons, List.not_mem_nil, false_imp_iff, implies_true, and_true]
  exact ⟨heading_ok h title, block_ok (render_ok h _ _) _⟩

/-! ## Steps -/

theorem on_macroCalls (t : Tree) (s : Expander) :
    (liftM ((Value.tree t).macroCalls s.registry) : Run _).on s =
      (.ok (t.macroCalls s.registry), s) := by
  rw [Run.on_lift]
  simp only [Value.macroCalls, Value.collect, Value.forest, List.flatMap_cons, List.flatMap_nil,
    List.append_nil]

theorem on_steps_done {t : Tree} {s : Expander} (h : t.macroCalls s.registry = []) (k step : Nat) :
    (st.steps k step (.tree t)).on s = (.ok (.tree t, step), s) := by
  rw [steps, Run.on_bind_of_ok (Run.on_get s), Run.on_bind_of_ok (on_macroCalls t s), h]
  rfl

theorem on_steps_zero {t : Tree} {s : Expander} (h : t.macroCalls s.registry ≠ []) (step : Nat) :
    (st.steps 0 step (.tree t)).on s =
      (.error (.depthExceeded (.steps st.filename) s.maxDepth), s) := by
  rw [steps, Run.on_bind_of_ok (Run.on_get s), Run.on_bind_of_ok (on_macroCalls t s)]
  obtain ⟨c, cs, hc⟩ := List.exists_cons_of_ne_nil h
  rw [hc]
  rfl

theorem on_steps_succ {t : Tree} {s : Expander} (h : t.macroCalls s.registry ≠ [])
    (k step : Nat) : (st.steps (k + 1) step (.tree t)).on s = Run.on (do
      let v ← withHook (st.hook s.registry.roleOf (step + 1)) (visitOnce (.tree t))
      st.present s.registry.roleOf ("after step " ++ toString (step + 1) ++ ":") v
      st.steps k (step + 1) v) s := by
  rw [steps, Run.on_bind_of_ok (Run.on_get s), Run.on_bind_of_ok (on_macroCalls t s)]
  obtain ⟨c, cs, hc⟩ := List.exists_cons_of_ne_nil h
  rw [hc]

/-- Steps that succeed are layers, with tags that follow one another. -/
theorem steps_ok {R : Registry} (hR : R.Regular) : ∀ (k : Nat) {step m : Nat} {s s' : Expander}
    {t : Tree} {v : Value}, s.registry = R → 0 < s.remaining → t.openNodes = [] →
    (st.steps k step (.tree t)).on s = (.ok (v, m), s') →
    ∃ r as, v = .tree r ∧ s.Later s' ∧ Layered R R.Applies k t as r ∧
      Numbered (s.tags.skipPast t.maxTag).last as := by
  intro k
  induction k with
  | zero =>
    intro step m s s' t v hreg hrem hopen h
    by_cases hcalls : t.macroCalls s.registry = []
    · rw [on_steps_done hcalls] at h
      cases h
      rw [hreg] at hcalls
      exact ⟨t, [], rfl, .refl s, .done hcalls, trivial⟩
    · rw [on_steps_zero hcalls] at h
      cases h
  | succ k ih =>
    intro step m s s' t v hreg hrem hopen h
    by_cases hcalls : t.macroCalls s.registry = []
    · rw [on_steps_done hcalls] at h
      cases h
      rw [hreg] at hcalls
      exact ⟨t, [], rfl, .refl s, .done hcalls, trivial⟩
    · rw [on_steps_succ hcalls] at h
      obtain ⟨w, s₁, hvisit, h⟩ := Run.on_bind_ok.1 h
      obtain ⟨_, s₂, hpresent, h⟩ := Run.on_bind_ok.1 h
      obtain ⟨s₀, hv, rfl⟩ := withHook_ok hvisit
      obtain ⟨text, rfl⟩ := printPieces_ok hpresent
      have henter := (on_visitIn .once (.tree t) _).symm.trans hv
      have hl := (steady_enter _ _ _).later henter
      subst hreg
      obtain ⟨u, as, rfl, -, d, hcount⟩ := derivation_of_functional
        (s := { s with hook := st.hook s.registry.roleOf (step + 1) }) hR.functional henter
      have hl2 : s.Later { s₀ with hook := s.hook, printed := text } :=
        ⟨hl.registry, hl.maxDepth, hl.label, hl.budget, hl.stack, hl.recursive, rfl, hl.tags,
          hl.history⟩
      obtain ⟨r, bs, rfl, hl3, hlayers, hnum⟩ :=
        ih hl2.registry (hl2.remaining ▸ hrem) (hR.closed d hopen) h
      have htags := hR.tags_le d hcount.numbered (s.tags.le_last_skipPast t)
      rw [TagSupply.skipPast_of_le (by rw [hcount.last]; exact htags), hcount.last] at hnum
      refine ⟨r, as ++ bs, rfl, hl2.trans hl3, .layer hcalls ?_ hlayers, ?_⟩
      · rw [← rewrites_once hrem]
        exact d
      · exact numbered_append.2 ⟨hcount.numbered, hnum⟩

/-- Layers whose tags follow one another are what the steps do, if there is room for them. -/
theorem steps_needs {R : Registry} (costs : Costs) (hR : R.Regular) (hst : st.shade.Sound)
    {k remaining : Nat} (hrem : 0 < remaining) {t r : Tree} {as : List Transition}
    (h : Layered R R.Applies k t as r) : ∀ {last : Nat}, t.openNodes = [] → Numbered last as →
    ∃ N, ∀ {s : Expander} {step : Nat}, s.registry = R → s.budget.costs = costs →
      s.remaining = remaining → (s.tags.skipPast t.maxTag).last = last →
      (st.steps k step (.tree t)).Needs s N fun p _ => p.1 = .tree r := by
  induction h with
  | done calls =>
    intro last _ _
    refine ⟨0, ?_⟩
    rintro s step rfl - - -
    exact Run.needs_of_ok (on_steps_done calls _ step) (.refl s) rfl
  | @layer k t u r as bs calls first _ ih =>
    intro last hopen hnum
    rw [numbered_append] at hnum
    obtain ⟨N, hvisit⟩ := visitIn_needs costs hopen (rewrites_once hrem ▸ first) hnum.1
    obtain ⟨N', hrest⟩ := ih (hR.closed first hopen) hnum.2
    refine ⟨max N N', ?_⟩
    rintro s step rfl hcosts hremaining hlast
    rw [Run.Needs, on_steps_succ calls]
    have hquiet := hook_quiet hst s.registry.roleOf (step + 1) s
    refine Run.Needs.bind (hvisit (s := { s with hook := st.hook s.registry.roleOf (step + 1) })
      rfl hcosts hquiet hremaining hlast).withHook ?_
    rintro _ s' hs' ⟨rfl, hlast'⟩
    obtain ⟨text, hpresent⟩ := on_present hst s.registry.roleOf
      ("after step " ++ toString (step + 1) ++ ":") u s'
    have hl : s'.Later { s' with printed := text } :=
      ⟨rfl, rfl, rfl, rfl, rfl, rfl, rfl, Nat.le_refl _, [], rfl⟩
    refine Run.Needs.after hpresent hl ?_
    have hl2 := hs'.trans hl
    refine hrest hl2.registry ((congrArg Budget.costs hl2.budget).trans hcosts)
      (hl2.remaining.trans hremaining) ?_
    have htags := hR.tags_le first hnum.1 (hlast ▸ s.tags.le_last_skipPast t)
    rw [TagSupply.skipPast_of_le (by rw [hlast']; exact htags), hlast']

theorem run_ok {s s' : Expander} {t : Tree} {w : Value} (hR : s.registry.Regular)
    (hrem : 0 < s.remaining) (hopen : t.openNodes = [])
    (h : (st.run (.tree t)).on s = (.ok w, s')) :
    ∃ r as, w = .tree r ∧ r.Finished s.registry ∧
      Layered s.registry s.registry.Applies s.maxDepth t as r ∧
      Numbered (s.tags.skipPast t.maxTag).last as := by
  rw [run, Run.on_bind_of_ok (Run.on_get s)] at h
  obtain ⟨_, s₁, hpresent, h⟩ := Run.on_bind_ok.1 h
  obtain ⟨text, rfl⟩ := printPieces_ok hpresent
  obtain ⟨⟨v, count⟩, s₂, hsteps, h⟩ := Run.on_bind_ok.1 h
  obtain ⟨_, s₃, -, h⟩ := Run.on_bind_ok.1 h
  obtain ⟨r, as, rfl, -, hlayers, hnum⟩ :=
    steps_ok hR s.maxDepth (s := { s with printed := text }) rfl hrem hopen hsteps
  rw [Run.on_lift] at h
  obtain ⟨hw, hfin, -⟩ := Value.finish_eq_ok (Prod.mk.inj h).1
  exact ⟨r, as, hw, hfin, hlayers, hnum⟩

theorem run_needs {R : Registry} (costs : Costs) (hR : R.Regular) (hst : st.shade.Sound)
    {d last : Nat} (hd : 0 < d) {t r : Tree} {as : List Transition} (hopen : t.openNodes = [])
    (h : Layered R R.Applies d t as r) (hnum : Numbered last as) (hfin : r.Finished R)
    (hr : r.openNodes = []) : ∃ N, ∀ {s : Expander}, s.registry = R → s.budget.costs = costs →
      s.maxDepth = d → s.remaining = d → (s.tags.skipPast t.maxTag).last = last →
      (st.run (.tree t)).Needs s N fun w _ => w = .tree r := by
  obtain ⟨N, hsteps⟩ := steps_needs costs hR hst hd h hopen hnum
  refine ⟨N, ?_⟩
  rintro s rfl hcosts rfl hremaining hlast
  rw [run]
  refine Run.Needs.after (Run.on_get s) (.refl s) ?_
  obtain ⟨text, hpresent⟩ := on_present hst s.registry.roleOf "before macro expansion:" t s
  have hl : ∀ (s : Expander) (text : String), s.Later { s with printed := text } := fun _ _ =>
    ⟨rfl, rfl, rfl, rfl, rfl, rfl, rfl, Nat.le_refl _, [], rfl⟩
  refine Run.Needs.after hpresent (hl s text) ?_
  rw [← Nat.max_zero N]
  refine Run.Needs.bind (hsteps (s := { s with printed := text }) rfl hcosts hremaining hlast) ?_
  rintro ⟨_, count⟩ s' hs' rfl
  obtain ⟨text', htext⟩ := heading_ok hst (closing count)
  have hprint : (printPiece (st.heading (closing count))).on s' =
      (.ok (), { s' with printed := s'.printed ++ text' }) := by
    rw [htext]
    rfl
  refine Run.Needs.after hprint (hl s' _) (Run.needs_of_ok (a := .tree r) ?_ (.refl _) rfl)
  have hfinish : (Value.tree r).finish (some s.registry) = .ok (.tree r) := by
    rw [Value.finish_of_finished hfin, hr]
  exact (Run.on_lift _ _).trans (by rw [hfinish])

end Stepper

/-! ## Whole expansions -/

/-- An expander with another stack. -/
def Expander.withBudget (budget : Budget) (s : Expander) : Expander := { s with budget := budget }

/-- The expansion depth first, on a given stack. -/
def expandWithin (budget : Budget) (source : Registry) (t : Tree) (maxDepth : Nat) (label : Value) :
    Except Error Value :=
  ((expandFully (.tree t)).on ((Expander.ofRegistry source maxDepth label).withBudget budget)).1

/-- The expansion in steps, on a given stack. -/
def stepWithin (budget : Budget) (st : Stepper) (source : Registry) (t : Tree) (maxDepth : Nat)
    (label : Value) : Except Error Value :=
  ((st.run (.tree t)).on ((Expander.ofRegistry source maxDepth label).withBudget budget)).1

/-- An outcome that only a larger stack could change. -/
def Overflowed : Except Error Value → Prop
  | .error .stackOverflow => True
  | .error (.depthExceeded (.overflow _ _) _) => True
  | _ => False

theorem expandMacros_eq_within (source : Registry) (t : Tree) {d : Nat} (hd : 0 < d)
    (label : Value) : (expandMacros source (.tree t) (.int d) label).1 =
      expandWithin Expander.standardBudget source t d label := by
  rw [expandMacros_eq (create_int source hd label)]
  rfl

theorem stepExpansion_eq_within (source : Registry) (t : Tree) {mode : Value} {layout : Layout}
    (hmode : Layout.ofValue mode = .ok layout) (detailed : Bool) (shade : Shade) {d : Nat}
    (hd : 0 < d) (label : Value) :
    (stepExpansion source (.tree t) mode detailed shade (.int d) label).1 =
      stepWithin Expander.standardBudget ⟨layout, shade, detailed, label.display⟩ source t d
        label := by
  simp only [stepExpansion, hmode, create_int source hd label]
  rfl

section
variable {R : Registry} {t r : Tree} {d : Nat} {label : Value} {budget : Budget} {costs : Costs}

/-- The tag from which an expansion of a tree counts on. -/
def Tree.firstTag (t : Tree) : Nat := (TagSupply.start.skipPast t.maxTag).last

theorem derivation_of_expandWithin (hR : R.Regular)
    (h : expandWithin budget R t d label = .ok (.tree r)) :
    ∃ as, Scans R.snapshot (Rewrites R.snapshot R.snapshot.Applies .recursive d) [t] as [r] ∧
      Numbered t.firstTag as := by
  obtain ⟨v, hvisit, hfinish⟩ := expandFully_ok (Prod.ext h rfl)
  have henter := (on_visitIn .recursive (.tree t) _).symm.trans hvisit
  obtain ⟨r', as, rfl, -, hd, hcount⟩ := derivation_of_functional
    (s := (Expander.ofRegistry R d label).withBudget budget) hR.snapshot.functional henter
  cases (Value.finish_eq_ok hfinish).1
  exact ⟨as, hd, hcount.numbered⟩

/-- What is derived is what is returned, if there is room for it; if not, the stack overflows. -/
theorem expandWithin_of_derivation (hR : R.Regular) (hopen : t.openNodes = [])
    {as : List Transition}
    (hd : Scans R.snapshot (Rewrites R.snapshot R.snapshot.Applies .recursive d) [t] as [r])
    (hnum : Numbered t.firstTag as) :
    ∃ N, ∀ limit, if N ≤ limit then expandWithin ⟨limit, costs⟩ R t d label = .ok (.tree r)
      else Overflowed (expandWithin ⟨limit, costs⟩ R t d label) := by
  obtain ⟨N, hvisit⟩ := visitIn_needs costs hopen hd hnum
  refine ⟨N, fun limit => ?_⟩
  obtain ⟨outcome, s', hrun, hlater, h⟩ := hvisit
    (s := (Expander.ofRegistry R d label).withBudget ⟨limit, costs⟩) rfl rfl (fun _ h => nomatch h)
    rfl rfl
  have hfin : r.Finished R.snapshot := hd.finished (Rewrites.finished _) r (.head _)
  have hclosed : r.openNodes = [] := hR.snapshot.closed hd hopen
  change if _ ≤ limit then _ else _ at h
  split at h
  · obtain ⟨_, rfl, rfl, -⟩ := h
    rename_i hN
    rw [if_pos hN, expandWithin, expandFully_of_ok hrun, hlater.registry]
    exact (Value.finish_of_finished hfin).trans (by rw [hclosed])
  · subst h
    rename_i hN
    rw [if_neg hN, expandWithin, expandFully_of_overflow hrun rfl]
    trivial

/-- A tree that there is no room to look through overflows the stack. -/
theorem expandWithin_of_unsurveyed (h : budget.left < budget.costs.of (.survey t.skeleton)) :
    expandWithin budget R t d label = .error (.depthExceeded (.overflow label.display 0) d) := by
  have hvisit := visitIn_of_unsurveyed (s := (Expander.ofRegistry R d label).withBudget budget)
    (Nat.lt_add_left _ h) .recursive
  rw [expandWithin, expandFully_of_overflow hvisit rfl]
  rfl

theorem layers_of_stepWithin (hR : R.Regular) (hopen : t.openNodes = []) (hd : 0 < d)
    {st : Stepper} (h : stepWithin budget st R t d label = .ok (.tree r)) :
    ∃ as, r.Finished R.snapshot ∧ Layered R.snapshot R.snapshot.Applies d t as r ∧
      Numbered t.firstTag as := by
  obtain ⟨r', as, hr, hfin, hlayers, hnum⟩ := Stepper.run_ok
    (s := (Expander.ofRegistry R d label).withBudget budget) hR.snapshot hd hopen (Prod.ext h rfl)
  cases hr
  exact ⟨as, hfin, hlayers, hnum⟩

/-- What is derived in layers is what the steps return, if there is room for it. -/
theorem stepWithin_of_layers (hR : R.Regular) (hopen : t.openNodes = []) (hd : 0 < d)
    {st : Stepper} (hst : st.shade.Sound) {as : List Transition}
    (h : Layered R.snapshot R.snapshot.Applies d t as r) (hnum : Numbered t.firstTag as)
    (hfin : r.Finished R.snapshot) (hr : r.openNodes = []) :
    ∃ N, ∀ limit, if N ≤ limit then stepWithin ⟨limit, costs⟩ st R t d label = .ok (.tree r)
      else Overflowed (stepWithin ⟨limit, costs⟩ st R t d label) := by
  obtain ⟨N, hsteps⟩ := Stepper.run_needs costs hR.snapshot hst hd hopen h hnum hfin hr
  refine ⟨N, fun limit => ?_⟩
  obtain ⟨outcome, s', hrun, -, h⟩ := hsteps
    (s := (Expander.ofRegistry R d label).withBudget ⟨limit, costs⟩) rfl rfl rfl rfl rfl
  change if _ ≤ limit then _ else _ at h
  split at h
  · obtain ⟨_, rfl, rfl⟩ := h
    rename_i hN
    rw [if_pos hN, stepWithin, hrun]
  · subst h
    rename_i hN
    rw [if_neg hN, stepWithin, hrun]
    trivial

theorem Tree.retag_of_firstTag {ρ : Tag → Tag}
    (hρ : ∀ tag : Tag, tag.number ≤ t.firstTag → ρ tag = tag) :
    ∀ tag : Tag, (tag.number : Int) ∈ t.tags → ρ tag = tag := by
  intro tag htag
  have := TagSupply.start.le_last_skipPast t _ htag
  exact hρ tag (by exact_mod_cast this)

/-- From depth first to layers. -/
theorem layers_of_derivation (hR : R.Regular) {as : List Transition}
    (hopen : t.openNodes = [])
    (h : Scans R.snapshot (Rewrites R.snapshot R.snapshot.Applies .recursive d) [t] as [r])
    (hnum : Numbered t.firstTag as) :
    ∃ ρ : Tag → Tag, Function.Injective ρ ∧
      (∀ tag : Tag, (tag.number : Int) ∈ t.tags → ρ tag = tag) ∧
      ∃ bs, Layered R.snapshot R.snapshot.Applies d t bs (r.retag ρ) ∧
        Numbered t.firstTag bs ∧ (r.retag ρ).Finished R.snapshot ∧ (r.retag ρ).openNodes = [] := by
  obtain ⟨bs, hperm, hlayers⟩ := h.layered
  obtain ⟨ρ, hinj, hρ, hbs⟩ := exists_renumbering hnum hperm
  have hfixed := t.retag_of_firstTag hρ
  have hstep : ∀ a, R.snapshot.Applies a → R.snapshot.Applies (a.retag ρ) := fun a ha =>
    ha.retag hR.snapshot.toEquivariant hinj
  have hlayers' := hlayers.retag hstep
  rw [Tree.retag_of_fixed hfixed] at hlayers'
  refine ⟨ρ, hinj, hfixed, _, hlayers', hbs, ?_, ?_⟩
  · exact Scans.finished (Rewrites.finished d) (h.retag (Rewrites.retag hstep d)) _ (.head _)
  · exact Tree.openNodes_retag.2 (hR.snapshot.closed h hopen)

/-- From layers to depth first. -/
theorem derivation_of_layers (hR : R.Regular) {bs : List Transition}
    (h : Layered R.snapshot R.snapshot.Applies d t bs r) (hnum : Numbered t.firstTag bs)
    (hfin : r.Finished R.snapshot) : ∃ (ρ : Tag → Tag) (as : List Transition),
      Scans R.snapshot (Rewrites R.snapshot R.snapshot.Applies .recursive d) [t] as [r.retag ρ] ∧
        Numbered t.firstTag as := by
  obtain ⟨as, hperm, hscan⟩ := h.scans hfin
  obtain ⟨ρ, hinj, hρ, has⟩ := exists_renumbering hnum hperm
  have hscan' := hscan.retag (Rewrites.retag
    (fun a ha => ha.retag hR.snapshot.toEquivariant hinj) d)
  rw [List.map_singleton, Tree.retag_of_fixed (t.retag_of_firstTag hρ)] at hscan'
  exact ⟨ρ, _, hscan', has⟩

end

/-- Two ways to expand the tree `t`, each on a stack with any room, agree. -/
structure Agreement (t : Tree) (expanded stepped : Nat → Except Error Value) : Prop where
  /-- With enough of the stack, the one returns a tree if and only if the other does. -/
  returns : (∃ limit r, expanded limit = .ok (.tree r)) ↔ ∃ limit r, stepped limit = .ok (.tree r)
  /-- So it is on any one stack, if neither overflows. -/
  returns_at : ∀ limit, ¬ Overflowed (expanded limit) → ¬ Overflowed (stepped limit) →
    ((∃ r, expanded limit = .ok (.tree r)) ↔ ∃ r, stepped limit = .ok (.tree r))
  /-- The trees differ in the numbers of tags only, and not in those of `t`. -/
  retagged : ∀ {limit limit' r r'}, expanded limit = .ok (.tree r) →
    stepped limit' = .ok (.tree r') → ∃ ρ : Tag → Tag, Function.Injective ρ ∧
      (∀ tag : Tag, (tag.number : Int) ∈ t.tags → ρ tag = tag) ∧ r' = r.retag ρ
  /-- The room on the stack decides between the tree and an overflow, and nothing else. -/
  expanded_limit : ∀ {limit r}, expanded limit = .ok (.tree r) → ∃ N, ∀ limit',
    if N ≤ limit' then expanded limit' = .ok (.tree r) else Overflowed (expanded limit')
  stepped_limit : ∀ {limit r}, stepped limit = .ok (.tree r) → ∃ N, ∀ limit',
    if N ≤ limit' then stepped limit' = .ok (.tree r) else Overflowed (stepped limit')

/-- A way to expand that needs some room returns with that much, and wherever it does not
overflow. -/
theorem returns_of_threshold {f : Nat → Except Error Value} {N : Nat} {r : Tree}
    (h : ∀ limit, if N ≤ limit then f limit = .ok (.tree r) else Overflowed (f limit)) :
    (∀ limit, ¬ Overflowed (f limit) → f limit = .ok (.tree r)) ∧ f N = .ok (.tree r) := by
  refine ⟨fun limit hlimit => ?_, ?_⟩
  · have := h limit
    split at this
    · exact this
    · exact absurd this hlimit
  · have := h N
    rwa [if_pos (Nat.le_refl N)] at this

theorem not_overflowed {x : Except Error Value} {v : Value} (h : x = .ok v) : ¬ Overflowed x := by
  rw [h]
  exact id

section
variable {R : Registry} (hR : R.Regular) {t : Tree} (hopen : t.openNodes = []) {d : Nat}
  (hd : 0 < d) {st : Stepper} {label : Value} {budget : Budget} {costs : Costs} {r : Tree}
include hR hopen hd

/-- What is returned depth first says what the steps return, on any stack. -/
theorem stepWithin_of_expandWithin (hst : st.shade.Sound)
    (h : expandWithin budget R t d label = .ok (.tree r)) :
    ∃ ρ : Tag → Tag, Function.Injective ρ ∧
      (∀ tag : Tag, (tag.number : Int) ∈ t.tags → ρ tag = tag) ∧
      ∃ N, ∀ limit,
        if N ≤ limit then stepWithin ⟨limit, costs⟩ st R t d label = .ok (.tree (r.retag ρ))
        else Overflowed (stepWithin ⟨limit, costs⟩ st R t d label) := by
  obtain ⟨as, hscan, hnum⟩ := derivation_of_expandWithin hR h
  obtain ⟨ρ, hinj, hρ, bs, hlayers, hbs, hfin, hclosed⟩ :=
    layers_of_derivation hR hopen hscan hnum
  exact ⟨ρ, hinj, hρ, stepWithin_of_layers hR hopen hd hst hlayers hbs hfin hclosed⟩

/-- What the steps return says what is returned depth first. -/
theorem expandWithin_of_stepWithin (h : stepWithin budget st R t d label = .ok (.tree r)) :
    ∃ (ρ : Tag → Tag) (N : Nat), ∀ limit,
      if N ≤ limit then expandWithin ⟨limit, costs⟩ R t d label = .ok (.tree (r.retag ρ))
      else Overflowed (expandWithin ⟨limit, costs⟩ R t d label) := by
  obtain ⟨bs, hfin, hlayers, hnum⟩ := layers_of_stepWithin hR hopen hd h
  obtain ⟨ρ, as, hscan, has⟩ := derivation_of_layers hR hlayers hnum hfin
  exact ⟨ρ, expandWithin_of_derivation hR hopen hscan has⟩

theorem agreement_of_regular (hst : st.shade.Sound) (label : Value) (costs : Costs) :
    Agreement t (fun limit => expandWithin ⟨limit, costs⟩ R t d label)
      (fun limit => stepWithin ⟨limit, costs⟩ st R t d label) := by
  refine ⟨⟨?_, ?_⟩, ?_, ?_, ?_, ?_⟩
  · rintro ⟨limit, r, h⟩
    obtain ⟨ρ, -, -, N, hN⟩ := stepWithin_of_expandWithin hR hopen hd hst h
    exact ⟨N, _, (returns_of_threshold hN).2⟩
  · rintro ⟨limit, r, h⟩
    obtain ⟨ρ, N, hN⟩ := expandWithin_of_stepWithin hR hopen hd h
    exact ⟨N, _, (returns_of_threshold hN).2⟩
  · intro limit hexpanded hstepped
    constructor
    · rintro ⟨r, h⟩
      obtain ⟨ρ, -, -, N, hN⟩ := stepWithin_of_expandWithin hR hopen hd hst h
      exact ⟨_, (returns_of_threshold hN).1 limit hstepped⟩
    · rintro ⟨r, h⟩
      obtain ⟨ρ, N, hN⟩ := expandWithin_of_stepWithin hR hopen hd h
      exact ⟨_, (returns_of_threshold hN).1 limit hexpanded⟩
  · intro limit limit' r r' h h'
    obtain ⟨ρ, hinj, hρ, N, hN⟩ := stepWithin_of_expandWithin hR hopen hd hst h
    refine ⟨ρ, hinj, hρ, ?_⟩
    have hstep := (returns_of_threshold hN).1 limit' (not_overflowed h')
    rw [h'] at hstep
    cases hstep
    rfl
  · intro limit r h
    obtain ⟨as, hscan, hnum⟩ := derivation_of_expandWithin hR h
    exact expandWithin_of_derivation hR hopen hscan hnum
  · intro limit r h
    obtain ⟨as, hfin, hlayers, hnum⟩ := layers_of_stepWithin hR hopen hd h
    obtain ⟨ρ, as', hscan, -⟩ := derivation_of_layers hR hlayers hnum hfin
    have hclosed := Tree.openNodes_retag.1 (hR.snapshot.closed hscan hopen)
    exact stepWithin_of_layers hR hopen hd hst hlayers hnum hfin hclosed

end

/-- **Expansion in steps agrees with expansion depth first**, the room on the stack aside, whatever
the costs of the activities. -/
theorem stepExpansion_agrees {R : Registry} (hR : R.Regular) {t : Tree} (hopen : t.openNodes = [])
    {d : Nat} (hd : 0 < d) {shade : Shade} (hshade : shade.Sound) {mode : Value} {layout : Layout}
    (hmode : Layout.ofValue mode = .ok layout) (detailed : Bool) (label : Value) :
    (∀ costs, Agreement t (fun limit => expandWithin ⟨limit, costs⟩ R t d label)
      (fun limit => stepWithin ⟨limit, costs⟩ ⟨layout, shade, detailed, label.display⟩ R t d
        label)) ∧
    (expandMacros R (.tree t) (.int d) label).1 =
      expandWithin Expander.standardBudget R t d label ∧
    (stepExpansion R (.tree t) mode detailed shade (.int d) label).1 =
      stepWithin Expander.standardBudget ⟨layout, shade, detailed, label.display⟩ R t d label :=
  ⟨agreement_of_regular hR hopen hd hshade label, expandMacros_eq_within R t hd label,
    stepExpansion_eq_within R t hmode detailed shade hd label⟩

/-- The tags of the tree that is returned. -/
def returnedTags : Except Error Value → List Int
  | .ok (.tree r) => r.tags
  | _ => []

theorem exists_of_returnedTags {x : Except Error Value} (h : returnedTags x ≠ []) :
    ∃ r, x = .ok (.tree r) ∧ returnedTags x = r.tags := by
  unfold returnedTags at h ⊢
  split at h
  · exact ⟨_, rfl, rfl⟩
  · exact absurd rfl h

theorem stepExpansion_agrees_reused :
    ∃ r r', (expandMacros Catalogue.binding (.tree Catalogue.reused) (.int 2)
        Expander.standardLabel).1 = .ok (.tree r) ∧
      (stepExpansion Catalogue.binding (.tree Catalogue.reused) (.text "unparse") true .plain
        (.int 2) Expander.standardLabel).1 = .ok (.tree r') ∧
      r.tags ≠ r'.tags ∧ ∃ ρ : Tag → Tag, Function.Injective ρ ∧ r' = r.retag ρ := by
  obtain ⟨hagree, hexpand, hstep⟩ := stepExpansion_agrees (t := Catalogue.reused) (d := 2)
    Catalogue.binding_regular (by decide +kernel) (by decide) Shade.plain_sound
    (rfl : Layout.ofValue (.text "unparse") = .ok .line) true
    Expander.standardLabel
  obtain ⟨r, hr, htags⟩ := exists_of_returnedTags (x := (expandMacros Catalogue.binding
    (.tree Catalogue.reused) (.int 2) Expander.standardLabel).1) (by decide +kernel)
  obtain ⟨r', hr', htags'⟩ := exists_of_returnedTags (x := (stepExpansion Catalogue.binding
    (.tree Catalogue.reused) (.text "unparse") true .plain (.int 2) Expander.standardLabel).1)
    (by decide +kernel)
  obtain ⟨ρ, hinj, -, hρ⟩ := (hagree _).retagged (hexpand.symm.trans hr) (hstep.symm.trans hr')
  refine ⟨r, r', hr, hr', ?_, ρ, hinj, hρ⟩
  rw [← htags, ← htags']
  decide +kernel

end HygienicMacros
