import HygienicMacros.Proofs.Completeness
import HygienicMacros.Proofs.Retagging

/-! # Layers

The same expansion can be made depth first, where each outcome is scanned before the next macro
call is looked for, or in layers, where every outermost macro call is replaced once and only then
the whole tree is looked at again. `Scans.split` takes the first layer off a derivation that goes
depth first, and `Scans.merge` puts one before it. So the two make the same applications, in
another order, and the nesting of expansions that the one allows is the number of layers that the
other allows (`Scans.layered`, `Layered.scans`).
-/

namespace HygienicMacros

/-! ## Forests -/

theorem Scans.of_nil {R : Registry} {Call : Tree → List Transition → Tree → Prop}
    {as : List Transition} {rs : List Tree} (h : Scans R Call [] as rs) : as = [] ∧ rs = [] := by
  cases h
  exact ⟨rfl, rfl⟩

theorem Scans.of_singleton {R : Registry} {Call : Tree → List Transition → Tree → Prop} {t : Tree}
    {as : List Transition} {rs : List Tree} (h : Scans R Call [t] as rs) : ∃ r, rs = [r] := by
  obtain ⟨_, _, r, rs', -, rfl, -, h'⟩ := h.of_cons
  obtain ⟨-, rfl⟩ := h'.of_nil
  exact ⟨r, rfl⟩

namespace Tree

variable {R : Registry}

theorem macroCalls_call {op : String} {args : List Tree} {notes : Notes} :
    (call (.symbol op) args notes).macroCalls R = [] ↔
      R.isMacro op = false ∧ ∀ a ∈ args, a.macroCalls R = [] := by
  simp only [macroCalls, List.filterMap_eq_nil_iff, nodes, nodesList_eq, List.forall_mem_cons,
    List.forall_mem_flatMap, Registry.macroCall?, ite_eq_right_iff, Bool.not_eq_true, reduceCtorEq,
    imp_false]

theorem macroCalls_apply {f : Tree} {args : List Tree} {notes : Notes} :
    (call (.tree f) args notes).macroCalls R = [] ↔
      f.macroCalls R = [] ∧ ∀ a ∈ args, a.macroCalls R = [] := by
  simp only [macroCalls, List.filterMap_eq_nil_iff, nodes, nodesList_eq, List.forall_mem_cons,
    List.forall_mem_append, List.forall_mem_flatMap, Registry.macroCall?, true_and]

end Tree

section
variable {R : Registry} {Call : Tree → List Transition → Tree → Prop}

/-- A scan that finds no macro calls changes nothing. -/
theorem Scans.of_macroCalls_eq_nil {ts rs : List Tree} {as : List Transition}
    (h : Scans R Call ts as rs) (hts : ∀ t ∈ ts, t.macroCalls R = []) : as = [] ∧ rs = ts := by
  induction h with
  | nil => exact ⟨rfl, rfl⟩
  | literal _ ih =>
    obtain ⟨rfl, rfl⟩ := ih (List.forall_mem_cons.1 hts).2
    exact ⟨rfl, rfl⟩
  | name _ ih =>
    obtain ⟨rfl, rfl⟩ := ih (List.forall_mem_cons.1 hts).2
    exact ⟨rfl, rfl⟩
  | call _ _ _ ihp ih =>
    rw [List.forall_mem_cons, Tree.macroCalls_call] at hts
    obtain ⟨rfl, rfl⟩ := ihp hts.1.2
    obtain ⟨rfl, rfl⟩ := ih hts.2
    exact ⟨rfl, rfl⟩
  | apply _ _ _ ihh ihp ih =>
    rw [List.forall_mem_cons, Tree.macroCalls_apply] at hts
    obtain ⟨rfl, hf⟩ := ihh (List.forall_mem_singleton.2 hts.1.1)
    obtain ⟨rfl, rfl⟩ := ihp hts.1.2
    obtain ⟨rfl, rfl⟩ := ih hts.2
    cases hf
    exact ⟨rfl, rfl⟩
  | expand hop _ _ _ =>
    rw [List.forall_mem_cons, Tree.macroCalls_call, hop] at hts
    cases hts.1.1

/-- A scan that is not allowed any expansion only goes over finished trees. -/
theorem Scans.finished_input (hcall : ∀ t as r, ¬ Call t as r) {ts rs : List Tree}
    {as : List Transition} (h : Scans R Call ts as rs) : ∀ t ∈ ts, t.Finished R := by
  induction h with
  | nil => simp
  | literal _ ih => exact List.forall_mem_cons.2 ⟨Tree.finished_literal _, ih⟩
  | name _ ih => exact List.forall_mem_cons.2 ⟨Tree.finished_name _ _, ih⟩
  | call hop _ _ ihp ih => exact List.forall_mem_cons.2 ⟨Tree.finished_call.2 ⟨hop, ihp⟩, ih⟩
  | apply _ _ _ ihh ihp ih =>
    exact List.forall_mem_cons.2 ⟨Tree.finished_apply.2 ⟨ihh _ (.head _), ihp⟩, ih⟩
  | expand _ result _ _ => exact absurd result (hcall _ _ _)

/-- A finished tree is scanned and stays what it is. -/
theorem Scans.of_finished {t : Tree} (h : t.Finished R) : Scans R Call [t] [] [t] := by
  have list : ∀ ts : List Tree, (∀ t ∈ ts, t.Finished R → Scans R Call [t] [] [t]) →
      (∀ t ∈ ts, t.Finished R) → Scans R Call ts [] ts := by
    intro ts ih hts
    induction ts with
    | nil => exact .nil
    | cons t ts ihts =>
      rw [List.forall_mem_cons] at ih hts
      exact (ih.1 hts.1).cons (ihts ih.2 hts.2)
  induction t using Tree.induct with
  | literal d => exact .literal .nil
  | name ident scope => exact .name .nil
  | call op args notes ih =>
    obtain ⟨hop, hargs⟩ := Tree.finished_call.1 h
    exact Scans.call hop (list args ih hargs) .nil
  | apply f args notes ihf ih =>
    obtain ⟨hf, hargs⟩ := Tree.finished_apply.1 h
    exact Scans.apply (ihf hf) (list args ih hargs) .nil
  | placeholder target => cases h _ (.head _)
  | bare kind => cases h _ (.head _)
  | marker kind body _ => cases h _ (.head _)
  | unhygienic ident => cases h _ (.head _)

end

/-! ## The first layer -/

section
variable {R : Registry} {Step : Transition → Prop}

/-- What one step makes of a macro call does not depend on how many more there may be. -/
theorem rewrites_once {k : Nat} (hk : 0 < k) :
    Rewrites R Step .once k = Rewrites R Step .once 1 := by
  cases k with
  | zero => exact absurd hk (Nat.lt_irrefl 0)
  | succ k => rfl

theorem perm_interleave {α : Type} {as as₁ as₂ bs bs₁ bs₂ : List α} (ha : as.Perm (as₁ ++ as₂))
    (hb : bs.Perm (bs₁ ++ bs₂)) : (as ++ bs).Perm ((as₁ ++ bs₁) ++ (as₂ ++ bs₂)) := by
  refine (ha.append hb).trans ?_
  rw [List.append_assoc, List.append_assoc]
  exact (List.perm_append_comm_assoc as₂ bs₁ bs₂).append_left as₁

/-- The first layer of an expansion that goes depth first, and the rest. -/
theorem Scans.split {k : Nat} {ts rs : List Tree} {as : List Transition}
    (h : Scans R (Rewrites R Step .recursive (k + 1)) ts as rs) :
    ∃ us bs cs, Scans R (Rewrites R Step .once 1) ts bs us ∧
      Scans R (Rewrites R Step .recursive k) us cs rs ∧ as.Perm (bs ++ cs) := by
  induction h with
  | nil => exact ⟨[], [], [], .nil, .nil, .refl _⟩
  | literal _ ih =>
    obtain ⟨us, bs, cs, d, d', hp⟩ := ih
    exact ⟨_, bs, cs, .literal d, .literal d', hp⟩
  | name _ ih =>
    obtain ⟨us, bs, cs, d, d', hp⟩ := ih
    exact ⟨_, bs, cs, .name d, .name d', hp⟩
  | call hop _ _ ihp ih =>
    obtain ⟨us₁, bs₁, cs₁, d₁, d₁', hp₁⟩ := ihp
    obtain ⟨us₂, bs₂, cs₂, d₂, d₂', hp₂⟩ := ih
    exact ⟨_, _, _, .call hop d₁ d₂, .call hop d₁' d₂', perm_interleave hp₁ hp₂⟩
  | apply _ _ _ ihh ihp ih =>
    obtain ⟨us₁, bs₁, cs₁, d₁, d₁', hp₁⟩ := ihh
    obtain ⟨u, rfl⟩ := d₁.of_singleton
    obtain ⟨us₂, bs₂, cs₂, d₂, d₂', hp₂⟩ := ihp
    obtain ⟨us₃, bs₃, cs₃, d₃, d₃', hp₃⟩ := ih
    exact ⟨_, _, _, .apply d₁ d₂ d₃, .apply d₁' d₂' d₃',
      perm_interleave (perm_interleave hp₁ hp₂) hp₃⟩
  | expand hop result _ ih =>
    obtain ⟨a, bs, rfl, ha, hinv, d⟩ := result
    obtain ⟨us₂, bs₂, cs₂, d₂, d₂', hp₂⟩ := ih
    refine ⟨a.expansion :: us₂, [a] ++ bs₂, bs ++ cs₂, ?_, d.cons d₂',
      perm_interleave (.refl ([a] ++ _)) hp₂⟩
    exact .expand hop ⟨a, [], rfl, ha, hinv, rfl, rfl⟩ d₂

/-- A layer before an expansion that goes depth first. -/
theorem Scans.merge {k : Nat} {ts us : List Tree} {bs : List Transition}
    (h : Scans R (Rewrites R Step .once 1) ts bs us) :
    ∀ {cs rs}, Scans R (Rewrites R Step .recursive k) us cs rs →
      ∃ as, Scans R (Rewrites R Step .recursive (k + 1)) ts as rs ∧ as.Perm (bs ++ cs) := by
  induction h with
  | nil =>
    intro cs rs h'
    obtain ⟨rfl, rfl⟩ := h'.of_nil
    exact ⟨[], .nil, .refl _⟩
  | literal _ ih =>
    intro cs rs h'
    cases h' with
    | literal rest =>
      obtain ⟨as, d, hp⟩ := ih rest
      exact ⟨as, .literal d, hp⟩
  | name _ ih =>
    intro cs rs h'
    cases h' with
    | name rest =>
      obtain ⟨as, d, hp⟩ := ih rest
      exact ⟨as, .name d, hp⟩
  | call hop _ _ ihp ih =>
    intro cs rs h'
    cases h' with
    | call _ parts rest =>
      obtain ⟨as₁, d₁, hp₁⟩ := ihp parts
      obtain ⟨as₂, d₂, hp₂⟩ := ih rest
      exact ⟨_, .call hop d₁ d₂, perm_interleave hp₁ hp₂⟩
    | expand hop' _ _ =>
      rw [hop] at hop'
      cases hop'
  | apply _ _ _ ihh ihp ih =>
    intro cs rs h'
    cases h' with
    | apply head parts rest =>
      obtain ⟨as₁, d₁, hp₁⟩ := ihh head
      obtain ⟨as₂, d₂, hp₂⟩ := ihp parts
      obtain ⟨as₃, d₃, hp₃⟩ := ih rest
      exact ⟨_, .apply d₁ d₂ d₃, perm_interleave (perm_interleave hp₁ hp₂) hp₃⟩
  | expand hop result _ ih =>
    intro cs rs h'
    obtain ⟨a, _, rfl, ha, hinv, rfl, rfl⟩ := result
    obtain ⟨cs₁, cs₂, r, rs', rfl, rfl, d, rest⟩ := h'.of_cons
    obtain ⟨as₂, d₂, hp₂⟩ := ih rest
    exact ⟨a :: cs₁ ++ as₂, .expand hop ⟨a, cs₁, rfl, ha, hinv, d⟩ d₂,
      perm_interleave (.refl ([a] ++ _)) hp₂⟩

/-! ## All layers -/

/-- An expansion in at most `k` layers, until no macro calls are left. -/
inductive Layered (R : Registry) (Step : Transition → Prop) :
    Nat → Tree → List Transition → Tree → Prop
  | done {k : Nat} {t : Tree} (calls : t.macroCalls R = []) : Layered R Step k t [] t
  | layer {k : Nat} {t u r : Tree} {as bs : List Transition} (calls : t.macroCalls R ≠ [])
      (first : Scans R (Rewrites R Step .once 1) [t] as [u]) (rest : Layered R Step k u bs r) :
      Layered R Step (k + 1) t (as ++ bs) r

/-- What is expanded depth first can be expanded in layers, as many as expansions are nested. -/
theorem Scans.layered : ∀ {k : Nat} {t r : Tree} {as : List Transition},
    Scans R (Rewrites R Step .recursive k) [t] as [r] →
      ∃ bs, bs.Perm as ∧ Layered R Step k t bs r := by
  intro k
  induction k with
  | zero =>
    intro t r as h
    have ht : t.Finished R := h.finished_input (fun _ _ _ h => h) t (.head _)
    have hcalls := (Tree.finished_iff.1 ht).1
    obtain ⟨rfl, hr⟩ := h.of_macroCalls_eq_nil (List.forall_mem_singleton.2 hcalls)
    cases hr
    exact ⟨[], .refl _, .done hcalls⟩
  | succ k ih =>
    intro t r as h
    by_cases hcalls : t.macroCalls R = []
    · obtain ⟨rfl, hr⟩ := h.of_macroCalls_eq_nil (List.forall_mem_singleton.2 hcalls)
      cases hr
      exact ⟨[], .refl _, .done hcalls⟩
    · obtain ⟨us, bs, cs, d, d', hp⟩ := h.split
      obtain ⟨u, rfl⟩ := d.of_singleton
      obtain ⟨cs', hp', hl⟩ := ih d'
      exact ⟨bs ++ cs', (hp'.append_left bs).trans hp.symm, .layer hcalls d hl⟩

/-- What is expanded in layers, with a finished tree at the end, can be expanded depth first. -/
theorem Layered.scans {k : Nat} {t r : Tree} {bs : List Transition}
    (h : Layered R Step k t bs r) (hr : r.Finished R) :
    ∃ as, as.Perm bs ∧ Scans R (Rewrites R Step .recursive k) [t] as [r] := by
  induction h with
  | done _ => exact ⟨[], .refl _, .of_finished hr⟩
  | layer _ first _ ih =>
    obtain ⟨cs, hp, d⟩ := ih hr
    obtain ⟨as, d', hp'⟩ := first.merge d
    exact ⟨as, hp'.trans (hp.append_left _), d'⟩

theorem Layered.retag {ρ : Tag → Tag} (hstep : ∀ a, Step a → Step (a.retag ρ)) {k : Nat}
    {t r : Tree} {as : List Transition} (h : Layered R Step k t as r) :
    Layered R Step k (t.retag ρ) (as.map (Transition.retag ρ)) (r.retag ρ) := by
  induction h with
  | done calls => exact .done (Tree.macroCalls_retag.2 calls)
  | layer calls first _ ih =>
    have first' := Scans.retag (Rewrites.retag hstep 1) first
    rw [List.map_append]
    exact .layer (mt Tree.macroCalls_retag.1 calls) first' ih

end

end HygienicMacros
