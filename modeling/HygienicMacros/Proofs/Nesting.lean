import HygienicMacros.Proofs.Positions
import HygienicMacros.Proofs.Reports

/-! # Entries inside one another

A transformer may ask the expander for an expansion, whose transformers may ask for further ones.
An `Entry` is one such request, with the state in which it is made; `Entry.Requests` leads from an
entry to those that its own transformers make, and `Entry.Nests` to all entries of a run.

What is true of an entry is proved along the scan: `Entry.Comes.handsDown` takes it from the
trees of an entry to the macro calls that the entry comes to, through children and replacements,
whatever the transformers do.
-/

namespace HygienicMacros

open Relation (ReflTransGen)

/-! ## Along a scan -/

/-- `P k t s`, about a tree `t` scanned in the state `s` where `k` more expansions may be nested, is
handed down: it stays true while the run goes on, however much room is left on the stack, and passes
from a tree to its children and from a macro call to its replacement, one expansion deeper. -/
structure HandsDown (reenter : Mode → Value → Run Value) (P : Nat → Tree → Expander → Prop) :
    Prop where
  later : ∀ {k t s s'}, P k t s → s.Later s' → P k t s'
  budget : ∀ {k t s} b, P k t s → P k t { s with budget := b }
  child : ∀ {k t u s}, P k t s → u ∈ t.children → P k u s
  replaced : ∀ {k op args notes clause answer expansion s s₁ s₂},
    P (k + 1) (.call (.symbol op) args notes) s →
    s.registry.lookup op (args.map .tree) = .ok (some clause) →
    (applyClause reenter clause (.call (.symbol op) args notes)).on s = (.ok answer, s₁) →
    (settle clause (.call (.symbol op) args notes) notes answer).on s₁ = (.ok expansion, s₂) →
    P k expansion { s₂ with
      stack := s.frame.inside clause.name (.call (.symbol op) args notes) :: s₂.stack }

/-- What is handed down comes to every macro call that a scan meets. -/
theorem Meets.handsDown {reenter : Mode → Value → Run Value}
    (hre : ∀ mode v, (reenter mode v).Steady) {P : Nat → Tree → Expander → Prop}
    (hP : HandsDown reenter P) {k j : Nat} {ts : List Tree} {c : Tree} {s s' : Expander}
    (h : Meets reenter k ts s c j s') (hts : ∀ t ∈ ts, P k t s) : P j c s' := by
  induction h with
  | here hop => exact hts _ (.head _)
  | next first _ ih =>
    have hfirst := (steady_scan (steady_expandCall hre _) _).later first
    exact ih fun u hu => hP.later (hts u (.tail _ hu)) hfirst
  | part hop _ _ ih =>
    exact ih fun u hu => hP.budget _ (hP.later (hP.child (hts _ (.head _)) hu) (.phase _ _))
  | head _ _ ih =>
    have hchild := hP.child (hts _ (.head _)) (.head _)
    exact ih (List.forall_mem_singleton.2 (hP.budget _ (hP.later hchild (.phase _ _))))
  | operand head _ _ ih =>
    have hhead := (steady_during (steady_scan (steady_expandCall hre _) _) _).later head
    refine ih fun u hu => hP.budget _ (hP.later (hP.child (hts _ (.head _)) (.tail _ hu)) ?_)
    exact (Expander.Later.phase _ .scanning).trans hhead
  | @again k op args notes ts clause answer expansion s s₁ s₂ c j s' hop hlookup happly hsettle
      hmode _ _ ih =>
    have hmatched := hP.later (hts _ (.head _)) (.phase s .matched)
    exact ih (List.forall_mem_singleton.2 (hP.budget _
      (hP.replaced (s := { s with phase := .matched }) hmatched hlookup happly hsettle)))

/-- An answer is what the transformer's action comes to. -/
theorem applyClause_perform {reenter : Mode → Value → Run Value} {clause : Clause}
    {invocation answer : Tree} {s s' : Expander}
    (h : (applyClause reenter clause invocation).on s = (.ok answer, s')) :
    ∃ s₁, (perform reenter (clause.transformer.body invocation)).on
      (Expander.spend { s with calls := s.calls + 1 } .application) = (.ok (.tree answer), s₁) := by
  rw [on_applyClause] at h
  rcases hduring : (during .application (performTree reenter
    (clause.transformer.body invocation))).on { s with calls := s.calls + 1 } with ⟨e | t, s₁⟩ <;>
    rw [hduring] at h <;> cases h
  obtain ⟨s₂, hbody, -⟩ := during_ok hduring
  rw [performTree] at hbody
  obtain ⟨v, s₃, hperform, hbody⟩ := Run.on_bind_ok.1 hbody
  cases v with
  | tree t => cases hbody; exact ⟨_, hperform⟩
  | _ => cases hbody

/-! ## Values -/

theorem Value.mem_forestList {v : Value} : ∀ {vs : List Value}, (Value.forestList vs).2 = none →
    v ∈ vs → v.forest.2 = none ∧ ∀ t ∈ v.forest.1, t ∈ (Value.forestList vs).1
  | u :: vs, hnone, hv => by
    rw [forestList] at hnone ⊢
    rcases hu : u.forest with ⟨trees, _ | e⟩ <;> rw [hu] at hnone
    · dsimp only at hnone ⊢
      rcases List.mem_cons.1 hv with rfl | hv
      · rw [hu]
        exact ⟨rfl, fun t ht => List.mem_append_left _ ht⟩
      · obtain ⟨hvnone, hmem⟩ := mem_forestList hnone hv
        exact ⟨hvnone, fun t ht => List.mem_append_right _ (hmem t ht)⟩
    · cases hnone

/-- The items of a list are scanned one after the other. -/
theorem MeetsIn.handsDown {reenter : Mode → Value → Run Value}
    (hre : ∀ mode v, (reenter mode v).Steady) {P : Nat → Tree → Expander → Prop}
    (hP : HandsDown reenter P) {k j : Nat} {v : Value} {c : Tree} {s s' : Expander}
    (h : MeetsIn reenter k v s c j s') (hnone : v.forest.2 = none)
    (hv : ∀ t ∈ v.forest.1, P k t s) : P j c s' := by
  induction h with
  | tree meets => exact meets.handsDown hre hP hv
  | @item before v after rs s₂ s₃ c j s' _ first _ ih =>
    have hfirst := (steady_scanValues (steady_expandCall hre _) _).later first
    have hitems : (Value.forestList (before ++ v :: after)).2 = none := hnone
    obtain ⟨hvnone, hmem⟩ := Value.mem_forestList hitems (List.mem_append_right _ (.head _))
    exact ih hvnone fun t ht => hP.later (hP.budget _ (hv t (hmem t ht))) hfirst

/-- An entry begins with trees that have no open scopes. -/
theorem prepare_forest {v : Value} {s s' : Expander} (h : (prepare v).on s = (.ok (), s')) :
    v.forest.2 = none ∧ ∀ t ∈ v.forest.1, t.openNodes = [] := by
  rw [prepare, Run.on_bind_of_ok (Run.on_get s)] at h
  dsimp only at h
  split at h
  · split at h
    · cases h
    · cases h
    · rename_i hmisfit hopen
      exact ⟨hmisfit, List.flatMap_eq_nil_iff.1 hopen⟩
  · cases h

/-! ## Entries -/

/-- An entry into the expander: what was to be expanded how, in which state, and with what room for
entries inside one another. -/
structure Entry where
  room : Nat
  mode : Mode
  value : Value
  state : Expander

namespace Entry

/-- How the entry ends. -/
def outcome (e : Entry) : Except Error Value × Expander :=
  (enter e.room e.mode e.value).on e.state

/-- The entry from outside. -/
def visit (mode : Mode) (v : Value) (s : Expander) : Entry := ⟨s.budget.left, mode, v, s⟩

theorem outcome_visit (mode : Mode) (v : Value) (s : Expander) :
    (visit mode v s).outcome = (visitIn mode v).on s := (on_visitIn mode v s).symm

/-- `Comes e c j s'`: the entry comes to the macro call `c`, where `j` more expansions may be
nested, in the state `s'`. -/
inductive Comes : Entry → Tree → Nat → Expander → Prop
  | intro {room mode v s c j s'} (enters : Enters room mode v s c j s') :
      Comes ⟨room + 1, mode, v, s⟩ c j s'

/-- `Reaches e a x s'`: at some moment, in the state `s'`, the transformer of the application `a`,
which the entry makes, still has to do `x`. -/
inductive Reaches : Entry → Application → Action Value → Expander → Prop
  | intro {room mode v s a s₁ x s'} (begins : Begins room mode v s a s₁)
      (proceeds : Proceeds (enter room) (a.action, s₁) (x, s')) :
      Reaches ⟨room + 1, mode, v, s⟩ a x s'

/-- The entries that the transformers of an entry make. -/
inductive Requests : Entry → Entry → Prop
  | intro {room mode v s a mode' v' next s'}
      (asks : Reaches ⟨room + 1, mode, v, s⟩ a (.expand mode' v' next) s') :
      Requests ⟨room + 1, mode, v, s⟩ ⟨room, mode', v', s'⟩

/-- An entry, and all entries inside it. -/
def Nests : Entry → Entry → Prop := ReflTransGen Requests

section
variable {e e' : Entry} {a : Application} {c : Tree} {j : Nat} {x : Action Value} {s' : Expander}

/-- An application is made of a macro call that the entry comes to and a clause takes. -/
theorem Reaches.comes (h : e.Reaches a x s') : ∃ j s₁, e.Comes a.invocation (j + 1) s₁ ∧
    e.state.registry.Takes a.invocation a.clause ∧
    Expander.Later (Expander.spend { s₁ with phase := .matched, calls := s₁.calls + 1 }
      .application) s' := by
  obtain ⟨⟨enters, lookup, -⟩, proceeds⟩ := h
  exact ⟨_, _, ⟨enters⟩, ⟨lookup⟩, later_proceeds (steady_enter _) proceeds⟩

theorem Comes.akin (h : e.Comes c j s') : e.state.Akin s' := by
  obtain ⟨enters⟩ := h
  exact enters.akin

theorem Reaches.akin (h : e.Reaches a x s') : e.state.Akin s' := by
  obtain ⟨begins, proceeds⟩ := h
  exact begins.akin.trans (later_proceeds (steady_enter _) proceeds).akin

theorem Nests.akin (h : e.Nests e') : e.state.Akin e'.state := by
  induction h with
  | refl => exact ⟨rfl, rfl, rfl⟩
  | tail _ hstep ih =>
    obtain ⟨asks⟩ := hstep
    exact ih.trans asks.akin

/-- What holds of the trees of an entry, and is handed down, comes to every macro call that the
entry comes to. -/
theorem Comes.handsDown {P : Nat → Tree → Expander → Prop}
    (hP : ∀ room < e.room, HandsDown (enter room) P)
    (begins : ∀ {s₁ t}, (prepare e.value).on (e.state.spend .entry) = (.ok (), s₁) →
      t ∈ e.value.forest.1 →
      P s₁.remaining t { s₁ with recursive := e.mode == .recursive })
    (h : e.Comes c j s') : P j c s' := by
  obtain ⟨-, s₁, hprepare, hmeets⟩ := h
  rename_i room mode v s
  exact hmeets.handsDown (steady_enter room) (hP room (Nat.lt_succ_self room))
    (prepare_forest hprepare).1 fun t ht => begins hprepare ht

end

end Entry

end HygienicMacros
