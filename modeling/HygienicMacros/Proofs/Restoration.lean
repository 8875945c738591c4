import Mathlib.Logic.Relation
import HygienicMacros.Catalogue
import HygienicMacros.Proofs.Computation

/-! # What an expansion leaves behind

`proceed` is one step of a transformer at work: it makes a request, gets the outcome (an error is an
outcome like any other) and goes on. `perform` takes these steps to the end, so every moment of a
transformer's work is reached by `Proceeds`.

However an expansion ends, and at every moment of a transformer's work on the way, the frames, the
mode, the hook, the registry, the limits and the label are those at the beginning, and tags and
applications have only been added (`visit_restores`).
-/

namespace HygienicMacros

variable {α : Type}

open Relation (ReflTransGen)

/-! ## A transformer at work -/

/-- What is left of an action after its first request, and the state then; nothing, if there is
no request. -/
def proceed (reenter : Mode → Value → Run Value) :
    Action α × Expander → Option (Action α × Expander)
  | (.answer _, _) | (.fail _, _) => none
  | (.expand mode v next, s) => some (next ((reenter mode v).on s).1, ((reenter mode v).on s).2)
  | (.freshTag next, s) => some (next s.tags.fresh.1, { s with tags := s.tags.fresh.2 })
  | (.observe next, s) => some (next s.observation, s)
  | (.register .own name pattern candidate next, s) =>
    some (next ((s.registry.register name pattern candidate).map fun _ => ()), s)
  | (.register .source name pattern candidate next, s) =>
    match s.source.register name pattern candidate with
    | .error e => some (next (.error e), s)
    | .ok (source, _) => some (next (.ok ()), { s with source := source })

/-- The action and the state after some requests. -/
def Proceeds (reenter : Mode → Value → Run Value) :
    Action α × Expander → Action α × Expander → Prop :=
  ReflTransGen fun p q => proceed reenter p = some q

section
variable {reenter : Mode → Value → Run Value} {p q : Action α × Expander}

theorem perform_proceed (h : proceed reenter p = some q) :
    (perform reenter p.1).on p.2 = (perform reenter q.1).on q.2 := by
  obtain ⟨x, s⟩ := p
  cases x with
  | answer a => cases h
  | fail e => cases h
  | expand mode v next =>
    cases h
    rw [perform, Run.on_bind_of_ok (on_attempt _ s)]
  | freshTag next =>
    cases h
    rw [perform, Run.on_bind_of_ok (on_freshTag s)]
  | observe next =>
    cases h
    rw [perform, Run.on_bind_of_ok (Run.on_get s)]
  | register site name pattern candidate next =>
    cases site with
    | own =>
      cases h
      rw [perform, Run.on_bind_of_ok (Run.on_get s)]
    | source =>
      rw [proceed] at h
      rw [perform, Run.on_bind_of_ok (Run.on_get s)]
      rcases hsource : s.source.register name pattern candidate with e | ⟨source, clause⟩ <;>
        rw [hsource] at h <;> cases h <;> rfl

/-- Where a transformer has got to decides how it ends. -/
theorem perform_proceeds (h : Proceeds reenter p q) :
    (perform reenter p.1).on p.2 = (perform reenter q.1).on q.2 := by
  induction h with
  | refl => rfl
  | tail _ hstep ih => rw [ih, perform_proceed hstep]

theorem later_proceed (hre : ∀ mode v, (reenter mode v).Steady)
    (h : proceed reenter p = some q) : p.2.Later q.2 := by
  obtain ⟨x, s⟩ := p
  cases x with
  | answer a => cases h
  | fail e => cases h
  | expand mode v next => cases h; exact hre mode v s
  | freshTag next => cases h; exact .fresh s
  | observe next => cases h; exact .refl s
  | register site name pattern candidate next =>
    cases site with
    | own => cases h; exact .refl s
    | source =>
      rw [proceed] at h
      split at h <;> cases h
      · exact .refl s
      · exact ⟨rfl, rfl, rfl, rfl, rfl, rfl, rfl, Nat.le_refl _, [], rfl⟩

theorem later_proceeds (hre : ∀ mode v, (reenter mode v).Steady) (h : Proceeds reenter p q) :
    p.2.Later q.2 := by
  induction h with
  | refl => exact .refl _
  | tail _ hstep ih => exact ih.trans (later_proceed hre hstep)

end

/-! ## Entries -/

/-- **However an expansion ends, the expander is as it was.** Whether an entry returns or fails, at
whatever depth, the frames, the mode, the hook, the registry, the depth limit and the label are
those at entry, and no tag or application is taken back. The same holds at every moment of a
transformer's work, so also after it was handed the error of an expansion that it asked for. -/
theorem visit_restores (s : Expander) (v : Value) :
    s.Later ((visitRecursively v).on s).2 ∧ s.Later ((visitOnce v).on s).2 ∧
      ∀ (room : Nat) (action action' : Action Value) (s' : Expander),
        Proceeds (enter room) (action, s) (action', s') → s.Later s' := by
  refine ⟨?_, ?_, fun room action action' s' h => later_proceeds (steady_enter room) h⟩
  · exact steady_enter s.budget.left .recursive v s
  · exact steady_enter s.budget.left .once v s

namespace Catalogue

/-- What a transformer does that expands a tree, and answers the tree itself if that fails. -/
def lenient (t : Tree) : Action Value :=
  .expand .recursive (.tree t) fun
    | .ok v => .answer v
    | .error _ => .answer (.tree t)

/-- A macro without end. -/
def endless : Registry :=
  (Registry.empty []).add "loop" (.arity 0) (.pure "loop" fun t => .ok (.tree (op "f" [t])))

theorem lenient_proceeds {room : Nat} {t : Tree} {s : Expander}
    (h : ∃ e, ((enter room .recursive (.tree t)).on s).1 = .error e) :
    Proceeds (enter room) (lenient t, s)
      (.answer (.tree t), ((enter room .recursive (.tree t)).on s).2) := by
  obtain ⟨e, h⟩ := h
  exact .single (by rw [lenient, proceed, h])

theorem loop_fails : ∃ e, ((enter 1 .recursive (.tree (op "loop" []))).on
    (.ofRegistry endless 1 Expander.standardLabel)).1 = .error e := ⟨_, rfl⟩

end Catalogue

open Catalogue in
theorem visit_restores_lenient : ∃ s',
    Proceeds (enter 1) (lenient (op "loop" []), .ofRegistry endless 1 Expander.standardLabel)
      (.answer (.tree (op "loop" [])), s') ∧
    (Expander.ofRegistry endless 1 Expander.standardLabel).Later s' :=
  have h := lenient_proceeds loop_fails
  ⟨_, h, (visit_restores _ (.tree (op "loop" []))).2.2 1 _ _ _ h⟩

end HygienicMacros
