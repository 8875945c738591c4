import Mathlib.Data.List.Lex
import Mathlib.Data.Set.Finite.Basic
import Mathlib.Order.Preorder.Finite
import HygienicMacros.Proofs.Drawing

/-! # Which source line is found

The line of a tree is looked for in the order of positions: a call before its operator, the operator
before the arguments. A call may note an empty line, and the search ends there with nothing, so that
the lines inside such a call are not seen. What is found is the first line among the others.

* `Tree.LineAt`: the lines of a tree, by position.
* `Tree.exposed`: the positions that are not inside a call with an empty line.
* `Tree.FirstLine`: the first line at some positions, or nothing if there is none.
* `line_firstExposed`: the line found is the first exposed one, and when it is the first of all.
-/

namespace HygienicMacros.Tree

/-! ## Lines by position -/

/-- The line noted for this very node, which may be empty. -/
def notedLine? : Tree → Option Value
  | .call _ _ notes => Notes.find? Notes.lineKey notes
  | _ => none

/-- The call at position `p` notes the line `v`, and the line is not empty. -/
def LineAt (t : Tree) (p : List Nat) (v : Value) : Prop :=
  (t.subtree? p).bind notedLine? = some v ∧ v ≠ .nothing

/-- The positions that are not inside a call with an empty line. -/
def exposed (t : Tree) : Set (List Nat) :=
  {p | ∀ q, q <+: p → (t.subtree? q).bind notedLine? = some .nothing → q = p}

/-- `v` is the first line at the positions in `S`, and is noted at `p`. -/
structure FirstLineAt (t : Tree) (S : Set (List Nat)) (p : List Nat) (v : Value) : Prop where
  mem : p ∈ S
  line : t.LineAt p v
  first : ∀ q w, q ∈ S → q < p → ¬ t.LineAt q w

/-- `v` is the first line at the positions in `S`, or nothing if there is no line at any of them. -/
structure FirstLine (t : Tree) (S : Set (List Nat)) (v : Value) : Prop where
  nothing_iff : v = .nothing ↔ ∀ p ∈ S, ∀ w, ¬ t.LineAt p w
  first : v ≠ .nothing → ∃ p, t.FirstLineAt S p v

section
variable {t c : Tree} {S : Set (List Nat)} {i : Nat} {p q : List Nat} {v w : Value}

theorem lineAt_cons (hc : t.children[i]? = some c) : t.LineAt (i :: p) v ↔ c.LineAt p v := by
  rw [LineAt, subtree?, hc, Option.bind_some, LineAt]

theorem LineAt.isSome (h : t.LineAt p v) : (t.subtree? p).isSome := by
  obtain ⟨u, hu, -⟩ := Option.bind_eq_some_iff.1 h.1
  exact Option.isSome_of_eq_some hu

theorem LineAt.child (h : t.LineAt (i :: p) v) : ∃ c, t.children[i]? = some c ∧ c.LineAt p v := by
  obtain ⟨u, hu⟩ := Option.isSome_iff_exists.1 h.isSome
  obtain ⟨c, hc, -⟩ := Option.bind_eq_some_iff.1 hu
  exact ⟨c, hc, (lineAt_cons hc).1 h⟩

theorem nil_mem_exposed : [] ∈ t.exposed := fun _ hq _ => List.prefix_nil.1 hq

theorem cons_mem_exposed (hc : t.children[i]? = some c) :
    i :: p ∈ t.exposed ↔ t.notedLine? ≠ some .nothing ∧ p ∈ c.exposed := by
  constructor
  · intro h
    refine ⟨fun hempty => ?_, fun q hq hempty => ?_⟩
    · exact List.cons_ne_nil i p (h [] List.nil_prefix hempty).symm
    · have hcons := h (i :: q) ((List.prefix_cons_inj i).2 hq)
      rw [subtree?, hc] at hcons
      exact (List.cons.inj (hcons hempty)).2
  · rintro ⟨hnoted, hp⟩ q hq hempty
    rcases List.prefix_cons_iff.1 hq with rfl | ⟨r, rfl, hr⟩
    · exact absurd hempty hnoted
    · rw [subtree?, hc] at hempty
      rw [hp r hr hempty]

/-! ## First lines -/

theorem firstLine_iff : t.FirstLine S v ↔
    (v = .nothing ∧ ∀ p ∈ S, ∀ w, ¬ t.LineAt p w) ∨ ∃ p, t.FirstLineAt S p v := by
  constructor
  · intro h
    by_cases hv : v = .nothing
    · exact .inl ⟨hv, h.nothing_iff.1 hv⟩
    · exact .inr (h.first hv)
  · rintro (⟨rfl, hnone⟩ | ⟨p, hp⟩)
    · exact ⟨iff_of_true rfl hnone, fun h => absurd rfl h⟩
    · exact ⟨iff_of_false hp.line.2 fun hnone => hnone p hp.mem v hp.line, fun _ => ⟨p, hp⟩⟩

theorem FirstLineAt.unique (h : t.FirstLineAt S p v) (h' : t.FirstLineAt S q w) : v = w := by
  rcases lt_trichotomy p q with hlt | rfl | hlt
  · exact absurd h.line (h'.first p v h.mem hlt)
  · exact Option.some.inj (h.line.1.symm.trans h'.line.1)
  · exact absurd h'.line (h.first q w h'.mem hlt)

theorem FirstLineAt.firstLine_iff (h : t.FirstLineAt S p w) : t.FirstLine S v ↔ v = w := by
  constructor
  · intro hv
    have hne : v ≠ .nothing := fun hnothing => hv.nothing_iff.1 hnothing p h.mem w h.line
    obtain ⟨q, hq⟩ := hv.first hne
    exact hq.unique h
  · rintro rfl
    exact Tree.firstLine_iff.2 (.inr ⟨p, h⟩)

/-- Where there is a line, there is a first one: a tree has finitely many positions. -/
theorem LineAt.exists_first (hp : p ∈ S) (h : t.LineAt p v) : ∃ q w, t.FirstLineAt S q w := by
  have hfinite : {q | q ∈ S ∧ ∃ w, t.LineAt q w}.Finite := by
    refine t.positions.finite_toSet.subset ?_
    rintro q ⟨-, w, hw⟩
    exact mem_positions.2 hw.isSome
  obtain ⟨q, ⟨hq, w, hw⟩, hmin⟩ := hfinite.exists_minimal ⟨p, hp, v, h⟩
  refine ⟨q, w, hq, hw, fun r u hr hlt hru => ?_⟩
  exact not_le_of_gt hlt (hmin ⟨hr, u, hru⟩ (le_of_lt hlt))

end

/-! ## The search -/

theorem line_eq (t : Tree) : t.line = t.notedLine?.getD (lineList t.children) := by
  rcases t with _ | ⟨_ | f, args, notes⟩ | _ | _ | ⟨_, _ | body⟩ | _
  case call.symbol =>
    rw [line, notedLine?]
    cases Notes.find? Notes.lineKey notes <;> rfl
  case call.tree =>
    rw [line, notedLine?]
    cases Notes.find? Notes.lineKey notes <;> rfl
  case marker.some =>
    show body.line = lineList [body]
    rw [lineList]
    split
    · assumption
    · rfl
  all_goals rfl

/-- The first child with a line decides. -/
theorem lineList_cases (ts : List Tree) :
    (lineList ts = .nothing ∧ ∀ c ∈ ts, c.line = .nothing) ∨
    ∃ (i : Nat) (c : Tree), ts[i]? = some c ∧ c.line ≠ .nothing ∧ lineList ts = c.line ∧
      ∀ (j : Nat) (d : Tree), j < i → ts[j]? = some d → d.line = .nothing := by
  induction ts with
  | nil => exact .inl ⟨rfl, List.forall_mem_nil _⟩
  | cons t ts ih =>
    by_cases ht : t.line = .nothing
    · have hrest : lineList (t :: ts) = lineList ts := by rw [lineList, ht]
      rw [hrest]
      rcases ih with ⟨hnothing, hall⟩ | ⟨i, c, hc, hne, heq, hbefore⟩
      · exact .inl ⟨hnothing, List.forall_mem_cons.2 ⟨ht, hall⟩⟩
      · refine .inr ⟨i + 1, c, hc, hne, heq, fun j d hj hd => ?_⟩
        cases j with
        | zero =>
          cases hd
          exact ht
        | succ j => exact hbefore j d (Nat.lt_of_succ_lt_succ hj) hd
    · refine .inr ⟨0, t, rfl, ht, ?_, fun j d hj => absurd hj j.not_lt_zero⟩
      rw [lineList]
      split
      · contradiction
      · rfl

section
variable {t : Tree}

/-- A call with a line of its own is the first line, and one with an empty line hides all others. -/
theorem firstLine_noted {v : Value} (h : t.notedLine? = some v) : t.FirstLine t.exposed v := by
  rw [firstLine_iff]
  by_cases hv : v = .nothing
  · subst hv
    refine .inl ⟨rfl, fun p hp w hw => ?_⟩
    cases p with
    | nil => exact hw.2 (Option.some.inj (hw.1.symm.trans h))
    | cons i p =>
      obtain ⟨c, hc, -⟩ := hw.child
      exact ((cons_mem_exposed hc).1 hp).1 h
  · exact .inr ⟨[], nil_mem_exposed, ⟨h, hv⟩, fun q _ _ hlt => absurd hlt (List.not_lt_nil q)⟩

/-- Without a line of its own, a node has the first exposed line of its children. -/
theorem firstLine_children (h : t.notedLine? = none)
    (ih : ∀ c ∈ t.children, c.FirstLine c.exposed c.line) :
    t.FirstLine t.exposed (lineList t.children) := by
  have hnil : ∀ w, ¬ t.LineAt [] w := fun w hw => Option.some_ne_none w (hw.1.symm.trans h)
  -- a line below child `i` is one of that child
  have hbelow : ∀ {i p w}, i :: p ∈ t.exposed → t.LineAt (i :: p) w →
      ∃ c ∈ t.children, t.children[i]? = some c ∧ p ∈ c.exposed ∧ c.LineAt p w := by
    intro i p w hp hw
    obtain ⟨c, hc, hw⟩ := hw.child
    exact ⟨c, List.mem_of_getElem? hc, hc, ((cons_mem_exposed hc).1 hp).2, hw⟩
  rw [firstLine_iff]
  rcases lineList_cases t.children with ⟨hnothing, hall⟩ | ⟨i, c, hc, hne, heq, hbefore⟩
  · refine .inl ⟨hnothing, fun p hp w hw => ?_⟩
    cases p with
    | nil => exact hnil w hw
    | cons i p =>
      obtain ⟨c, hmem, -, hp, hw⟩ := hbelow hp hw
      exact (ih c hmem).nothing_iff.1 (hall c hmem) p hp w hw
  · obtain ⟨p, hp⟩ := (ih c (List.mem_of_getElem? hc)).first hne
    have hnoted : t.notedLine? ≠ some .nothing := by simp [h]
    rw [heq]
    refine .inr ⟨i :: p, (cons_mem_exposed hc).2 ⟨hnoted, hp.mem⟩, (lineAt_cons hc).2 hp.line, ?_⟩
    intro q w hq hlt hw
    cases q with
    | nil => exact hnil w hw
    | cons j q =>
      obtain ⟨d, hmem, hd, hq, hw⟩ := hbelow hq hw
      rcases List.cons_lt_cons_iff.1 hlt with hj | ⟨rfl, hqp⟩
      · exact (ih d hmem).nothing_iff.1 (hbefore j d hj hd) q hq w hw
      · obtain rfl : c = d := Option.some.inj (hc.symm.trans hd)
        exact hp.first q w hq hqp hw

theorem firstLine_exposed (t : Tree) : t.FirstLine t.exposed t.line := by
  induction t using induct_children with
  | h t ih =>
    rw [line_eq]
    cases hnoted : t.notedLine? with
    | some v => exact firstLine_noted hnoted
    | none => exact firstLine_children hnoted ih

/-- The first exposed line is the first of all unless that one is hidden and noted otherwise. -/
theorem FirstLine.univ_iff {v : Value} (h : t.FirstLine t.exposed v) :
    t.FirstLine Set.univ v ↔ ∀ p w, t.FirstLineAt Set.univ p w → p ∉ t.exposed →
      ∃ q, t.FirstLineAt t.exposed q w := by
  by_cases hline : ∃ p w, t.LineAt p w
  · obtain ⟨p, w, hw⟩ := hline
    obtain ⟨p, w, hp⟩ := hw.exists_first (Set.mem_univ p)
    rw [hp.firstLine_iff]
    constructor
    · rintro rfl q u hq -
      rw [← hp.unique hq]
      exact h.first hp.line.2
    · intro hagree
      by_cases hmem : p ∈ t.exposed
      · have hfirst : t.FirstLineAt t.exposed p w :=
          ⟨hmem, hp.line, fun q u _ => hp.first q u (Set.mem_univ q)⟩
        exact hfirst.firstLine_iff.1 h
      · obtain ⟨q, hq⟩ := hagree p w hp hmem
        exact hq.firstLine_iff.1 h
  · have hnone : ∀ p w, ¬ t.LineAt p w := fun p w hw => hline ⟨p, w, hw⟩
    refine iff_of_true ?_ fun p w hp => absurd hp.line (hnone p w)
    exact firstLine_iff.2 (.inl ⟨h.nothing_iff.2 fun p _ => hnone p, fun p _ => hnone p⟩)

end

end Tree

/-- **The line of a tree is its first exposed one.** Nothing is found exactly if every line is inside
a call with an empty line, and otherwise the first line, in scan order, that is not. This is the
first line of all as long as that one is exposed; if it is not, only where the first exposed line is
noted as the same value. -/
theorem line_firstExposed (t : Tree) : ∃ v, (Value.tree t).line = .ok v ∧
    t.FirstLine t.exposed v ∧
    (t.FirstLine Set.univ v ↔ ∀ p w, t.FirstLineAt Set.univ p w → p ∉ t.exposed →
      ∃ q, t.FirstLineAt t.exposed q w) :=
  ⟨t.line, rfl, t.firstLine_exposed, t.firstLine_exposed.univ_iff⟩

/-- A call with an empty line around one with a line. -/
def overlooked : Tree :=
  .call (.symbol "f") [.call (.symbol "g") [] [(.text Notes.lineKey, .int 7)]]
    [(.text Notes.lineKey, .nothing)]

/-- A line inside a call with an empty line is not found, even if there is no other. -/
theorem line_overlooked : (Value.tree overlooked).line = .ok .nothing ∧
    overlooked.LineAt [0] (.int 7) ∧ ¬ overlooked.FirstLine Set.univ .nothing := by
  have hline : overlooked.LineAt [0] (.int 7) := ⟨rfl, by simp⟩
  exact ⟨rfl, hline, fun h => h.nothing_iff.1 rfl [0] (Set.mem_univ _) (.int 7) hline⟩

end HygienicMacros
