import Mathlib.Data.List.Basic
import HygienicMacros.Proofs.Marks

/-! # Positions in a tree

A position is a list of child indices, from the root down: an operator that is a tree is child 0 of
its call and the arguments follow, and the body of a marker is its only child.

* `Tree.subtree?`: the tree at a position. The nodes of a tree are the trees at its positions
  (`mem_nodes_iff`), and an operation that goes from children to children moves nothing
  (`subtree?_map`).
* `Tree.SameShape`: two trees that differ in their names only.
* `Tree.weightTo`: the weights of the nodes from the root down to a position, added up.
-/

namespace HygienicMacros.Tree

/-- Induction from the children of a tree to the tree. -/
theorem induct_children {P : Tree → Prop} (h : ∀ t, (∀ c ∈ t.children, P c) → P t) (t : Tree) :
    P t := by
  induction t using Tree.induct with
  | literal d => exact h _ (List.forall_mem_nil P)
  | call op args notes ih => exact h _ ih
  | apply f args notes ihf ih => exact h _ (List.forall_mem_cons.2 ⟨ihf, ih⟩)
  | placeholder target => exact h _ (List.forall_mem_nil P)
  | name ident scope => exact h _ (List.forall_mem_nil P)
  | bare kind => exact h _ (List.forall_mem_nil P)
  | marker kind body ih => exact h _ (List.forall_mem_singleton.2 ih)
  | unhygienic ident =>
    exact h _ (List.forall_mem_singleton.2 (h (.name ident .source) (List.forall_mem_nil P)))

/-! ## The tree at a position -/

/-- The tree at a position; none if the position leaves the tree. -/
def subtree? (t : Tree) : List Nat → Option Tree
  | [] => some t
  | i :: p => t.children[i]?.bind fun c => c.subtree? p

theorem nodes_eq (t : Tree) : t.nodes = t :: t.children.flatMap nodes := by
  rcases t with _ | ⟨_ | _, _, _⟩ | _ | _ | ⟨_, _ | _⟩ | _ <;> simp [nodes, children, nodesList_eq]

/-- The nodes of a tree are the trees at its positions. -/
theorem mem_nodes_iff {t u : Tree} : u ∈ t.nodes ↔ ∃ p, t.subtree? p = some u := by
  induction t using induct_children with
  | h t ih =>
    rw [nodes_eq, List.mem_cons, List.mem_flatMap]
    constructor
    · rintro (rfl | ⟨c, hc, hu⟩)
      · exact ⟨[], rfl⟩
      · obtain ⟨i, hi⟩ := List.mem_iff_getElem?.1 hc
        obtain ⟨p, hp⟩ := (ih c hc).1 hu
        exact ⟨i :: p, by simp only [subtree?, hi, Option.bind_some, hp]⟩
    · rintro ⟨_ | ⟨i, p⟩, hp⟩
      · exact .inl (Option.some.inj hp).symm
      · obtain ⟨c, hi, hp⟩ := Option.bind_eq_some_iff.1 hp
        have hc := List.mem_of_getElem? hi
        exact .inr ⟨c, hc, (ih c hc).2 ⟨p, hp⟩⟩

/-! ## Nodes of nodes -/

theorem mem_nodes_self (t : Tree) : t ∈ t.nodes := by
  rw [nodes_eq]
  exact .head _

theorem mem_nodes_of_child {t u v : Tree} (hu : u ∈ t.children) (hv : v ∈ u.nodes) :
    v ∈ t.nodes := by
  rw [nodes_eq]
  exact .tail _ (List.mem_flatMap.2 ⟨u, hu, hv⟩)

theorem mem_nodes_trans {t u v : Tree} (hu : u ∈ t.nodes) (hv : v ∈ u.nodes) : v ∈ t.nodes := by
  induction t using induct_children with
  | h t ih =>
    rw [nodes_eq, List.mem_cons, List.mem_flatMap] at hu
    rcases hu with rfl | ⟨c, hc, hu⟩
    · exact hv
    · exact mem_nodes_of_child hc (ih c hc hu)

theorem openNodes_of_mem {t u : Tree} (h : t.openNodes = []) (hu : u ∈ t.nodes) :
    u.openNodes = [] := by
  rw [openNodes, List.filter_eq_nil_iff] at h ⊢
  exact fun v hv => h v (mem_nodes_trans hu hv)

/-- An operation that takes the children of a tree to the children of its outcome moves nothing. -/
theorem subtree?_map {F : Tree → Tree} (hF : ∀ t, (F t).children = t.children.map F) (t : Tree)
    (p : List Nat) : (F t).subtree? p = (t.subtree? p).map F := by
  induction p generalizing t with
  | nil => rfl
  | cons i p ih =>
    simp only [subtree?, hF, List.getElem?_map]
    cases t.children[i]? with
    | none => rfl
    | some c => exact ih c

theorem children_mapScopes {f : Scope → Scope} {g : Notes → Notes} (hf : f .source = .source)
    (t : Tree) : (t.mapScopes f g).children = t.children.map (mapScopes f g) := by
  rcases t with _ | ⟨_ | _, _, _⟩ | _ | _ | ⟨_, _ | _⟩ | _ <;>
    simp [mapScopes, mapScopesList_eq, children, hf]

/-- Resolving a tree moves nothing. -/
theorem subtree?_resolve (tag : Tag) (caller : Option Tag) (t : Tree) (p : List Nat) :
    (t.resolve tag caller).subtree? p = (t.subtree? p).map (resolve tag caller) := by
  refine subtree?_map (fun t => ?_) t p
  have hresolve : resolve tag caller = mapScopes (Scope.resolve tag caller) (Notes.resolve tag) :=
    funext (resolve_eq tag caller)
  rw [hresolve]
  exact children_mapScopes rfl t

/-! ## Shapes -/

/-- What a node is apart from its children: everything but the spelling and the scope of a name.
A call has no operator symbol if its operator is a tree. -/
inductive Label where
  | literal (datum : Datum)
  | call (op : Option String) (notes : Notes)
  | placeholder (target : String)
  | name
  | marker (kind : MarkerKind)
  | unhygienic (ident : String)

/-- The label of the root. -/
def rootLabel : Tree → Label
  | .literal d => .literal d
  | .call (.symbol op) _ notes => .call (some op) notes
  | .call (.tree _) _ notes => .call none notes
  | .placeholder target => .placeholder target
  | .name _ _ => .name
  | .marker kind _ => .marker kind
  | .unhygienic ident => .unhygienic ident

/-- The same positions, with the same operators, literals, placeholders, markers and notes. -/
def SameShape (t u : Tree) : Prop :=
  ∀ p, (u.subtree? p).map rootLabel = (t.subtree? p).map rootLabel

/-! ## Weights -/

/-- The weights of the nodes from the root down to a position, as far as it stays in the tree. -/
def weightTo (weight : Tree → Nat) (t : Tree) : List Nat → Nat
  | [] => weight t
  | i :: p => weight t + match t.children[i]? with
    | some c => c.weightTo weight p
    | none => 0

/-- On no way down the weights of the nodes add up to more than `d`. -/
def Within (weight : Tree → Nat) (d : Nat) (t : Tree) : Prop := ∀ p, t.weightTo weight p ≤ d

theorem within_iff {weight : Tree → Nat} {d : Nat} {t : Tree} :
    t.Within weight d ↔ weight t ≤ d ∧ ∀ c ∈ t.children, c.Within weight (d - weight t) := by
  constructor
  · intro h
    have hroot : weight t ≤ d := h []
    refine ⟨hroot, fun c hc p => ?_⟩
    obtain ⟨i, hi⟩ := List.mem_iff_getElem?.1 hc
    have := h (i :: p)
    simp only [weightTo, hi] at this
    omega
  · rintro ⟨hroot, h⟩ (_ | ⟨i, p⟩)
    · exact hroot
    · rw [weightTo]
      cases hi : t.children[i]? with
      | none => exact hroot
      | some c =>
        have := h c (List.mem_of_getElem? hi) p
        dsimp only
        omega

end HygienicMacros.Tree
