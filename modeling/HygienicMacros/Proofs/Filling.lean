import Mathlib.Data.List.Basic
import HygienicMacros.Template.Substitute
import HygienicMacros.Proofs.Positions

/-! # Trees with places to fill

The placeholders of a tree are places into which other trees can be put. `Tree.plug` puts a tree
into each of them, chosen by its target, as a substitution should: two in a row are one
(`plug_plug`), a placeholder for itself changes nothing (`plug_placeholder`), and only the targets
that occur are asked for (`plug_congr`). What was put in stands where the placeholder stood
(`subtree?_plug`, `targets_plug`), and open scopes are resolved in the tree and in what was put in
(`resolve_plug`).

Substitution is this function if every target has a value, and else an error for the first target
without one: `Tree.substitute_eq`, where `Substitution.provided` is the case distinction.
-/

namespace HygienicMacros

namespace Tree

/-! ## Targets -/

theorem targets_of_inner {t : Tree} (h : t.target? = none) :
    t.targets = t.children.flatMap targets := by
  rw [targets, nodes_eq, List.filterMap_cons_none h, List.filterMap_flatMap]
  rfl

@[simp] theorem targets_literal (d : Datum) : (literal d).targets = [] := rfl

@[simp] theorem targets_call (op : String) (args : List Tree) (notes : Notes) :
    (call (.symbol op) args notes).targets = args.flatMap targets := targets_of_inner rfl

@[simp] theorem targets_apply (f : Tree) (args : List Tree) (notes : Notes) :
    (call (.tree f) args notes).targets = f.targets ++ args.flatMap targets := targets_of_inner rfl

@[simp] theorem targets_placeholder (target : String) :
    (placeholder target).targets = [target] := rfl

@[simp] theorem targets_name (ident : String) (scope : Scope) :
    (name ident scope).targets = [] := rfl

@[simp] theorem targets_bare (kind : MarkerKind) : (marker kind none).targets = [] := rfl

@[simp] theorem targets_marker (kind : MarkerKind) (body : Tree) :
    (marker kind (some body)).targets = body.targets := by
  rw [targets_of_inner rfl]
  exact List.flatMap_singleton targets body

@[simp] theorem targets_unhygienic (ident : String) : (unhygienic ident).targets = [] := rfl

/-- The placeholders of a tree are those for its targets. -/
theorem placeholders_eq (t : Tree) : t.placeholders = t.targets.map placeholder := by
  unfold placeholders targets
  induction t.nodes with
  | nil => rfl
  | cons u us ih =>
    cases u with
    | placeholder target => exact congrArg (placeholder target :: ·) ih
    | _ => exact ih

/-- Resolving a tree leaves its placeholders. -/
theorem targets_resolve (tag : Tag) (caller : Option Tag) (t : Tree) :
    (t.resolve tag caller).targets = t.targets := by
  rw [resolve_eq, targets, nodes_mapScopes rfl, List.filterMap_map, targets]
  congr 1
  funext u
  rcases u with _ | ⟨_ | _, _, _⟩ | _ | _ | ⟨_, _ | _⟩ | _ <;> rfl

/-! ## Putting trees in -/

mutual

/-- The tree with every placeholder replaced by the tree that `σ` has for its target. -/
@[grind =] def plug (σ : String → Tree) : Tree → Tree
  | .literal d => .literal d
  | .call (.symbol op) args notes => .call (.symbol op) (plugList σ args) notes
  | .call (.tree f) args notes => .call (.tree (f.plug σ)) (plugList σ args) notes
  | .placeholder target => σ target
  | .name ident scope => .name ident scope
  | .marker kind none => .marker kind none
  | .marker kind (some body) => .marker kind (some (body.plug σ))
  | .unhygienic ident => .unhygienic ident

/-- The trees with every placeholder replaced. -/
@[grind =] def plugList (σ : String → Tree) : List Tree → List Tree
  | [] => []
  | t :: ts => t.plug σ :: plugList σ ts

end

variable {σ τ : String → Tree}

theorem plugList_eq (ts : List Tree) : plugList σ ts = ts.map (plug σ) := by
  induction ts with
  | nil => rfl
  | cons t ts ih => rw [plugList, ih, List.map_cons]

@[simp] theorem plug_call (op : String) (args : List Tree) (notes : Notes) :
    (call (.symbol op) args notes).plug σ = call (.symbol op) (args.map (plug σ)) notes := by
  rw [plug, plugList_eq]

@[simp] theorem plug_apply (f : Tree) (args : List Tree) (notes : Notes) :
    (call (.tree f) args notes).plug σ = call (.tree (f.plug σ)) (args.map (plug σ)) notes := by
  rw [plug, plugList_eq]

/-- Only the targets that occur are asked for. -/
theorem plug_congr {t : Tree} (h : ∀ target ∈ t.targets, σ target = τ target) :
    t.plug σ = t.plug τ := by
  induction t using Tree.induct with
  | call op args notes ih =>
    rw [targets_call, List.forall_mem_flatMap] at h
    rw [plug_call, plug_call, List.map_congr_left fun a ha => ih a ha (h a ha)]
  | apply f args notes ihf ih =>
    rw [targets_apply, List.forall_mem_append, List.forall_mem_flatMap] at h
    rw [plug_apply, plug_apply, ihf h.1, List.map_congr_left fun a ha => ih a ha (h.2 a ha)]
  | placeholder target => exact h target (.head _)
  | marker kind body ih =>
    rw [targets_marker] at h
    rw [plug, plug, ih h]
  | _ => rfl

/-- A placeholder for itself changes nothing. -/
theorem plug_placeholder (t : Tree) : t.plug placeholder = t := by
  induction t using Tree.induct with
  | call op args notes ih => rw [plug_call, List.map_congr_left ih, List.map_id']
  | apply f args notes ihf ih => rw [plug_apply, ihf, List.map_congr_left ih, List.map_id']
  | marker kind body ih => rw [plug, ih]
  | _ => rfl

/-- What was put in is filled in its turn, whether before or afterwards. -/
theorem plug_plug (t : Tree) : (t.plug σ).plug τ = t.plug fun target => (σ target).plug τ := by
  induction t using Tree.induct with
  | call op args notes ih =>
    rw [plug_call, plug_call, plug_call, List.map_map, ← List.map_congr_left ih]
    rfl
  | apply f args notes ihf ih =>
    rw [plug_apply, plug_apply, plug_apply, List.map_map, ihf, ← List.map_congr_left ih]
    rfl
  | marker kind body ih => rw [plug, plug, plug, ih]
  | _ => rfl

/-- Each placeholder is replaced by the placeholders of what is put in. -/
theorem targets_plug (t : Tree) :
    (t.plug σ).targets = t.targets.flatMap fun target => (σ target).targets := by
  have list : ∀ ts : List Tree,
      (∀ t ∈ ts, (t.plug σ).targets = t.targets.flatMap fun target => (σ target).targets) →
      (ts.map (plug σ)).flatMap targets =
        (ts.flatMap targets).flatMap fun target => (σ target).targets := by
    intro ts h
    rw [List.flatMap_map, List.flatMap_assoc]
    exact List.flatMap_congr h
  induction t using Tree.induct with
  | call op args notes ih => rw [plug_call, targets_call, targets_call, list args ih]
  | apply f args notes ihf ih =>
    rw [plug_apply, targets_apply, targets_apply, List.flatMap_append, list args ih, ihf]
  | placeholder target => simp [plug]
  | marker kind body ih => rw [plug, targets_marker, targets_marker, ih]
  | _ => rfl

/-- The marks of a filled tree are its own and those of what is put in. -/
theorem mem_marks_plug {x : Mark} {t : Tree} :
    x ∈ (t.plug σ).marks ↔ x ∈ t.marks ∨ ∃ target ∈ t.targets, x ∈ (σ target).marks := by
  induction t using Tree.induct with
  | call op args notes ih =>
    simp only [plug_call, marks_call, targets_call, List.mem_cons, List.mem_flatMap, List.mem_map]
    grind
  | apply f args notes ihf ih =>
    simp only [plug_apply, marks_apply, targets_apply, List.mem_cons, List.mem_append,
      List.mem_flatMap, List.mem_map]
    grind
  | marker kind body ih => rw [plug, marks_marker, marks_marker, targets_marker, ih]
  | _ => simp [plug]

theorem children_plug {t : Tree} (h : t.target? = none) :
    (t.plug σ).children = t.children.map (plug σ) := by
  rcases t with _ | ⟨_ | _, _, _⟩ | _ | _ | ⟨_, _ | _⟩ | _
  case placeholder => cases h
  all_goals simp [plug, plugList_eq, children]

/-- What stands at a position of the tree stands there filled. -/
theorem subtree?_plug {t u : Tree} {p : List Nat} (h : t.subtree? p = some u) :
    (t.plug σ).subtree? p = some (u.plug σ) := by
  induction p generalizing t with
  | nil => rw [subtree?, Option.some.inj h]
  | cons i p ih =>
    obtain ⟨c, hc, hu⟩ := Option.bind_eq_some_iff.1 h
    have hinner : t.target? = none := by
      cases t with
      | placeholder target => simp [children] at hc
      | _ => rfl
    rw [subtree?, children_plug hinner, List.getElem?_map, hc]
    exact ih hu

/-- Scopes are replaced in the tree and in what is put in. -/
theorem mapScopes_plug (f : Scope → Scope) (g : Notes → Notes) (t : Tree) :
    (t.plug σ).mapScopes f g =
      (t.mapScopes f g).plug fun target => (σ target).mapScopes f g := by
  have list : ∀ ts : List Tree, (∀ t ∈ ts, (t.plug σ).mapScopes f g =
      (t.mapScopes f g).plug fun target => (σ target).mapScopes f g) →
      (ts.map (plug σ)).map (mapScopes f g) =
        (ts.map (mapScopes f g)).map (plug fun target => (σ target).mapScopes f g) := by
    intro ts h
    rw [List.map_map, List.map_map]
    exact List.map_congr_left h
  induction t using Tree.induct with
  | call op args notes ih =>
    rw [plug_call, mapScopes_call, mapScopes_call, plug_call, list args ih]
  | apply u args notes ihu ih =>
    rw [plug_apply, mapScopes_apply, mapScopes_apply, plug_apply, list args ih, ihu]
  | marker kind body ih => rw [plug, mapScopes, mapScopes, plug, ih]
  | _ => rfl

theorem resolve_plug (tag : Tag) (caller : Option Tag) (t : Tree) :
    (t.plug σ).resolve tag caller =
      (t.resolve tag caller).plug fun target => (σ target).resolve tag caller := by
  simp only [resolve_eq, mapScopes_plug]

end Tree

/-! ## Substitutions -/

namespace Substitution

variable {m : Substitution} {α β : Type}

/-- The tree for a target; a target without a value keeps its placeholder. -/
def part (m : Substitution) (target : String) : Tree :=
  (m.lookup target).getD (.placeholder target)

theorem lookup_eq_part {target : String} (h : target ∈ m.keys) :
    m.lookup target = some (m.part target) := by
  obtain ⟨t, ht⟩ := Option.isSome_iff_exists.1 (isSome_lookup.2 h)
  rw [part, ht]
  rfl

/-- The first of some targets without a value. -/
def missing? (m : Substitution) (targets : List String) : Option String :=
  targets.find? fun target => (m.lookup target).isNone

theorem missing?_eq_none {targets : List String} :
    m.missing? targets = none ↔ ∀ target ∈ targets, target ∈ m.keys := by
  simp only [missing?, keys, List.find?_eq_none, Option.isNone_iff_eq_none, ← isSome_lookup,
    Option.isSome_iff_ne_none, ne_eq]

/-- A result for which every one of the targets needs a value. The first one without is the
error. -/
def provided (m : Substitution) (targets : List String) (a : α) : Except Error α :=
  match m.missing? targets with
  | some target => .error (.unresolvedPlaceholder target (Text.sorted m.keys))
  | none => .ok a

theorem provided_of_covers {targets : List String} (h : ∀ target ∈ targets, target ∈ m.keys)
    (a : α) : m.provided targets a = .ok a := by
  rw [provided, missing?_eq_none.2 h]

theorem map_provided (targets : List String) (a : α) (f : α → β) :
    (do return f (← m.provided targets a)) = m.provided targets (f a) := by
  unfold provided
  cases m.missing? targets <;> rfl

/-- Two results one after the other need the targets of the first and then those of the second. -/
theorem provided_bind (first second : List String) (a : α) (f : α → β) :
    (m.provided first a >>= fun a => m.provided second (f a)) =
      m.provided (first ++ second) (f a) := by
  unfold provided
  rw [missing?, missing?, missing?, List.find?_append]
  cases first.find? fun target => (m.lookup target).isNone <;> rfl

end Substitution

namespace Tree

/-- The tree with every placeholder replaced that has a value. -/
def fill (m : Substitution) (t : Tree) : Tree := t.plug m.part

theorem fill_call (m : Substitution) (op : String) (args : List Tree) (notes : Notes) :
    (call (.symbol op) args notes).fill m = call (.symbol op) (args.map (fill m)) notes :=
  plug_call op args notes

theorem fill_apply (m : Substitution) (f : Tree) (args : List Tree) (notes : Notes) :
    (call (.tree f) args notes).fill m = call (.tree (f.fill m)) (args.map (fill m)) notes :=
  plug_apply f args notes

/-- **Substitution in one pass**: the placeholders are looked up from left to right, and what is put
in is not looked at. -/
theorem substitute_eq (m : Substitution) (t : Tree) :
    t.substitute m = m.provided t.targets (t.fill m) := by
  -- the arguments of a call are filled one after the other, each after all that stand before it
  have list : ∀ ts : List Tree, (∀ t ∈ ts, t.substitute m = m.provided t.targets (t.fill m)) →
      substituteList m ts = m.provided (ts.flatMap targets) (ts.map (fill m)) := by
    intro ts h
    induction ts with
    | nil => rfl
    | cons t ts ih =>
      rw [substituteList, h t (.head _), ih fun u hu => h u (.tail _ hu)]
      simp only [Substitution.map_provided]
      exact Substitution.provided_bind ..
  induction t using Tree.induct with
  | call op args notes ih =>
    rw [substitute, list args ih, Substitution.map_provided, targets_call, fill_call]
  | apply f args notes ihf ih =>
    rw [substitute, ihf, list args ih, targets_apply, fill_apply]
    simp only [Substitution.map_provided]
    exact Substitution.provided_bind ..
  | placeholder target =>
    rw [substitute, fill, plug, Substitution.part, targets_placeholder, Substitution.provided,
      Substitution.missing?]
    cases hfind : m.lookup target <;> simp [hfind]
  | marker kind body ih =>
    rw [substitute, ih, Substitution.map_provided, targets_marker]
    rfl
  | _ => rfl

theorem substitute_ok {m : Substitution} {t r : Tree} (h : t.substitute m = .ok r) :
    r = t.fill m := by
  rw [substitute_eq, Substitution.provided] at h
  split at h
  · cases h
  · cases h
    rfl

end Tree

end HygienicMacros
