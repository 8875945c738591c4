import Mathlib.Data.List.Basic
import HygienicMacros.Scope.Resolve

/-! # What hygiene reads of a tree

Hygiene looks at the names of a tree and at the notes of its calls, and at nothing else.
`Tree.marks` lists them in scan order. The tags of a tree and its open scopes are read from this
list (`tags_eq`, `openNodes_eq_nil`), and resolving a tree resolves each mark on its own
(`marks_resolve`), so that a statement about tags never has to look at the shape of a tree.
-/

namespace HygienicMacros

/-! ## Notes -/

namespace Notes

theorem find?_set (key : String) (v : Value) :
    ∀ notes : Notes, find? key (set key v notes) = some v
  | [] => by simp [set, find?_cons, Value.isText]
  | (k, w) :: rest => by
    by_cases h : k.isText key = true
    · simp [set, find?_cons, h]
    · simp only [set, if_neg h, find?_cons]
      exact find?_set key v rest

theorem scope?_set (v : Value) (notes : Notes) : scope? (set scopeKey v notes) = some v :=
  find?_set scopeKey v notes

theorem set_set (key : String) (v w : Value) :
    ∀ notes : Notes, set key w (set key v notes) = set key w notes
  | [] => by simp [set, Value.isText]
  | (k, u) :: rest => by
    by_cases h : k.isText key = true
    · simp [set, h]
    · simp only [set, if_neg h]
      rw [set_set key v w rest]

/-- Setting a key to the value it has changes nothing. -/
theorem set_find? {key : String} {v : Value} :
    ∀ {notes : Notes}, find? key notes = some v → set key v notes = notes
  | [], h => by simp [find?_nil] at h
  | (k, u) :: rest, h => by
    by_cases hk : k.isText key = true
    · simp only [find?_cons, if_pos hk, Option.some.injEq] at h
      simp [set, hk, h]
    · simp only [find?_cons, if_neg hk] at h
      simp only [set, if_neg hk]
      rw [set_find? h]

theorem resolve_template {tag : Tag} {notes : Notes}
    (h : scope? notes = some (.pending .template)) :
    resolve tag notes = set scopeKey (.int tag.number) notes := by
  simp [resolve, h]

theorem resolve_other {tag : Tag} {notes : Notes}
    (h : scope? notes ≠ some (.pending .template)) : resolve tag notes = notes := by
  unfold resolve
  split
  · contradiction
  · rfl

/-- The scope of the caller is noted on the macro call. -/
theorem scope?_of_caller {notes : Notes} {c : Tag} (h : caller notes = .ok (some c)) :
    scope? notes = some (.int c.number) := by
  unfold caller at h
  split at h
  · rename_i n hn
    rw [callerOfValue] at h
    split at h
    · rename_i t ht
      cases h
      unfold Tag.ofInt? at ht
      split at ht
      · rename_i hpos
        cases ht
        rw [hn]
        simp only [Option.some.injEq, Value.int.injEq]
        omega
      · cases ht
    · cases h
  · cases h

theorem caller_of_scope? {notes : Notes} {c : Tag} (h : scope? notes = some (.int c.number)) :
    caller notes = .ok (some c) := by
  have hpos : (0 : Int) < c.number := Int.natCast_pos.2 c.positive
  simp only [caller, h, callerOfValue, Tag.ofInt?, dif_pos hpos, Int.toNat_natCast]

end Notes

/-! ## Marks -/

/-- What hygiene reads of one node: a name with its scope, or the notes of a call. -/
inductive Mark where
  | name (ident : String) (scope : Scope)
  | call (notes : Notes)

namespace Mark

/-- The number of the tag that a mark carries. -/
def tag? : Mark → Option Int
  | .name _ (.tag t) => some t.number
  | .name _ _ => none
  | .call notes => match Notes.scope? notes with
    | some (.int n) => some n
    | _ => none

/-- Whether the scope of a mark is still open. -/
def isOpen : Mark → Bool
  | .name _ scope => scope.isPending
  | .call notes => match Notes.scope? notes with
    | some (.pending _) => true
    | _ => false

/-- A mark with its scope replaced, by `f` on a name and by `g` in the notes of a call. -/
def map (f : Scope → Scope) (g : Notes → Notes) : Mark → Mark
  | .name ident scope => .name ident (f scope)
  | .call notes => .call (g notes)

/-- A mark, resolved. -/
def resolve (tag : Tag) (caller : Option Tag) : Mark → Mark
  | .name ident scope => .name ident (scope.resolve tag caller)
  | .call notes => .call (Notes.resolve tag notes)

theorem resolve_eq (tag : Tag) (caller : Option Tag) :
    resolve tag caller = map (Scope.resolve tag caller) (Notes.resolve tag) := by
  funext m
  cases m <;> rfl

/-- Whether a call is marked as the caller's. No resolution ever closes such a mark. -/
def IsCallerCall : Mark → Prop
  | .call notes => Notes.scope? notes = some (.pending .caller)
  | .name _ _ => False

instance : DecidablePred IsCallerCall
  | .name _ _ => isFalse id
  | .call notes => match h : Notes.scope? notes with
    | some (.pending .caller) => isTrue h
    | some (.pending .template) | some .nothing | some (.bool _) | some (.int _)
    | some (.float _) | some (.text _) | some (.atom _) | some (.tuple _) | some (.list _)
    | some (.record _) | some (.variety _) | some (.tree _) | none =>
      isFalse fun h' => nomatch h.symm.trans h'

/-- A resolved mark carries the tag of the resolution, the caller's, or the one it had before. -/
theorem tag?_resolve {tag : Tag} {caller : Option Tag} {m : Mark} {n : Int}
    (h : (m.resolve tag caller).tag? = some n) :
    n = tag.number ∨ (∃ c, caller = some c ∧ n = c.number) ∨ m.tag? = some n := by
  cases m with
  | name ident scope =>
    cases scope with
    | source => simp [resolve, Scope.resolve, tag?] at h
    | tag t => exact .inr (.inr h)
    | pending p =>
      cases p with
      | template => exact .inl (Option.some.inj h).symm
      | caller =>
        cases caller with
        | none => simp [resolve, Scope.resolve, callerScope, tag?] at h
        | some c => exact .inr (.inl ⟨c, rfl, (Option.some.inj h).symm⟩)
  | call notes =>
    by_cases hs : Notes.scope? notes = some (.pending .template)
    · simp only [resolve, Notes.resolve_template hs, tag?, Notes.scope?_set,
        Option.some.injEq] at h
      exact .inl h.symm
    · rw [resolve, Notes.resolve_other hs] at h
      exact .inr (.inr h)

/-- What stays open after a resolution is a call marked as the caller's, and it is left as it
was. -/
theorem isOpen_resolve {tag : Tag} {caller : Option Tag} {m : Mark} :
    (m.resolve tag caller).isOpen = true ↔ m.IsCallerCall := by
  cases m with
  | name ident scope =>
    simp only [IsCallerCall, iff_false]
    rcases scope with _ | _ | _ | _
    case pending.caller => cases caller <;> simp [resolve, Scope.resolve, callerScope, isOpen,
      Scope.isPending]
    all_goals simp [resolve, Scope.resolve, isOpen, Scope.isPending]
  | call notes =>
    by_cases hs : Notes.scope? notes = some (.pending .template)
    · simp [resolve, Notes.resolve_template hs, isOpen, Notes.scope?_set, IsCallerCall, hs]
    · simp only [resolve, Notes.resolve_other hs, isOpen, IsCallerCall]
      split
      · rename_i p hp
        cases p <;> simp_all
      · rename_i hp
        simpa using hp .caller

theorem IsCallerCall.isOpen : ∀ {m : Mark}, m.IsCallerCall → m.isOpen = true
  | .call notes, h => by
    simp only [IsCallerCall] at h
    simp [Mark.isOpen, h]

theorem IsCallerCall.resolve_eq {tag : Tag} {caller : Option Tag} :
    ∀ {m : Mark}, m.IsCallerCall → m.resolve tag caller = m
  | .call notes, h => by
    rw [resolve, Notes.resolve_other]
    simp only [IsCallerCall] at h
    simp [h]

end Mark

/-! ## The marks of a tree -/

namespace Tree

/-- The mark of this very node. -/
def mark? : Tree → Option Mark
  | .name ident scope => some (.name ident scope)
  | .call _ _ notes => some (.call notes)
  | _ => none

/-- The marks of a tree, in scan order. -/
def marks (t : Tree) : List Mark := t.nodes.filterMap mark?

theorem nodesList_eq (ts : List Tree) : nodesList ts = ts.flatMap nodes := by
  induction ts with
  | nil => rfl
  | cons t ts ih => rw [nodesList, ih, List.flatMap_cons]

@[simp] theorem marks_literal (d : Datum) : (literal d).marks = [] := rfl

@[simp] theorem marks_call (op : String) (args : List Tree) (notes : Notes) :
    (call (.symbol op) args notes).marks = .call notes :: args.flatMap marks := by
  rw [marks, nodes, nodesList_eq, List.filterMap_cons_some (f := mark?) rfl, List.filterMap_flatMap]
  rfl

@[simp] theorem marks_apply (f : Tree) (args : List Tree) (notes : Notes) :
    (call (.tree f) args notes).marks = .call notes :: (f.marks ++ args.flatMap marks) := by
  rw [marks, nodes, nodesList_eq, List.filterMap_cons_some (f := mark?) rfl, List.filterMap_append,
    List.filterMap_flatMap]
  rfl

@[simp] theorem marks_placeholder (target : String) : (placeholder target).marks = [] := rfl

@[simp] theorem marks_name (ident : String) (scope : Scope) :
    (name ident scope).marks = [.name ident scope] := rfl

@[simp] theorem marks_bare (kind : MarkerKind) : (marker kind none).marks = [] := rfl

@[simp] theorem marks_marker (kind : MarkerKind) (body : Tree) :
    (marker kind (some body)).marks = body.marks := by
  rw [marks, nodes, List.filterMap_cons_none rfl]
  rfl

@[simp] theorem marks_unhygienic (ident : String) :
    (unhygienic ident).marks = [.name ident .source] := rfl

theorem ownTag?_eq (t : Tree) : t.ownTag? = t.mark?.bind Mark.tag? := by
  cases t with
  | name ident scope => cases scope <;> rfl
  | call head args notes => rfl
  | _ => rfl

theorem isOpen_eq (t : Tree) : t.isOpen = t.mark?.any Mark.isOpen := by
  cases t with
  | call head args notes => rfl
  | _ => rfl

/-- The tags of a tree are the tags of its marks. -/
theorem tags_eq (t : Tree) : t.tags = t.marks.filterMap Mark.tag? := by
  rw [tags, marks, List.filterMap_filterMap]
  congr 1
  funext u
  exact ownTag?_eq u

theorem mem_tags {t : Tree} {n : Int} : n ∈ t.tags ↔ ∃ m ∈ t.marks, m.tag? = some n := by
  rw [tags_eq, List.mem_filterMap]

theorem mem_openNodes {t n : Tree} :
    n ∈ t.openNodes ↔ n ∈ t.nodes ∧ ∃ m, n.mark? = some m ∧ m.isOpen = true := by
  rw [openNodes, List.mem_filter, isOpen_eq, Option.any_eq_true]

theorem le_largest {n : Int} {ns : List Int} (h : n ∈ ns) : n ≤ largest ns := by
  cases ns with
  | nil => cases h
  | cons m ns => exact (List.max?_eq_some_iff.1 List.max?_cons').2 n h

/-- A tree has no open node if no mark of it is open. -/
theorem openNodes_eq_nil {t : Tree} : t.openNodes = [] ↔ ∀ m ∈ t.marks, m.isOpen = false := by
  simp only [List.eq_nil_iff_forall_not_mem, mem_openNodes, marks, List.mem_filterMap]
  constructor
  · rintro h m ⟨u, hu, hm⟩
    exact Bool.eq_false_iff.2 fun hopen => h u ⟨hu, m, hm, hopen⟩
  · rintro h u ⟨hu, m, hm, hopen⟩
    rw [h m ⟨u, hu, hm⟩] at hopen
    cases hopen

theorem mem_marks_name {t : Tree} {ident : String} {scope : Scope} :
    Mark.name ident scope ∈ t.marks ↔ name ident scope ∈ t.nodes := by
  rw [marks, List.mem_filterMap]
  constructor
  · rintro ⟨u, hu, hm⟩
    cases u with
    | name i s =>
      simp only [mark?, Option.some.injEq, Mark.name.injEq] at hm
      obtain ⟨rfl, rfl⟩ := hm
      exact hu
    | _ => simp [mark?] at hm
  · intro h
    exact ⟨_, h, rfl⟩

theorem mark?_eq_call {u : Tree} {notes : Notes} :
    u.mark? = some (.call notes) ↔ ∃ head args, u = call head args notes := by
  cases u with
  | call head args notes' => simp [mark?]
  | _ => simp [mark?]

end Tree

/-! ## Replacing scopes -/

namespace Tree

mutual

/-- A tree with all scopes replaced, by `f` on names and by `g` in the notes of calls. -/
@[grind =] def mapScopes (f : Scope → Scope) (g : Notes → Notes) : Tree → Tree
  | .literal d => .literal d
  | .call (.symbol op) args notes => .call (.symbol op) (mapScopesList f g args) (g notes)
  | .call (.tree t) args notes => .call (.tree (t.mapScopes f g)) (mapScopesList f g args) (g notes)
  | .placeholder target => .placeholder target
  | .name ident scope => .name ident (f scope)
  | .marker kind none => .marker kind none
  | .marker kind (some body) => .marker kind (some (body.mapScopes f g))
  | .unhygienic ident => .unhygienic ident

/-- Trees with all scopes replaced. -/
@[grind =] def mapScopesList (f : Scope → Scope) (g : Notes → Notes) : List Tree → List Tree
  | [] => []
  | t :: ts => t.mapScopes f g :: mapScopesList f g ts

end

variable {f f' : Scope → Scope} {g g' : Notes → Notes}

theorem mapScopesList_eq (ts : List Tree) : mapScopesList f g ts = ts.map (mapScopes f g) := by
  induction ts with
  | nil => rfl
  | cons t ts ih => rw [mapScopesList, ih, List.map_cons]

@[simp] theorem mapScopes_call (op : String) (args : List Tree) (notes : Notes) :
    (call (.symbol op) args notes).mapScopes f g =
      call (.symbol op) (args.map (mapScopes f g)) (g notes) := by
  rw [mapScopes, mapScopesList_eq]

@[simp] theorem mapScopes_apply (t : Tree) (args : List Tree) (notes : Notes) :
    (call (.tree t) args notes).mapScopes f g =
      call (.tree (t.mapScopes f g)) (args.map (mapScopes f g)) (g notes) := by
  rw [mapScopes, mapScopesList_eq]

theorem mark?_mapScopes (t : Tree) : (t.mapScopes f g).mark? = t.mark?.map (Mark.map f g) := by
  rcases t with _ | ⟨_ | _, _, _⟩ | _ | _ | ⟨_, _ | _⟩ | _ <;> rfl

/-- The nodes of the new tree, where the scope of the source stays what it is. -/
theorem nodes_mapScopes (hf : f .source = .source) (t : Tree) :
    (t.mapScopes f g).nodes = t.nodes.map (mapScopes f g) := by
  have list : ∀ ts : List Tree, (∀ t ∈ ts, (t.mapScopes f g).nodes = t.nodes.map (mapScopes f g)) →
      nodesList (ts.map (mapScopes f g)) = (nodesList ts).map (mapScopes f g) := by
    intro ts h
    rw [nodesList_eq, nodesList_eq, List.flatMap_map, List.map_flatMap]
    exact List.flatMap_congr h
  induction t using Tree.induct with
  | literal d => rfl
  | call op args notes ih =>
    rw [mapScopes_call, nodes, nodes, list args ih, List.map_cons, mapScopes_call]
  | apply t args notes iht ih =>
    rw [mapScopes_apply, nodes, nodes, list args ih, iht, List.map_cons, List.map_append,
      mapScopes_apply]
  | placeholder target => rfl
  | name ident scope => rfl
  | bare kind => rfl
  | marker kind body ih => rw [mapScopes, nodes, nodes, ih, List.map_cons, mapScopes]
  | unhygienic ident => simp [mapScopes, nodes, hf]

theorem marks_mapScopes (hf : f .source = .source) (t : Tree) :
    (t.mapScopes f g).marks = t.marks.map (Mark.map f g) := by
  rw [marks, nodes_mapScopes hf, List.filterMap_map, marks, List.map_filterMap]
  congr 1
  funext u
  exact mark?_mapScopes u

/-- A new tree depends on what becomes of the marks. -/
theorem mapScopes_congr {t : Tree} (h : ∀ m ∈ t.marks, m.map f g = m.map f' g') :
    t.mapScopes f g = t.mapScopes f' g' := by
  have list : ∀ ts : List Tree, (∀ t ∈ ts, (∀ m ∈ t.marks, m.map f g = m.map f' g') →
      t.mapScopes f g = t.mapScopes f' g') →
      (∀ m ∈ ts.flatMap marks, m.map f g = m.map f' g') →
      ts.map (mapScopes f g) = ts.map (mapScopes f' g') := by
    intro ts ih h
    refine List.map_congr_left fun t ht => ih t ht fun m hm => h m ?_
    exact List.mem_flatMap.2 ⟨t, ht, hm⟩
  induction t using Tree.induct with
  | literal d => rfl
  | call op args notes ih =>
    rw [marks_call, List.forall_mem_cons] at h
    rw [mapScopes_call, mapScopes_call, list args ih h.2, (Mark.call.inj h.1 : g notes = g' notes)]
  | apply t args notes iht ih =>
    rw [marks_apply, List.forall_mem_cons, List.forall_mem_append] at h
    rw [mapScopes_apply, mapScopes_apply, list args ih h.2.2, iht h.2.1,
      (Mark.call.inj h.1 : g notes = g' notes)]
  | placeholder target => rfl
  | name ident scope =>
    have := h _ (.head _)
    rw [mapScopes, mapScopes, (Mark.name.inj this).2]
  | bare kind => rfl
  | marker kind body ih =>
    rw [marks_marker] at h
    rw [mapScopes, mapScopes, ih h]
  | unhygienic ident => rfl

theorem mapScopes_mapScopes (t : Tree) :
    (t.mapScopes f g).mapScopes f' g' = t.mapScopes (f' ∘ f) (g' ∘ g) := by
  have list : ∀ ts : List Tree,
      (∀ t ∈ ts, (t.mapScopes f g).mapScopes f' g' = t.mapScopes (f' ∘ f) (g' ∘ g)) →
      (ts.map (mapScopes f g)).map (mapScopes f' g') = ts.map (mapScopes (f' ∘ f) (g' ∘ g)) := by
    intro ts h
    rw [List.map_map]
    exact List.map_congr_left h
  induction t using Tree.induct with
  | call op args notes ih =>
    rw [mapScopes_call, mapScopes_call, mapScopes_call, list args ih, Function.comp_apply]
  | apply t args notes iht ih =>
    rw [mapScopes_apply, mapScopes_apply, mapScopes_apply, list args ih, iht, Function.comp_apply]
  | marker kind body ih => rw [mapScopes, mapScopes, mapScopes, ih]
  | _ => rfl

theorem mapScopes_id (t : Tree) : t.mapScopes id id = t := by
  have list : ∀ ts : List Tree, (∀ t ∈ ts, t.mapScopes id id = t) →
      ts.map (mapScopes id id) = ts := by
    intro ts h
    exact (List.map_congr_left h).trans (List.map_id ts)
  induction t using Tree.induct with
  | call op args notes ih => rw [mapScopes_call, list args ih, id]
  | apply t args notes iht ih => rw [mapScopes_apply, list args ih, iht, id]
  | marker kind body ih => rw [mapScopes, ih]
  | _ => rfl

/-- Resolving a tree replaces its scopes, and nothing else. -/
theorem resolve_eq (tag : Tag) (caller : Option Tag) (t : Tree) :
    t.resolve tag caller = t.mapScopes (Scope.resolve tag caller) (Notes.resolve tag) := by
  have list : ∀ ts : List Tree, (∀ t ∈ ts, t.resolve tag caller =
      t.mapScopes (Scope.resolve tag caller) (Notes.resolve tag)) →
      resolveList tag caller ts =
        ts.map (mapScopes (Scope.resolve tag caller) (Notes.resolve tag)) := by
    intro ts h
    induction ts with
    | nil => rfl
    | cons t ts ih =>
      rw [resolveList, h t (.head _), ih fun u hu => h u (.tail _ hu), List.map_cons]
  induction t using Tree.induct with
  | call op args notes ih => rw [resolve, mapScopes_call, list args ih]
  | apply t args notes iht ih => rw [resolve, mapScopes_apply, list args ih, iht]
  | marker kind body ih => rw [resolve, mapScopes, ih]
  | _ => rfl

/-- Resolving a tree resolves each of its marks. -/
theorem marks_resolve (tag : Tag) (caller : Option Tag) (t : Tree) :
    (t.resolve tag caller).marks = t.marks.map (Mark.resolve tag caller) := by
  rw [resolve_eq, marks_mapScopes rfl, Mark.resolve_eq]

/-- A tree without open scopes is resolved already. -/
theorem resolve_of_closed {t : Tree} (h : t.openNodes = []) (tag : Tag) (caller : Option Tag) :
    t.resolve tag caller = t := by
  have hmarks : ∀ m ∈ t.marks,
      m.map (Scope.resolve tag caller) (Notes.resolve tag) = m.map id id := by
    intro m hm
    have hclosed := openNodes_eq_nil.1 h m hm
    cases m with
    | name ident scope =>
      cases scope with
      | pending p => cases hclosed
      | _ => rfl
    | call notes =>
      have hscope : Notes.scope? notes ≠ some (.pending .template) := by
        intro hs
        simp [Mark.isOpen, hs] at hclosed
      exact congrArg Mark.call (Notes.resolve_other hscope)
  rw [resolve_eq, mapScopes_congr hmarks, mapScopes_id]

end Tree

end HygienicMacros
