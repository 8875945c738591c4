import HygienicMacros.Proofs.Mappings

/-! # What resolving makes of a tree

Resolving replaces scopes where they stand, and nothing else. `Resolution` says so by position:
names of a template get the tag, names of the caller the scope of the place of the call, and in the
notes of a template's call the tag takes the place of the open scope (`Notes.Resolved`).

Names and calls are not treated alike. A call marked as the caller's stays open, and it is all that
does (`Tree.isOpen_resolve`). No later resolution closes it either, so that a tree is resolved once
and for all (`Tree.resolve_resolve`).

* `resolve_exact`: the resolved tree, the nodes that stay open in it, and that it is resolved
  already.
-/

namespace HygienicMacros

/-! ## Notes -/

/-- The notes `n` are `m` with the open scope of a template's call replaced by the tag, in place. -/
inductive Notes.Resolved (tag : Tag) : Notes → Notes → Prop
  | template {before after : Notes} (first : ∀ entry ∈ before, entry.1 ≠ .text scopeKey) :
      Resolved tag (before ++ (.text scopeKey, .pending .template) :: after)
        (before ++ (.text scopeKey, .int tag.number) :: after)
  | other {notes : Notes} (scope : scope? notes ≠ some (.pending .template)) :
      Resolved tag notes notes

theorem Value.isText_iff {s : String} {v : Value} : v.isText s = true ↔ v = .text s := by
  cases v <;> simp [isText]

/-- A key that is found splits the notes at its first entry. -/
theorem Notes.find?_eq_some {key : String} {v : Value} {notes : Notes}
    (h : find? key notes = some v) : ∃ before after,
      notes = before ++ (.text key, v) :: after ∧ ∀ entry ∈ before, entry.1 ≠ .text key := by
  obtain ⟨⟨k, w⟩, hfind, rfl⟩ := Option.map_eq_some_iff.1 h
  obtain ⟨hk, before, after, rfl, hbefore⟩ := List.find?_eq_some_iff_append.1 hfind
  cases Value.isText_iff.1 hk
  exact ⟨before, after, rfl, fun entry hentry heq =>
    absurd (Value.isText_iff.2 heq) (by simpa using hbefore entry hentry)⟩

theorem Notes.set_append {key : String} (v w : Value) (after : Notes) : ∀ {before : Notes},
    (∀ entry ∈ before, entry.1 ≠ .text key) →
      set key w (before ++ (.text key, v) :: after) = before ++ (.text key, w) :: after
  | [], _ => by simp [set, Value.isText]
  | (k, u) :: before, h => by
    rw [List.forall_mem_cons] at h
    rw [List.cons_append, set, if_neg (mt Value.isText_iff.1 h.1), set_append v w after h.2,
      List.cons_append]

theorem Notes.resolved_resolve (tag : Tag) (notes : Notes) :
    Resolved tag notes (resolve tag notes) := by
  by_cases h : scope? notes = some (.pending .template)
  · rw [resolve_template h]
    obtain ⟨before, after, rfl, hbefore⟩ := find?_eq_some h
    rw [set_append _ _ _ hbefore]
    exact .template hbefore
  · rw [resolve_other h]
    exact .other h

theorem Notes.resolve_resolve (tag tag' : Tag) (notes : Notes) :
    resolve tag' (resolve tag notes) = resolve tag notes := by
  apply resolve_other
  by_cases h : scope? notes = some (.pending .template)
  · rw [resolve_template h, scope?_set]
    simp
  · rwa [resolve_other h]

theorem Scope.resolve_resolve (tag tag' : Tag) (caller caller' : Option Tag) (s : Scope) :
    (s.resolve tag caller).resolve tag' caller' = s.resolve tag caller := by
  rcases s with _ | _ | _ | _
  case pending.caller => cases caller <;> rfl
  all_goals rfl

/-! ## Trees -/

namespace Tree

/-- Whether this very node is a call that is marked as the caller's. -/
def isCallersCall : Tree → Bool
  | .call _ _ notes => match Notes.scope? notes with
    | some (.pending .caller) => true
    | _ => false
  | _ => false

theorem isCallersCall_iff {t : Tree} : t.isCallersCall = true ↔
    ∃ m, t.mark? = some m ∧ m.IsCallerCall := by
  cases t with
  | call head args notes =>
    simp only [isCallersCall, mark?, Option.some.injEq, exists_eq_left', Mark.IsCallerCall]
    split
    · rename_i h
      simp [h]
    · rename_i h
      simpa using h
  | _ => simp [isCallersCall, mark?, Mark.IsCallerCall]

theorem nodes_resolve (tag : Tag) (caller : Option Tag) (t : Tree) :
    (t.resolve tag caller).nodes = t.nodes.map (resolve tag caller) := by
  have hresolve : resolve tag caller = mapScopes (Scope.resolve tag caller) (Notes.resolve tag) :=
    funext (resolve_eq tag caller)
  rw [hresolve]
  exact nodes_mapScopes rfl t

/-- What stays open is a call marked as the caller's. -/
theorem isOpen_resolve (tag : Tag) (caller : Option Tag) (t : Tree) :
    (t.resolve tag caller).isOpen = t.isCallersCall := by
  rw [isOpen_eq, resolve_eq, mark?_mapScopes, ← Mark.resolve_eq, Bool.eq_iff_iff,
    isCallersCall_iff]
  cases t.mark? with
  | none => simp
  | some m => simp [Mark.isOpen_resolve]

/-- The open nodes of a resolved tree, in scan order: one for each call marked as the caller's. -/
theorem openNodes_resolve (tag : Tag) (caller : Option Tag) (t : Tree) :
    (t.resolve tag caller).openNodes =
      ((t.nodes.zip (t.resolve tag caller).nodes).filter (·.1.isCallersCall)).map (·.2) := by
  have hzip : t.nodes.zip (t.resolve tag caller).nodes =
      t.nodes.map fun u => (u, u.resolve tag caller) := by
    rw [nodes_resolve]
    simpa using List.zip_map' (f := id) (g := resolve tag caller) (l := t.nodes)
  rw [hzip, openNodes, nodes_resolve, List.filter_map, List.filter_map, List.map_map]
  congr 1
  exact List.filter_congr fun u _ => isOpen_resolve tag caller u

theorem openNodes_resolve_eq_nil {tag : Tag} {caller : Option Tag} {t : Tree} :
    (t.resolve tag caller).openNodes = [] ↔
      ∀ p head args notes, t.subtree? p = some (.call head args notes) →
        Notes.scope? notes ≠ some (.pending .caller) := by
  rw [openNodes, nodes_resolve, List.filter_eq_nil_iff, List.forall_mem_map]
  simp only [isOpen_resolve, isCallersCall_iff]
  constructor
  · intro h p head args notes hp hscope
    exact h _ (mem_nodes_iff.2 ⟨p, hp⟩) ⟨.call notes, rfl, hscope⟩
  · rintro h u hu ⟨_ | notes, hm, hcall⟩
    · exact hcall
    · obtain ⟨p, hp⟩ := mem_nodes_iff.1 hu
      obtain ⟨head, args, rfl⟩ := mark?_eq_call.1 hm
      exact h p head args notes hp hcall

/-- A resolved tree is resolved once and for all. -/
theorem resolve_resolve (tag tag' : Tag) (caller caller' : Option Tag) (t : Tree) :
    (t.resolve tag caller).resolve tag' caller' = t.resolve tag caller := by
  rw [resolve_eq, resolve_eq, mapScopes_mapScopes]
  congr 1
  · funext s
    exact Scope.resolve_resolve tag tag' caller caller' s
  · funext notes
    exact Notes.resolve_resolve tag tag' notes

end Tree

/-! ## Resolved trees -/

/-- `s` is the tree `t` with its open scopes resolved: at every position stands what stands there in
`t`, but for the scopes of names and the scope noted for calls. -/
structure Resolution (tag : Tag) (caller : Option Tag) (t s : Tree) : Prop where
  positions : ∀ p, (s.subtree? p).isSome = (t.subtree? p).isSome
  literal : ∀ p d, t.subtree? p = some (.literal d) → s.subtree? p = some (.literal d)
  placeholder : ∀ p target, t.subtree? p = some (.placeholder target) →
    s.subtree? p = some (.placeholder target)
  templateName : ∀ p ident, t.subtree? p = some (.name ident (.pending .template)) →
    s.subtree? p = some (.name ident (.tag tag))
  callerName : ∀ p ident, t.subtree? p = some (.name ident (.pending .caller)) →
    s.subtree? p = some (.name ident (callerScope caller))
  otherName : ∀ p ident scope, t.subtree? p = some (.name ident scope) →
    scope.isPending = false → s.subtree? p = some (.name ident scope)
  unhygienic : ∀ p ident, t.subtree? p = some (.unhygienic ident) →
    s.subtree? p = some (.unhygienic ident)
  marker : ∀ p kind body, t.subtree? p = some (.marker kind body) →
    ∃ body', s.subtree? p = some (.marker kind body') ∧ body'.isSome = body.isSome
  call : ∀ p head args notes, t.subtree? p = some (.call head args notes) →
    ∃ head' args' notes', s.subtree? p = some (.call head' args' notes') ∧
      (∀ op, head' = .symbol op ↔ head = .symbol op) ∧ args'.length = args.length ∧
      Notes.Resolved tag notes notes'

theorem resolution_resolve (tag : Tag) (caller : Option Tag) (t : Tree) :
    Resolution tag caller t (t.resolve tag caller) := by
  have hat : ∀ {p u}, t.subtree? p = some u →
      (t.resolve tag caller).subtree? p = some (u.resolve tag caller) := by
    intro p u hp
    rw [Tree.subtree?_resolve, hp]
    rfl
  constructor
  case positions =>
    intro p
    rw [Tree.subtree?_resolve, Option.isSome_map]
  case literal => exact fun p d hp => hat hp
  case placeholder => exact fun p target hp => hat hp
  case templateName => exact fun p ident hp => hat hp
  case callerName => exact fun p ident hp => hat hp
  case otherName =>
    intro p ident scope hp hscope
    rw [hat hp]
    cases scope with
    | pending _ => cases hscope
    | _ => rfl
  case unhygienic => exact fun p ident hp => hat hp
  case marker =>
    intro p kind body hp
    rw [hat hp]
    cases body with
    | none => exact ⟨none, rfl, rfl⟩
    | some body => exact ⟨some _, rfl, rfl⟩
  case call =>
    intro p head args notes hp
    rw [hat hp, Tree.resolve_eq]
    cases head with
    | symbol op =>
      rw [Tree.mapScopes_call]
      exact ⟨_, _, _, rfl, fun other => Iff.rfl, List.length_map _,
        Notes.resolved_resolve tag notes⟩
    | tree f =>
      rw [Tree.mapScopes_apply]
      exact ⟨_, _, _, rfl, fun other => ⟨nofun, nofun⟩, List.length_map _,
        Notes.resolved_resolve tag notes⟩

theorem Value.openNodes_tree (t : Tree) : (Value.tree t).openNodes = .ok t.openNodes := by
  simp [openNodes, collect, forest]

/-- **Resolving closes exactly the open scopes.** Every tree can be resolved, with any tag and any
scope of the place of the call. What stays open are the calls marked as the caller's, in the order
of the scan, and to resolve the tree again changes nothing. -/
theorem resolve_exact (t : Tree) (tag : Tag) (caller : Option Tag) : ∃ s,
    (Value.tree t).resolve (.int tag.number) (callerScope caller).toValue = .ok (.tree s) ∧
    Resolution tag caller t s ∧
    (∃ pending, (Value.tree s).openNodes = .ok pending ∧
      (pending = [] ↔ ∀ p head args notes, t.subtree? p = some (.call head args notes) →
        Notes.scope? notes ≠ some (.pending .caller)) ∧
      pending = ((t.nodes.zip s.nodes).filter (·.1.isCallersCall)).map (·.2)) ∧
    ∀ (tag' : Tag) (caller' : Option Tag),
      (Value.tree s).resolve (.int tag'.number) (callerScope caller').toValue = .ok (.tree s) := by
  refine ⟨t.resolve tag caller, Value.resolve_tree t tag caller, resolution_resolve tag caller t,
    ⟨_, Value.openNodes_tree _, Tree.openNodes_resolve_eq_nil, Tree.openNodes_resolve tag caller t⟩,
    fun tag' caller' => ?_⟩
  rw [Value.resolve_tree, Tree.resolve_resolve]

end HygienicMacros
