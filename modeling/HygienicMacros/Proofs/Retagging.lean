import Mathlib.Logic.Equiv.Basic
import HygienicMacros.Proofs.Adequacy

/-! # Renaming tags

Which number an expansion gets does not matter. `Tree.retag` changes the tags of names and of the
notes of calls. Renaming goes through resolution (`retag_resolve`), and where the clauses of a
registry do not look at tags (`Registry.Equivariant`), through whole derivations (`Scans.retag`,
`Rewrites.retag`).

Such clauses bring no tags of their own (`Equivariant.tags_answer`): a tag that is not in the
macro call could be exchanged for one that is nowhere. And the tags of a derivation can be made
consecutive in whatever order the applications are listed (`exists_renumbering`).
-/

namespace HygienicMacros

/-! ## Trees -/

/-- A scope with its tag renamed. -/
def Scope.retag (ρ : Tag → Tag) : Scope → Scope
  | .tag t => .tag (ρ t)
  | s => s

/-- The notes of a call with the tag in them renamed. -/
def Notes.retag (ρ : Tag → Tag) (notes : Notes) : Notes :=
  match Notes.caller notes with
  | .ok (some t) => Notes.set Notes.scopeKey (.int (ρ t).number) notes
  | _ => notes

/-- A tree with its tags renamed. -/
def Tree.retag (ρ : Tag → Tag) : Tree → Tree := Tree.mapScopes (Scope.retag ρ) (Notes.retag ρ)

namespace Notes

variable {notes : Notes} {ρ : Tag → Tag}

theorem retag_of_tag {t : Tag} (h : caller notes = .ok (some t)) :
    retag ρ notes = set scopeKey (.int (ρ t).number) notes := by
  rw [retag, h]

theorem retag_of_none (h : ∀ t, caller notes ≠ .ok (some t)) : retag ρ notes = notes := by
  unfold retag
  split
  · rename_i t ht
    exact absurd ht (h t)
  · rfl

/-- Renamed notes name the renamed caller. -/
theorem caller_retag {c : Option Tag} (h : caller notes = .ok c) :
    caller (retag ρ notes) = .ok (c.map ρ) := by
  cases c with
  | none =>
    rw [retag_of_none, h]
    · rfl
    · rintro t ht
      rw [h] at ht
      cases ht
  | some t =>
    rw [retag_of_tag h]
    exact caller_of_scope? (scope?_set _ _)

theorem retag_of_fixed (h : ∀ t, caller notes = .ok (some t) → ρ t = t) :
    retag ρ notes = notes := by
  by_cases hc : ∃ t, caller notes = .ok (some t)
  · obtain ⟨t, ht⟩ := hc
    rw [retag_of_tag ht, h t ht]
    exact set_find? (scope?_of_caller ht)
  · exact retag_of_none (not_exists.1 hc)

/-- Renaming leaves a scope open, or closed. -/
theorem scope?_retag_pending {p : Pending} :
    scope? (retag ρ notes) = some (.pending p) ↔ scope? notes = some (.pending p) := by
  by_cases h : ∃ t, caller notes = .ok (some t)
  · obtain ⟨t, ht⟩ := h
    rw [retag_of_tag ht, scope?_set, scope?_of_caller ht]
    simp
  · rw [retag_of_none (not_exists.1 h)]

theorem retag_resolve (tag : Tag) :
    retag ρ (resolve tag notes) = resolve (ρ tag) (retag ρ notes) := by
  by_cases h : scope? notes = some (.pending .template)
  · have hcaller : caller (set scopeKey (.int tag.number) notes) = .ok (some tag) :=
      caller_of_scope? (scope?_set _ _)
    have hnone : ∀ t, caller notes ≠ .ok (some t) := by
      intro t ht
      rw [scope?_of_caller ht] at h
      cases h
    rw [resolve_template h, retag_of_tag hcaller, set_set, retag_of_none hnone,
      resolve_template h]
  · rw [resolve_other h, resolve_other (mt scope?_retag_pending.1 h)]

end Notes

theorem Scope.retag_resolve (ρ : Tag → Tag) (tag : Tag) (caller : Option Tag) (s : Scope) :
    (s.resolve tag caller).retag ρ = (s.retag ρ).resolve (ρ tag) (caller.map ρ) := by
  rcases s with _ | _ | _ | _
  case pending.caller => cases caller <;> rfl
  all_goals rfl

namespace Mark

variable {ρ : Tag → Tag}

/-- A mark with its tag renamed. -/
def retag (ρ : Tag → Tag) : Mark → Mark := map (Scope.retag ρ) (Notes.retag ρ)

theorem isOpen_call {notes : Notes} :
    (Mark.call notes).isOpen = true ↔ ∃ p, Notes.scope? notes = some (.pending p) := by
  simp only [isOpen]
  split
  · rename_i p hp
    exact ⟨fun _ => ⟨p, hp⟩, fun _ => rfl⟩
  · rename_i hp
    constructor
    · intro h
      cases h
    · rintro ⟨p, h⟩
      exact absurd h (hp p)

theorem isOpen_retag (m : Mark) : (m.retag ρ).isOpen = m.isOpen := by
  rw [Bool.eq_iff_iff]
  cases m with
  | name ident scope => cases scope <;> rfl
  | call notes =>
    rw [isOpen_call, retag, map, isOpen_call]
    exact exists_congr fun p => Notes.scope?_retag_pending

/-- The renamed mark has the renamed tag. -/
theorem tag?_retag {m : Mark} {tag : Tag} (h : m.tag? = some (tag.number : Int)) :
    (m.retag ρ).tag? = some ((ρ tag).number : Int) := by
  cases m with
  | name ident scope =>
    cases scope with
    | tag t =>
      obtain rfl : t = tag := by
        simp only [tag?, Option.some.injEq, Int.natCast_inj] at h
        cases t
        cases tag
        cases h
        rfl
      rfl
    | _ => cases h
  | call notes =>
    have hs : Notes.scope? notes = some (.int tag.number) := by
      simp only [tag?] at h
      split at h
      · rename_i n hn
        rw [hn, Option.some.inj h]
      · cases h
    rw [retag, map, Notes.retag_of_tag (Notes.caller_of_scope? hs)]
    simp only [tag?, Notes.scope?_set]

end Mark

namespace Tree

variable {ρ : Tag → Tag}

@[simp] theorem retag_call (op : String) (args : List Tree) (notes : Notes) :
    (call (.symbol op) args notes).retag ρ =
      call (.symbol op) (args.map (retag ρ)) (Notes.retag ρ notes) := mapScopes_call op args notes

@[simp] theorem retag_apply (f : Tree) (args : List Tree) (notes : Notes) :
    (call (.tree f) args notes).retag ρ =
      call (.tree (f.retag ρ)) (args.map (retag ρ)) (Notes.retag ρ notes) :=
  mapScopes_apply f args notes

theorem marks_retag (t : Tree) : (t.retag ρ).marks = t.marks.map (Mark.retag ρ) :=
  marks_mapScopes rfl t

/-- Renaming goes through resolution. -/
theorem retag_resolve (tag : Tag) (caller : Option Tag) (t : Tree) :
    (t.resolve tag caller).retag ρ = (t.retag ρ).resolve (ρ tag) (caller.map ρ) := by
  simp only [resolve_eq, retag, mapScopes_mapScopes]
  congr 1
  · funext s
    exact Scope.retag_resolve ρ tag caller s
  · funext notes
    exact Notes.retag_resolve tag

/-- A renaming that leaves the tags of a tree alone leaves the tree alone. -/
theorem retag_of_fixed {t : Tree} (h : ∀ tag : Tag, (tag.number : Int) ∈ t.tags → ρ tag = tag) :
    t.retag ρ = t := by
  refine (mapScopes_congr fun m hm => ?_).trans (mapScopes_id t)
  cases m with
  | name ident scope =>
    cases scope with
    | tag tag =>
      have := h tag (mem_tags.2 ⟨_, hm, rfl⟩)
      simp only [Mark.map, Scope.retag, this, id]
    | _ => rfl
  | call notes =>
    refine congrArg Mark.call (Notes.retag_of_fixed fun tag htag => h tag ?_)
    refine mem_tags.2 ⟨_, hm, ?_⟩
    simp only [Mark.tag?, Notes.scope?_of_caller htag]

theorem openNodes_retag {t : Tree} : (t.retag ρ).openNodes = [] ↔ t.openNodes = [] := by
  simp only [openNodes_eq_nil, marks_retag, List.forall_mem_map, Mark.isOpen_retag]

theorem macroCalls_retag {R : Registry} {t : Tree} :
    (t.retag ρ).macroCalls R = [] ↔ t.macroCalls R = [] := by
  simp only [macroCalls, retag, nodes_mapScopes (f := Scope.retag ρ) rfl,
    List.filterMap_eq_nil_iff, List.forall_mem_map]
  refine forall_congr' fun n => forall_congr' fun _ => ?_
  rcases n with _ | ⟨_ | _, _, _⟩ | _ | _ | ⟨_, _ | _⟩ | _ <;>
    simp [mapScopes, Registry.macroCall?]

end Tree

/-! ## Derivations -/

/-- An application with its tags renamed. -/
def Transition.retag (ρ : Tag → Tag) (a : Transition) : Transition :=
  { a with
    invocation := a.invocation.retag ρ
    answer := a.answer.retag ρ
    tag := ρ a.tag
    expansion := a.expansion.retag ρ }

/-- The clauses of a registry do not look at tags: with the tags of a macro call renamed, the same
clause takes it and answers the same, renamed. -/
structure Registry.Equivariant (R : Registry) : Prop where
  takes : ∀ {ρ : Tag → Tag}, Function.Injective ρ → ∀ {t c}, R.Takes t c → R.Takes (t.retag ρ) c
  answers : ∀ {ρ : Tag → Tag}, Function.Injective ρ → ∀ {t c a}, R.Takes t c →
    c.transformer.body t = .answer (.tree a) →
    c.transformer.body (t.retag ρ) = .answer (.tree (a.retag ρ))

section
variable {R : Registry} {ρ : Tag → Tag}

theorem Registry.Applies.retag (hR : R.Equivariant) (hρ : Function.Injective ρ) {a : Transition}
    (h : R.Applies a) : R.Applies (a.retag ρ) := by
  obtain ⟨hlookup, hbody, hcaller⟩ := h
  rename_i op args notes clause answer tag caller depth
  have htakes : R.Takes (.call (.symbol op) args notes) clause := .intro hlookup
  have hanswer := hR.answers hρ htakes hbody
  have htakes' := hR.takes hρ htakes
  rw [Tree.retag_call] at hanswer htakes'
  obtain ⟨hlookup'⟩ := htakes'
  simp only [Transition.retag, Tree.retag_call, Tree.retag_resolve]
  exact .intro hlookup' hanswer (Notes.caller_retag hcaller)

theorem Scans.retag {Call Call' : Tree → List Transition → Tree → Prop}
    (hcall : ∀ t as r, Call t as r →
      Call' (t.retag ρ) (as.map (Transition.retag ρ)) (r.retag ρ))
    {ts rs : List Tree} {as : List Transition} (h : Scans R Call ts as rs) :
    Scans R Call' (ts.map (Tree.retag ρ)) (as.map (Transition.retag ρ))
      (rs.map (Tree.retag ρ)) := by
  induction h with
  | nil => exact .nil
  | literal _ ih => exact .literal ih
  | name _ ih => exact .name ih
  | call hop _ _ ihp ih =>
    rw [List.map_cons, List.map_cons, List.map_append, Tree.retag_call, Tree.retag_call]
    exact .call hop ihp ih
  | apply _ _ _ ihh ihp ih =>
    rw [List.map_cons, List.map_cons, List.map_append, List.map_append, Tree.retag_apply,
      Tree.retag_apply]
    exact .apply ihh ihp ih
  | expand hop result _ ih =>
    have hresult := hcall _ _ _ result
    rw [Tree.retag_call] at hresult
    rw [List.map_cons, List.map_cons, List.map_append, Tree.retag_call]
    exact .expand hop hresult ih

theorem Rewrites.retag {Step : Transition → Prop} {mode : Mode}
    (hstep : ∀ a, Step a → Step (a.retag ρ)) :
    ∀ k t as r, Rewrites R Step mode k t as r →
      Rewrites R Step mode k (t.retag ρ) (as.map (Transition.retag ρ)) (r.retag ρ)
  | 0, _, _, _, h => h.elim
  | k + 1, _, _, r, h => by
    obtain ⟨a, bs, rfl, ha, rfl, h⟩ := h
    refine ⟨a.retag ρ, bs.map (Transition.retag ρ), rfl, hstep a ha, rfl, ?_⟩
    cases mode with
    | once =>
      obtain ⟨rfl, rfl⟩ := h
      exact ⟨rfl, rfl⟩
    | recursive => exact Scans.retag (Rewrites.retag hstep k) h

end

/-! ## No tags of one's own -/

theorem exists_fresh (ns : List Int) : ∃ tag : Tag, (tag.number : Int) ∉ ns := by
  refine ⟨⟨(Tree.largest ns).toNat + 1, Nat.succ_pos _⟩, fun h => ?_⟩
  have := Tree.le_largest h
  push_cast at this
  omega

/-- Clauses that do not look at tags bring none of their own. -/
theorem Registry.Equivariant.tags_answer {R : Registry} (hR : R.Equivariant) {t a : Tree}
    {c : Clause} (ht : R.Takes t c) (ha : c.transformer.body t = .answer (.tree a)) {n : Int}
    (hn : n ∈ a.tags) : n ∈ t.tags ∨ n ≤ 0 := by
  by_contra hnot
  rw [not_or, Int.not_le] at hnot
  obtain ⟨hnt, hpos⟩ := hnot
  obtain ⟨tag, rfl⟩ : ∃ tag : Tag, (tag.number : Int) = n :=
    ⟨⟨n.toNat, by omega⟩, Int.toNat_of_nonneg (Int.le_of_lt hpos)⟩
  obtain ⟨fresh, hfresh⟩ := exists_fresh (t.tags ++ a.tags)
  rw [List.mem_append, not_or] at hfresh
  -- exchanging the tag for a fresh one does not change the macro call, so not the answer either
  have hfixed : t.retag (Equiv.swap tag fresh) = t := by
    refine Tree.retag_of_fixed fun u hu => Equiv.swap_apply_of_ne_of_ne ?_ ?_
    · rintro rfl
      exact hnt hu
    · rintro rfl
      exact hfresh.1 hu
  have hanswer := hR.answers (Equiv.swap tag fresh).injective ht ha
  rw [hfixed, ha] at hanswer
  have hsame : a.retag (Equiv.swap tag fresh) = a := by
    injection hanswer with h
    injection h with h
    exact h.symm
  obtain ⟨m, hm, hmn⟩ := Tree.mem_tags.1 hn
  refine hfresh.2 (Tree.mem_tags.2 ⟨m.retag (Equiv.swap tag fresh), ?_, ?_⟩)
  · rw [← hsame, Tree.marks_retag]
    exact List.mem_map_of_mem hm
  · rw [Mark.tag?_retag hmn, Equiv.swap_apply_left]

/-! ## Numbering anew -/

theorem Tag.ext_number {x y : Tag} (h : x.number = y.number) : x = y := by
  cases x
  cases y
  cases h
  rfl

theorem mem_numbered : ∀ {as : List Transition} {n : Nat}, Numbered n as → ∀ {tag : Tag},
    tag ∈ as.map (·.tag) ↔ n < tag.number ∧ tag.number ≤ n + as.length
  | [], n, _, tag => by simp
  | a :: as, n, h, tag => by
    rw [List.map_cons, List.mem_cons, mem_numbered h.2, List.length_cons]
    have htag := h.1
    constructor
    · rintro (rfl | h)
      · omega
      · omega
    · rintro ⟨h1, h2⟩
      by_cases h3 : tag.number = n + 1
      · exact .inl (Tag.ext_number (h3.trans htag.symm))
      · exact .inr ⟨by omega, by omega⟩

theorem nodup_numbered : ∀ {as : List Transition} {n : Nat}, Numbered n as →
    (as.map (·.tag)).Nodup
  | [], _, _ => List.nodup_nil
  | a :: as, n, h => by
    rw [List.map_cons, List.nodup_cons]
    refine ⟨fun ha => ?_, nodup_numbered h.2⟩
    have := (mem_numbered h.2).1 ha
    have := h.1
    omega

/-- The tags of applications can be made consecutive in any order. -/
theorem exists_renumbering {n : Nat} {as bs : List Transition} (hnum : Numbered n as)
    (hperm : bs.Perm as) : ∃ ρ : Tag → Tag, Function.Injective ρ ∧
      (∀ tag : Tag, tag.number ≤ n → ρ tag = tag) ∧ Numbered n (bs.map (Transition.retag ρ)) := by
  have htags : (bs.map (·.tag)).Perm (as.map (·.tag)) := hperm.map _
  have hmem : ∀ tag : Tag, tag ∈ bs.map (·.tag) ↔ n < tag.number ∧ tag.number ≤ n + bs.length := by
    intro tag
    rw [htags.mem_iff, mem_numbered hnum, hperm.length_eq]
  have hnodup : (bs.map (·.tag)).Nodup := htags.nodup_iff.2 (nodup_numbered hnum)
  generalize hL : bs.map (·.tag) = L at hmem hnodup
  have hlen : L.length = bs.length := by rw [← hL, List.length_map]
  refine ⟨fun tag => if tag ∈ L then ⟨n + 1 + L.idxOf tag, by omega⟩ else tag, ?_, ?_, ?_⟩
  · intro x y hxy
    dsimp only at hxy
    by_cases hx : x ∈ L <;> by_cases hy : y ∈ L
    · rw [if_pos hx, if_pos hy, Tag.mk.injEq] at hxy
      exact (List.idxOf_inj hx).1 (by omega)
    · rw [if_pos hx, if_neg hy] at hxy
      have := List.idxOf_lt_length_of_mem hx
      refine absurd ((hmem y).2 ?_) hy
      rw [← hxy]
      dsimp only
      omega
    · rw [if_neg hx, if_pos hy] at hxy
      have := List.idxOf_lt_length_of_mem hy
      refine absurd ((hmem x).2 ?_) hx
      rw [hxy]
      dsimp only
      omega
    · rwa [if_neg hx, if_neg hy] at hxy
  · intro tag htag
    refine if_neg fun h => ?_
    have := (hmem tag).1 h
    omega
  · rw [numbered_iff]
    intro i hi
    rw [List.length_map] at hi
    have hi' : i < L.length := by rwa [hlen]
    have hget : bs[i].tag = L[i] := by simp only [← hL, List.getElem_map]
    simp only [List.getElem_map, Transition.retag, hget, List.getElem_mem, if_true,
      hnodup.idxOf_getElem]
    omega

/-! ## Registries for which the order does not matter -/

/-- Clauses that are functions of the macro call, do not look at tags, and leave no call open for
the caller of the macro. -/
structure Registry.Regular (R : Registry) : Prop extends R.Equivariant where
  functional : R.Functional
  closes : ∀ {t c a}, R.Takes t c → t.openNodes = [] → c.transformer.body t = .answer (.tree a) →
    ∀ m ∈ a.marks, ¬ m.IsCallerCall

theorem Registry.takes_snapshot {R : Registry} {t : Tree} {c : Clause} :
    R.snapshot.Takes t c ↔ R.Takes t c :=
  ⟨fun ⟨h⟩ => ⟨h⟩, fun ⟨h⟩ => ⟨h⟩⟩

theorem Registry.Regular.snapshot {R : Registry} (hR : R.Regular) : R.snapshot.Regular where
  takes hρ _ _ h := takes_snapshot.2 (hR.takes hρ (takes_snapshot.1 h))
  answers hρ _ _ _ h := hR.answers hρ (takes_snapshot.1 h)
  functional t c h := hR.functional t c (takes_snapshot.1 h)
  closes h := hR.closes (takes_snapshot.1 h)

end HygienicMacros
