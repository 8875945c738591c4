import Mathlib.Data.List.Dedup
import Mathlib.Data.List.Nodup
import Mathlib.Data.List.Perm.Subperm
import HygienicMacros.Catalogue
import HygienicMacros.Scope.Flatten
import HygienicMacros.Proofs.Positions

/-! # Plain names are names of their own

Flattening gives every scoped name a plain one. The names it chooses are no names of the source
scope, and different bindings get different ones, whatever the names look like: so two names of the
flattened tree are equal exactly if they were names of the same binding (`flatten_captureFree`).

The search for a name ends since a separator that is not empty makes longer and longer candidates,
and only finitely many names are taken (`freeName_text`). The choices are made one binding after
the other; `Renames.Sound` is what a choice keeps (`Renames.Sound.add`), and so a whole list of them
(`Renames.Sound.addAll`). What the final table promises is `Renaming.Separates`.
-/

namespace HygienicMacros

/-! ## The search for a name -/

/-- The separator of the try after `k` others. -/
def repeated (sep : String) : Nat → String
  | 0 => sep
  | k + 1 => repeated sep k ++ sep

theorem grown_text (sep : String) : ∀ k, grown (.text sep) k = .ok (.text (repeated sep k))
  | 0 => rfl
  | k + 1 => by
    rw [grown, grown_text sep k]
    rfl

theorem length_repeated (sep : String) (k : Nat) :
    (repeated sep k).length = (k + 1) * sep.length := by
  induction k with
  | zero => simp [repeated]
  | succ k ih => rw [repeated, String.length_append, ih, Nat.succ_mul (k + 1)]

section
variable (sep ident : String) (tag : Tag) (taken : List String)

/-- The name that is tried after `k` repetitions of the separator. -/
def triedName (k : Nat) : String := candidateName ident (.text (repeated sep k)) tag

/-- A separator that is not empty makes another name at every try. -/
theorem triedName_injective {sep : String} (hsep : sep ≠ "") {i j : Nat}
    (h : triedName sep ident tag i = triedName sep ident tag j) : i = j := by
  have hpos : 0 < sep.length := by
    rw [Nat.pos_iff_ne_zero]
    exact fun h => hsep (String.length_eq_zero_iff.1 h)
  have hlength := congrArg String.length h
  simp only [triedName, candidateName, Value.display, String.length_append, length_repeated]
    at hlength
  have hmul : (i + 1) * sep.length = (j + 1) * sep.length := by omega
  have := Nat.eq_of_mul_eq_mul_right hpos hmul
  omega

/-- No more names are tried in vain than are taken. -/
theorem le_length_dedup_of_tried {sep : String} (hsep : sep ≠ "") {n : Nat}
    (h : ∀ i < n, triedName sep ident tag i ∈ taken) : n ≤ taken.dedup.length := by
  have hnodup : ((List.range n).map (triedName sep ident tag)).Nodup :=
    List.nodup_range.map fun i j hij => triedName_injective ident tag hsep hij
  have hsub : (List.range n).map (triedName sep ident tag) ⊆ taken.dedup := by
    intro x hx
    obtain ⟨i, hi, rfl⟩ := List.mem_map.1 hx
    exact List.mem_dedup.2 (h i (List.mem_range.1 hi))
  have := (hnodup.subperm hsub).length_le
  rwa [List.length_map, List.length_range] at this

theorem searchName_succ (fuel k : Nat) :
    searchName (.text sep) ident tag taken (fuel + 1) k =
      if triedName sep ident tag k ∈ taken then
        searchName (.text sep) ident tag taken fuel (k + 1)
      else .ok (triedName sep ident tag k, .text (repeated sep k)) := by
  simp only [searchName, grown_text, List.contains_iff_mem]
  rfl

/-- The search finds the first name that is free, unless all its candidates are taken. -/
theorem searchName_cases (fuel k : Nat) :
    (∃ j, searchName (.text sep) ident tag taken fuel k =
        .ok (triedName sep ident tag (k + j), .text (repeated sep (k + j))) ∧
      triedName sep ident tag (k + j) ∉ taken ∧ ∀ i < j, triedName sep ident tag (k + i) ∈ taken) ∨
    searchName (.text sep) ident tag taken fuel k = .error .endlessRenaming ∧
      ∀ i < fuel, triedName sep ident tag (k + i) ∈ taken := by
  induction fuel generalizing k with
  | zero => exact .inr ⟨rfl, fun i hi => absurd hi (Nat.not_lt_zero i)⟩
  | succ fuel ih =>
    rw [searchName_succ]
    by_cases hk : triedName sep ident tag k ∈ taken
    · -- the name after `k` repetitions is taken, and so is each one before the end of the rest
      have hfirst : ∀ n, (∀ i < n, triedName sep ident tag (k + 1 + i) ∈ taken) →
          ∀ i < n + 1, triedName sep ident tag (k + i) ∈ taken := by
        intro n hn i hi
        cases i with
        | zero => exact hk
        | succ i =>
          have := hn i (Nat.lt_of_succ_lt_succ hi)
          rwa [show k + 1 + i = k + (i + 1) by omega] at this
      rw [if_pos hk]
      refine (ih (k + 1)).imp ?_ ?_
      · rintro ⟨j, hj, hfree, hbefore⟩
        refine ⟨j + 1, ?_, ?_, hfirst j hbefore⟩
        · rw [hj, show k + 1 + j = k + (j + 1) by omega]
        · rwa [show k + 1 + j = k + (j + 1) by omega] at hfree
      · exact fun ⟨hend, hall⟩ => ⟨hend, hfirst fuel hall⟩
    · left
      rw [if_neg hk]
      exact ⟨0, rfl, hk, fun i hi => absurd hi (Nat.not_lt_zero i)⟩

theorem freeName_text {sep : String} (hsep : sep ≠ "") :
    ∃ plain current, freeName (.text sep) ident tag taken = .ok (plain, .text current) ∧
      plain ∉ taken := by
  rcases searchName_cases sep ident tag taken (taken.length + 1) 0 with ⟨j, hj, hfree, -⟩ | ⟨-, h⟩
  · exact ⟨_, _, hj, hfree⟩
  · exfalso
    simp only [Nat.zero_add] at h
    have := le_length_dedup_of_tried ident tag taken hsep h
    have := (List.dedup_sublist taken).length_le
    omega

end

/-! ## Choosing names -/

/-- What the choices made so far keep to: the names chosen are taken, no names of the source, and
different for different bindings. -/
structure Renames.Sound (sep : String) (used : List String) (r : Renames) : Prop where
  sep : r.sep = .text sep
  source : ∀ x ∈ used, x ∈ r.taken
  taken : ∀ {ident tag plain}, r.chosen.lookup (ident, tag) = some plain → plain ∈ r.taken
  apart : ∀ {ident tag plain}, r.chosen.lookup (ident, tag) = some plain → plain ∉ used
  injective : ∀ {ident tag ident' tag' plain}, r.chosen.lookup (ident, tag) = some plain →
    r.chosen.lookup (ident', tag') = some plain → ident = ident' ∧ tag = tag'

namespace Renames

variable {sep : String} {used : List String} {r : Renames}

theorem Sound.start (sep : String) (used : List String) :
    (Renames.mk [] used (.text sep)).Sound sep used where
  sep := rfl
  source _ h := h
  taken h := by cases h
  apart h := by cases h
  injective h := by cases h

/-- One name more, if it is free. -/
theorem Sound.choose (h : r.Sound sep used) (ident : String) (tag : Tag) {plain : String}
    (hfree : plain ∉ r.taken) :
    Sound sep used ⟨r.chosen ++ [((ident, tag), plain)], plain :: r.taken, .text sep⟩ := by
  -- an entry of the longer table is an entry of the table, or the new one
  have hfind : ∀ {i t p}, (r.chosen ++ [((ident, tag), plain)]).lookup (i, t) = some p →
      r.chosen.lookup (i, t) = some p ∨ i = ident ∧ t = tag ∧ p = plain := by
    intro i t p hp
    rw [List.lookup_append, Option.or_eq_some_iff] at hp
    rcases hp with hold | ⟨-, hnew⟩
    · exact .inl hold
    · cases List.mem_singleton.1 (mem_of_lookup hnew)
      exact .inr ⟨rfl, rfl, rfl⟩
  constructor
  case sep => rfl
  case source => exact fun x hx => .tail _ (h.source x hx)
  case taken =>
    intro i t p hp
    rcases hfind hp with hp | ⟨-, -, rfl⟩
    · exact .tail _ (h.taken hp)
    · exact .head _
  case apart =>
    intro i t p hp
    rcases hfind hp with hp | ⟨-, -, rfl⟩
    · exact h.apart hp
    · exact fun hused => hfree (h.source p hused)
  case injective =>
    intro i t i' t' p hp hp'
    rcases hfind hp with hold | ⟨hi, ht, hplain⟩
    · rcases hfind hp' with hold' | ⟨-, -, hplain⟩
      · exact h.injective hold hold'
      · exact absurd (hplain ▸ h.taken hold) hfree
    · rcases hfind hp' with hold' | ⟨hi', ht', -⟩
      · exact absurd (hplain ▸ h.taken hold') hfree
      · exact ⟨hi.trans hi'.symm, ht.trans ht'.symm⟩

/-- The later table has what the earlier one has. -/
def Extends (r r' : Renames) : Prop :=
  ∀ ident tag plain, r.chosen.lookup (ident, tag) = some plain →
    r'.chosen.lookup (ident, tag) = some plain

/-- The step lemma: a binding that is not open gets a name, and what was chosen stays. -/
theorem Sound.add (h : r.Sound sep used) (hsep : sep ≠ "") (ident : String) {scope : Scope}
    (hscope : scope.isPending = false) :
    ∃ r', r.add ident scope = .ok r' ∧ r'.Sound sep used ∧ r.Extends r' ∧
      ∀ tag, scope = .tag tag → ∃ plain, r'.chosen.lookup (ident, tag) = some plain := by
  cases scope with
  | source => exact ⟨r, rfl, h, fun _ _ _ h => h, fun tag h => by cases h⟩
  | pending p => cases hscope
  | tag tag =>
    rw [Renames.add]
    cases hold : r.chosen.lookup (ident, tag) with
    | some plain =>
      refine ⟨r, rfl, h, fun _ _ _ h => h, fun tag' htag => ?_⟩
      cases htag
      exact ⟨plain, hold⟩
    | none =>
      obtain ⟨plain, current, hname, hfree⟩ := freeName_text ident tag r.taken hsep
      simp only [h.sep, hname, growth]
      refine ⟨_, rfl, h.choose ident tag hfree, fun i t p hp => ?_, fun tag' htag => ?_⟩
      · simp only [List.lookup_append, hp, Option.some_or]
      · cases htag
        refine ⟨plain, ?_⟩
        simp only [List.lookup_append, hold, Option.none_or, List.lookup_cons_self]

/-- The run lemma: bindings that are not open all get names. -/
theorem Sound.addAll (hsep : sep ≠ "") : ∀ {bindings : List (String × Scope)} {r : Renames},
    r.Sound sep used → (∀ b ∈ bindings, b.2.isPending = false) →
    ∃ r', r.addAll bindings = .ok r' ∧ r'.Sound sep used ∧ r.Extends r' ∧
      ∀ ident tag, (ident, .tag tag) ∈ bindings →
        ∃ plain, r'.chosen.lookup (ident, tag) = some plain
  | [], r, h, _ => ⟨r, rfl, h, fun _ _ _ h => h, fun _ _ h => by cases h⟩
  | (ident, scope) :: rest, r, h, hopen => by
    obtain ⟨r₁, hadd, h₁, hext₁, hnew⟩ := h.add hsep ident (hopen _ (.head _))
    obtain ⟨r₂, haddAll, h₂, hext₂, hall⟩ := Sound.addAll hsep h₁ fun b hb => hopen b (.tail _ hb)
    refine ⟨r₂, ?_, h₂, fun i t p hp => hext₂ i t p (hext₁ i t p hp), fun i t hmem => ?_⟩
    · rw [Renames.addAll, hadd]
      exact haddAll
    · rcases List.mem_cons.1 hmem with heq | hmem
      · cases heq
        obtain ⟨plain, hplain⟩ := hnew t rfl
        exact ⟨plain, hext₂ _ _ _ hplain⟩
      · exact hall i t hmem

/-- The first open binding ends the choices. -/
theorem Sound.addAll_pending (hsep : sep ≠ "") : ∀ {bindings : List (String × Scope)}
    {r : Renames}, r.Sound sep used → (∃ b ∈ bindings, b.2.isPending = true) →
    ∃ node, r.addAll bindings = .error (.invariant (.unresolvedName node))
  | [], _, _, h => by simp at h
  | (ident, scope) :: rest, r, h, hpending => by
    rw [Renames.addAll]
    cases hscope : scope.isPending with
    | true =>
      cases scope with
      | pending p => exact ⟨_, rfl⟩
      | source => cases hscope
      | tag tag => cases hscope
    | false =>
      obtain ⟨r₁, hadd, h₁, -⟩ := h.add hsep ident hscope
      rw [hadd]
      refine Sound.addAll_pending hsep h₁ ?_
      obtain ⟨b, hb, hp⟩ := hpending
      rcases List.mem_cons.1 hb with rfl | hb
      · rw [hscope] at hp
        cases hp
      · exact ⟨b, hb, hp⟩

end Renames

/-! ## Tables of plain names -/

/-- A table of plain names that keeps the bindings of a list apart: it has one for each scoped
binding, and no two bindings end up with the same name. -/
structure Renaming.Separates (ρ : Renaming) (bindings : List (String × Scope)) : Prop where
  covers : ∀ ident tag, (ident, .tag tag) ∈ bindings → ∃ plain, ρ.lookup (ident, tag) = some plain
  apart : ∀ {ident tag plain}, ρ.lookup (ident, tag) = some plain → (plain, .source) ∉ bindings
  injective : ∀ {ident tag ident' tag' plain}, ρ.lookup (ident, tag) = some plain →
    ρ.lookup (ident', tag') = some plain → ident = ident' ∧ tag = tag'

theorem mem_sourceNames {ident : String} {bindings : List (String × Scope)} :
    ident ∈ sourceNames bindings ↔ (ident, .source) ∈ bindings := by
  rw [sourceNames, List.mem_filterMap]
  constructor
  · rintro ⟨⟨i, scope⟩, hmem, h⟩
    cases scope with
    | source => cases h; exact hmem
    | tag tag => cases h
    | pending p => cases h
  · exact fun h => ⟨_, h, rfl⟩

theorem renamingFor_text {sep : String} (hsep : sep ≠ "") {bindings : List (String × Scope)}
    (h : ∀ b ∈ bindings, b.2.isPending = false) :
    ∃ ρ, renamingFor (.text sep) bindings = .ok ρ ∧ ρ.Separates bindings := by
  obtain ⟨r, hr, hsound, -, hcovers⟩ :=
    Renames.Sound.addAll hsep (Renames.Sound.start sep (sourceNames bindings)) h
  refine ⟨r.chosen, by rw [renamingFor, hr]; rfl, hcovers, fun hp hmem => ?_, hsound.injective⟩
  exact hsound.apart hp (mem_sourceNames.2 hmem)

theorem renamingFor_pending {sep : String} (hsep : sep ≠ "") {bindings : List (String × Scope)}
    (h : ∃ b ∈ bindings, b.2.isPending = true) :
    ∃ node, renamingFor (.text sep) bindings = .error (.invariant (.unresolvedName node)) := by
  obtain ⟨node, hnode⟩ :=
    Renames.Sound.addAll_pending hsep (Renames.Sound.start sep (sourceNames bindings)) h
  exact ⟨node, by rw [renamingFor, hnode]; rfl⟩

/-- The plain name of a binding. -/
def Renaming.plain (ρ : Renaming) (ident : String) : Scope → String
  | .tag tag => (ρ.lookup (ident, tag)).getD ident
  | _ => ident

namespace Renaming.Separates

variable {ρ : Renaming} {bindings : List (String × Scope)} {ident ident' : String}
  {scope scope' : Scope}

theorem apply_eq (h : ρ.Separates bindings) (hmem : (ident, scope) ∈ bindings)
    (hscope : scope.isPending = false) :
    ρ.apply ident scope = .name (ρ.plain ident scope) .source := by
  cases scope with
  | source => rfl
  | pending p => cases hscope
  | tag tag =>
    obtain ⟨plain, hplain⟩ := h.covers ident tag hmem
    rw [apply, Renaming.plain, hplain]
    rfl

/-- Different bindings have different plain names. -/
theorem plain_injective (h : ρ.Separates bindings) (hmem : (ident, scope) ∈ bindings)
    (hscope : scope.isPending = false) (hmem' : (ident', scope') ∈ bindings)
    (hscope' : scope'.isPending = false) (heq : ρ.plain ident scope = ρ.plain ident' scope') :
    ident = ident' ∧ scope = scope' := by
  cases scope with
  | pending p => cases hscope
  | source =>
    cases scope' with
    | pending p => cases hscope'
    | source => exact ⟨heq, rfl⟩
    | tag tag' =>
      obtain ⟨plain', hplain'⟩ := h.covers ident' tag' hmem'
      simp only [Renaming.plain, hplain', Option.getD_some] at heq
      exact absurd hmem (heq ▸ h.apart hplain')
  | tag tag =>
    obtain ⟨plain, hplain⟩ := h.covers ident tag hmem
    cases scope' with
    | pending p => cases hscope'
    | source =>
      simp only [Renaming.plain, hplain, Option.getD_some] at heq
      exact absurd hmem' (heq ▸ h.apart hplain)
    | tag tag' =>
      obtain ⟨plain', hplain'⟩ := h.covers ident' tag' hmem'
      simp only [Renaming.plain, hplain, hplain', Option.getD_some] at heq
      obtain ⟨rfl, rfl⟩ := h.injective hplain (heq ▸ hplain')
      exact ⟨rfl, rfl⟩

end Renaming.Separates

/-! ## Flattened trees -/

namespace Tree

theorem mem_bindings {t : Tree} {ident : String} {scope : Scope} :
    (ident, scope) ∈ t.bindings ↔ ∃ p, t.subtree? p = some (.name ident scope) := by
  rw [← mem_nodes_iff, bindings, List.mem_filterMap]
  constructor
  · rintro ⟨u, hu, h⟩
    cases u with
    | name i s => cases h; exact hu
    | _ => cases h
  · exact fun h => ⟨_, h, rfl⟩

theorem not_isPending_of_mem_bindings {t : Tree}
    (h : ∀ p ident pending, t.subtree? p ≠ some (.name ident (.pending pending))) :
    ∀ b ∈ t.bindings, b.2.isPending = false := by
  rintro ⟨ident, scope⟩ hb
  obtain ⟨p, hp⟩ := mem_bindings.1 hb
  cases scope with
  | pending pending => exact absurd hp (h p ident pending)
  | _ => rfl

theorem renameList_eq (ρ : Renaming) (ts : List Tree) : renameList ρ ts = ts.map (rename ρ) := by
  induction ts with
  | nil => rfl
  | cons t ts ih => rw [renameList, ih, List.map_cons]

theorem apply_cases (ρ : Renaming) (ident : String) (scope : Scope) :
    ∃ ident' scope', ρ.apply ident scope = .name ident' scope' := by
  cases scope with
  | tag tag =>
    rw [Renaming.apply]
    cases ρ.lookup (ident, tag) <;> exact ⟨_, _, rfl⟩
  | _ => exact ⟨_, _, rfl⟩

theorem children_rename (ρ : Renaming) (t : Tree) :
    (t.rename ρ).children = t.children.map (rename ρ) := by
  rcases t with _ | ⟨_ | _, _, _⟩ | _ | ⟨ident, scope⟩ | ⟨_, _ | _⟩ | _
  case name =>
    obtain ⟨ident', scope', h⟩ := apply_cases ρ ident scope
    rw [rename, h]
    rfl
  all_goals simp [rename, renameList_eq, children, Renaming.apply]

theorem subtree?_rename (ρ : Renaming) (t : Tree) (p : List Nat) :
    (t.rename ρ).subtree? p = (t.subtree? p).map (rename ρ) :=
  subtree?_map (children_rename ρ) t p

theorem rootLabel_rename (ρ : Renaming) (t : Tree) : (t.rename ρ).rootLabel = t.rootLabel := by
  rcases t with _ | ⟨_ | _, _, _⟩ | _ | ⟨ident, scope⟩ | ⟨_, _ | _⟩ | _
  case name =>
    obtain ⟨ident', scope', h⟩ := apply_cases ρ ident scope
    rw [rename, h]
    rfl
  all_goals rfl

theorem sameShape_rename (ρ : Renaming) (t : Tree) : t.SameShape (t.rename ρ) := by
  intro p
  rw [subtree?_rename, Option.map_map]
  exact congrArg (Option.map · _) (funext (rootLabel_rename ρ))

theorem exists_of_rename_eq_name {ρ : Renaming} {t : Tree} {ident : String} {scope : Scope}
    (h : t.rename ρ = .name ident scope) : ∃ ident' scope', t = .name ident' scope' := by
  rcases t with _ | ⟨_ | _, _, _⟩ | _ | ⟨ident', scope'⟩ | ⟨_, _ | _⟩ | _
  case name => exact ⟨ident', scope', rfl⟩
  all_goals cases h

end Tree

/-- The names of a renamed tree are the plain names. -/
theorem Renaming.Separates.subtree?_name {ρ : Renaming} {t : Tree} (h : ρ.Separates t.bindings)
    (hopen : ∀ b ∈ t.bindings, b.2.isPending = false) {p : List Nat} {ident : String}
    {scope : Scope} (hp : t.subtree? p = some (.name ident scope)) :
    (t.rename ρ).subtree? p = some (.name (ρ.plain ident scope) .source) := by
  have hmem := Tree.mem_bindings.2 ⟨p, hp⟩
  rw [Tree.subtree?_rename, hp, Option.map_some, Tree.rename, h.apply_eq hmem (hopen _ hmem)]

/-- The tree `r` is `t` with plain names: its names are of the source, those that were stay, and two
of them are equal exactly if they were names of the same binding. -/
structure Flattened (t r : Tree) : Prop where
  shape : t.SameShape r
  plain : ∀ p ident scope, r.subtree? p = some (.name ident scope) → scope = .source
  kept : ∀ p ident, t.subtree? p = some (.name ident .source) →
    r.subtree? p = some (.name ident .source)
  same : ∀ p q ident scope ident' scope', t.subtree? p = some (.name ident scope) →
    t.subtree? q = some (.name ident' scope') →
    (r.subtree? p = r.subtree? q ↔
      (Tree.name ident scope).sameBinding (.name ident' scope') = true)

theorem flattened_rename {ρ : Renaming} {t : Tree} (h : ρ.Separates t.bindings)
    (hopen : ∀ b ∈ t.bindings, b.2.isPending = false) : Flattened t (t.rename ρ) := by
  constructor
  case shape => exact Tree.sameShape_rename ρ t
  case plain =>
    intro p ident scope hp
    have hold := Tree.subtree?_rename ρ t p
    rw [hp] at hold
    obtain ⟨u, hu, hren⟩ := Option.map_eq_some_iff.1 hold.symm
    obtain ⟨ident', scope', rfl⟩ := Tree.exists_of_rename_eq_name hren
    rw [h.subtree?_name hopen hu] at hp
    cases hp
    rfl
  case kept => exact fun p ident hp => h.subtree?_name hopen hp
  case same =>
    intro p q ident scope ident' scope' hp hq
    have hmem := Tree.mem_bindings.2 ⟨p, hp⟩
    have hmem' := Tree.mem_bindings.2 ⟨q, hq⟩
    rw [h.subtree?_name hopen hp, h.subtree?_name hopen hq]
    simp only [Tree.sameBinding, Bool.and_eq_true, beq_iff_eq, Option.some.injEq, Tree.name.injEq,
      and_true]
    constructor
    · exact h.plain_injective hmem (hopen _ hmem) hmem' (hopen _ hmem')
    · rintro ⟨rfl, rfl⟩
      rfl

theorem collect_bindings (t : Tree) : (Value.tree t).collect Tree.bindings = .ok t.bindings := by
  simp [Value.collect, Value.forest]

theorem flatten_tree (t : Tree) (sep : Value) :
    (Value.tree t).flatten sep =
      (renamingFor sep t.bindings).map fun ρ => .tree (t.rename ρ) := by
  rw [Value.flatten, collect_bindings]
  change (renamingFor sep t.bindings >>= fun ρ => _) = _
  cases renamingFor sep t.bindings <;> rfl

/-- A tree without open names is renamed by a table that keeps its bindings apart. -/
theorem exists_flatten {t : Tree} {sep : String} (hsep : sep ≠ "")
    (h : ∀ b ∈ t.bindings, b.2.isPending = false) :
    ∃ ρ : Renaming, (Value.tree t).flatten (.text sep) = .ok (.tree (t.rename ρ)) ∧
      ρ.Separates t.bindings := by
  obtain ⟨ρ, hρ, hseparates⟩ := renamingFor_text hsep h
  exact ⟨ρ, by rw [flatten_tree, hρ]; rfl, hseparates⟩

/-- **Flattening captures no name.** A tree is flattened unless one of its names has an open scope,
and then that is the error. -/
theorem flatten_captureFree (t : Tree) {sep : String} (hsep : sep ≠ "") :
    ((∃ e, (Value.tree t).flatten (.text sep) = .error e ∧ e.kind = .invariantViolation) ↔
      ∃ p ident pending, t.subtree? p = some (.name ident (.pending pending))) ∧
    ((∀ p ident pending, t.subtree? p ≠ some (.name ident (.pending pending))) →
      ∃ r, (Value.tree t).flatten (.text sep) = .ok (.tree r) ∧ Flattened t r) := by
  have hflat : (∀ p ident pending, t.subtree? p ≠ some (.name ident (.pending pending))) →
      ∃ r, (Value.tree t).flatten (.text sep) = .ok (.tree r) ∧ Flattened t r := by
    intro h
    have hopen := Tree.not_isPending_of_mem_bindings h
    obtain ⟨ρ, hρ, hseparates⟩ := exists_flatten hsep hopen
    exact ⟨t.rename ρ, hρ, flattened_rename hseparates hopen⟩
  refine ⟨⟨fun ⟨e, he, _⟩ => ?_, fun ⟨p, ident, pending, hp⟩ => ?_⟩, hflat⟩
  · by_contra hno
    push Not at hno
    obtain ⟨r, hr, -⟩ := hflat hno
    rw [hr] at he
    cases he
  · obtain ⟨node, hnode⟩ := renamingFor_pending hsep ⟨_, Tree.mem_bindings.2 ⟨p, hp⟩, rfl⟩
    exact ⟨_, by rw [flatten_tree, hnode]; rfl, rfl⟩

/-- Names whose plain forms run into each other: `x_1` and `x__1` are taken by the source, and `x_`
with the tag 1 looks as `x` with a longer separator. -/
def Catalogue.colliding : Tree :=
  op "+" [.name "x" (.tag ⟨1, Nat.one_pos⟩), var "x_1", .name "x_" (.tag ⟨1, Nat.one_pos⟩),
    .name "x" (.tag ⟨11, Nat.succ_pos 10⟩), .name "x_1" (.tag ⟨1, Nat.one_pos⟩), var "x__1"]

theorem flatten_captureFree_colliding : ∃ r,
    (Value.tree Catalogue.colliding).flatten (.text "_") = .ok (.tree r) ∧
      r.bindings.map (·.1) = ["x___1", "x_1", "x____1", "x_11", "x_1_1", "x__1"] ∧
      Flattened Catalogue.colliding r := by
  obtain ⟨-, h⟩ := flatten_captureFree Catalogue.colliding (show "_" ≠ "" by decide)
  obtain ⟨r, hr, hflat⟩ := h fun p ident pending hp => by
    have hmem := Tree.mem_bindings.2 ⟨p, hp⟩
    simp [Catalogue.colliding, Catalogue.op, Catalogue.var, Tree.bindings, Tree.nodes,
      Tree.nodesList] at hmem
  refine ⟨r, hr, ?_, hflat⟩
  have hnames : (((Value.tree Catalogue.colliding).flatten (.text "_")).bind
      (Value.collect Tree.bindings)).toOption.map (List.map Prod.fst) =
        some ["x___1", "x_1", "x____1", "x_11", "x_1_1", "x__1"] := by decide +kernel
  rw [hr, Except.bind, collect_bindings] at hnames
  exact Option.some.inj hnames

end HygienicMacros
