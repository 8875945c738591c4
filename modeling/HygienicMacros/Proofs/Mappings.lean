import Mathlib.Data.List.Sort
import Mathlib.Data.String.Basic
import HygienicMacros.Catalogue
import HygienicMacros.Proofs.Filling

/-! # What a mapping makes of a template

A template is filled from a `Mapping`: a dictionary of values by target. A value stands for a tree
if it is one, if it is nothing, or if it is the value of a literal. Where every value does, the
mapping is a substitution (`Mapping.exists_substitution`); else the first one that does not is
refused, whatever the template is (`Mapping.substitute_unfit`).

* `substitute_exact`: a template is filled exactly if the mapping has its targets, and the
  placeholders left are those of the values.
* `substitute_composes`: two substitutions are one, and placeholders for themselves change nothing.
* `substitute_hygienic`: it does not matter whether a template is resolved before or after it is
  filled with trees without open scopes.
-/

namespace HygienicMacros

/-! ## Values that stand for trees -/

/-- Whether a value can be put into a template: a tree, nothing, or the value of a literal. -/
def Value.IsPart : Value → Prop
  | .tree _ => True
  | .nothing => True
  | v => v.datum?.isSome = true

theorem Value.isPart_iff {v : Value} : v.IsPart ↔ ∃ t, v.asTree = .ok t := by
  have literal : v.datum?.isSome = true ↔ ∃ t, Tree.literalOf v = .ok t := by
    rw [Tree.literalOf]
    cases v.datum? <;> simp
  cases v with
  | tree t => exact ⟨fun _ => ⟨t, rfl⟩, fun _ => trivial⟩
  | nothing => exact ⟨fun _ => ⟨_, rfl⟩, fun _ => trivial⟩
  | _ => exact literal

/-! ## Mappings -/

/-- Values by target. No target occurs twice. -/
structure Mapping where
  entries : Fields
  distinct : (entries.map (·.1)).Nodup

/-- Fields as they are handed to a substitution. -/
def Fields.arguments (fields : Fields) : List (Value × Value) :=
  fields.map fun (target, v) => (.text target, v)

theorem Value.agrees_text (s t : String) : (Value.text s).agrees (.text t) = (s == t) := by
  simp [Value.agrees, Value.equal, Value.sameNan]

theorem Fields.put_arguments {target : String} {fields : Fields} (v : Value)
    (h : target ∉ fields.map (·.1)) :
    Notes.put (.text target) v fields.arguments = Fields.arguments (fields ++ [(target, v)]) := by
  induction fields with
  | nil => rfl
  | cons field rest ih =>
    rw [List.map_cons, List.mem_cons, not_or] at h
    have hother : (Value.text field.1).agrees (.text target) = false := by
      rw [Value.agrees_text]
      exact beq_false_of_ne (Ne.symm h.1)
    have hput := ih h.2
    unfold Fields.arguments at hput ⊢
    rw [List.map_cons, Notes.put, if_neg (by simp [hother]), hput]
    rfl

theorem Fields.foldl_put_arguments {fields : Fields} (done : Fields)
    (h : ((done ++ fields).map (·.1)).Nodup) :
    fields.arguments.foldl (fun notes (k, v) => Notes.put k v notes) done.arguments =
      Fields.arguments (done ++ fields) := by
  induction fields generalizing done with
  | nil => rw [List.append_nil]; rfl
  | cons field rest ih =>
    have hnew : field.1 ∉ done.map (·.1) := by
      rw [List.map_append, List.map_cons] at h
      exact fun hmem => (List.nodup_append.1 h).2.2 _ hmem _ (.head _) rfl
    rw [List.append_cons] at h ⊢
    have hrest := ih _ h
    rw [← Fields.put_arguments field.2 hnew] at hrest
    exact hrest

/-- Fields whose names are different are all kept. -/
theorem Notes.ofEntries_arguments {fields : Fields} (h : (fields.map (·.1)).Nodup) :
    Notes.ofEntries fields.arguments = fields.arguments :=
  Fields.foldl_put_arguments [] h

namespace Mapping

/-- The targets, in the order in which they were given. -/
def keys (m : Mapping) : List String := m.entries.map (·.1)

/-- The mapping as it is handed to a substitution. -/
def arguments (m : Mapping) : List (Value × Value) := m.entries.arguments

/-- The tree that the value for a target stands for. -/
def part? (m : Mapping) (target : String) : Option Tree :=
  (m.entries.lookup target).bind fun v => v.asTree.toOption

/-- Every value can be put into a template. -/
def Fit (m : Mapping) : Prop := ∀ field ∈ m.entries, field.2.IsPart

end Mapping

namespace Substitution

theorem ofValues_cons (target : String) (v : Value) (rest : Fields) :
    ofValues (Fields.arguments ((target, v) :: rest)) = do
      let t ← tree target v
      let s ← ofValues rest.arguments
      return (target, t) :: s := rfl

/-- Values that stand for trees make a substitution. -/
theorem ofValues_of_parts : ∀ {fields : Fields}, (∀ field ∈ fields, field.2.IsPart) →
    ∃ s, ofValues fields.arguments = .ok s ∧ keys s = fields.map (·.1) ∧
      ∀ target, s.lookup target = (fields.lookup target).bind fun v => v.asTree.toOption
  | [], _ => ⟨[], rfl, rfl, fun _ => rfl⟩
  | (target, v) :: rest, h => by
    obtain ⟨t, ht⟩ := Value.isPart_iff.1 (h _ (.head _))
    obtain ⟨s, hs, hkeys, hfind⟩ := ofValues_of_parts fun field hf => h field (.tail _ hf)
    refine ⟨(target, t) :: s, ?_, congrArg (target :: ·) hkeys, fun other => ?_⟩
    · rw [ofValues_cons, tree, ht, hs]
      rfl
    · rw [List.lookup_cons, List.lookup_cons, hfind]
      cases other == target with
      | true => simp only [Option.bind_some, ht, Except.toOption]
      | false => rfl

/-- The first value that stands for no tree is refused. -/
theorem ofValues_of_unfit (target : String) {v : Value} (hv : ¬ v.IsPart) (after : Fields) :
    ∀ {before : Fields}, (∀ field ∈ before, field.2.IsPart) →
      ofValues (Fields.arguments (before ++ (target, v) :: after)) =
        .error (.unmet (.substitution target) v)
  | [], _ => by
    have herror : tree target v = .error (.unmet (.substitution target) v) := by
      rw [tree]
      cases ht : v.asTree with
      | ok t => exact absurd (Value.isPart_iff.2 ⟨t, ht⟩) hv
      | error e => rfl
    rw [List.nil_append, ofValues_cons, herror]
    rfl
  | (k, w) :: before, h => by
    obtain ⟨t, ht⟩ := Value.isPart_iff.1 (h _ (.head _))
    have hrest := ofValues_of_unfit target hv after fun field hf => h field (.tail _ hf)
    rw [List.cons_append, ofValues_cons, tree, ht, hrest]
    rfl

end Substitution

theorem Value.substitute_tree {entries : List (Value × Value)} {s : Substitution}
    (h : Substitution.ofEntries entries = .ok s) (t : Tree) :
    (Value.tree t).substitute entries = s.provided t.targets (.tree (t.fill s)) := by
  rw [Value.substitute, h]
  change (do return Value.tree (← t.substitute s)) = _
  rw [Tree.substitute_eq, Substitution.map_provided]

namespace Mapping

variable {m : Mapping}

theorem mem_of_part? {target : String} {part : Tree} (h : m.part? target = some part) :
    ∃ field ∈ m.entries, field.2.asTree = .ok part := by
  obtain ⟨v, hv, hpart⟩ := Option.bind_eq_some_iff.1 h
  refine ⟨(target, v), mem_of_lookup hv, ?_⟩
  cases ht : v.asTree with
  | ok t => rw [ht] at hpart; cases hpart; rfl
  | error e => rw [ht] at hpart; cases hpart

/-- Where every value stands for a tree, the mapping is a substitution. -/
theorem exists_substitution (h : m.Fit) : ∃ s, Substitution.ofEntries m.arguments = .ok s ∧
    Substitution.keys s = m.keys ∧ ∀ target, s.lookup target = m.part? target := by
  rw [Substitution.ofEntries, arguments, Notes.ofEntries_arguments m.distinct]
  exact Substitution.ofValues_of_parts h

/-- Where some value does not, the first such value is refused, whatever is to be filled. -/
theorem substitute_unfit (h : ¬ m.Fit) : ∃ before target v after,
    m.entries = before ++ (target, v) :: after ∧ (∀ field ∈ before, field.2.IsPart) ∧
      ¬ v.IsPart ∧ ∀ template : Value,
        template.substitute m.arguments = .error (.unmet (.substitution target) v) := by
  have split : ∀ {fields : Fields}, (¬ ∀ field ∈ fields, field.2.IsPart) →
      ∃ before target v after, fields = before ++ (target, v) :: after ∧
        (∀ field ∈ before, field.2.IsPart) ∧ ¬ v.IsPart := by
    intro fields hunfit
    induction fields with
    | nil => exact absurd (List.forall_mem_nil _) hunfit
    | cons field rest ih =>
      by_cases hfield : field.2.IsPart
      · obtain ⟨before, target, v, after, rfl, hbefore, hv⟩ :=
          ih fun hrest => hunfit (List.forall_mem_cons.2 ⟨hfield, hrest⟩)
        exact ⟨field :: before, target, v, after, rfl,
          List.forall_mem_cons.2 ⟨hfield, hbefore⟩, hv⟩
      · exact ⟨[], field.1, field.2, rest, rfl, List.forall_mem_nil _, hfield⟩
  obtain ⟨before, target, v, after, heq, hbefore, hv⟩ := split h
  refine ⟨before, target, v, after, heq, hbefore, hv, fun template => ?_⟩
  rw [Value.substitute, Substitution.ofEntries, arguments, Notes.ofEntries_arguments m.distinct,
    heq, Substitution.ofValues_of_unfit target hv after hbefore]
  rfl

end Mapping

/-! ## A template is filled from left to right -/

/-- The placeholders of `r` are those of the values that were put into `t`, in the order of the
placeholders of `t`. -/
structure Mapping.Fills (m : Mapping) (t r : Tree) : Prop where
  placeholders : r.placeholders = t.targets.flatMap fun target =>
    ((m.part? target).map Tree.placeholders).getD []
  finished : (∀ target part, m.part? target = some part → part.placeholders = []) →
    r.placeholders = []

/-- The error names the first target of `t` without a value, and the targets there are. -/
inductive Mapping.Misses (m : Mapping) (t : Tree) : Error → Prop
  | intro {before after available : List String} {target : String}
      (first : t.targets = before ++ target :: after) (found : ∀ k ∈ before, k ∈ m.keys)
      (missing : target ∉ m.keys) (all : available.Perm m.keys)
      (ascending : available.Pairwise (· < ·)) :
      m.Misses t (.unresolvedPlaceholder target available)

theorem Mapping.fills_fill {m : Mapping} {t : Tree} {s : Substitution}
    (hfind : ∀ target, s.lookup target = m.part? target)
    (h : ∀ target ∈ t.targets, target ∈ s.keys) : m.Fills t (t.fill s) := by
  have hpart : ∀ target ∈ t.targets,
      (s.part target).placeholders = ((m.part? target).map Tree.placeholders).getD [] := by
    intro target htarget
    rw [← hfind, Substitution.lookup_eq_part (h target htarget)]
    rfl
  have hall : (t.fill s).placeholders = t.targets.flatMap fun target =>
      ((m.part? target).map Tree.placeholders).getD [] := by
    rw [Tree.placeholders_eq, Tree.fill, Tree.targets_plug, List.map_flatMap]
    refine List.flatMap_congr fun target htarget => ?_
    rw [← hpart target htarget, Tree.placeholders_eq]
  refine ⟨hall, fun hclosed => ?_⟩
  rw [hall, List.flatMap_eq_nil_iff]
  intro target _
  cases hp : m.part? target with
  | none => rfl
  | some part => exact hclosed target part hp

theorem Mapping.misses_of_missing {m : Mapping} {t : Tree} {s : Substitution} {target : String}
    (hkeys : s.keys = m.keys) (h : s.missing? t.targets = some target) :
    m.Misses t (.unresolvedPlaceholder target (Text.sorted s.keys)) := by
  obtain ⟨hnone, before, after, hsplit, hbefore⟩ := List.find?_eq_some_iff_append.1 h
  have hnodup : s.keys.Nodup := hkeys ▸ m.distinct
  have hascending := List.sortedLE_mergeSort.sortedLT_of_nodup hnodup.mergeSort
  refine .intro hsplit (fun k hk => ?_) ?_ (hkeys ▸ List.mergeSort_perm _ _) hascending.pairwise
  · rw [← hkeys, Substitution.keys, ← isSome_lookup]
    simpa using hbefore k hk
  · rw [← hkeys, Substitution.keys, ← isSome_lookup, Option.isNone_iff_eq_none.1 hnone]
    decide

/-- **Substitution fills exactly the placeholders of the template.** It succeeds if the mapping has
all targets. The first target it has not, in scan order, is the error, and before that the first
value that stands for no tree. -/
theorem substitute_exact (m : Mapping) :
    (¬ m.Fit → ∃ before target v after, m.entries = before ++ (target, v) :: after ∧
      (∀ field ∈ before, field.2.IsPart) ∧ ¬ v.IsPart ∧
      (Error.unmet (.substitution target) v).kind = .typeFault ∧ ∀ template : Value,
        template.substitute m.arguments = .error (.unmet (.substitution target) v)) ∧
    (m.Fit → ∀ t : Tree,
      ((∃ r, (Value.tree t).substitute m.arguments = .ok r) ↔
        ∀ target ∈ t.targets, target ∈ m.keys) ∧
      (∀ w, (Value.tree t).substitute m.arguments = .ok w → ∃ r, w = .tree r ∧ m.Fills t r) ∧
      ∀ e, (Value.tree t).substitute m.arguments = .error e → m.Misses t e) := by
  refine ⟨fun hunfit => ?_, fun hfit t => ?_⟩
  · obtain ⟨before, target, v, after, heq, hbefore, hv, herror⟩ := m.substitute_unfit hunfit
    exact ⟨before, target, v, after, heq, hbefore, hv, rfl, herror⟩
  · obtain ⟨s, hs, hkeys, hfind⟩ := m.exists_substitution hfit
    rw [Value.substitute_tree hs, Substitution.provided, ← hkeys, ← Substitution.missing?_eq_none]
    cases hmissing : s.missing? t.targets with
    | none =>
      refine ⟨by simp, fun w hw => ?_, fun e he => (by cases he)⟩
      cases hw
      exact ⟨_, rfl, m.fills_fill hfind (Substitution.missing?_eq_none.1 hmissing)⟩
    | some target =>
      refine ⟨by simp, fun w hw => (by cases hw), fun e he => ?_⟩
      cases he
      exact m.misses_of_missing hkeys hmissing

/-- Placeholders in the place of an operator and in a marker are filled too, a target without a
value is reported with those that have one, and a dictionary is refused wherever it would go. -/
theorem substitute_exact_operator :
    (∃ m : Mapping, m.entries = [("y", .int 1), ("x", .tree (.placeholder "y")), ("w", .nothing)] ∧
      (∃ r, (Value.tree (.call (.tree (.placeholder "x"))
          [.placeholder "y", .marker .plain (some (.placeholder "x"))] [])).substitute m.arguments =
            .ok (.tree r) ∧ r.placeholders = [.placeholder "y", .placeholder "y"]) ∧
      m.Misses (Catalogue.op "f" [.placeholder "y", .placeholder "v", .placeholder "u"])
        (.unresolvedPlaceholder "v" ["w", "x", "y"])) ∧
    ∃ m : Mapping, m.entries = [("x", .int 1), ("y", .record []), ("z", .record [])] ∧
      ∀ template : Value,
        template.substitute m.arguments = .error (.unmet (.substitution "y") (.record [])) := by
  refine ⟨⟨⟨[("y", .int 1), ("x", .tree (.placeholder "y")), ("w", .nothing)], by decide⟩, rfl, ?_⟩,
    ⟨[("x", .int 1), ("y", .record []), ("z", .record [])], by decide⟩, rfl, ?_⟩
  · have hfit : Mapping.Fit
        ⟨[("y", .int 1), ("x", .tree (.placeholder "y")), ("w", .nothing)], by decide⟩ := by
      simp [Mapping.Fit, Value.IsPart, Value.datum?]
    constructor
    · obtain ⟨r, hr, hfills⟩ := ((substitute_exact _).2 hfit (.call (.tree (.placeholder "x"))
        [.placeholder "y", .marker .plain (some (.placeholder "x"))] [])).2.1 _ rfl
      cases hr
      exact ⟨_, rfl, hfills.placeholders⟩
    · have hperm : (Text.sorted ["y", "x", "w"]).Perm ["w", "x", "y"] :=
        (List.mergeSort_perm _ _).trans (by decide)
      have hsorted : Text.sorted ["y", "x", "w"] = ["w", "x", "y"] :=
        hperm.eq_of_pairwise' List.sortedLE_mergeSort.pairwise (by decide)
      refine ((substitute_exact _).2 hfit
        (Catalogue.op "f" [.placeholder "y", .placeholder "v", .placeholder "u"])).2.2 _ ?_
      rw [← hsorted]
      rfl
  · have hunfit : ¬ Mapping.Fit
        ⟨[("x", .int 1), ("y", .record []), ("z", .record [])], by decide⟩ := by
      simp [Mapping.Fit, Value.IsPart, Value.datum?]
    obtain ⟨_, target, v, _, -, -, -, -, herror⟩ := (substitute_exact _).1 hunfit
    intro template
    cases herror .nothing
    exact herror template

/-! ## Two substitutions are one -/

namespace Substitution

/-- A substitution with its trees replaced. -/
def mapParts (f : Tree → Tree) (s : Substitution) : Substitution :=
  s.map fun (target, t) => (target, f t)

theorem keys_mapParts (f : Tree → Tree) (s : Substitution) : (s.mapParts f).keys = s.keys := by
  simp [keys, mapParts]

theorem lookup_mapParts (f : Tree → Tree) (s : Substitution) (target : String) :
    (s.mapParts f).lookup target = (s.lookup target).map f :=
  lookup_map f s target

theorem part_mapParts {s : Substitution} {target : String} (f : Tree → Tree)
    (h : target ∈ s.keys) : (s.mapParts f).part target = f (s.part target) := by
  rw [part, lookup_mapParts, lookup_eq_part h]
  rfl

/-- A substitution as a mapping. -/
def toFields (s : Substitution) : Fields := s.map fun (target, t) => (target, .tree t)

theorem ofEntries_toFields {s : Substitution} (h : s.keys.Nodup) :
    ofEntries s.toFields.arguments = .ok s := by
  have hvalues : ∀ s : Substitution, ofValues s.toFields.arguments = .ok s := by
    intro s
    induction s with
    | nil => rfl
    | cons entry rest ih =>
      have hcons : toFields (entry :: rest) = (entry.1, .tree entry.2) :: toFields rest := rfl
      rw [hcons, ofValues_cons, ih]
      rfl
  have hkeys : (s.toFields.map (·.1)).Nodup := by
    simpa [toFields, keys, Function.comp_def] using h
  rw [ofEntries, Notes.ofEntries_arguments hkeys]
  exact hvalues s

end Substitution

/-- Filling twice is filling once, with what the first substitution has filled by the second. -/
theorem Tree.fill_fill {s₁ s₂ : Substitution} {t : Tree}
    (h : ∀ target ∈ t.targets, target ∈ s₁.keys) :
    (t.fill s₁).fill s₂ = t.fill (s₁.mapParts (fill s₂)) := by
  rw [fill, fill, plug_plug]
  exact plug_congr fun target htarget =>
    (Substitution.part_mapParts (fill s₂) (h target htarget)).symm

namespace Mapping

/-- The entries of a mapping, each value filled with another mapping. -/
def filledWith (m₁ m₂ : Mapping) : Except Error (List (Value × Value)) :=
  m₁.entries.mapM fun (target, v) => do
    let part ← v.asTree
    let filled ← (Value.tree part).substitute m₂.arguments
    return (.text target, filled)

theorem filledWith_eq {m₁ m₂ : Mapping} {s₁ s₂ : Substitution}
    (h₁ : Substitution.ofEntries m₁.arguments = .ok s₁)
    (h₂ : Substitution.ofEntries m₂.arguments = .ok s₂)
    (h : ∀ field ∈ m₁.entries, ∀ part, field.2.asTree = .ok part →
      ∀ target ∈ part.targets, target ∈ s₂.keys) :
    m₁.filledWith m₂ = .ok (s₁.mapParts (Tree.fill s₂)).toFields.arguments := by
  rw [Substitution.ofEntries, arguments, Notes.ofEntries_arguments m₁.distinct] at h₁
  unfold filledWith
  generalize m₁.entries = fields at h₁ h
  induction fields generalizing s₁ with
  | nil => cases h₁; rfl
  | cons field rest ih =>
    obtain ⟨target, v⟩ := field
    rw [Substitution.ofValues_cons, Substitution.tree] at h₁
    cases hpart : v.asTree with
    | error e => rw [hpart] at h₁; cases h₁
    | ok part =>
      cases hs : Substitution.ofValues (Fields.arguments rest) with
      | error e => rw [hpart, hs] at h₁; cases h₁
      | ok s =>
        rw [hpart, hs] at h₁
        cases h₁
        have hfilled : (do
            let part ← v.asTree
            let filled ← (Value.tree part).substitute m₂.arguments
            return (Value.text target, filled)) =
              .ok (.text target, .tree (part.fill s₂)) := by
          rw [hpart]
          change ((Value.tree part).substitute m₂.arguments >>= _) = _
          rw [Value.substitute_tree h₂,
            Substitution.provided_of_covers (h _ (.head _) part hpart)]
          rfl
        simp only [List.mapM_cons, hfilled, ih hs fun field hf => h field (.tail _ hf)]
        rfl

end Mapping

/-- **Substitution composes.** Filling a template with one mapping and then with another is filling
it once with the first mapping, whose values are filled with the second; and a placeholder for every
target gives the template back. -/
theorem substitute_composes {m₁ m₂ : Mapping} (h₁ : m₁.Fit) (h₂ : m₂.Fit) (t : Tree) :
    ((∀ target ∈ t.targets, target ∈ m₁.keys) →
      (∀ field ∈ m₁.entries, ∀ part, field.2.asTree = .ok part →
        ∀ target ∈ part.targets, target ∈ m₂.keys) →
      ∃ both r, m₁.filledWith m₂ = .ok both ∧
        ((Value.tree t).substitute m₁.arguments >>= fun v => v.substitute m₂.arguments) =
          .ok (.tree r) ∧
        (Value.tree t).substitute both = .ok (.tree r)) ∧
    ((∀ target ∈ t.targets, m₁.part? target = some (.placeholder target)) →
      (Value.tree t).substitute m₁.arguments = .ok (.tree t)) := by
  obtain ⟨s₁, hs₁, hkeys₁, hfind₁⟩ := m₁.exists_substitution h₁
  obtain ⟨s₂, hs₂, hkeys₂, -⟩ := m₂.exists_substitution h₂
  refine ⟨fun htargets hparts => ?_, fun hself => ?_⟩
  · rw [← hkeys₁] at htargets
    rw [← hkeys₂] at hparts
    have hfilled : ∀ target ∈ (t.fill s₁).targets, target ∈ s₂.keys := by
      intro target htarget
      rw [Tree.fill, Tree.targets_plug, List.mem_flatMap] at htarget
      obtain ⟨k, hk, htarget⟩ := htarget
      have hpart : m₁.part? k = some (s₁.part k) :=
        hfind₁ k ▸ Substitution.lookup_eq_part (htargets k hk)
      obtain ⟨field, hfield, hasTree⟩ := m₁.mem_of_part? hpart
      exact hparts field hfield _ hasTree target htarget
    have hnodup : (s₁.mapParts (Tree.fill s₂)).keys.Nodup := by
      rw [Substitution.keys_mapParts, hkeys₁]
      exact m₁.distinct
    have hboth : ∀ target ∈ t.targets, target ∈ (s₁.mapParts (Tree.fill s₂)).keys := by
      rw [Substitution.keys_mapParts]
      exact htargets
    refine ⟨_, (t.fill s₁).fill s₂, Mapping.filledWith_eq hs₁ hs₂ hparts, ?_, ?_⟩
    · rw [Value.substitute_tree hs₁, Substitution.provided_of_covers htargets]
      change (Value.tree (t.fill s₁)).substitute m₂.arguments = _
      rw [Value.substitute_tree hs₂, Substitution.provided_of_covers hfilled]
    · rw [Value.substitute_tree (Substitution.ofEntries_toFields hnodup),
        Substitution.provided_of_covers hboth, Tree.fill_fill htargets]
  · have hcovers : ∀ target ∈ t.targets, target ∈ s₁.keys := by
      intro target htarget
      rw [Substitution.keys, ← isSome_lookup, hfind₁, hself target htarget]
      rfl
    rw [Value.substitute_tree hs₁, Substitution.provided_of_covers hcovers, Tree.fill,
      Tree.plug_congr (τ := .placeholder), Tree.plug_placeholder]
    intro target htarget
    rw [Substitution.part, hfind₁, hself target htarget]
    rfl

/-- Two placeholders that are swapped twice are back in their places, and so are two that are not
swapped at all. -/
theorem substitute_composes_swapped :
    (∃ m : Mapping, m.entries =
        [("x", .tree (.placeholder "y")), ("y", .tree (.placeholder "x")), ("z", .nothing)] ∧
      ∃ both, m.filledWith m = .ok both ∧
        ((Value.tree (.call (.tree (.placeholder "x"))
            [.placeholder "y", .marker .plain (some (.placeholder "z"))] [])).substitute
            m.arguments >>= fun v => v.substitute m.arguments) =
          .ok (.tree (.call (.tree (.placeholder "x"))
            [.placeholder "y", .marker .plain (some (.literal .nil))] [])) ∧
        (Value.tree (.call (.tree (.placeholder "x"))
            [.placeholder "y", .marker .plain (some (.placeholder "z"))] [])).substitute both =
          .ok (.tree (.call (.tree (.placeholder "x"))
            [.placeholder "y", .marker .plain (some (.literal .nil))] []))) ∧
    ∃ m : Mapping,
      m.entries = [("x", .tree (.placeholder "x")), ("y", .tree (.placeholder "y"))] ∧
      (Value.tree (Catalogue.op "f" [.placeholder "y", .placeholder "x"])).substitute m.arguments =
        .ok (.tree (Catalogue.op "f" [.placeholder "y", .placeholder "x"])) := by
  constructor
  · refine ⟨⟨[("x", .tree (.placeholder "y")), ("y", .tree (.placeholder "x")), ("z", .nothing)],
      by decide⟩, rfl, ?_⟩
    have hfit : Mapping.Fit ⟨[("x", .tree (.placeholder "y")), ("y", .tree (.placeholder "x")),
        ("z", .nothing)], by decide⟩ := by
      simp [Mapping.Fit, Value.IsPart]
    obtain ⟨both, r, hboth, htwice, honce⟩ := (substitute_composes hfit hfit
      (.call (.tree (.placeholder "x"))
        [.placeholder "y", .marker .plain (some (.placeholder "z"))] [])).1 (by decide)
      (by simp [Value.asTree, Mapping.keys])
    cases htwice
    exact ⟨both, hboth, rfl, honce⟩
  · refine ⟨⟨[("x", .tree (.placeholder "x")), ("y", .tree (.placeholder "y"))], by decide⟩, rfl,
      ?_⟩
    have hfit : Mapping.Fit
        ⟨[("x", .tree (.placeholder "x")), ("y", .tree (.placeholder "y"))], by decide⟩ := by
      simp [Mapping.Fit, Value.IsPart]
    refine (substitute_composes hfit hfit
      (Catalogue.op "f" [.placeholder "y", .placeholder "x"])).2 fun target htarget => ?_
    rcases List.mem_cons.1 htarget with rfl | htarget
    · rfl
    · obtain rfl := List.mem_singleton.1 htarget
      rfl

/-! ## Filling and resolving -/

theorem Value.resolve_tree (t : Tree) (tag : Tag) (caller : Option Tag) :
    (Value.tree t).resolve (.int tag.number) (callerScope caller).toValue =
      .ok (.tree (t.resolve tag caller)) := by
  have hof : ∀ u : Tag, Tag.ofInt? u.number = some u := by
    intro u
    have hpos : (0 : Int) < u.number := Int.natCast_pos.2 u.positive
    simp only [Tag.ofInt?, dif_pos hpos, Int.toNat_natCast]
  have htag : Tag.ofValue (.int tag.number) = .ok tag := by
    unfold Tag.ofValue
    simp only [hof]
  have hcaller : callerOfValue (callerScope caller).toValue = .ok caller := by
    cases caller with
    | none => rfl
    | some c =>
      unfold callerOfValue callerScope Scope.toValue
      simp only [hof]
  rw [Value.resolve, htag, hcaller]
  rfl

/-- `r` is the template `q`, its values put in as they are and its own scopes resolved, each at the
position where it stands in `q`. -/
structure Mapping.Instance (m : Mapping) (tag : Tag) (caller : Option Tag) (q r : Tree) : Prop where
  value : ∀ p target, q.subtree? p = some (.placeholder target) → r.subtree? p = m.part? target
  templateName : ∀ p ident, q.subtree? p = some (.name ident (.pending .template)) →
    r.subtree? p = some (.name ident (.tag tag))
  callerName : ∀ p ident, q.subtree? p = some (.name ident (.pending .caller)) →
    r.subtree? p = some (.name ident (callerScope caller))
  settledName : ∀ p ident scope, q.subtree? p = some (.name ident scope) →
    scope.isPending = false → r.subtree? p = some (.name ident scope)
  templateCall : ∀ p head args notes, q.subtree? p = some (.call head args notes) →
    Notes.scope? notes = some (.pending .template) → ∃ head' args',
      r.subtree? p = some (.call head' args' (Notes.set Notes.scopeKey (.int tag.number) notes))
  otherCall : ∀ p head args notes, q.subtree? p = some (.call head args notes) →
    Notes.scope? notes ≠ some (.pending .template) → ∃ head' args',
      r.subtree? p = some (.call head' args' notes)

theorem Mapping.instance_fill {m : Mapping} {s : Substitution} {q : Tree}
    (hfind : ∀ target, s.lookup target = m.part? target)
    (hcovers : ∀ target ∈ q.targets, target ∈ s.keys) (tag : Tag) (caller : Option Tag) :
    m.Instance tag caller q ((q.resolve tag caller).fill s) := by
  have hat : ∀ {p u}, q.subtree? p = some u →
      ((q.resolve tag caller).fill s).subtree? p = some ((u.resolve tag caller).fill s) := by
    intro p u hu
    apply Tree.subtree?_plug
    rw [Tree.subtree?_resolve, hu]
    rfl
  have hcall : ∀ {p head args notes}, q.subtree? p = some (.call head args notes) →
      ∃ head' args', ((q.resolve tag caller).fill s).subtree? p =
        some (.call head' args' (Notes.resolve tag notes)) := by
    intro p head args notes hp
    rw [hat hp]
    cases head with
    | symbol op => exact ⟨_, _, rfl⟩
    | tree f => exact ⟨_, _, rfl⟩
  constructor
  case value =>
    intro p target hp
    have htarget : target ∈ q.targets :=
      List.mem_filterMap.2 ⟨_, Tree.mem_nodes_iff.2 ⟨p, hp⟩, rfl⟩
    rw [hat hp, ← hfind, Substitution.lookup_eq_part (hcovers target htarget)]
    rfl
  case templateName =>
    intro p ident hp
    rw [hat hp]
    rfl
  case callerName =>
    intro p ident hp
    rw [hat hp]
    rfl
  case settledName =>
    intro p ident scope hp hscope
    rw [hat hp]
    cases scope with
    | pending _ => cases hscope
    | _ => rfl
  case templateCall =>
    intro p head args notes hp hscope
    rw [← Notes.resolve_template hscope]
    exact hcall hp
  case otherCall =>
    intro p head args notes hp hscope
    obtain ⟨head', args', hr⟩ := hcall hp
    exact ⟨head', args', Notes.resolve_other hscope ▸ hr⟩

/-- **Resolving commutes with substitution**, where the values have no open scopes. What arrives
through a placeholder is not touched; the names and calls of the template are resolved. -/
theorem substitute_hygienic {m : Mapping} (hfit : m.Fit) (q : Tree)
    (hcovers : ∀ target ∈ q.targets, target ∈ m.keys)
    (hclosed : ∀ target part, m.part? target = some part → part.openNodes = [])
    (tag : Tag) (caller : Option Tag) :
    ∃ r, ((Value.tree q).substitute m.arguments >>= fun v =>
        v.resolve (.int tag.number) (callerScope caller).toValue) = .ok (.tree r) ∧
      ((Value.tree q).resolve (.int tag.number) (callerScope caller).toValue >>= fun v =>
        v.substitute m.arguments) = .ok (.tree r) ∧
      m.Instance tag caller q r := by
  obtain ⟨s, hs, hkeys, hfind⟩ := m.exists_substitution hfit
  rw [← hkeys] at hcovers
  refine ⟨(q.resolve tag caller).fill s, ?_, ?_, m.instance_fill hfind hcovers tag caller⟩
  · -- resolving goes into what was put in, and finds nothing to resolve there
    rw [Value.substitute_tree hs, Substitution.provided_of_covers hcovers]
    show (Value.tree (q.fill s)).resolve _ _ = _
    rw [Value.resolve_tree, Tree.fill, Tree.resolve_plug, Tree.fill]
    congr 2
    refine Tree.plug_congr fun target htarget => ?_
    rw [Tree.targets_resolve] at htarget
    have hpart : m.part? target = some (s.part target) :=
      hfind target ▸ Substitution.lookup_eq_part (hcovers target htarget)
    exact Tree.resolve_of_closed (hclosed target _ hpart) tag caller
  · rw [Value.resolve_tree]
    show (Value.tree (q.resolve tag caller)).substitute m.arguments = _
    rw [Value.substitute_tree hs, Tree.targets_resolve, Substitution.provided_of_covers hcovers]

/-- A tree of the expansion 2 in a template of the expansion 3, called from the expansion 1. -/
theorem substitute_hygienic_tagged :
    ∃ m : Mapping, m.entries = [("f", .tree (.name "x" (.tag ⟨2, by decide⟩))), ("a", .bool true)] ∧
      ∃ r, ((Value.tree (.call (.tree (.placeholder "f")) [.name "x" (.pending .template),
            .placeholder "a", .name "x" (.pending .caller)]
            [(.text "scope", .pending .template)])).substitute m.arguments >>= fun v =>
          v.resolve (.int 3) (.int 1)) = .ok (.tree r) ∧
        r = .call (.tree (.name "x" (.tag ⟨2, by decide⟩))) [.name "x" (.tag ⟨3, by decide⟩),
          Catalogue.truth true, .name "x" (.tag ⟨1, by decide⟩)] [(.text "scope", .int 3)] ∧
        ((Value.tree (.call (.tree (.placeholder "f")) [.name "x" (.pending .template),
            .placeholder "a", .name "x" (.pending .caller)]
            [(.text "scope", .pending .template)])).resolve (.int 3) (.int 1) >>= fun v =>
          v.substitute m.arguments) = .ok (.tree r) := by
  refine ⟨⟨[("f", .tree (.name "x" (.tag ⟨2, by decide⟩))), ("a", .bool true)], by decide⟩, rfl, ?_⟩
  have hfit : Mapping.Fit ⟨[("f", .tree (.name "x" (.tag ⟨2, by decide⟩))), ("a", .bool true)],
      by decide⟩ := by
    simp [Mapping.Fit, Value.IsPart, Value.datum?]
  have hclosed : ∀ target part, Mapping.part?
      ⟨[("f", .tree (.name "x" (.tag ⟨2, by decide⟩))), ("a", .bool true)], by decide⟩ target =
        some part → part.openNodes = [] := by
    intro target part h
    obtain ⟨field, hfield, hpart⟩ := Mapping.mem_of_part? h
    rcases List.mem_cons.1 hfield with rfl | hfield
    · cases hpart
      rfl
    · obtain rfl := List.mem_singleton.1 hfield
      cases hpart
      rfl
  obtain ⟨r, hfirst, hsecond, -⟩ := substitute_hygienic hfit
    (.call (.tree (.placeholder "f")) [.name "x" (.pending .template), .placeholder "a",
      .name "x" (.pending .caller)] [(.text "scope", .pending .template)]) (by decide) hclosed
    ⟨3, by decide⟩ (some ⟨1, by decide⟩)
  cases hfirst
  exact ⟨_, rfl, rfl, hsecond⟩

end HygienicMacros
