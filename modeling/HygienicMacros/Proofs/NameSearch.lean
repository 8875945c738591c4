import Mathlib.Logic.Relation
import HygienicMacros.Proofs.Flattening

/-! # The search for plain names ends

Plain names are chosen in a loop that has no bound of its own: while a name is taken, the separator
is repeated and the next one is tried. `RenamingLoop` is this loop, step by step, and
`RenamingLoop.Halts` says that it comes to its end.

The search that is run tries as many names as are taken, and one more. That is enough: it ends as
the loop does, and where it gives up the loop is caught in a state that it never leaves
(`RenamingLoop.addAll_ends`). With a separator that is not empty every try is a new name, so that
the repetitions are bounded by the names that are taken. With the empty separator every try is
the same name, so that the loop ends exactly if no two bindings and no name of the source are
spelled alike (`flatten_terminates`).
-/

namespace HygienicMacros

/-- A spelling and a tag without anything between them. -/
def joinedName (ident : String) (tag : Tag) : String := ident ++ toString tag.number

/-! ## The loop -/

/-- The loop between two of its steps: the bindings it has still to look at, how often the
separator was repeated for the first of them, the names chosen so far and all names taken. -/
structure RenamingLoop where
  todo : List (String × Scope)
  repeats : Nat
  chosen : Renaming
  taken : List String

namespace RenamingLoop

/-- The loop before its first step. -/
def start (bindings : List (String × Scope)) : RenamingLoop :=
  ⟨bindings, 0, [], sourceNames bindings⟩

/-- One step: a binding of the source or one that has its name is passed over, a name that is taken
makes the separator longer, and a name that is free is chosen. -/
inductive Step (sep : String) : RenamingLoop → RenamingLoop → Prop
  | source {ident rest chosen taken} :
      Step sep ⟨(ident, .source) :: rest, 0, chosen, taken⟩ ⟨rest, 0, chosen, taken⟩
  | known {ident tag rest chosen taken plain} (found : chosen.lookup (ident, tag) = some plain) :
      Step sep ⟨(ident, .tag tag) :: rest, 0, chosen, taken⟩ ⟨rest, 0, chosen, taken⟩
  | again {ident tag rest k chosen taken} (new : chosen.lookup (ident, tag) = none)
      (used : triedName sep ident tag k ∈ taken) :
      Step sep ⟨(ident, .tag tag) :: rest, k, chosen, taken⟩
        ⟨(ident, .tag tag) :: rest, k + 1, chosen, taken⟩
  | choose {ident tag rest k chosen taken} (new : chosen.lookup (ident, tag) = none)
      (free : triedName sep ident tag k ∉ taken) :
      Step sep ⟨(ident, .tag tag) :: rest, k, chosen, taken⟩
        ⟨rest, 0, chosen ++ [((ident, tag), triedName sep ident tag k)],
          triedName sep ident tag k :: taken⟩

/-- The second state comes after the first, in any number of steps. -/
abbrev Reaches (sep : String) : RenamingLoop → RenamingLoop → Prop :=
  Relation.ReflTransGen (Step sep)

/-- The loop comes to the end of the bindings. -/
def Halts (sep : String) (s : RenamingLoop) : Prop := ∃ s', Reaches sep s s' ∧ s'.todo = []

/-- Every name for the first binding is taken, however often the separator is repeated. -/
def Caught (sep : String) (s : RenamingLoop) : Prop :=
  ∃ ident tag rest, s.todo = (ident, .tag tag) :: rest ∧
    s.chosen.lookup (ident, tag) = none ∧ ∀ k, triedName sep ident tag k ∈ s.taken

variable {sep : String} {s s' : RenamingLoop}

theorem Step.unique {s₁ s₂ : RenamingLoop} (h₁ : Step sep s s₁) (h₂ : Step sep s s₂) : s₁ = s₂ := by
  cases h₁ <;> cases h₂ <;> simp_all

theorem Step.todo_ne_nil (h : Step sep s s') : s.todo ≠ [] := by
  cases h <;> exact List.cons_ne_nil _ _

theorem Step.caught (h : Step sep s s') (hcaught : s.Caught sep) : s'.Caught sep := by
  obtain ⟨ident, tag, rest, htodo, hnew, hused⟩ := hcaught
  cases h with
  | source => cases htodo
  | known found =>
    cases htodo
    rw [hnew] at found
    cases found
  | again => exact ⟨ident, tag, rest, htodo, hnew, hused⟩
  | choose new free =>
    cases htodo
    exact absurd (hused _) free

theorem Reaches.caught (h : Reaches sep s s') (hcaught : s.Caught sep) : s'.Caught sep := by
  induction h with
  | refl => exact hcaught
  | tail _ hstep ih => exact hstep.caught ih

/-- At the end the loop stays where it is. -/
theorem Reaches.eq_of_nil (h : Reaches sep s s') (hend : s.todo = []) : s' = s := by
  cases h.cases_head with
  | inl heq => exact heq.symm
  | inr hstep => exact absurd hend hstep.choose_spec.1.todo_ne_nil

/-- Two states of one run: one of them comes after the other. -/
theorem Reaches.total {s₁ s₂ : RenamingLoop} (h₁ : Reaches sep s s₁) (h₂ : Reaches sep s s₂) :
    Reaches sep s₁ s₂ ∨ Reaches sep s₂ s₁ :=
  Relation.ReflTransGen.total_of_right_unique (fun _ _ _ => Step.unique) h₁ h₂

/-- The run has one end. -/
theorem Reaches.eq_of_ends {s₁ s₂ : RenamingLoop} (h₁ : Reaches sep s s₁) (hend₁ : s₁.todo = [])
    (h₂ : Reaches sep s s₂) (hend₂ : s₂.todo = []) : s₁ = s₂ := by
  rcases h₁.total h₂ with h | h
  · exact (h.eq_of_nil hend₁).symm
  · exact h.eq_of_nil hend₂

theorem not_halts_of_caught (h : Reaches sep s s') (hcaught : s'.Caught sep) : ¬ s.Halts sep := by
  rintro ⟨e, he, hend⟩
  have hreach : e.Caught sep := by
    rcases he.total h with h' | h'
    · exact h'.eq_of_nil hend ▸ hcaught
    · exact h'.caught hcaught
  obtain ⟨ident, tag, rest, htodo, -⟩ := hreach
  rw [hend] at htodo
  cases htodo

/-! ## The loop and the search -/

theorem repeated_empty (k : Nat) : repeated "" k = "" := by
  induction k with
  | zero => rfl
  | succ k ih => rw [repeated, ih]; rfl

/-- With the empty separator every try is the same. -/
theorem triedName_empty (ident : String) (tag : Tag) (k : Nat) :
    triedName "" ident tag k = joinedName ident tag := by
  rw [triedName, repeated_empty, candidateName, Value.display, String.append_empty, joinedName]

/-- The search gives up only if the name is taken at every try. -/
theorem freeName_cases (sep ident : String) (tag : Tag) (taken : List String) :
    (∃ k, freeName (.text sep) ident tag taken =
        .ok (triedName sep ident tag k, .text (repeated sep k)) ∧
      triedName sep ident tag k ∉ taken ∧ ∀ i < k, triedName sep ident tag i ∈ taken) ∨
    freeName (.text sep) ident tag taken = .error .endlessRenaming ∧
      ∀ k, triedName sep ident tag k ∈ taken := by
  refine (searchName_cases sep ident tag taken (taken.length + 1) 0).imp ?_ ?_
  · rintro ⟨k, hk⟩
    simp only [Nat.zero_add] at hk
    exact ⟨k, hk⟩
  · rintro ⟨hend, hused⟩
    refine ⟨hend, fun k => ?_⟩
    by_cases hsep : sep = ""
    · subst hsep
      have := hused 0 (Nat.succ_pos _)
      rwa [triedName_empty] at this ⊢
    · obtain ⟨plain, current, hplain, -⟩ := freeName_text ident tag taken hsep
      rw [freeName, hend] at hplain
      cases hplain

/-- The loop repeats the separator as long as names are taken. -/
theorem reaches_again {ident : String} {tag : Tag} {rest : List (String × Scope)}
    {chosen : Renaming} {taken : List String} (hnew : chosen.lookup (ident, tag) = none) {k : Nat}
    (hused : ∀ i < k, triedName sep ident tag i ∈ taken) :
    Reaches sep ⟨(ident, .tag tag) :: rest, 0, chosen, taken⟩
      ⟨(ident, .tag tag) :: rest, k, chosen, taken⟩ := by
  induction k with
  | zero => exact .refl
  | succ k ih =>
    exact (ih fun i hi => hused i (Nat.lt_succ_of_lt hi)).tail
      (.again hnew (hused k (Nat.lt_succ_self k)))

/-- The outcome of some choices, from a state of the loop on: they are those that the loop has made
at its end, or there is no outcome and the loop is caught. -/
inductive Ends (sep : String) (s : RenamingLoop) : Except Error Renames → Prop
  | done {r : Renames} (reaches : Reaches sep s ⟨[], 0, r.chosen, r.taken⟩) : Ends sep s (.ok r)
  | endless {s' : RenamingLoop} (reaches : Reaches sep s s') (caught : s'.Caught sep) :
      Ends sep s (.error .endlessRenaming)

theorem Ends.of_reaches {outcome : Except Error Renames} (h : Reaches sep s s')
    (hends : Ends sep s' outcome) : Ends sep s outcome := by
  cases hends with
  | done hreach => exact .done (h.trans hreach)
  | endless hreach hcaught => exact .endless (h.trans hreach) hcaught

/-- The choices that are made are those of the loop. -/
theorem addAll_ends : ∀ {bindings : List (String × Scope)} {r : Renames}, r.sep = .text sep →
    (∀ b ∈ bindings, b.2.isPending = false) →
    Ends sep ⟨bindings, 0, r.chosen, r.taken⟩ (r.addAll bindings)
  | [], r, _, _ => .done .refl
  | (ident, scope) :: rest, r, hsep, hopen => by
    have hrest := fun b hb => hopen b (List.mem_cons_of_mem _ hb)
    rw [Renames.addAll]
    cases scope with
    | source => exact (addAll_ends hsep hrest).of_reaches (.single .source)
    | pending p => cases hopen _ (.head _)
    | tag tag =>
      rw [Renames.add]
      cases hfind : r.chosen.lookup (ident, tag) with
      | some plain => exact (addAll_ends hsep hrest).of_reaches (.single (.known hfind))
      | none =>
        rw [hsep]
        rcases freeName_cases sep ident tag r.taken with ⟨k, hname, hfree, hused⟩ | ⟨hend, hused⟩
        · rw [hname]
          refine (addAll_ends rfl hrest).of_reaches ?_
          exact (reaches_again hfind hused).tail (.choose hfind hfree)
        · rw [hend]
          exact .endless .refl ⟨ident, tag, rest, rfl, hfind, hused⟩

theorem Ends.halts_iff {outcome : Except Error Renames} (h : Ends sep s outcome) :
    s.Halts sep ↔ ∃ r, outcome = .ok r := by
  cases h with
  | done hreach => exact ⟨fun _ => ⟨_, rfl⟩, fun _ => ⟨_, hreach, rfl⟩⟩
  | endless hreach hcaught =>
    have hnot := not_halts_of_caught hreach hcaught
    exact ⟨fun hhalts => absurd hhalts hnot, fun ⟨_, h⟩ => by cases h⟩

/-! ## Repetitions -/

/-- The names tried for the first binding are all taken. -/
def Trying (sep : String) (s : RenamingLoop) : Prop :=
  s.repeats = 0 ∨ ∃ ident tag rest, s.todo = (ident, .tag tag) :: rest ∧
    ∀ i < s.repeats, triedName sep ident tag i ∈ s.taken

/-- The step lemma. -/
theorem Trying.step (h : s.Trying sep) (hstep : Step sep s s') : s'.Trying sep := by
  cases hstep with
  | source => exact .inl rfl
  | known => exact .inl rfl
  | choose => exact .inl rfl
  | @again ident tag rest k chosen taken new used =>
    refine .inr ⟨ident, tag, rest, rfl, fun i hi => ?_⟩
    rcases Nat.lt_succ_iff_lt_or_eq.1 hi with hlt | rfl
    · obtain hzero | ⟨ident', tag', rest', htodo, hused⟩ := h
      · exact absurd (hzero ▸ hlt) (Nat.not_lt_zero i)
      · cases htodo
        exact hused i hlt
    · exact used

/-- The run lemma: the separator is never repeated more often than there are names taken. -/
theorem Reaches.repeats_le (hsep : sep ≠ "") (h : Reaches sep s s') (hs : s.repeats = 0) :
    s'.repeats ≤ s'.taken.dedup.length := by
  have htrying : s'.Trying sep := by
    induction h with
    | refl => exact .inl hs
    | tail _ hstep ih => exact ih.step hstep
  obtain hzero | ⟨ident, tag, rest, -, hused⟩ := htrying
  · exact hzero ▸ Nat.zero_le _
  · exact le_length_dedup_of_tried ident tag s'.taken hsep hused

end RenamingLoop

/-! ## The empty separator -/

/-- The scoped bindings of a list, spelled together with their tags, are different from each other
and from the names of the source. -/
structure JoinedApart (bindings : List (String × Scope)) : Prop where
  different : ∀ ident tag ident' tag', (ident, .tag tag) ∈ bindings →
    (ident', .tag tag') ∈ bindings → (ident, tag) ≠ (ident', tag') →
    joinedName ident tag ≠ joinedName ident' tag'
  unscoped : ∀ ident tag name, (ident, .tag tag) ∈ bindings → (name, .source) ∈ bindings →
    joinedName ident tag ≠ name

namespace Renames

/-- There is room for the bindings that have no name yet: their joined names are not taken, and
different from each other. -/
structure HasRoom (r : Renames) (bindings : List (String × Scope)) : Prop where
  free : ∀ ident tag, (ident, .tag tag) ∈ bindings → r.chosen.lookup (ident, tag) = none →
    joinedName ident tag ∉ r.taken
  different : ∀ ident tag ident' tag', (ident, .tag tag) ∈ bindings →
    (ident', .tag tag') ∈ bindings → r.chosen.lookup (ident, tag) = none →
    r.chosen.lookup (ident', tag') = none → (ident, tag) ≠ (ident', tag') →
    joinedName ident tag ≠ joinedName ident' tag'

variable {r : Renames} {ident : String} {tag : Tag} {rest : List (String × Scope)}

/-- A binding that needs no name takes no room. -/
theorem hasRoom_cons_of_named {scope : Scope}
    (h : ∀ tag, scope = .tag tag → r.chosen.lookup (ident, tag) ≠ none) :
    r.HasRoom ((ident, scope) :: rest) ↔ r.HasRoom rest := by
  have hmem : ∀ {i t}, r.chosen.lookup (i, t) = none →
      ((i, Scope.tag t) ∈ (ident, scope) :: rest ↔ (i, Scope.tag t) ∈ rest) := by
    intro i t hnew
    rw [List.mem_cons, or_iff_right]
    intro heq
    cases heq
    exact h t rfl hnew
  constructor
  · intro hroom
    constructor
    case free => exact fun i t hi hnew => hroom.free i t ((hmem hnew).2 hi) hnew
    case different =>
      intro i t i' t' hi hi' hnew hnew'
      exact hroom.different i t i' t' ((hmem hnew).2 hi) ((hmem hnew').2 hi') hnew hnew'
  · intro hroom
    constructor
    case free => exact fun i t hi hnew => hroom.free i t ((hmem hnew).1 hi) hnew
    case different =>
      intro i t i' t' hi hi' hnew hnew'
      exact hroom.different i t i' t' ((hmem hnew).1 hi) ((hmem hnew').1 hi') hnew hnew'

/-- The choices with the joined name of one more binding. -/
def join (r : Renames) (ident : String) (tag : Tag) : Renames :=
  ⟨r.chosen ++ [((ident, tag), joinedName ident tag)], joinedName ident tag :: r.taken, .text ""⟩

theorem lookup_join (i : String) (t : Tag) : (r.join ident tag).chosen.lookup (i, t) = none ↔
    r.chosen.lookup (i, t) = none ∧ (ident, tag) ≠ (i, t) := by
  rw [join, List.lookup_append, Option.or_eq_none_iff]
  refine and_congr_right' ?_
  rw [List.lookup_eq_none_iff, List.forall_mem_singleton, bne_iff_ne, ne_comm]

/-- A new binding takes its joined name, which has to be free, and leaves the others their room. -/
theorem hasRoom_cons_of_new (hnew : r.chosen.lookup (ident, tag) = none) :
    r.HasRoom ((ident, .tag tag) :: rest) ↔
      joinedName ident tag ∉ r.taken ∧ (r.join ident tag).HasRoom rest := by
  constructor
  · intro hroom
    refine ⟨hroom.free ident tag (.head _) hnew, ?_⟩
    constructor
    case free =>
      intro i t hi hi'
      obtain ⟨hold, hne⟩ := (lookup_join i t).1 hi'
      have hdifferent := hroom.different ident tag i t (.head _) (.tail _ hi) hnew hold hne
      rw [join, List.mem_cons, not_or]
      exact ⟨hdifferent.symm, hroom.free i t (.tail _ hi) hold⟩
    case different =>
      intro i t i' t' hi hi' hn hn'
      exact hroom.different i t i' t' (.tail _ hi) (.tail _ hi') ((lookup_join i t).1 hn).1
        ((lookup_join i' t').1 hn').1
  · rintro ⟨hfree, hroom⟩
    -- a binding of the rest that is not the new one has room beside it
    have hbeside : ∀ i t, (i, Scope.tag t) ∈ (ident, Scope.tag tag) :: rest →
        r.chosen.lookup (i, t) = none → (ident, tag) ≠ (i, t) →
        (i, Scope.tag t) ∈ rest ∧ (r.join ident tag).chosen.lookup (i, t) = none ∧
          joinedName i t ≠ joinedName ident tag ∧ joinedName i t ∉ r.taken := by
      intro i t hi hold hne
      have hrest : (i, Scope.tag t) ∈ rest := by
        rcases List.mem_cons.1 hi with heq | hrest
        · cases heq
          exact absurd rfl hne
        · exact hrest
      have hlater := (lookup_join i t).2 ⟨hold, hne⟩
      have := hroom.free i t hrest hlater
      rw [join, List.mem_cons, not_or] at this
      exact ⟨hrest, hlater, this⟩
    constructor
    case free =>
      intro i t hi hold
      by_cases heq : (ident, tag) = (i, t)
      · cases heq
        exact hfree
      · exact (hbeside i t hi hold heq).2.2.2
    case different =>
      intro i t i' t' hi hi' hold hold' hne
      by_cases heq : (ident, tag) = (i, t)
      · cases heq
        exact (hbeside i' t' hi' hold' hne).2.2.1.symm
      · obtain ⟨hrest, hlater, hapart, -⟩ := hbeside i t hi hold heq
        by_cases heq' : (ident, tag) = (i', t')
        · cases heq'
          exact hapart
        · obtain ⟨hrest', hlater', -⟩ := hbeside i' t' hi' hold' heq'
          exact hroom.different i t i' t' hrest hrest' hlater hlater' hne

/-- With the empty separator names are found exactly if there is room for them. -/
theorem addAll_empty {bindings : List (String × Scope)} {r : Renames} (hsep : r.sep = .text "")
    (hopen : ∀ b ∈ bindings, b.2.isPending = false) :
    (∃ r', r.addAll bindings = .ok r') ↔ r.HasRoom bindings := by
  induction bindings generalizing r with
  | nil =>
    refine ⟨fun _ => ?_, fun _ => ⟨r, rfl⟩⟩
    constructor
    case free => exact fun _ _ h => by cases h
    case different => exact fun _ _ _ _ h => by cases h
  | cons b rest ih =>
    obtain ⟨ident, scope⟩ := b
    have hrest := fun b hb => hopen b (List.mem_cons_of_mem _ hb)
    cases scope with
    | pending p => cases hopen _ (.head _)
    | source =>
      rw [hasRoom_cons_of_named fun tag h => by cases h]
      exact ih hsep hrest
    | tag tag =>
      rw [Renames.addAll, Renames.add]
      cases hfind : r.chosen.lookup (ident, tag) with
      | some plain =>
        rw [hasRoom_cons_of_named fun t ht => by cases ht; simp [hfind]]
        exact ih hsep hrest
      | none =>
        rw [hasRoom_cons_of_new hfind, hsep]
        rcases RenamingLoop.freeName_cases "" ident tag r.taken with
          ⟨k, hname, hfree, -⟩ | ⟨hend, hused⟩
        · rw [RenamingLoop.triedName_empty] at hname hfree
          rw [hname, and_iff_right hfree]
          exact ih rfl hrest
        · have htaken := hused 0
          rw [RenamingLoop.triedName_empty] at htaken
          rw [hend]
          constructor
          · rintro ⟨_, h⟩
            cases h
          · exact fun h => absurd htaken h.1

end Renames

/-- No choices yet: only the names of the source are taken. -/
def Renames.start (sep : String) (bindings : List (String × Scope)) : Renames :=
  ⟨[], sourceNames bindings, .text sep⟩

theorem Renames.hasRoom_start (sep : String) (bindings : List (String × Scope)) :
    (start sep bindings).HasRoom bindings ↔ JoinedApart bindings := by
  constructor
  · intro hroom
    constructor
    case different =>
      exact fun i t i' t' hi hi' => hroom.different i t i' t' hi hi' rfl rfl
    case unscoped =>
      rintro i t name hi hname rfl
      exact hroom.free i t hi rfl (mem_sourceNames.2 hname)
  · intro hapart
    constructor
    case free =>
      exact fun i t hi _ hmem => hapart.unscoped i t _ hi (mem_sourceNames.1 hmem) rfl
    case different => exact fun i t i' t' hi hi' _ _ => hapart.different i t i' t' hi hi'

/-! ## Flattened trees -/

/-- **The search for plain names ends** unless the separator is empty and names that have to be
different are spelled alike; flattening returns what the loop has chosen, and fails if the loop
does not end. With a separator that is not empty no search repeats it more often than there are
names taken. -/
theorem flatten_terminates (t : Tree) (sep : String)
    (h : ∀ p ident pending, t.subtree? p ≠ some (.name ident (.pending pending))) :
    ((RenamingLoop.start t.bindings).Halts sep ↔
      sep ≠ "" ∨ sep = "" ∧ JoinedApart t.bindings) ∧
    (∀ s, RenamingLoop.Reaches sep (.start t.bindings) s → s.todo = [] →
      (Value.tree t).flatten (.text sep) = .ok (.tree (t.rename s.chosen))) ∧
    (¬ (RenamingLoop.start t.bindings).Halts sep →
      (Value.tree t).flatten (.text sep) = .error .endlessRenaming) ∧
    (sep ≠ "" → ∀ s, RenamingLoop.Reaches sep (.start t.bindings) s →
      s.repeats ≤ s.taken.dedup.length) := by
  have hopen := Tree.not_isPending_of_mem_bindings h
  have hflatten : (Value.tree t).flatten (.text sep) =
      ((Renames.start sep t.bindings).addAll t.bindings).map fun r =>
        .tree (t.rename r.chosen) := by
    rw [flatten_tree, renamingFor, Renames.start]
    cases (Renames.mk [] (sourceNames t.bindings) (.text sep)).addAll t.bindings <;> rfl
  have hends : RenamingLoop.Ends sep (.start t.bindings)
      ((Renames.start sep t.bindings).addAll t.bindings) :=
    RenamingLoop.addAll_ends (r := .start sep t.bindings) rfl hopen
  refine ⟨?_, fun s hreach hdone => ?_, fun hendless => ?_, fun hsep s hreach => ?_⟩
  · rw [hends.halts_iff]
    by_cases hempty : sep = ""
    · subst hempty
      rw [Renames.addAll_empty rfl hopen, Renames.hasRoom_start]
      simp
    · obtain ⟨r, hr, -⟩ :=
        Renames.Sound.addAll hempty (Renames.Sound.start sep (sourceNames t.bindings)) hopen
      exact ⟨fun _ => .inl hempty, fun _ => ⟨r, hr⟩⟩
  · obtain ⟨r, hr⟩ := hends.halts_iff.1 ⟨s, hreach, hdone⟩
    rw [hr] at hends hflatten
    cases hends with
    | done hreach' =>
      rw [hflatten, hreach.eq_of_ends hdone hreach' rfl]
      rfl
  · rw [hflatten]
    generalize (Renames.start sep t.bindings).addAll t.bindings = outcome at hends
    cases hends with
    | done hreach => exact absurd ⟨_, hreach, rfl⟩ hendless
    | endless _ _ => rfl
  · exact hreach.repeats_le hsep rfl

/-- Without a separator `x_` with the tag 1 looks as `x_1`, which is taken: that search never ends,
while `x` with a tag beside `x` is no trouble. -/
theorem flatten_terminates_colliding :
    (RenamingLoop.start Catalogue.colliding.bindings).Halts "_" ∧
    ¬ (RenamingLoop.start Catalogue.colliding.bindings).Halts "" ∧
    (Value.tree Catalogue.colliding).flatten (.text "") = .error .endlessRenaming ∧
    (RenamingLoop.start [("x", .tag ⟨1, Nat.one_pos⟩), ("x", .source)]).Halts "" := by
  have hclosed : ∀ {t : Tree}, (∀ b ∈ t.bindings, b.2.isPending = false) →
      ∀ p ident pending, t.subtree? p ≠ some (.name ident (.pending pending)) := by
    intro t ht p ident pending hp
    cases ht _ (Tree.mem_bindings.2 ⟨p, hp⟩)
  have hcolliding := hclosed (show ∀ b ∈ Catalogue.colliding.bindings, _ by decide)
  obtain ⟨hunderscore, -⟩ := flatten_terminates Catalogue.colliding "_" hcolliding
  obtain ⟨hempty, -, hendless, -⟩ := flatten_terminates Catalogue.colliding "" hcolliding
  have hnot : ¬ (RenamingLoop.start Catalogue.colliding.bindings).Halts "" := by
    rw [hempty]
    rintro (h | ⟨-, h⟩)
    · exact h rfl
    · exact h.unscoped "x_" ⟨1, Nat.one_pos⟩ "x_1" (by decide) (by decide) (by decide)
  refine ⟨hunderscore.2 (.inl (by decide)), hnot, hendless hnot, ?_⟩
  refine (flatten_terminates (Catalogue.op "+" [.name "x" (.tag ⟨1, Nat.one_pos⟩),
    Catalogue.var "x"]) "" (hclosed (by decide))).1.2 (.inr ⟨rfl, ?_⟩)
  constructor
  case different =>
    intro ident tag ident' tag' h h' hne
    simp [Catalogue.op, Catalogue.var, Tree.bindings, Tree.nodes, Tree.nodesList] at h h'
    simp [h, h'] at hne
  case unscoped =>
    intro ident tag name h h'
    simp [Catalogue.op, Catalogue.var, Tree.bindings, Tree.nodes, Tree.nodesList] at h h'
    rw [h.1, h.2, h']
    decide

end HygienicMacros
