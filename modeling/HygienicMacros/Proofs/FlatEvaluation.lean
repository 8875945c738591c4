import HygienicMacros.Proofs.Evaluation
import HygienicMacros.Proofs.Flattening

/-! # Flattened trees evaluate as before

A flattened tree has the value of the tree, if the variables have their values under their plain
names, and otherwise fails with an error of the same kind (`flatten_evaluate`). The two evaluations
go on in step, in environments that agree on the bindings of the whole tree (`Renaming.Agree`): a
`let` changes one variable on both sides, since no other binding has its plain name
(`Renaming.Agree.bind`).
-/

namespace HygienicMacros

variable {ρ : Renaming} {bindings : List (String × Scope)} {env env' : Environment}

/-- The variables have the same values in `env`, and in `env'` under their plain names. -/
def Renaming.Agree (ρ : Renaming) (bindings : List (String × Scope)) (env env' : Environment) :
    Prop :=
  ∀ ident scope, (ident, scope) ∈ bindings →
    env'.lookup (ρ.plain ident scope, .source) = env.lookup (ident, scope)

theorem Renaming.Agree.bind (h : ρ.Agree bindings env env') (hρ : ρ.Separates bindings)
    (hopen : ∀ b ∈ bindings, b.2.isPending = false) {ident : String} {scope : Scope}
    (hmem : (ident, scope) ∈ bindings) (v : Value) :
    ρ.Agree bindings (env.bind ident scope v) (env'.bind (ρ.plain ident scope) .source v) := by
  intro other scope' hother
  unfold Environment.bind
  rw [List.lookup_cons, List.lookup_cons]
  by_cases heq : (other, scope') = (ident, scope)
  · cases heq
    rw [beq_self_eq_true, beq_self_eq_true]
  · have hne : (ρ.plain other scope', Scope.source) ≠ (ρ.plain ident scope, .source) := by
      intro hplain
      have hsame := hρ.plain_injective hother (hopen _ hother) hmem (hopen _ hmem)
        (congrArg Prod.fst hplain)
      exact heq (Prod.ext hsame.1 hsame.2)
    rw [beq_eq_false_iff_ne.2 heq, beq_eq_false_iff_ne.2 hne]
    exact h other scope' hother

theorem Tree.bindings_subset_of_child {t c : Tree} (hc : c ∈ t.children) :
    c.bindings ⊆ t.bindings := by
  rintro ⟨ident, scope⟩ h
  obtain ⟨p, hp⟩ := mem_bindings.1 h
  obtain ⟨i, hi⟩ := List.mem_iff_getElem?.1 hc
  exact mem_bindings.2 ⟨i :: p, by simp only [subtree?, hi, Option.bind_some, hp]⟩

/-- A name and its plain name are evaluated alike, as values and as targets of `let`. -/
theorem simulates_name (hρ : ρ.Separates bindings)
    (hopen : ∀ b ∈ bindings, b.2.isPending = false) {ident : String} {scope : Scope}
    (hmem : (ident, scope) ∈ bindings) :
    Simulates Error.kind (ρ.Agree bindings) evaluate evaluate (.name ident scope)
      (.name (ρ.plain ident scope) .source) where
  value env env' henv := by
    rw [evaluate, evaluate, henv ident scope hmem]
    cases env.lookup (ident, scope) <;> rfl
  clause := .none
  noTarget := rfl
  target := .some fun env env' v henv => henv.bind hρ hopen hmem v

/-- A tree and the renamed tree are evaluated alike. -/
theorem simulates_rename (hρ : ρ.Separates bindings)
    (hopen : ∀ b ∈ bindings, b.2.isPending = false) {t : Tree} (ht : t.bindings ⊆ bindings) :
    Simulates Error.kind (ρ.Agree bindings) evaluate evaluate t (t.rename ρ) := by
  induction t using Tree.induct with
  | literal d => exact ⟨fun _ _ _ => rfl, .none, rfl, .none⟩
  | call op args notes ih =>
    have hargs : List.Forall₂ (Simulates Error.kind (ρ.Agree bindings) evaluate evaluate) args
        (args.map (Tree.rename ρ)) := by
      rw [List.forall₂_map_right_iff, List.forall₂_same]
      intro a ha
      have hsub : a.bindings ⊆ (Tree.call (.symbol op) args notes).bindings :=
        Tree.bindings_subset_of_child ha
      exact ih a ha (List.Subset.trans hsub ht)
    rw [Tree.rename, Tree.renameList_eq]
    constructor
    case value =>
      intro env env' henv
      rw [evaluate_call, evaluate_call]
      exact callValue_simulates op hargs henv
    case clause =>
      simp only [Tree.clause?]
      split
      · exact .some (hargs.imp fun _ _ h => h.value)
      · exact .none
    case noTarget => rfl
    case target => exact .none
  | apply f args notes _ _ => exact ⟨fun _ _ _ => rfl, .none, rfl, .none⟩
  | placeholder target => exact ⟨fun _ _ _ => rfl, .none, rfl, .none⟩
  | name ident scope =>
    have hmem : (ident, scope) ∈ bindings := ht (Tree.mem_bindings.2 ⟨[], rfl⟩)
    rw [Tree.rename, hρ.apply_eq hmem (hopen _ hmem)]
    exact simulates_name hρ hopen hmem
  | bare kind => exact ⟨fun _ _ _ => rfl, .none, rfl, .none⟩
  | marker kind body _ => exact ⟨fun _ _ _ => rfl, .none, rfl, .none⟩
  | unhygienic ident => exact ⟨fun _ _ _ => rfl, .none, rfl, .none⟩

/-! ## Environments under plain names -/

/-- The environment `env'` has, under the names that `plain` gives them, the values that the
bindings of a list have in `env`, and nothing else. -/
def Transfers (plain : String → Scope → String) (bindings : List (String × Scope))
    (env env' : Environment) : Prop :=
  ∀ ident scope v, env'.lookup (ident, scope) = some v ↔
    scope = .source ∧ ∃ n s, (n, s) ∈ bindings ∧ plain n s = ident ∧ env.lookup (n, s) = some v

theorem Transfers.agree (h : Transfers ρ.plain bindings env env') (hρ : ρ.Separates bindings)
    (hopen : ∀ b ∈ bindings, b.2.isPending = false) : ρ.Agree bindings env env' := by
  intro ident scope hmem
  refine Option.ext fun v => ?_
  rw [h]
  constructor
  · rintro ⟨-, n, s, hns, hplain, hv⟩
    obtain ⟨rfl, rfl⟩ := hρ.plain_injective hns (hopen _ hns) hmem (hopen _ hmem) hplain
    exact hv
  · exact fun hv => ⟨rfl, ident, scope, hmem, rfl, hv⟩

/-- The values of some bindings under their plain names. -/
def Renaming.environment (ρ : Renaming) (env : Environment) (bindings : List (String × Scope)) :
    Environment :=
  bindings.filterMap fun b => (env.lookup b).map fun v => ((ρ.plain b.1 b.2, .source), v)

theorem Renaming.mem_environment {ident : String} {scope : Scope} {v : Value} :
    ((ident, scope), v) ∈ ρ.environment env bindings ↔
      scope = .source ∧
        ∃ n s, (n, s) ∈ bindings ∧ ρ.plain n s = ident ∧ env.lookup (n, s) = some v := by
  simp only [environment, List.mem_filterMap, Option.map_eq_some_iff, Prod.mk.injEq]
  constructor
  · rintro ⟨⟨n, s⟩, hmem, w, hw, ⟨rfl, rfl⟩, rfl⟩
    exact ⟨rfl, n, s, hmem, rfl, hw⟩
  · rintro ⟨rfl, n, s, hmem, rfl, hv⟩
    exact ⟨(n, s), hmem, v, hv, ⟨rfl, rfl⟩, rfl⟩

theorem Renaming.Separates.transfers (hρ : ρ.Separates bindings)
    (hopen : ∀ b ∈ bindings, b.2.isPending = false) (env : Environment) :
    Transfers ρ.plain bindings env (ρ.environment env bindings) := by
  intro ident scope v
  refine ⟨fun h => Renaming.mem_environment.1 (mem_of_lookup h), fun h => ?_⟩
  have hkey := List.mem_map_of_mem (f := (·.1)) (Renaming.mem_environment.2 h)
  obtain ⟨w, hw⟩ := Option.isSome_iff_exists.1 (isSome_lookup.2 hkey)
  obtain ⟨rfl, n, s, hmem, rfl, hv⟩ := h
  -- whoever has the plain name is this binding
  obtain ⟨-, n', s', hmem', hplain, hv'⟩ := Renaming.mem_environment.1 (mem_of_lookup hw)
  obtain ⟨rfl, rfl⟩ := hρ.plain_injective hmem' (hopen _ hmem') hmem (hopen _ hmem) hplain
  rw [hw, ← hv', hv]

/-- **Flattening keeps the value.** A tree without open names is flattened, and evaluates as before
in every environment that has the values of its variables under the plain names chosen for them;
there is such an environment for every environment of the tree. -/
theorem flatten_evaluate {t : Tree} {sep : String} (hsep : sep ≠ "")
    (h : ∀ p ident pending, t.subtree? p ≠ some (.name ident (.pending pending))) :
    ∃ r plain, (Value.tree t).flatten (.text sep) = .ok (.tree r) ∧
      (∀ p n s, t.subtree? p = some (.name n s) →
        r.subtree? p = some (.name (plain n s) .source)) ∧
      (∀ env, ∃ env', Transfers plain t.bindings env env') ∧
      ∀ env env', Transfers plain t.bindings env env' →
        SameOutcome Error.kind (evaluate env t) (evaluate env' r) := by
  have hopen := Tree.not_isPending_of_mem_bindings h
  obtain ⟨ρ, hflat, hρ⟩ := exists_flatten hsep hopen
  refine ⟨t.rename ρ, ρ.plain, hflat, fun p n s hp => hρ.subtree?_name hopen hp,
    fun env => ⟨_, hρ.transfers hopen env⟩, fun env env' henv => ?_⟩
  exact (simulates_rename hρ hopen (List.Subset.refl _)).value env env' (henv.agree hρ hopen)

/-- Two variables `x`, one of them of an expansion, and two that only an environment knows. -/
def Catalogue.twoScopes : Tree :=
  op "let" [.name "x" (.tag ⟨1, Nat.one_pos⟩), .literal (.int 2),
    op "let" [var "x", .literal (.int 5),
      op "+" [.name "x" (.tag ⟨1, Nat.one_pos⟩), var "x", .name "y" (.tag ⟨1, Nat.one_pos⟩),
        var "x_1"]]]

/-- Values for the two, and for a variable that is not in the tree. -/
def Catalogue.twoScopesValues : Environment :=
  [(("y", .tag ⟨1, Nat.one_pos⟩), .int 10), (("x_1", .source), .int 100),
    (("y_1", .source), .int 1)]

theorem flatten_evaluate_twoScopes : ∃ r plain env',
    (Value.tree Catalogue.twoScopes).flatten (.text "_") = .ok (.tree r) ∧
      Transfers plain Catalogue.twoScopes.bindings Catalogue.twoScopesValues env' ∧
      evaluate Catalogue.twoScopesValues Catalogue.twoScopes = .ok (.int 117) ∧
      evaluate env' r = .ok (.int 117) := by
  obtain ⟨r, plain, hr, -, henvs, hsame⟩ := flatten_evaluate (t := Catalogue.twoScopes)
    (show "_" ≠ "" by decide) fun p ident pending hp => by
      have hmem := Tree.mem_bindings.2 ⟨p, hp⟩
      simp [Catalogue.twoScopes, Catalogue.op, Catalogue.var, Tree.bindings, Tree.nodes,
        Tree.nodesList] at hmem
  obtain ⟨env', henv'⟩ := henvs Catalogue.twoScopesValues
  have hvalue : evaluate Catalogue.twoScopesValues Catalogue.twoScopes = .ok (.int 117) := rfl
  have hout := hsame _ _ henv'
  rw [hvalue] at hout
  refine ⟨r, plain, env', hr, henv', hvalue, ?_⟩
  cases hr' : evaluate env' r with
  | ok v => rw [hr'] at hout; cases hout; rfl
  | error e => rw [hr'] at hout; cases hout

end HygienicMacros
