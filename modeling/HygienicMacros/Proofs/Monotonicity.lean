import HygienicMacros.Proofs.Coupling
import HygienicMacros.Proofs.ErrorKinds
import HygienicMacros.Proofs.Reports

/-! # What is expanded stays expanded

Two things that can be given to the expander in addition never change what it does with a tree:
a deeper limit, unless the limit was reached (`expandMacros_deeper`), and one more clause of a
macro, unless the expansion failed (`expandMacros_further`). Transformers may expand trees
themselves, but must pass on the errors of that (`Course.Candid`): a transformer that recovers from
them sees that a limit was reached or that no clause was found.

Both are couplings in which nothing differs (`Likeness.exact`). The runs go side by side until the
first one fails at the limit, or in any way.
-/

namespace HygienicMacros

variable {α κ : Type}

/-! ## Nothing differs -/

/-- The likeness of equal things. -/
def Likeness.exact (waived : Error → Prop) : Likeness where
  datum := Eq
  notes := Eq
  error := Eq
  waived := waived
  datum_refl _ := rfl
  notes_refl _ := rfl
  error_refl _ := rfl
  scope h := congrArg Notes.scope? h
  resolve tag h := congrArg (Notes.resolve tag) h

section
variable {waived : Error → Prop}

theorem Tree.eq_of_forall₂ {as bs : List Tree} (h : List.Forall₂ Eq as bs) : as = bs :=
  List.forall₂_eq_eq_eq ▸ h

theorem Tree.Alike.eq {a : Tree} : ∀ {b}, a.Alike (.exact waived) b → a = b := by
  induction a using Tree.induct with
  | literal d =>
    intro b h
    cases h with
    | literal hdatum => rw [show d = _ from hdatum]
  | call op args notes ih =>
    rintro _ (_ | ⟨hargs, hnotes⟩)
    rw [eq_of_forall₂ (forall₂_mono hargs fun a ha _ h => ih a ha h), show notes = _ from hnotes]
  | apply f args notes ihf ih =>
    rintro _ (_ | _ | ⟨hf, hargs, hnotes⟩)
    rw [ihf hf, eq_of_forall₂ (forall₂_mono hargs fun a ha _ h => ih a ha h),
      show notes = _ from hnotes]
  | marker kind body ih =>
    intro b h
    cases h with
    | marker hbody => rw [ih hbody]
  | _ => intro b h; cases h; rfl

mutual

theorem Value.Alike.eq : ∀ {v w : Value}, v.Alike (.exact waived) w → v = w
  | .tree a, _, h => by
    cases h with
    | tree h => rw [h.eq]
    | leaf h => rfl
  | .list vs, _, h => by
    cases h with
    | list h => rw [Value.eq_of_forall₂_alike h]
    | leaf h => rfl
  | .tuple vs, _, h => by
    cases h with
    | tuple h => rw [Value.eq_of_forall₂_alike h]
    | leaf h => rfl
  | .nothing, _, .leaf _ | .bool _, _, .leaf _ | .int _, _, .leaf _ | .float _, _, .leaf _
  | .text _, _, .leaf _ | .atom _, _, .leaf _ | .pending _, _, .leaf _ | .record _, _, .leaf _
  | .variety _, _, .leaf _ => rfl

theorem Value.eq_of_forall₂_alike :
    ∀ {vs ws : List Value}, List.Forall₂ (Value.Alike (.exact waived)) vs ws → vs = ws
  | [], _, .nil => rfl
  | v :: vs, _, .cons h hs => by rw [h.eq, Value.eq_of_forall₂_alike hs]

end

end

/-! ## Transformers that pass errors on -/

/-- The course may expand trees, but does not recover from an error of that: it ends with the
error, without another expansion. -/
def Course.Candid : Course κ α → Prop
  | .answer _ => True
  | .fail _ => True
  | .expand _ _ next => (∀ v, (next (.ok v)).Candid) ∧ ∀ e, (next (.error e)).Passes e
  | .freshTag next => ∀ tag, (next tag).Candid
  | .observe next => ∀ o, (next o).Candid
  | .register _ _ _ _ next => ∀ r, (next r).Candid

/-- Every transformer passes on the errors of the expansions it asks for. -/
def Registry.Candid (R : Registry) : Prop :=
  ∀ t c, R.Takes t c → (c.transformer.body t).Candid

theorem Course.Passes.alike {waived : Error → Prop} {e : Error} {x : Action Value}
    (h : x.Passes e) : Course.Alike (.exact waived) x x := by
  induction x with
  | answer a => exact h.elim
  | fail e' => exact .fail rfl
  | expand mode v next _ => exact h.elim
  | freshTag next ih => exact .freshTag fun tag => ih tag (h tag)
  | observe next ih => exact .observe fun o => ih o (h o)
  | register site name pattern candidate next ih =>
    refine .register (Likeness.registrations_refl _ _ _ _) (ih _ (h _)) fun {e e'} he => ?_
    cases he
    exact ih _ (h _)

/-- A candid course makes the same requests as long as it gets the same answers. -/
theorem Course.Candid.alike {waived : Error → Prop} {x : Action Value} (h : x.Candid) :
    Course.Alike (.exact waived) x x := by
  induction x with
  | answer a => exact .answer (.refl a)
  | fail e => exact .fail rfl
  | expand mode v next ih =>
    refine .expand (.refl v) (fun {a b} hab => ?_) (fun {e e'} he => ?_) fun {e} _ => h.2 e
    · rw [← hab.eq]
      exact ih _ (h.1 a)
    · cases he
      exact (h.2 e).alike
  | freshTag next ih => exact .freshTag fun tag => ih tag (h tag)
  | observe next ih => exact .observe fun o => ih o (h o)
  | register site name pattern candidate next ih =>
    refine .register (Likeness.registrations_refl _ _ _ _) (ih _ (h _)) fun {e e'} he => ?_
    cases he
    exact ih _ (h _)

/-! ## A deeper limit -/

/-- Two runs with the same registry, until the first one reaches its limit. -/
def Coupling.deeper (R : Registry) (d d' : Nat) : Coupling :=
  { Likeness.exact fun e => ∃ filename path, e = .depthExceeded (.nested filename path) d with
    registry := R.snapshot
    registry' := R.snapshot
    maxDepth := d
    maxDepth' := d' }

theorem Coupling.deeper_lawful {R : Registry} (hR : R.Candid) {d d' : Nat} (hle : d ≤ d') :
    (Coupling.deeper R d d').Lawful where
  isMacro := rfl
  terminals := rfl
  frozen := rfl
  depth := .inr ⟨hle, fun filename path => ⟨filename, path, rfl⟩⟩
  finds := by
    intro op as bs m n hargs hnotes s s' hs
    cases Tree.eq_of_forall₂ (Tree.forall₂_mono hargs fun a _ b h => h.eq)
    cases hnotes
    have hsame : s'.registry = s.registry := hs.registry'.trans hs.registry.symm
    rcases hlookup : s.registry.lookup op (as.map .tree) with e | _ | c
    · rw [matchClause_of_error hlookup, matchClause_of_error (by rw [hsame]; exact hlookup)]
      exact .error rfl (hs.withPhase .matched)
    · have htried : s'.registry.clauses op = s.registry.clauses op := by rw [hsame]
      rw [on_matchClause_none hlookup, on_matchClause_none (by rw [hsame]; exact hlookup), htried,
        hs.filename]
      exact .error rfl (hs.withPhase .failed)
    · rw [on_matchClause hlookup, on_matchClause (by rw [hsame]; exact hlookup)]
      rw [hs.registry] at hlookup
      exact .ok ⟨rfl, (hR _ c (.intro hlookup)).alike⟩ (hs.withPhase .matched)
  unmet _ _ _ h := by cases h.eq; rfl
  unexpectedNode _ _ _ h := by cases h.eq; rfl
  unresolvedInput _ _ _ h := by cases h.eq; rfl
  applied _ _ _ _ _ _ h he := by cases h.eq; cases he; rfl
  waived report e := by
    rintro ⟨filename, path, rfl⟩
    exact ⟨filename, path, rfl⟩

theorem expandWithin_deeper {R : Registry} (hR : R.Candid) {d d' : Nat} (hle : d ≤ d')
    (t : Tree) (label : Value) (budget : Budget)
    (h : ∀ e, expandWithin budget R t d label = .error e → e.kind ≠ .depthExceeded) :
    expandWithin budget R t d' label = expandWithin budget R t d label := by
  have hrelated : (Coupling.deeper R d d').Related (Value.Alike _)
      ((visitRecursively (.tree t)).on ((Expander.ofRegistry R d label).withBudget budget))
      ((visitRecursively (.tree t)).on ((Expander.ofRegistry R d' label).withBudget budget)) :=
    (Coupling.deeper_lawful hR hle).couples_visitRecursively (.refl _) _ _
      (Coupling.states_ofRegistry rfl rfl rfl rfl label budget)
  unfold expandWithin at h ⊢
  generalize (Expander.ofRegistry R d label).withBudget budget = s at h hrelated ⊢
  generalize (Expander.ofRegistry R d' label).withBudget budget = s' at hrelated ⊢
  generalize hx : (visitRecursively (.tree t)).on s = p,
    hy : (visitRecursively (.tree t)).on s' = q at hrelated
  cases hrelated with
  | ok hvalue hs =>
    rw [expandFully_of_ok hx, expandFully_of_ok hy, ← hvalue.eq, hs.registry, hs.registry']
    rfl
  | @error e e' s₁ s₁' he hs =>
    cases he
    by_cases hover : e.kind = .stackOverflow
    · exact absurd rfl (h _ (by rw [expandFully_of_overflow hx hover]))
    · rw [expandFully_of_error hx hover, expandFully_of_error hy hover]
  | waived he =>
    obtain ⟨filename, path, rfl⟩ := he
    exact absurd rfl (h _ (by rw [expandFully_of_error hx fun ho => by cases ho]))

/-- **Raising the depth limit changes no outcome** but that the limit was reached. With
transformers that pass errors on, an expansion that ends in a tree, or in an error of another kind,
ends in the same tree or the same error with every deeper limit. This is so on any stack, and
`expandMacros` runs on the standard one. -/
theorem expandMacros_deeper {R : Registry} (hR : R.Candid) (t : Tree) {d d' : Nat} (hd : 0 < d)
    (hle : d ≤ d') (label : Value) :
    (∀ budget, (∀ e, expandWithin budget R t d label = .error e → e.kind ≠ .depthExceeded) →
      expandWithin budget R t d' label = expandWithin budget R t d label) ∧
    ((∀ e, (expandMacros R (.tree t) (.int d) label).1 = .error e → e.kind ≠ .depthExceeded) →
      (expandMacros R (.tree t) (.int d') label).1 =
        (expandMacros R (.tree t) (.int d) label).1) := by
  refine ⟨expandWithin_deeper hR hle t label, ?_⟩
  rw [expandMacros_eq_within R t hd, expandMacros_eq_within R t (Nat.lt_of_lt_of_le hd hle)]
  exact expandWithin_deeper hR hle t label Expander.standardBudget

namespace Catalogue

theorem unruly_candid : unruly.Candid := by
  have hrules : ∀ c ∈ unruly.rules, ∀ t, (c.transformer.body t).Candid := by
    refine Registry.forall_rules_add (fun t => ?_) (Registry.forall_rules_add (fun t => ?_)
      (Registry.forall_rules_add (fun t => trivial) (Registry.forall_rules_empty _)))
    · unfold relay
      dsimp only
      split
      · exact ⟨fun v => trivial, fun e => rfl⟩
      · trivial
    · unfold again
      dsimp only
      split <;> trivial
  exact fun t c h => hrules c h.mem t

/-- A macro call that a transformer expands, and what replaces it is a macro call again. -/
def handedOn (t : Tree) : Tree := op "f" [op "relay" [op "again" [t]]]

/-- The outcome of an expansion of a tree with a depth limit. -/
def outcome (R : Registry) (t : Tree) (d : Nat) : Except Error Value :=
  (expandMacros R (.tree t) (.int d) Expander.standardLabel).1

/-- The kind of the error in which an expansion ended, if it did. -/
def errorKind? : Except Error Value → Option ErrorKind
  | .ok _ => none
  | .error e => some e.kind

theorem exists_of_errorKind? {x : Except Error Value} (h : errorKind? x = none) :
    ∃ r, x = .ok r := by
  cases x with
  | ok r => exact ⟨r, rfl⟩
  | error e => cases h

theorem kind_ne_of_errorKind? {x : Except Error Value} {k : ErrorKind} (h : errorKind? x ≠ some k)
    (e : Error) (he : x = .error e) : e.kind ≠ k := by
  rintro rfl
  rw [he] at h
  exact h rfl

end Catalogue

open Catalogue in
theorem expandMacros_deeper_handedOn :
    unruly.Candid ∧
      errorKind? (outcome unruly (handedOn (truth true)) 2) = none ∧
      outcome unruly (handedOn (truth true)) 7 = outcome unruly (handedOn (truth true)) 2 ∧
      errorKind? (outcome unruly (handedOn (op "crash" [])) 2) = some .application ∧
      outcome unruly (handedOn (op "crash" [])) 7 =
        outcome unruly (handedOn (op "crash" [])) 2 := by
  have htree : errorKind? (outcome unruly (handedOn (truth true)) 2) = none := by decide +kernel
  have herror : errorKind? (outcome unruly (handedOn (op "crash" [])) 2) = some .application := by
    decide +kernel
  refine ⟨unruly_candid, htree, ?_, herror, ?_⟩
  · exact (expandMacros_deeper unruly_candid _ (by decide) (by decide) _).2
      (kind_ne_of_errorKind? (by rw [← outcome, htree]; decide))
  · exact (expandMacros_deeper unruly_candid _ (by decide) (by decide) _).2
      (kind_ne_of_errorKind? (by rw [← outcome, herror]; decide))

/-! ## One more clause -/

namespace Registry

theorem firstFit_append {args : List Value} {c : Clause} (more : List Clause) :
    ∀ {clauses : List Clause}, firstFit clauses args = .ok (some c) →
      firstFit (clauses ++ more) args = .ok (some c)
  | [], h => by cases h
  | first :: rest, h => by
    rw [firstFit] at h
    rw [List.cons_append, firstFit]
    split at h
    · cases h
    · exact h
    · exact firstFit_append more h

theorem Gains.lookup {r r' : Registry} {c d : Clause} (h : r.Gains r' c) {op : String}
    {args : List Value} (hlookup : r.lookup op args = .ok (some d)) :
    r'.lookup op args = .ok (some d) := by
  unfold Registry.lookup at hlookup ⊢
  by_cases hop : op = c.name
  · subst hop
    rw [h.last]
    exact firstFit_append [c] hlookup
  · rw [h.others op hop]
    exact hlookup

theorem Gains.isMacro_eq {r r' : Registry} {c : Clause} (h : r.Gains r' c)
    (hc : r.clauses c.name ≠ []) : r'.isMacro = r.isMacro := by
  funext n
  rw [h.isMacro]
  by_cases hn : c.name = n
  · rw [← hn, isMacro_of_clauses hc, Bool.true_or]
  · rw [beq_false_of_ne hn, Bool.or_false]

end Registry

/-- Only a plain positive number is a depth limit. -/
theorem depth_of_expandMacros {R : Registry} {v maxDepth label r : Value}
    (h : (expandMacros R v maxDepth label).1 = .ok r) : ∃ d : Nat, 0 < d ∧ maxDepth = .int d := by
  rcases hlimit : Expander.depthLimit maxDepth with e | d
  · simp only [expandMacros, Registry.run, Expander.create, hlimit, Except.map] at h
    cases h
  · unfold Expander.depthLimit at hlimit
    split at hlimit
    · split at hlimit
      · rename_i n hn
        exact ⟨n.toNat, by omega, by rw [Int.toNat_of_nonneg (Int.le_of_lt hn)]⟩
      · cases hlimit
    · cases hlimit

theorem Value.finish_congr {R R' : Registry} (h : R'.isMacro = R.isMacro) (v : Value) :
    v.finish (some R') = v.finish (some R) := by
  have hcalls : Tree.macroCalls R' = Tree.macroCalls R := by
    funext t
    unfold Tree.macroCalls
    congr 1
    funext n
    unfold Registry.macroCall?
    rw [h]
  simp only [finish, checkCalls, Value.macroCalls, hcalls]

/-- Two runs, the second with one more clause, until the first one fails. -/
def Coupling.further (R R' : Registry) (d : Nat) : Coupling :=
  { Likeness.exact fun _ => True with
    registry := R.snapshot
    registry' := R'.snapshot
    maxDepth := d
    maxDepth' := d }

theorem Coupling.further_lawful {R R' : Registry} {c : Clause} (hR : R.Candid) (h : R.Gains R' c)
    (hc : R.clauses c.name ≠ []) (d : Nat) : (Coupling.further R R' d).Lawful where
  isMacro := h.isMacro_eq hc
  terminals := h.terminals
  frozen := rfl
  depth := .inr ⟨Nat.le_refl d, fun _ _ => trivial⟩
  finds := by
    intro op as bs m n hargs hnotes s s' hs
    cases Tree.eq_of_forall₂ (Tree.forall₂_mono hargs fun a _ b h => h.eq)
    cases hnotes
    rcases hlookup : s.registry.lookup op (as.map .tree) with e | _ | d
    · rw [matchClause_of_error hlookup]
      exact .waived trivial
    · rw [on_matchClause_none hlookup]
      exact .waived trivial
    · -- the new clause is tried last, after the one that is found
      have hlookup' : s'.registry.lookup op (as.map .tree) = .ok (some d) := by
        rw [hs.registry] at hlookup
        rw [hs.registry']
        exact h.lookup hlookup
      rw [on_matchClause hlookup, on_matchClause hlookup']
      rw [hs.registry] at hlookup
      exact .ok ⟨rfl, (hR _ d (.intro hlookup)).alike⟩ (hs.withPhase .matched)
  unmet _ _ _ h := by cases h.eq; rfl
  unexpectedNode _ _ _ h := by cases h.eq; rfl
  unresolvedInput _ _ _ h := by cases h.eq; rfl
  applied _ _ _ _ _ _ h he := by cases h.eq; cases he; rfl
  waived _ _ _ := trivial

theorem expandWithin_further {R R' : Registry} {c : Clause} (hR : R.Candid) (h : R.Gains R' c)
    (hc : R.clauses c.name ≠ []) (t : Tree) (d : Nat) (label : Value) (budget : Budget) {r : Value}
    (hr : expandWithin budget R t d label = .ok r) : expandWithin budget R' t d label = .ok r := by
  obtain ⟨v, hx, hfinish⟩ := expandFully_ok (Prod.ext hr rfl)
  have hrelated : (Coupling.further R R' d).Related (Value.Alike _)
      ((visitRecursively (.tree t)).on ((Expander.ofRegistry R d label).withBudget budget))
      ((visitRecursively (.tree t)).on ((Expander.ofRegistry R' d label).withBudget budget)) :=
    (Coupling.further_lawful hR h hc d).couples_visitRecursively (.refl _) _ _
      (Coupling.states_ofRegistry rfl rfl h.terminals h.frozen label budget)
  rw [hx] at hrelated
  unfold expandWithin
  generalize hy : (visitRecursively (.tree t)).on
    ((Expander.ofRegistry R' d label).withBudget budget) = q at hrelated
  cases hrelated with
  | ok hvalue hs =>
    rw [expandFully_of_ok hy, ← hvalue.eq, hs.registry']
    rw [hs.registry] at hfinish
    exact (Value.finish_congr (h.isMacro_eq hc) v).trans hfinish

/-- **One more clause changes no expansion.** Where a macro that has clauses gets one more, with
any pattern and any transformer, every tree that was expanded before is expanded to the same tree,
as long as the transformers before pass errors on. This is so on any stack, and `expandMacros` runs
on the standard one. -/
theorem expandMacros_further {R R' : Registry} (hR : R.Candid) {name : String}
    (hname : R.clauses name ≠ []) {pattern : PatternForm} {candidate : Candidate} {c : Clause}
    (hregister : R.register (.text name) pattern candidate = .ok (R', c)) (t : Tree)
    (label : Value) :
    (∀ budget d r, expandWithin budget R t d label = .ok r →
      expandWithin budget R' t d label = .ok r) ∧
    ∀ maxDepth r, (expandMacros R (.tree t) maxDepth label).1 = .ok r →
      (expandMacros R' (.tree t) maxDepth label).1 = .ok r := by
  obtain ⟨hadmits, hgains⟩ := Registry.register_ok hregister
  have hc : R.clauses c.name ≠ [] := by
    have hn := hadmits.name
    change (if name.isEmpty = true then _ else Except.ok name) = _ at hn
    split at hn
    · cases hn
    · rw [← Except.ok.inj hn]
      exact hname
  have hwithin : ∀ budget d r, expandWithin budget R t d label = .ok r →
      expandWithin budget R' t d label = .ok r :=
    fun budget d r => expandWithin_further hR hgains hc t d label budget
  refine ⟨hwithin, fun maxDepth r hr => ?_⟩
  obtain ⟨d, hd, rfl⟩ := depth_of_expandMacros hr
  rw [expandMacros_eq_within R t hd] at hr
  rw [expandMacros_eq_within R' t hd]
  exact hwithin _ d r hr

/-- A registry in which `relay` also takes any other number of arguments, and fails. -/
def Catalogue.unrulier : Registry := unruly.add "relay" .any crash

open Catalogue in
theorem expandMacros_further_handedOn :
    unruly.Candid ∧ unruly.clauses "relay" ≠ [] ∧
      unruly.register (.text "relay") (.value .nothing) crash.candidate =
        .ok (unrulier, ⟨"relay", .any, crash, 1⟩) ∧
      errorKind? (outcome unruly (op "relay" []) 2) = some .noMatchingClause ∧
      errorKind? (outcome unrulier (op "relay" []) 2) = some .application ∧
      ∃ r, outcome unruly (handedOn (truth true)) 2 = .ok r ∧
        outcome unrulier (handedOn (truth true)) 2 = .ok r := by
  have htree : errorKind? (outcome unruly (handedOn (truth true)) 2) = none := by decide +kernel
  obtain ⟨r, hr⟩ := exists_of_errorKind? htree
  have hclauses : unruly.clauses "relay" ≠ [] := by
    intro h
    cases h
  have hregister : unruly.register (.text "relay") (.value .nothing) crash.candidate =
      .ok (unrulier, ⟨"relay", .any, crash, 1⟩) := rfl
  refine ⟨unruly_candid, hclauses, hregister, by decide +kernel, by decide +kernel, r, hr, ?_⟩
  exact (expandMacros_further unruly_candid hclauses hregister _ _).2 _ r hr

end HygienicMacros
