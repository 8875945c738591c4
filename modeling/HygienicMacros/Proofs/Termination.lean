import Mathlib.Logic.Relation
import HygienicMacros.Catalogue
import HygienicMacros.Proofs.Failures

/-! # Expansion ends

A replacement may be larger than the macro call and may call the same macro again, so no size of a
tree decreases from one expansion to the next. What decreases is a pair: the number of expansions
that may still be nested and then, inside one tree, its size.

* `Asks`: what the scan of one tree asks for. Each request decreases the pair, so there is no
  endless chain of them (`asks_wellFounded`), and every macro call that is met is asked for
  (`Enters.asked`).
* `descend`: the expansion of a tree by recursion on that pair, with the depth counted up to its
  limit. It is what a recursive entry does (`agree_descend`).
-/

namespace HygienicMacros

open Relation (ReflTransGen)

variable {α β : Type}

/-! ## The requests of a scan -/

/-- `Asks R q p`: to scan the tree of `p`, where as many more expansions may be nested as `p` says,
the tree of `q` is scanned. A call that is not one of a macro asks for its parts, and a macro call
for its replacement, inside which one expansion less may be nested. -/
inductive Asks (R : Registry) : Nat × Tree → Nat × Tree → Prop
  | part {k head args notes u} (hhead : ∀ op, head = .symbol op → R.isMacro op = false)
      (hu : u ∈ (Tree.call head args notes).children) : Asks R (k, u) (k, .call head args notes)
  | again {k a} (applies : R.Applies a) : Asks R (k, a.expansion) (k + 1, a.invocation)

theorem sizeOf_lt_of_mem_children {head : Head} {args : List Tree} {notes : Notes} {u : Tree}
    (h : u ∈ (Tree.call head args notes).children) :
    sizeOf u < sizeOf (Tree.call head args notes) := by
  cases head with
  | symbol op =>
    have hargs := List.sizeOf_lt_of_mem (show u ∈ args from h)
    simp only [Tree.call.sizeOf_spec]
    omega
  | tree f =>
    rcases List.mem_cons.1 (show u ∈ f :: args from h) with rfl | h
    · simp only [Tree.call.sizeOf_spec, Head.tree.sizeOf_spec]
      omega
    · have hargs := List.sizeOf_lt_of_mem h
      simp only [Tree.call.sizeOf_spec]
      omega

/-- A request decreases the expansions that may be nested, or keeps them and decreases the tree. -/
theorem Asks.lex {R : Registry} {p q : Nat × Tree} (h : Asks R q p) :
    Prod.Lex (· < ·) (· < ·) (q.1, sizeOf q.2) (p.1, sizeOf p.2) := by
  cases h with
  | part _ hu => exact .right _ (sizeOf_lt_of_mem_children hu)
  | again _ => exact .left _ _ (Nat.lt_succ_self _)

theorem asks_wellFounded (R : Registry) : WellFounded (Asks R) :=
  Subrelation.wf Asks.lex (InvImage.wf (fun p : Nat × Tree => (p.1, sizeOf p.2))
    (Prod.lex Nat.lt_wfRel Nat.lt_wfRel).wf)

/-- Some requests after one another. -/
def Asked (R : Registry) : Nat × Tree → Nat × Tree → Prop := ReflTransGen fun p q => Asks R q p

section
variable {R : Registry} {reenter : Mode → Value → Run Value} {k j : Nat} {c : Tree}

/-- The replacement of a macro call is one that the registry gives it. -/
theorem applies_of_settle (hfun : R.Functional) {op : String} {args : List Tree} {notes : Notes}
    {clause : Clause} {answer expansion : Tree} {s s₁ s₂ : Expander}
    (hlookup : R.lookup op (args.map .tree) = .ok (some clause))
    (happly : (applyClause reenter clause (.call (.symbol op) args notes)).on s = (.ok answer, s₁))
    (hsettle : (settle clause (.call (.symbol op) args notes) notes answer).on s₁ =
      (.ok expansion, s₂)) :
    ∃ a, R.Applies a ∧ a.invocation = .call (.symbol op) args notes ∧ a.expansion = expansion := by
  obtain ⟨x, hx⟩ := hfun _ _ ⟨hlookup⟩
  obtain ⟨hbody, -⟩ := applyClause_ok hx happly
  obtain ⟨caller, -, hcaller, rfl, -⟩ := settle_ok hsettle
  exact ⟨_, .intro hlookup hbody hcaller, rfl, rfl⟩

/-- Every macro call that a scan meets is asked for by one of its trees. -/
theorem Meets.asked (hfun : R.Functional) (hre : ∀ mode v, (reenter mode v).Steady)
    {ts : List Tree} {s s' : Expander} (h : Meets reenter k ts s c j s') (hs : s.registry = R) :
    ∃ t ∈ ts, Asked R (k, t) (j, c) := by
  induction h with
  | here hop => exact ⟨_, .head _, .refl⟩
  | next first _ ih =>
    have hfirst := (steady_scan (steady_expandCall hre _) _).later first
    obtain ⟨t, ht, hasked⟩ := ih (hfirst.registry.trans hs)
    exact ⟨t, .tail _ ht, hasked⟩
  | part hop _ _ ih =>
    obtain ⟨t, ht, hasked⟩ := ih hs
    rw [hs] at hop
    exact ⟨_, .head _, .head (.part (fun _ h => Head.symbol.inj h ▸ hop) ht) hasked⟩
  | head _ _ ih =>
    obtain ⟨t, ht, hasked⟩ := ih hs
    obtain rfl := List.mem_singleton.1 ht
    exact ⟨_, .head _, .head (.part (fun _ h => Head.noConfusion h) (.head _)) hasked⟩
  | operand head _ _ ih =>
    have hhead := (steady_during (steady_scan (steady_expandCall hre _) _) _).later head
    obtain ⟨t, ht, hasked⟩ := ih (hhead.registry.trans hs)
    exact ⟨_, .head _, .head (.part (fun _ h => Head.noConfusion h) (.tail _ ht)) hasked⟩
  | again hop hlookup happly hsettle hmode _ _ ih =>
    have hstep := ((steady_applyClause hre _ _).later happly).trans
      ((steady_settle _ _ _ _).later hsettle)
    obtain ⟨t, ht, hasked⟩ := ih (hstep.registry.trans hs)
    obtain rfl := List.mem_singleton.1 ht
    rw [hs] at hlookup
    obtain ⟨a, ha, hinv, rfl⟩ := applies_of_settle hfun hlookup happly hsettle
    refine ⟨_, .head _, .head ?_ hasked⟩
    rw [← hinv]
    exact .again ha

theorem Enters.asked {room : Nat} {mode : Mode} {t : Tree} {s s' : Expander}
    (hfun : s.registry.Functional) (h : Enters room mode (.tree t) s c j s') :
    Asked s.registry (s.remaining, t) (j, c) := by
  obtain ⟨-, s₁, hprepare, hmeets⟩ := h
  have hlater := (steady_prepare (.tree t)).later hprepare
  cases hmeets with
  | tree meets =>
    obtain ⟨u, hu, hasked⟩ := meets.asked hfun (steady_enter room) hlater.registry
    obtain rfl := List.mem_singleton.1 hu
    rw [hlater.remaining] at hasked
    exact hasked

end

/-! ## Recursion on the pair -/

/-- What becomes of a transformer's request where transformers are not to make any. -/
def unasked : Mode → Value → Run Value := fun _ _ => throw .stackOverflow

mutual

/-- Expands a tree inside `depth` expansions, of which `limit` may be nested. -/
def descend (limit depth : Nat) : Tree → Run Tree
  | .literal d => pure (.literal d)
  | .name ident scope => pure (.name ident scope)
  | .call (.symbol op) args notes => do
    let registry := (← get).registry
    if registry.isMacro op then
      let clause ← matchClause (.call (.symbol op) args notes) (.symbol op) args
      let s ← get
      let inside := s.frame.inside clause.name (.call (.symbol op) args notes)
      if depth < limit then
        let answer ← applyClause unasked clause (.call (.symbol op) args notes)
        let expansion ← settle clause (.call (.symbol op) args notes) notes answer
        withFrame inside (during .replacement (descend limit (depth + 1) expansion))
      else failWith (.depthExceeded (.nested s.filename inside.path) s.maxDepth)
    else
      setPhase (if registry.isTerminal op then .terminal else .scanning)
      let args ← during (.arguments args.length) (descendList limit depth args)
      pure (.call (.symbol op) args notes)
  | .call (.tree f) args notes => do
    setPhase .scanning
    let f ← during .operator (descend limit depth f)
    let args ← during (.arguments args.length) (descendList limit depth args)
    pure (.call (.tree f) args notes)
  | .placeholder target => unexpected (.placeholder target)
  | .marker kind body => unexpected (.marker kind body)
  | .unhygienic ident => unexpected (.unhygienic ident)
termination_by t => (limit - depth, sizeOf t)

/-- Expands trees from left to right. -/
def descendList (limit depth : Nat) : List Tree → Run (List Tree)
  | [] => pure []
  | t :: ts => do
    let t ← descend limit depth t
    let ts ← descendList limit depth ts
    pure (t :: ts)
termination_by ts => (limit - depth, sizeOf ts)

end

/-- Two computations that do the same in every state that has the registry `R` and is in recursive
mode. -/
def Run.Agree (R : Registry) (x y : Run α) : Prop :=
  ∀ s : Expander, s.Works R .recursive → x.on s = y.on s

section
variable {R : Registry} {x y : Run α} {f g : α → Run β}

theorem Run.Agree.bind (hx : x.Agree R y) (hsteady : x.Steady) (hf : ∀ a, (f a).Agree R (g a)) :
    Run.Agree R (x >>= f) (y >>= g) := by
  intro s hs
  rcases h : x.on s with ⟨e | a, s'⟩
  · rw [Run.on_bind_of_error h, Run.on_bind_of_error ((hx s hs).symm.trans h)]
  · rw [Run.on_bind_of_ok h, Run.on_bind_of_ok ((hx s hs).symm.trans h)]
    exact hf a s' (hs.later (hsteady.later h))

theorem Run.agree_bind (hsteady : x.Steady) (hf : ∀ a, (f a).Agree R (g a)) :
    Run.Agree R (x >>= f) (x >>= g) := Run.Agree.bind (fun _ _ => rfl) hsteady hf

theorem Run.Agree.withFrame (hx : x.Agree R y) (inside : Frame) :
    Run.Agree R (withFrame inside x) (withFrame inside y) := by
  intro s hs
  rw [on_withFrame, on_withFrame, hx _ (hs.frame inside)]

theorem Run.Agree.during (hx : x.Agree R y) (a : Activity) :
    Run.Agree R (during a x) (during a y) := by
  intro s hs
  cases hfits : s.budget.covers a with
  | false => rw [on_during_of_not_covers hfits, on_during_of_not_covers hfits]
  | true =>
    have hspent := hx (s.spend a) ⟨hs.registry, hs.recursive⟩
    rw [on_during_of_covers hfits, on_during_of_covers hfits, hspent]

end

section
variable {R : Registry} {reenter : Mode → Value → Run Value} {k limit depth : Nat}

/-- A transformer that is a function of the macro call does not depend on its requests. -/
theorem applyClause_eq_unasked {clause : Clause} {invocation : Tree} {v : Except Error Value}
    (h : clause.transformer.body invocation = .ofExcept v) :
    applyClause reenter clause invocation = applyClause unasked clause invocation := by
  simp only [applyClause, performTree, h]
  cases v <;> rfl

theorem steady_scanTrees (hre : ∀ mode v, (reenter mode v).Steady) (k : Nat) (ts : List Tree) :
    (scanList (expandCall reenter k) ts).Steady :=
  steady_scanList fun t _ => steady_scan (steady_expandCall hre k) t

theorem agree_scanList {ts : List Tree} (hre : ∀ mode v, (reenter mode v).Steady)
    (h : ∀ t ∈ ts, (scan (expandCall reenter k) t).Agree R (descend limit depth t)) :
    (scanList (expandCall reenter k) ts).Agree R (descendList limit depth ts) := by
  induction ts with
  | nil =>
    rw [scanList, descendList]
    exact fun _ _ => rfl
  | cons t ts ih =>
    rw [scanList, descendList]
    refine (h t (.head _)).bind (steady_scan (steady_expandCall hre k) t) fun r => ?_
    have hrest := ih fun u hu => h u (.tail _ hu)
    exact hrest.bind (steady_scanTrees hre k ts) fun rs _ _ => rfl

/-- A macro call is answered, settled and scanned again in the same way, if the scan one expansion
deeper does the same. -/
theorem agree_expandCall (hfun : R.Functional) (hk : limit - depth = k)
    (deeper : ∀ {j}, k = j + 1 → ∀ t,
      (scan (expandCall reenter j) t).Agree R (descend limit (depth + 1) t))
    {op : String} {args : List Tree} {notes : Notes} {s : Expander} (hs : s.Works R .recursive)
    (hop : s.registry.isMacro op = true) :
    (expandCall reenter k (.call (.symbol op) args notes)).on s =
      (descend limit depth (.call (.symbol op) args notes)).on s := by
  rw [descend, Run.on_bind_of_ok (Run.on_get s)]
  dsimp only
  rw [if_pos hop]
  rcases hmatch : (matchClause (.call (.symbol op) args notes) (.symbol op) args).on s with
    ⟨e | clause, s₁⟩
  · rw [expandCall, Run.on_bind_of_error hmatch, Run.on_bind_of_error hmatch]
  obtain ⟨hlookup, rfl⟩ := matchClause_ok hmatch
  rw [Run.on_bind_of_ok hmatch, Run.on_bind_of_ok (Run.on_get _)]
  cases k with
  | zero =>
    rw [on_expandCall_zero hlookup, if_neg (by omega)]
    rfl
  | succ k =>
    rw [hs.registry] at hlookup
    obtain ⟨v, hv⟩ := hfun _ _ ⟨hlookup⟩
    rw [← hs.registry] at hlookup
    rw [on_expandCall_succ hlookup, if_pos (by omega), applyClause_eq_unasked hv]
    have hunasked : ∀ mode v, (unasked mode v).Steady := fun _ _ => steady_throw _
    refine Run.agree_bind (steady_applyClause hunasked _ _) (fun answer => ?_) _
      ⟨hs.registry, hs.recursive⟩
    refine Run.agree_bind (steady_settle _ _ _ _) fun expansion s₂ hs₂ => ?_
    have hmode : s₂.recursive = true := hs₂.recursive
    rw [Run.on_bind_of_ok (Run.on_get s₂), if_pos hmode]
    exact ((deeper rfl expansion).during _).withFrame _ s₂ hs₂

/-- One tree, given what is done one expansion deeper. -/
theorem agree_scan (hfun : R.Functional) (hre : ∀ mode v, (reenter mode v).Steady)
    (hk : limit - depth = k)
    (deeper : ∀ {j}, k = j + 1 → ∀ t,
      (scan (expandCall reenter j) t).Agree R (descend limit (depth + 1) t)) (t : Tree) :
    (scan (expandCall reenter k) t).Agree R (descend limit depth t) := by
  induction t using Tree.induct with
  | literal d => rw [scan, descend]; exact fun _ _ => rfl
  | name ident scope => rw [scan, descend]; exact fun _ _ => rfl
  | call op args notes ih =>
    intro s hs
    cases hop : s.registry.isMacro op with
    | true => rw [on_scan_macroCall hop, agree_expandCall hfun hk deeper hs hop]
    | false =>
      have hnot : ¬s.registry.isMacro op = true := by rw [hop]; exact Bool.false_ne_true
      rw [on_scan_call hop, descend, Run.on_bind_of_ok (Run.on_get s)]
      dsimp only
      rw [if_neg hnot, Run.on_bind_of_ok (on_setPhase _ s)]
      exact ((agree_scanList hre ih).during _).bind (steady_during (steady_scanTrees hre k args) _)
        (fun rs _ _ => rfl) _ ⟨hs.registry, hs.recursive⟩
  | apply f args notes ihf ih =>
    rw [scan, descend]
    refine Run.agree_bind (steady_setPhase _) fun _ => ?_
    refine (ihf.during _).bind (steady_during (steady_scan (steady_expandCall hre k) f) _) ?_
    intro r
    exact ((agree_scanList hre ih).during _).bind (steady_during (steady_scanTrees hre k args) _)
      fun rs _ _ => rfl
  | placeholder target => rw [scan, descend]; exact fun _ _ => rfl
  | bare kind => rw [scan, descend]; exact fun _ _ => rfl
  | marker kind body _ => rw [scan, descend]; exact fun _ _ => rfl
  | unhygienic ident => rw [scan, descend]; exact fun _ _ => rfl

/-- The scan of a tree, which counts the expansions that may still be nested down to zero, does what
`descend` does, which counts the nested expansions up to the limit. -/
theorem agree_descend (hfun : R.Functional) (hre : ∀ mode v, (reenter mode v).Steady)
    (hk : limit - depth = k) (t : Tree) :
    (scan (expandCall reenter k) t).Agree R (descend limit depth t) := by
  induction k generalizing depth t with
  | zero => exact agree_scan hfun hre hk (fun h => absurd h (Nat.succ_ne_zero _).symm) t
  | succ k ih =>
    refine agree_scan hfun hre hk (fun h => ?_) t
    cases h
    exact ih (by omega)

end

/-- A tree is scanned as `descend` does it, once an entry has got ready. -/
theorem on_prepare_scan {s : Expander} (hfun : s.registry.Functional) (room : Nat) (t : Tree) :
    Run.on (do
      prepare (.tree t)
      let remaining := (← get).remaining
      withMode .recursive (scanValue (expandCall (enter room) remaining) (.tree t))) s =
    Run.on (do
      prepare (.tree t)
      withMode .recursive (do pure (.tree (← descend s.maxDepth s.frame.depth t)))) s := by
  rcases hprepare : (prepare (.tree t)).on s with ⟨e | _, s₁⟩
  · rw [Run.on_bind_of_error hprepare, Run.on_bind_of_error hprepare]
  have hlater := (steady_prepare (.tree t)).later hprepare
  have hsteady := steady_scan (steady_expandCall (steady_enter room) s.remaining) t
  have hscan : (scan (expandCall (enter room) s.remaining) t).Agree s.registry
      (descend s.maxDepth s.frame.depth t) := agree_descend hfun (steady_enter room) rfl t
  rw [Run.on_bind_of_ok hprepare, Run.on_bind_of_ok hprepare, Run.on_bind_of_ok (Run.on_get s₁),
    hlater.remaining, on_withMode, on_withMode, scanValue]
  have hworks : { s₁ with recursive := true }.Works s.registry .recursive := ⟨hlater.registry, rfl⟩
  have hbind := hscan.bind hsteady (f := fun r => pure (Value.tree r)) (fun _ _ _ => rfl) _ hworks
  exact congrArg (fun p => (p.1, { p.2 with recursive := s₁.recursive })) hbind

/-- A recursive entry does what `descend` does, after it has got ready. -/
theorem on_visitRecursively {s : Expander} (hfun : s.registry.Functional) (t : Tree) :
    (visitRecursively (.tree t)).on s = Run.on (during .entry (do
      prepare (.tree t)
      withMode .recursive (do pure (.tree (← descend s.maxDepth s.frame.depth t))))) s := by
  refine (on_visitIn .recursive (.tree t) s).trans ?_
  cases hfits : s.budget.covers .entry with
  | false =>
    rw [on_during_of_not_covers hfits]
    cases s.budget.left with
    | zero => rfl
    | succ room => rw [enter, on_during_of_not_covers hfits]
  | true =>
    have hleft : 0 < s.budget.left :=
      Nat.lt_of_lt_of_le (s.budget.costs.pos .entry) (Budget.covers_eq_true.1 hfits)
    obtain ⟨room, hroom⟩ := Nat.exists_eq_add_one.2 hleft
    rw [hroom, enter, on_during_of_covers hfits, on_during_of_covers hfits]
    have hbody := on_prepare_scan (s := s.spend .entry) hfun room t
    exact congrArg (fun p => (p.1, { p.2 with budget := s.budget })) hbody

/-- **Expansion ends.** Let the transformers be functions of the macro call. A recursive entry with
a tree does what `descend` does, which is defined by recursion on the expansions that may still be
nested and the size of the tree, and it ends with a tree or an error. Every macro call that it comes
to is reached by requests which decrease that pair, and no chain of such requests is endless. -/
theorem visitRecursively_terminates {s : Expander} (hfun : s.registry.Functional) (t : Tree) :
    (visitRecursively (.tree t)).on s = Run.on (during .entry (do
        prepare (.tree t)
        withMode .recursive (do pure (.tree (← descend s.maxDepth s.frame.depth t))))) s ∧
      ((∃ r, ((visitRecursively (.tree t)).on s).1 = .ok (.tree r)) ∨
        ∃ e, ((visitRecursively (.tree t)).on s).1 = .error e) ∧
      (∀ room c j s', Enters room .recursive (.tree t) s c j s' →
        Asked s.registry (s.remaining, t) (j, c)) ∧
      WellFounded (Asks s.registry) := by
  refine ⟨on_visitRecursively hfun t, ?_, fun room c j s' h => h.asked hfun,
    asks_wellFounded s.registry⟩
  rcases hrun : (visitRecursively (.tree t)).on s with ⟨e | v, s'⟩
  · exact .inr ⟨e, rfl⟩
  · have henter : (enter s.budget.left .recursive (.tree t)).on s = (.ok v, s') := hrun
    obtain ⟨r, -, rfl, -⟩ := derivation_of_enter henter
    exact .inl ⟨r, rfl⟩

namespace Catalogue

/-- A macro whose answer calls it twice, each time with the same argument. -/
def sprawling : Registry :=
  (Registry.empty []).add "grow" (.arity 1) (.pure "grow" fun t => .ok (.tree (op "f" [t, t])))

theorem sprawling_functional : sprawling.snapshot.Functional := by
  intro t c ht
  obtain rfl := List.mem_singleton.1 ht.mem
  exact ⟨.ok (.tree (op "f" [t, t])), rfl⟩

end Catalogue

open Catalogue in
theorem visitRecursively_terminates_sprawling :
    sprawling.snapshot.Functional ∧
    (visitRecursively (.tree (op "grow" [truth true]))).on
        (.ofRegistry sprawling 3 Expander.standardLabel) = Run.on (during .entry (do
      prepare (.tree (op "grow" [truth true]))
      withMode .recursive (do pure (.tree (← descend 3 0 (op "grow" [truth true]))))))
        (.ofRegistry sprawling 3 Expander.standardLabel) ∧
    ∃ e, ((visitRecursively (.tree (op "grow" [truth true]))).on
      (.ofRegistry sprawling 3 Expander.standardLabel)).1 = .error e := by
  obtain ⟨hrun, hends, -⟩ := visitRecursively_terminates
    (s := .ofRegistry sprawling 3 Expander.standardLabel) sprawling_functional
    (op "grow" [truth true])
  have hfails : ((visitRecursively (.tree (op "grow" [truth true]))).on
      (.ofRegistry sprawling 3 Expander.standardLabel)).1.isOk = false := by decide +kernel
  refine ⟨sprawling_functional, hrun, hends.resolve_left fun ⟨r, hr⟩ => ?_⟩
  rw [hr] at hfails
  cases hfails

end HygienicMacros
