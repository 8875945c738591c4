import HygienicMacros.Proofs.Computation
import HygienicMacros.Proofs.Derivation

/-! # Runs and derivations

A run of the expander that succeeds is a derivation (`Scans.of_scan`, `Rewrites.of_expandCall`).
The proof is made once, for any way of following the states (`Trail`), and used twice:

* with any transformers (`derivation_of_enter`), where a transformer may re-enter the expander in
  the middle of a run, so that the applications of the derivation are some of those filed;
* with transformers that are functions of the macro call (`derivation_of_functional`), where they
  are exactly those filed, and numbered one after the other.
-/

namespace HygienicMacros

/-! ## Runs are derivations -/

/-- The macro call that a clause takes: the expander has found it by its arguments. -/
theorem matchClause_ok {invocation : Tree} {op : String} {args : List Tree} {clause : Clause}
    {s s' : Expander} (h : (matchClause invocation (.symbol op) args).on s = (.ok clause, s')) :
    s.registry.lookup op (args.map .tree) = .ok (some clause) ∧
      s' = { s with phase := .matched } := by
  rw [matchClause, Run.on_bind_of_ok (on_setPhase _ _), Run.on_bind_of_ok (Run.on_get _)] at h
  dsimp only at h
  split at h
  · cases h
  · rename_i clause' hfound
    cases h
    exact ⟨hfound, rfl⟩
  · cases h

theorem printPieces_ok : ∀ {pieces : List (Except Error String)} {s s' : Expander},
    (printPieces pieces).on s = (.ok (), s') → ∃ text, s' = { s with printed := text }
  | [], s, s', h => by
    rw [printPieces] at h
    cases h
    exact ⟨s.printed, rfl⟩
  | .error e :: rest, s, s', h => by
    rw [printPieces, Run.on_bind_of_error (on_printPiece_error e s)] at h
    cases h
  | .ok text :: rest, s, s', h => by
    rw [printPieces, Run.on_bind_of_ok (on_printPiece_ok text s)] at h
    obtain ⟨text', rfl⟩ := printPieces_ok h
    exact ⟨text', rfl⟩

/-- The application that `settle` files. -/
def Expander.applied (s : Expander) (clause : Clause) (invocation answer : Tree)
    (caller : Option Tag) : Transition :=
  ⟨clause.name, invocation, answer, s.tags.fresh.1, answer.resolve s.tags.fresh.1 caller,
    clause.transformer.label, s.frame.depth⟩

theorem record_ok {t : Transition} {s s' : Expander} (h : (record t).on s = (.ok (), s')) :
    ∃ text, s' = { s with history := t :: s.history, phase := .substituted, printed := text } := by
  rw [record, Run.on_bind_of_ok (Run.on_modify _ _), Run.on_bind_of_ok (Run.on_get _)] at h
  dsimp only at h
  split at h
  · cases h
    exact ⟨s.printed, rfl⟩
  · obtain ⟨text, rfl⟩ := printPieces_ok h
    exact ⟨text, rfl⟩

theorem settle_ok {clause : Clause} {invocation answer expansion : Tree} {notes : Notes}
    {s s' : Expander}
    (h : (settle clause invocation notes answer).on s = (.ok expansion, s')) :
    ∃ caller text, Notes.caller notes = .ok caller ∧
      expansion = (s.applied clause invocation answer caller).expansion ∧
      s' = { s with
        tags := s.tags.fresh.2
        history := s.applied clause invocation answer caller :: s.history
        phase := .substituted
        printed := text } := by
  rw [settle, Run.on_bind_of_ok (on_freshTag s)] at h
  split at h
  · cases h
  · rename_i caller hcaller
    rw [Run.on_bind_of_ok (Run.on_get _)] at h
    dsimp only at h
    split at h
    · obtain ⟨_, s₁, hrecord, hpure⟩ := Run.on_bind_ok.1 h
      cases hpure
      obtain ⟨text, rfl⟩ := record_ok hrecord
      exact ⟨caller, text, hcaller, rfl, rfl⟩
    · cases h

/-- How a run is followed from state to state: `Track s as s'` when the applications `as` lead
from `s` to `s'`. -/
structure Trail (Track : Expander → List Transition → Expander → Prop) : Prop where
  phase : ∀ s p, Track s [] { s with phase := p }
  append : ∀ {s₁ s₂ s₃ as bs}, Track s₁ as s₂ → Track s₂ bs s₃ → Track s₁ (as ++ bs) s₃
  frame : ∀ {s s' as} f, Track { s with stack := f :: s.stack } as s' →
    Track s as { s' with stack := s'.stack.tail }
  budget : ∀ {s s' as} b, Track { s with budget := b } as s' →
    Track s as { s' with budget := s.budget }

/-- An expander that works on a registry in a mode. -/
structure Expander.Works (R : Registry) (mode : Mode) (s : Expander) : Prop where
  registry : s.registry = R
  recursive : s.recursive = (mode == .recursive)

theorem Expander.Works.later {R : Registry} {mode : Mode} {s s' : Expander} (h : s.Works R mode)
    (hs : s.Later s') : s'.Works R mode :=
  ⟨hs.registry.trans h.registry, hs.recursive.trans h.recursive⟩

theorem Expander.Works.frame {R : Registry} {mode : Mode} {s : Expander} (h : s.Works R mode)
    (f : Frame) : { s with stack := f :: s.stack }.Works R mode := ⟨h.registry, h.recursive⟩

theorem Expander.Works.budget {R : Registry} {mode : Mode} {s : Expander} (h : s.Works R mode)
    (b : Budget) : { s with budget := b }.Works R mode := ⟨h.registry, h.recursive⟩

section
variable {R : Registry} {mode : Mode} {Call : Tree → List Transition → Tree → Prop}
  {Track : Expander → List Transition → Expander → Prop} (hT : Trail Track)
include hT

/-- A scan that succeeds is derived, if what it does with macro calls is. -/
theorem Scans.of_scan {expandCall : Tree → Run Tree} (hs : ∀ t, (expandCall t).Steady)
    (hcall : ∀ {op args notes s r s'}, s.Works R mode →
      (expandCall (.call (.symbol op) args notes)).on s = (.ok r, s') →
      ∃ as, Call (.call (.symbol op) args notes) as r ∧ Track s as s') (t : Tree) :
    ∀ {s r s'}, s.Works R mode → (scan expandCall t).on s = (.ok r, s') →
      ∃ as, Scans R Call [t] as [r] ∧ Track s as s' := by
  have list : ∀ ts : List Tree, (∀ t ∈ ts, ∀ {s r s'}, s.Works R mode →
      (scan expandCall t).on s = (.ok r, s') → ∃ as, Scans R Call [t] as [r] ∧ Track s as s') →
      ∀ {s rs s'}, s.Works R mode → (scanList expandCall ts).on s = (.ok rs, s') →
        ∃ as, Scans R Call ts as rs ∧ Track s as s' := by
    intro ts
    induction ts with
    | nil =>
      intro _ s rs s' _ h
      rw [scanList] at h
      cases h
      exact ⟨[], .nil, hT.phase s s.phase⟩
    | cons t ts ih =>
      intro ht s rs s' hw h
      rw [scanList] at h
      obtain ⟨r, s₁, h1, h⟩ := Run.on_bind_ok.1 h
      obtain ⟨rs', s₂, h2, h⟩ := Run.on_bind_ok.1 h
      cases h
      obtain ⟨as, d1, k1⟩ := ht t (.head _) hw h1
      obtain ⟨bs, d2, k2⟩ := ih (fun u hu => ht u (.tail _ hu))
        (hw.later ((steady_scan hs t).later h1)) h2
      exact ⟨as ++ bs, d1.cons d2, hT.append k1 k2⟩
  induction t using Tree.induct with
  | literal d =>
    intro s r s' _ h
    rw [scan] at h
    cases h
    exact ⟨[], .literal .nil, hT.phase s s.phase⟩
  | name ident scope =>
    intro s r s' _ h
    rw [scan] at h
    cases h
    exact ⟨[], .name .nil, hT.phase s s.phase⟩
  | call op args notes ih =>
    intro s r s' hw h
    rw [scan, Run.on_bind_of_ok (Run.on_get s)] at h
    dsimp only at h
    split at h
    · rename_i hop
      rw [hw.registry] at hop
      obtain ⟨as, d, k⟩ := hcall hw h
      exact ⟨as, by simpa using Scans.expand hop d .nil, k⟩
    · rename_i hop
      rw [hw.registry, Bool.not_eq_true] at hop
      rw [Run.on_bind_of_ok (on_setPhase _ _)] at h
      obtain ⟨args', s₁, h1, h⟩ := Run.on_bind_ok.1 h
      cases h
      obtain ⟨s₂, hargs, rfl⟩ := during_ok h1
      obtain ⟨as, d, k⟩ := list args ih ((hw.later (.phase s _)).budget _) hargs
      exact ⟨as, by simpa using Scans.call hop d .nil, hT.append (hT.phase s _) (hT.budget _ k)⟩
  | apply f args notes ihf ih =>
    intro s r s' hw h
    rw [scan, Run.on_bind_of_ok (on_setPhase _ _)] at h
    obtain ⟨f', s₁, h1, h⟩ := Run.on_bind_ok.1 h
    obtain ⟨args', s₂, h2, h⟩ := Run.on_bind_ok.1 h
    cases h
    have hw1 := hw.later (.phase s .scanning)
    have hw2 := hw1.later ((steady_during (steady_scan hs f) _).later h1)
    obtain ⟨s₃, hf, rfl⟩ := during_ok h1
    obtain ⟨s₄, hargs, rfl⟩ := during_ok h2
    obtain ⟨as, d1, k1⟩ := ihf (hw1.budget _) hf
    obtain ⟨bs, d2, k2⟩ := list args ih (hw2.budget _) hargs
    exact ⟨as ++ bs, by simpa using Scans.apply d1 d2 .nil,
      hT.append (hT.append (hT.phase s _) (hT.budget _ k1)) (hT.budget _ k2)⟩
  | placeholder target => intro s r s' _ h; rw [scan, unexpected] at h; cases h
  | bare kind => intro s r s' _ h; rw [scan, unexpected] at h; cases h
  | marker kind body _ => intro s r s' _ h; rw [scan, unexpected] at h; cases h
  | unhygienic ident => intro s r s' _ h; rw [scan, unexpected] at h; cases h

/-- A macro call that is expanded is derived, if one application is. -/
theorem Rewrites.of_expandCall {Step : Transition → Prop} {reenter : Mode → Value → Run Value}
    (hre : ∀ mode v, (reenter mode v).Steady)
    (hstep : ∀ {op args notes clause s answer s₁ expansion s₂}, s.registry = R →
      R.lookup op (args.map .tree) = .ok (some clause) →
      (applyClause reenter clause (.call (.symbol op) args notes)).on s = (.ok answer, s₁) →
      (settle clause (.call (.symbol op) args notes) notes answer).on s₁ = (.ok expansion, s₂) →
      ∃ a, Step a ∧ a.invocation = .call (.symbol op) args notes ∧ a.expansion = expansion ∧
        Track s [a] s₂) :
    ∀ (k : Nat) {op args notes s r s'}, s.Works R mode →
      (expandCall reenter k (.call (.symbol op) args notes)).on s = (.ok r, s') →
      ∃ as, Rewrites R Step mode k (.call (.symbol op) args notes) as r ∧ Track s as s' := by
  intro k
  induction k with
  | zero =>
    intro op args notes s r s' hw h
    rw [expandCall] at h
    obtain ⟨clause, s₁, -, h⟩ := Run.on_bind_ok.1 h
    cases h
  | succ k ih =>
    intro op args notes s r s' hw h
    rw [expandCall] at h
    obtain ⟨clause, s₁, hmatch, h⟩ := Run.on_bind_ok.1 h
    rw [Run.on_bind_of_ok (Run.on_get _)] at h
    obtain ⟨answer, s₂, happly, h⟩ := Run.on_bind_ok.1 h
    obtain ⟨expansion, s₃, hsettle, h⟩ := Run.on_bind_ok.1 h
    rw [Run.on_bind_of_ok (Run.on_get _)] at h
    obtain ⟨hlookup, rfl⟩ := matchClause_ok hmatch
    rw [hw.registry] at hlookup
    obtain ⟨a, ha, hinv, rfl, htrack⟩ :=
      hstep (s := { s with phase := .matched }) hw.registry hlookup happly hsettle
    have hw3 : s₃.Works R mode :=
      ((hw.later (.phase s .matched)).later ((steady_applyClause hre _ _).later happly)).later
        ((steady_settle _ _ _ _).later hsettle)
    rw [hw3.recursive] at h
    have htrack' : Track s [a] s₃ := hT.append (hT.phase s .matched) htrack
    cases mode with
    | once =>
      cases h
      exact ⟨[a], ⟨a, [], rfl, ha, hinv, rfl, rfl⟩, htrack'⟩
    | recursive =>
      obtain ⟨s₄, hrescan, rfl⟩ := withFrame_ok h
      obtain ⟨s₅, hscan, rfl⟩ := during_ok hrescan
      obtain ⟨bs, d, htrack''⟩ :=
        Scans.of_scan hT (steady_expandCall hre k) ih a.expansion ((hw3.frame _).budget _) hscan
      exact ⟨a :: bs, ⟨a, bs, rfl, ha, hinv, d⟩,
        hT.append htrack' (hT.frame _ (hT.budget _ htrack''))⟩

end

/-! ## Entries -/

theorem on_prepare (t : Tree) (s : Expander) : (prepare (.tree t)).on s =
    if s.budget.covers (.survey t.skeleton) then
      match t.openNodes with
      | [] => (.ok (), { s with tags := s.tags.skipPast t.maxTag })
      | first :: _ => (.error (.invariant (.unresolvedInput s.filename first)), s)
    else (.error .stackOverflow, s) := by
  rw [prepare, Run.on_bind_of_ok (Run.on_get s)]
  simp only [Value.forest, List.all_cons, List.all_nil, Bool.and_true, List.flatMap_cons,
    List.flatMap_nil, List.append_nil]
  split
  · rcases t.openNodes with _ | ⟨first, rest⟩ <;> rfl
  · rfl

theorem prepare_ok {t : Tree} {s s' : Expander} (h : (prepare (.tree t)).on s = (.ok (), s')) :
    t.openNodes = [] ∧ s' = { s with tags := s.tags.skipPast t.maxTag } := by
  rw [on_prepare] at h
  split at h
  · split at h <;> cases h
    rename_i hopen
    exact ⟨hopen, rfl⟩
  · cases h

/-- The state in which the scan of an entry begins. -/
def Expander.entered (s : Expander) (mode : Mode) (t : Tree) : Expander :=
  { s with
    budget := s.budget.spend .entry
    tags := s.tags.skipPast t.maxTag
    recursive := mode == .recursive }

/-- An entry that succeeds is a scan, in the mode asked for, with the tags of the tree taken. -/
theorem enter_ok {room : Nat} {mode : Mode} {t : Tree} {s s' : Expander} {v : Value}
    (h : (enter room mode (.tree t)).on s = (.ok v, s')) :
    ∃ room' r s₁, v = .tree r ∧ t.openNodes = [] ∧
      (scan (expandCall (enter room') s.remaining) t).on (s.entered mode t) = (.ok r, s₁) ∧
      s' = { s₁ with recursive := s.recursive, budget := s.budget } := by
  cases room with
  | zero => cases h
  | succ room =>
    rw [enter] at h
    obtain ⟨s₀, hentry, rfl⟩ := during_ok h
    obtain ⟨_, s₁, hprepare, h⟩ := Run.on_bind_ok.1 hentry
    obtain ⟨hopen, rfl⟩ := prepare_ok hprepare
    rw [Run.on_bind_of_ok (Run.on_get _)] at h
    obtain ⟨s₂, hscan, rfl⟩ := withMode_ok h
    rw [scanValue] at hscan
    obtain ⟨r, s₃, hscan, hpure⟩ := Run.on_bind_ok.1 hscan
    cases hpure
    exact ⟨room, r, _, rfl, hopen, hscan, rfl⟩

/-- The entry point of a mode. -/
def visitIn : Mode → Value → Run Value
  | .recursive => visitRecursively
  | .once => visitOnce

theorem on_visitIn (mode : Mode) (v : Value) (s : Expander) :
    (visitIn mode v).on s = (enter s.budget.left mode v).on s := by
  cases mode <;> rfl

/-- Where a tree cannot be looked through, nothing is done with it. -/
theorem visitIn_of_unsurveyed {t : Tree} {s : Expander}
    (h : s.budget.left < s.budget.costs.of .entry + s.budget.costs.of (.survey t.skeleton))
    (mode : Mode) :
    (visitIn mode (.tree t)).on s = (.error .stackOverflow, s) := by
  rw [on_visitIn]
  cases hroom : s.budget.left with
  | zero => rfl
  | succ room =>
    rw [enter]
    cases hentry : s.budget.covers .entry with
    | false => exact on_during_of_not_covers hentry
    | true =>
      have hsurvey : (s.budget.spend .entry).covers (.survey t.skeleton) = false :=
        Budget.covers_eq_false.2 (Nat.sub_lt_left_of_lt_add (Budget.covers_eq_true.1 hentry) h)
      have hprepare : (prepare (.tree t)).on (s.spend .entry) =
          (.error .stackOverflow, s.spend .entry) := by
        rw [on_prepare, if_neg (Bool.eq_false_iff.1 hsurvey)]
      rw [on_during_of_covers hentry, Run.on_bind_of_error hprepare]

theorem works_entered (s : Expander) (mode : Mode) (t : Tree) :
    (s.entered mode t).Works s.registry mode := ⟨rfl, rfl⟩

/-! ## Any transformers -/

/-- An application whose outcome is its answer, resolved with its tag. -/
def Transition.Settled (a : Transition) : Prop :=
  ∃ caller, a.expansion = a.answer.resolve a.tag caller

/-- The applications are among those filed since. -/
def Filed (s : Expander) (as : List Transition) (s' : Expander) : Prop :=
  ∃ new, s'.history = new ++ s.history ∧ ∀ a ∈ as, a ∈ new

theorem filed_trail : Trail Filed where
  phase s p := ⟨[], rfl, by simp⟩
  append := by
    rintro s₁ s₂ s₃ as bs ⟨new, h, ha⟩ ⟨new', h', hb⟩
    refine ⟨new' ++ new, by rw [h', h, List.append_assoc], fun a hm => ?_⟩
    rcases List.mem_append.1 hm with hm | hm
    · exact List.mem_append_right _ (ha a hm)
    · exact List.mem_append_left _ (hb a hm)
  frame _ h := h
  budget _ h := h

/-- An entry that succeeds is derived, whatever the transformers do. -/
theorem derivation_of_enter {room : Nat} {mode : Mode} {t : Tree} {s s' : Expander} {v : Value}
    (h : (enter room mode (.tree t)).on s = (.ok v, s')) :
    ∃ r as, v = .tree r ∧ t.openNodes = [] ∧
      Scans s.registry (Rewrites s.registry Transition.Settled mode s.remaining) [t] as [r] ∧
      Filed s as s' := by
  obtain ⟨room', r, s₁, rfl, hopen, hscan, rfl⟩ := enter_ok h
  have hstep : ∀ {op args notes clause s answer s₁ expansion s₂},
      (applyClause (enter room') clause (.call (.symbol op) args notes)).on s = (.ok answer, s₁) →
      (settle clause (.call (.symbol op) args notes) notes answer).on s₁ = (.ok expansion, s₂) →
      ∃ a : Transition, a.Settled ∧ a.invocation = .call (.symbol op) args notes ∧
        a.expansion = expansion ∧ Filed s [a] s₂ := by
    intro op args notes clause s answer s₁ expansion s₂ happly hsettle
    obtain ⟨caller, text, -, rfl, rfl⟩ := settle_ok hsettle
    obtain ⟨new, hnew⟩ := ((steady_applyClause (steady_enter room') _ _).later happly).history
    refine ⟨s₁.applied clause (.call (.symbol op) args notes) answer caller, ⟨caller, rfl⟩, rfl,
      rfl, _ :: new, ?_, List.forall_mem_singleton.2 (.head _)⟩
    simp only [hnew, List.cons_append]
  obtain ⟨as, d, hfiled⟩ := Scans.of_scan filed_trail
    (steady_expandCall (steady_enter room') _)
    (Rewrites.of_expandCall filed_trail (steady_enter room') (fun _ _ => hstep) s.remaining)
    t (works_entered s mode t) hscan
  exact ⟨r, as, rfl, hopen, d, hfiled⟩

/-! ## Transformers that are functions -/

/-- All clauses of a registry. -/
def Registry.rules (R : Registry) : List Clause := R.macros.flatMap (·.2)

theorem Registry.mem_rules {R : Registry} {c : Clause} {name : String} (h : c ∈ R.clauses name) :
    c ∈ R.rules := by
  rw [clauses] at h
  rcases hn : R.macros.lookup name with _ | clauses
  · simp [hn] at h
  · rw [hn] at h
    obtain ⟨before, rest, hsplit, -⟩ := List.lookup_eq_some_iff.1 hn
    rw [rules, List.mem_flatMap]
    exact ⟨(name, clauses), by simp [hsplit], h⟩

theorem Registry.mem_of_firstFit {c : Clause} {args : List Value} :
    ∀ {clauses : List Clause}, firstFit clauses args = .ok (some c) → c ∈ clauses
  | [], h => by cases h
  | c' :: clauses, h => by
    rw [firstFit] at h
    split at h
    · cases h
    · cases h
      exact .head _
    · exact .tail _ (mem_of_firstFit h)

/-- The clause of a registry that takes a macro call. -/
inductive Registry.Takes (R : Registry) : Tree → Clause → Prop
  | intro {op : String} {args : List Tree} {notes : Notes} {clause : Clause}
      (lookup : R.lookup op (args.map .tree) = .ok (some clause)) :
      R.Takes (.call (.symbol op) args notes) clause

theorem Registry.Takes.mem {R : Registry} {t : Tree} {c : Clause} (h : R.Takes t c) :
    c ∈ R.rules := by
  obtain ⟨hlookup⟩ := h
  exact mem_rules (mem_of_firstFit hlookup)

/-- Every transformer is a function of the macro call: it asks the expander for nothing. -/
def Registry.Functional (R : Registry) : Prop :=
  ∀ t c, R.Takes t c → ∃ x : Except Error Value, c.transformer.body t = .ofExcept x

/-- One application of a registry whose transformers are functions. -/
inductive Registry.Applies (R : Registry) : Transition → Prop
  | intro {op : String} {args : List Tree} {notes : Notes} {clause : Clause} {answer : Tree}
      {tag : Tag} {caller : Option Tag} {depth : Nat}
      (lookup : R.lookup op (args.map .tree) = .ok (some clause))
      (body : clause.transformer.body (.call (.symbol op) args notes) = .answer (.tree answer))
      (scope : Notes.caller notes = .ok caller) :
      R.Applies ⟨clause.name, .call (.symbol op) args notes, answer, tag,
        answer.resolve tag caller, clause.transformer.label, depth⟩

theorem Registry.Applies.settled {R : Registry} {a : Transition} (h : R.Applies a) : a.Settled := by
  obtain ⟨-, -, -⟩ := h
  exact ⟨_, rfl⟩

/-- The outcome of an application has its own tag, and tags of the macro call and the answer. -/
theorem Registry.Applies.tags {R : Registry} {a : Transition} (h : R.Applies a) {n : Int}
    (hn : n ∈ a.expansion.tags) :
    n = a.tag.number ∨ n ∈ a.invocation.tags ∨ n ∈ a.answer.tags := by
  obtain ⟨-, -, hcaller⟩ := h
  rename_i op args notes clause answer tag caller depth
  obtain ⟨m, hm, hmn⟩ := Tree.mem_tags.1 hn
  rw [Tree.marks_resolve, List.mem_map] at hm
  obtain ⟨m', hm', rfl⟩ := hm
  rcases Mark.tag?_resolve hmn with h | ⟨c, rfl, rfl⟩ | h
  · exact .inl h
  · refine .inr (.inl (Tree.mem_tags.2 ⟨.call notes, by simp, ?_⟩))
    simp [Mark.tag?, Notes.scope?_of_caller hcaller]
  · exact .inr (.inr (Tree.mem_tags.2 ⟨m', hm', h⟩))

theorem on_applyClause (reenter : Mode → Value → Run Value) (clause : Clause) (invocation : Tree)
    (s : Expander) : (applyClause reenter clause invocation).on s =
      match (during .application (performTree reenter (clause.transformer.body invocation))).on
        { s with calls := s.calls + 1 } with
      | (.ok t, s') => (.ok t, s')
      | (.error e, s') => (.error (e.applied (useSite s'.filename clause invocation)),
          { s' with phase := .failed }) := by
  rw [applyClause, Run.on_bind_of_ok (Run.on_modify _ _), Run.on_bind_of_ok (on_attempt _ _)]
  rcases Run.on (during .application (performTree reenter (clause.transformer.body invocation)))
    { s with calls := s.calls + 1 } with ⟨e | t, s'⟩ <;> rfl

/-- A transformer that answers at once. -/
theorem applyClause_of_answer {clause : Clause} {invocation answer : Tree}
    (reenter : Mode → Value → Run Value)
    (h : clause.transformer.body invocation = .answer (.tree answer)) {s : Expander}
    (hs : s.budget.covers .application = true) :
    (applyClause reenter clause invocation).on s =
      (.ok answer, { s with calls := s.calls + 1 }) := by
  rw [on_applyClause, h, on_during_of_covers (s := { s with calls := s.calls + 1 }) hs]
  rfl

/-- Without room for it, no transformer is begun. -/
theorem applyClause_of_not_covers (reenter : Mode → Value → Run Value) (clause : Clause)
    (invocation : Tree) {s : Expander} (hs : s.budget.covers .application = false) :
    (applyClause reenter clause invocation).on s =
      (.error .stackOverflow, { s with calls := s.calls + 1, phase := .failed }) := by
  rw [on_applyClause, on_during_of_not_covers (s := { s with calls := s.calls + 1 }) hs]
  rfl

theorem applyClause_ok {reenter : Mode → Value → Run Value} {clause : Clause}
    {invocation answer : Tree} {x : Except Error Value}
    (hx : clause.transformer.body invocation = .ofExcept x) {s s' : Expander}
    (h : (applyClause reenter clause invocation).on s = (.ok answer, s')) :
    clause.transformer.body invocation = .answer (.tree answer) ∧
      s' = { s with calls := s.calls + 1 } := by
  rw [on_applyClause, hx] at h
  rw [hx]
  split at h
  · rename_i t s₁ hrun
    cases h
    obtain ⟨s₂, hperform, rfl⟩ := during_ok hrun
    cases x with
    | error e => cases hperform
    | ok v =>
      cases v with
      | tree t => cases hperform; exact ⟨rfl, rfl⟩
      | _ => cases hperform
  · cases h

/-- The tags of the applications are the numbers after `n`, one by one. -/
def Numbered : Nat → List Transition → Prop
  | _, [] => True
  | n, a :: as => a.tag.number = n + 1 ∧ Numbered (n + 1) as

theorem numbered_append : ∀ {n : Nat} {as bs : List Transition},
    Numbered n (as ++ bs) ↔ Numbered n as ∧ Numbered (n + as.length) bs
  | n, [], bs => by simp [Numbered]
  | n, a :: as, bs => by
    simp only [List.cons_append, Numbered, numbered_append, List.length_cons, and_assoc,
      Nat.add_assoc, Nat.add_comm 1]

theorem numbered_iff : ∀ {as : List Transition} {n : Nat},
    Numbered n as ↔ ∀ i (hi : i < as.length), as[i].tag.number = n + (i + 1)
  | [], n => by simp [Numbered]
  | a :: as, n => by
    rw [Numbered, numbered_iff]
    constructor
    · rintro ⟨h, hs⟩ i hi
      cases i with
      | zero => exact h
      | succ i =>
        rw [List.getElem_cons_succ, hs i (Nat.lt_of_succ_lt_succ hi)]
        omega
    · intro h
      refine ⟨h 0 (Nat.succ_pos _), fun i hi => ?_⟩
      have := h (i + 1) (Nat.succ_lt_succ hi)
      rw [List.getElem_cons_succ] at this
      omega

/-- The applications are exactly those filed since, and their tags those allocated since. -/
structure Counted (s : Expander) (as : List Transition) (s' : Expander) : Prop where
  history : s'.history = as.reverse ++ s.history
  last : s'.tags.last = s.tags.last + as.length
  numbered : Numbered s.tags.last as

theorem counted_trail : Trail Counted where
  phase s p := ⟨rfl, rfl, trivial⟩
  append := by
    intro s₁ s₂ s₃ as bs h h'
    refine ⟨?_, ?_, ?_⟩
    · rw [h'.history, h.history, List.reverse_append, List.append_assoc]
    · rw [h'.last, h.last, List.length_append, Nat.add_assoc]
    · rw [numbered_append, ← h.last]
      exact ⟨h.numbered, h'.numbered⟩
  frame _ h := ⟨h.history, h.last, h.numbered⟩
  budget _ h := ⟨h.history, h.last, h.numbered⟩

/-- The number from which an entry counts on. -/
theorem TagSupply.last_skipPast (n : Int) (s : TagSupply) :
    ((s.skipPast n).last : Int) = max (s.last : Int) n := by
  unfold skipPast
  split
  · simp only; omega
  · omega

/-- An entry that succeeds is derived, and the derivation lists exactly what was filed. -/
theorem derivation_of_functional {room : Nat} {mode : Mode} {t : Tree} {s s' : Expander}
    {v : Value} (hfun : s.registry.Functional)
    (h : (enter room mode (.tree t)).on s = (.ok v, s')) :
    ∃ r as, v = .tree r ∧ t.openNodes = [] ∧
      Scans s.registry (Rewrites s.registry s.registry.Applies mode s.remaining) [t] as [r] ∧
      Counted { s with tags := s.tags.skipPast t.maxTag } as s' := by
  obtain ⟨room', r, s₁, rfl, hopen, hscan, rfl⟩ := enter_ok h
  have hstep : ∀ {op args notes clause s₀ answer s₁ expansion s₂}, s₀.registry = s.registry →
      s.registry.lookup op (args.map .tree) = .ok (some clause) →
      (applyClause (enter room') clause (.call (.symbol op) args notes)).on s₀ = (.ok answer, s₁) →
      (settle clause (.call (.symbol op) args notes) notes answer).on s₁ = (.ok expansion, s₂) →
      ∃ a, s.registry.Applies a ∧ a.invocation = .call (.symbol op) args notes ∧
        a.expansion = expansion ∧ Counted s₀ [a] s₂ := by
    intro op args notes clause s₀ answer s₁ expansion s₂ _ hlookup happly hsettle
    obtain ⟨x, hx⟩ := hfun (.call (.symbol op) args notes) clause (.intro hlookup)
    obtain ⟨hbody, rfl⟩ := applyClause_ok hx happly
    obtain ⟨caller, text, hcaller, rfl, rfl⟩ := settle_ok hsettle
    exact ⟨_, .intro hlookup hbody hcaller, rfl, rfl, rfl, rfl, rfl, trivial⟩
  obtain ⟨as, d, hcount⟩ := Scans.of_scan counted_trail
    (steady_expandCall (steady_enter room') _)
    (Rewrites.of_expandCall counted_trail (steady_enter room') hstep s.remaining)
    t (works_entered s mode t) hscan
  exact ⟨r, as, rfl, hopen, d, hcount.history, hcount.last, hcount.numbered⟩

end HygienicMacros
