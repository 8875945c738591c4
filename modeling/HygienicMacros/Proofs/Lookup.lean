import Mathlib.Data.List.Forall2
import HygienicMacros.Proofs.Registration

/-! # The clause that a lookup finds

A lookup tries the clauses of a macro one after the other, and the matchers of a clause from left to
right, until one of them decides. `lookup_firstMatch` says what comes of it in terms of the patterns
as they were written:

* `Demand`: what a pattern asks for, in whatever way it was written (`PatternForm.Demands`). Where
  it has matchers, there is one for each argument (`Pattern.Meets.covers`).
* `Demand.Fits`, `Demand.Rejects`, `Demand.Fails`: the three ends of trying one clause. Exactly one
  of them comes about (`Verdict`), since a matcher accepts, rejects or fails.
* `Demand.Reached`: the search comes to a clause if all clauses before it reject.
-/

namespace HygienicMacros

/-! ## Matchers -/

/-- An outcome that is decided by three conditions. -/
structure Verdict (x : Except Error Bool) (accepts rejects : Prop) (fails : Error → Prop) :
    Prop where
  accepted : x = .ok true ↔ accepts
  rejected : x = .ok false ↔ rejects
  failed : ∀ e, x = .error e ↔ fails e

namespace MatcherForm

/-- An argument is what a matcher, as it is written, asks for: anything, a call of an operator with
some number of arguments, a tree of a variety, or what a predicate says it is. -/
def Accepts : MatcherForm → Value → Prop
  | .value .nothing, _ => True
  | .value (.text op), v => ∃ args notes, v = .tree (.call (.symbol op) args notes)
  | .value (.variety w), v => ∃ t, v = .tree t ∧ t.variety = w
  | .value _, _ => False
  | .matcher .anything, _ => True
  | .matcher (.head op arity), v => ∃ args notes, v = .tree (.call (.symbol op) args notes) ∧
      (arity = .nothing ∨ (Value.int args.length).equal arity = true)
  | .matcher (.variant w), v => ∃ t, v = .tree t ∧ t.variety = w
  | .matcher (.predicate _ test), v => test v = .ok true

/-- A matcher fails on an argument. Only a predicate does. -/
def Fails : MatcherForm → Value → Error → Prop
  | .matcher (.predicate _ test), v, e => test v = .error e
  | _, _, _ => False

/-- A matcher rejects an argument. -/
def Rejects (form : MatcherForm) (v : Value) : Prop := ¬ form.Accepts v ∧ ∀ e, ¬ form.Fails v e

end MatcherForm

/-- An outcome that does not fail is decided by one condition. -/
theorem Verdict.of_iff {b : Bool} {accepts : Prop} {fails : Error → Prop} (h : b = true ↔ accepts)
    (hfails : ∀ e, ¬ fails e) : Verdict (.ok b) accepts (¬ accepts ∧ ∀ e, ¬ fails e) fails := by
  constructor
  case accepted => rw [← h, Except.ok.injEq]
  case rejected => rw [← h, Except.ok.injEq, Bool.not_eq_true, and_iff_left hfails]
  case failed => exact fun e => ⟨fun h => (by cases h), fun h => absurd h (hfails e)⟩

theorem Matcher.isCallOf_iff {op : String} {arity v : Value} : isCallOf op arity v = true ↔
    ∃ args notes, v = .tree (.call (.symbol op) args notes) ∧
      (arity = .nothing ∨ (Value.int args.length).equal arity = true) := by
  unfold isCallOf
  split
  · rename_i f args notes
    rw [Bool.and_eq_true, beq_iff_eq]
    constructor
    · rintro ⟨rfl, harity⟩
      refine ⟨args, notes, rfl, ?_⟩
      cases arity with
      | nothing => exact .inl rfl
      | _ => exact .inr harity
    · rintro ⟨args', notes', ⟨⟩, harity⟩
      refine ⟨rfl, ?_⟩
      cases arity with
      | nothing => rfl
      | _ => exact harity.resolve_left nofun
  · rename_i hother
    simp only [Bool.false_eq_true, false_iff]
    rintro ⟨args, notes, rfl, -⟩
    exact hother op args notes rfl

theorem Matcher.isVariant_iff {w : Variety} {v : Value} :
    isVariant w v = true ↔ ∃ t, v = .tree t ∧ t.variety = w := by
  cases v <;> simp [isVariant]

/-- What a matcher makes of an argument is said by the form in which it was written. -/
theorem MatcherForm.verdict {form : MatcherForm} {m : Matcher} (h : form.resolve = .ok m)
    (v : Value) : Verdict (m.accepts v) (form.Accepts v) (form.Rejects v) (form.Fails v) := by
  have hquiet : ∀ e : Error, ¬ False := fun _ h => h
  cases form with
  | matcher m' =>
    cases h
    cases m with
    | anything => exact .of_iff ⟨fun _ => trivial, fun _ => rfl⟩ hquiet
    | head op arity => exact .of_iff Matcher.isCallOf_iff hquiet
    | variant w => exact .of_iff Matcher.isVariant_iff hquiet
    | predicate label test =>
      show Verdict (test v) (test v = .ok true) (test v ≠ .ok true ∧ ∀ e, test v ≠ .error e)
        (fun e => test v = .error e)
      rcases test v with e | _ | _ <;> constructor <;> simp
  | value w =>
    cases w with
    | nothing =>
      cases h
      exact .of_iff ⟨fun _ => trivial, fun _ => rfl⟩ hquiet
    | text op =>
      cases h
      refine .of_iff ?_ hquiet
      rw [Matcher.isCallOf_iff]
      simp [Accepts]
    | variety w =>
      cases w <;> cases h <;> exact .of_iff Matcher.isVariant_iff hquiet
    | _ => cases h

/-! ## Patterns -/

/-- What a pattern asks for: a number of arguments, if it is fixed, and matchers for the arguments,
if there are any. -/
structure Demand where
  count : Option Nat
  matchers : Option (List MatcherForm)

/-- The number of arguments that is asked for by a number and matchers, each of them optional. -/
def Pattern.askedCount (arity : Value) (shape : Option (List MatcherForm)) : Option Nat :=
  match arity with
  | .int n => some n.toNat
  | _ => shape.map List.length

/-- What is asked for by a pattern in each of the ways in which it may be written: as nothing, as a
number, as a sequence of matchers, or as a pattern that was made from a number and matchers. -/
inductive PatternForm.Demands : PatternForm → Demand → Prop
  | nothing : Demands (.value .nothing) ⟨none, none⟩
  | count (n : Nat) : Demands (.value (.int n)) ⟨some n, none⟩
  | matchers (forms : List MatcherForm) : Demands (.matchers forms) ⟨some forms.length, some forms⟩
  | list (items : List Value) :
      Demands (.value (.list items)) ⟨some items.length, some (items.map .value)⟩
  | tuple (items : List Value) :
      Demands (.value (.tuple items)) ⟨some items.length, some (items.map .value)⟩
  | pattern {arity : Value} {shape : Option (List MatcherForm)} {p : Pattern}
      (made : Pattern.ofParts arity shape = .ok p) :
      Demands (.pattern p) ⟨Pattern.askedCount arity shape, shape⟩

/-- A matcher is asked about an argument: those before it have accepted theirs. -/
inductive MatcherForm.Asked : List MatcherForm → List Value → MatcherForm → Value → Prop
  | here {m : MatcherForm} {ms : List MatcherForm} {v : Value} {vs : List Value} :
      Asked (m :: ms) (v :: vs) m v
  | there {m m' : MatcherForm} {ms : List MatcherForm} {v v' : Value} {vs : List Value}
      (accepts : m.Accepts v) (later : Asked ms vs m' v') : Asked (m :: ms) (v :: vs) m' v'

namespace MatcherForm

theorem not_asked_nil {m : MatcherForm} {v : Value} {args : List Value} : ¬ Asked [] args m v :=
  nofun

/-- The first matcher is asked, and the others are if it accepts. -/
theorem exists_asked_cons {m : MatcherForm} {ms : List MatcherForm} {v : Value} {vs : List Value}
    {P : MatcherForm → Value → Prop} : (∃ m' v', Asked (m :: ms) (v :: vs) m' v' ∧ P m' v') ↔
      P m v ∨ m.Accepts v ∧ ∃ m' v', Asked ms vs m' v' ∧ P m' v' := by
  constructor
  · rintro ⟨m', v', _ | ⟨haccepts, hlater⟩, h⟩
    · exact .inl h
    · exact .inr ⟨haccepts, m', v', hlater, h⟩
  · rintro (h | ⟨haccepts, m', v', hlater, h⟩)
    · exact ⟨m, v, .here, h⟩
    · exact ⟨m', v', .there haccepts hlater, h⟩

end MatcherForm

namespace Demand

variable (d : Demand) (args : List Value)

/-- The number of arguments is the one that is asked for, if any is. -/
def Counts : Prop := ∀ n, d.count = some n → args.length = n

/-- The arguments fit: their number is right, and every matcher accepts its argument. -/
def Fits : Prop :=
  d.Counts args ∧ ∀ ms, d.matchers = some ms → List.Forall₂ MatcherForm.Accepts ms args

/-- The arguments are rejected: their number is wrong, and then no matcher is asked, or a matcher
rejects its argument. -/
def Rejects : Prop :=
  d.Counts args → ∃ ms m v, d.matchers = some ms ∧ MatcherForm.Asked ms args m v ∧ m.Rejects v

/-- Trying the arguments fails: their number is right, and a matcher that is asked fails. -/
def Fails (e : Error) : Prop :=
  d.Counts args ∧ ∃ ms m v, d.matchers = some ms ∧ MatcherForm.Asked ms args m v ∧ m.Fails v e

end Demand

/-- A pattern has the number and the matchers that are asked for. -/
inductive Pattern.Meets : Pattern → Demand → Prop
  | any : Meets .any ⟨none, none⟩
  | arity (n : Nat) : Meets (.arity n) ⟨some n, none⟩
  | shape {forms : List MatcherForm} {ms : List Matcher}
      (resolved : List.Forall₂ (fun form m => MatcherForm.resolve form = .ok m) forms ms) :
      Meets (.shape ms) ⟨some forms.length, some forms⟩

theorem MatcherForm.resolveAll_ok : ∀ {forms : List MatcherForm} {ms : List Matcher},
    resolveAll forms = .ok ms → List.Forall₂ (fun form m => form.resolve = .ok m) forms ms
  | [], ms, h => by cases h; exact .nil
  | form :: forms, ms, h => by
    rw [resolveAll] at h
    cases hm : form.resolve with
    | error e => rw [hm] at h; cases h
    | ok m =>
      rw [hm] at h
      cases hms : resolveAll forms with
      | error e => rw [hms] at h; cases h
      | ok rest =>
        rw [hms] at h
        cases h
        exact .cons hm (resolveAll_ok hms)

namespace Pattern

/-- A pattern with matchers asks for as many arguments as it has matchers. -/
theorem Meets.covers {p : Pattern} {d : Demand} (h : p.Meets d) {ms : List MatcherForm}
    (hms : d.matchers = some ms) : d.count = some ms.length := by
  cases h with
  | any => cases hms
  | arity n => cases hms
  | shape _ => cases hms; rfl

theorem meets_ofParts {arity : Value} {shape : Option (List MatcherForm)} {p : Pattern}
    (h : ofParts arity shape = .ok p) : p.Meets ⟨askedCount arity shape, shape⟩ := by
  unfold ofParts at h
  cases shape with
  | none =>
    cases arity with
    | nothing => cases h; exact .any
    | int n =>
      simp only at h
      split at h
      · cases h; exact .arity n.toNat
      · cases h
    | _ => cases h
  | some forms =>
    dsimp only at h
    cases hms : MatcherForm.resolveAll forms with
    | error e => rw [hms] at h; cases h
    | ok ms =>
      rw [hms] at h
      have hforms := MatcherForm.resolveAll_ok hms
      have hshape : (Pattern.shape ms).Meets ⟨some forms.length, some forms⟩ := .shape hforms
      cases arity with
      | nothing => cases h; exact hshape
      | int n =>
        change (if (Value.int n).equal (.int ms.length) = true then _ else _) = _ at h
        split at h
        · rename_i hequal
          cases h
          have hn : n = ms.length := by
            simpa [Value.equal, Value.equalNumber, Value.integer?] using hequal
          simpa [askedCount, hn, hforms.length_eq] using hshape
        · cases h
      | _ =>
        simp only [bind, Except.bind] at h
        split at h <;> cases h

theorem ofParts_int (n : Nat) : ofParts (.int n) none = .ok (.arity n) := by
  rw [ofParts]
  exact if_pos (Int.natCast_nonneg n)

theorem ofParts_matchers (ms : List Matcher) :
    ofParts .nothing (some (ms.map .matcher)) = .ok (.shape ms) := by
  have hresolve : MatcherForm.resolveAll (ms.map .matcher) = .ok ms := by
    induction ms with
    | nil => rfl
    | cons m ms ih => rw [List.map_cons, MatcherForm.resolveAll, ih]; rfl
  rw [ofParts, hresolve]
  rfl

theorem meets_resolve {form : PatternForm} {d : Demand} {p : Pattern} (hd : form.Demands d)
    (h : form.resolve = .ok p) : p.Meets d := by
  cases hd with
  | nothing => cases h; exact .any
  | count n =>
    rw [PatternForm.resolve] at h
    exact meets_ofParts h
  | matchers forms =>
    rw [PatternForm.resolve] at h
    exact meets_ofParts h
  | list items =>
    rw [PatternForm.resolve] at h
    simpa [askedCount] using meets_ofParts h
  | tuple items =>
    rw [PatternForm.resolve] at h
    simpa [askedCount] using meets_ofParts h
  | pattern made => cases h; exact meets_ofParts made

theorem verdict_allAccept {forms : List MatcherForm} {ms : List Matcher}
    (h : List.Forall₂ (fun form m => form.resolve = .ok m) forms ms) :
    ∀ {args : List Value}, args.length = forms.length →
      Verdict (allAccept ms args) (List.Forall₂ MatcherForm.Accepts forms args)
        (∃ m v, MatcherForm.Asked forms args m v ∧ m.Rejects v)
        (fun e => ∃ m v, MatcherForm.Asked forms args m v ∧ m.Fails v e) := by
  induction h with
  | nil =>
    intro args hlength
    obtain rfl := List.length_eq_zero_iff.1 hlength
    exact ⟨by simp [allAccept], by simp [allAccept, MatcherForm.not_asked_nil],
      by simp [allAccept, MatcherForm.not_asked_nil]⟩
  | @cons form m forms ms hform _ ih =>
    intro args hlength
    cases args with
    | nil => cases hlength
    | cons v vs =>
      have hrest := ih (Nat.succ.inj hlength)
      have hfirst := form.verdict hform v
      rw [allAccept]
      simp only [List.forall₂_cons, MatcherForm.exists_asked_cons, ← hfirst.accepted,
        ← hfirst.rejected, ← hfirst.failed]
      -- the first matcher decides, unless it accepts
      rcases m.accepts v with e | _ | _
      · constructor <;> simp
      · constructor <;> simp
      · constructor
        · simpa using hrest.accepted
        · simpa using hrest.rejected
        · simpa using hrest.failed

/-- Trying a pattern ends as what it asks for says. -/
theorem Meets.verdict {p : Pattern} {d : Demand} (h : p.Meets d) (args : List Value) :
    Verdict (p.fits args) (d.Fits args) (d.Rejects args) (d.Fails args) := by
  cases h with
  | any => constructor <;> simp [fits, Demand.Fits, Demand.Rejects, Demand.Fails, Demand.Counts]
  | arity n => constructor <;> simp [fits, Demand.Fits, Demand.Rejects, Demand.Fails, Demand.Counts]
  | @shape forms ms hforms =>
    rw [fits, ← hforms.length_eq]
    by_cases hcount : args.length = forms.length
    · have hall := verdict_allAccept hforms hcount
      rw [if_pos hcount]
      constructor
      · rw [hall.accepted]; simp [Demand.Fits, Demand.Counts, hcount]
      · rw [hall.rejected]; simp [Demand.Rejects, Demand.Counts, hcount]
      · intro e; rw [hall.failed]; simp [Demand.Fails, Demand.Counts, hcount]
    · rw [if_neg hcount]
      constructor <;> simp [Demand.Fits, Demand.Rejects, Demand.Fails, Demand.Counts, hcount]

end Pattern

/-- However a pattern is written, if it is accepted it asks for something. -/
theorem PatternForm.exists_demands {form : PatternForm} {p : Pattern} (h : form.resolve = .ok p) :
    ∃ d, form.Demands d := by
  cases form with
  | pattern p =>
    cases p with
    | any => exact ⟨_, .pattern (rfl : Pattern.ofParts .nothing none = .ok .any)⟩
    | arity n => exact ⟨_, .pattern (Pattern.ofParts_int n)⟩
    | shape ms => exact ⟨_, .pattern (Pattern.ofParts_matchers ms)⟩
  | matchers forms => exact ⟨_, .matchers forms⟩
  | value v =>
    cases v with
    | nothing => exact ⟨_, .nothing⟩
    | int n =>
      by_cases hn : 0 ≤ n
      · obtain ⟨n, rfl⟩ := Int.eq_ofNat_of_zero_le hn
        exact ⟨_, .count n⟩
      · rw [resolve, Pattern.ofParts] at h
        simp only [if_neg hn] at h
        cases h
    | list items => exact ⟨_, .list items⟩
    | tuple items => exact ⟨_, .tuple items⟩
    | _ => cases h

/-! ## Clauses -/

/-- Of the three conditions that decide an outcome, the second holds if the others do not. -/
theorem Verdict.rejects_iff {x : Except Error Bool} {accepts rejects : Prop} {fails : Error → Prop}
    (h : Verdict x accepts rejects fails) : rejects ↔ ¬ accepts ∧ ∀ e, ¬ fails e := by
  simp only [← h.accepted, ← h.rejected, ← h.failed]
  rcases x with e | _ | _ <;> simp

/-- A search among clauses comes to one of them: those before it reject the arguments. -/
def Demand.Reached (ds : List Demand) (args : List Value) (i : Nat) (d : Demand) : Prop :=
  ds[i]? = some d ∧ ∀ j < i, ∀ d', ds[j]? = some d' → d'.Rejects args

theorem Demand.not_reached_nil {args : List Value} {i : Nat} {d : Demand} :
    ¬ Reached [] args i d := fun h => by cases h.1

/-- The search comes to the first clause, and to the others if it rejects. -/
theorem Demand.exists_reached_cons {d : Demand} {ds : List Demand} {args : List Value}
    {P : Nat → Demand → Prop} : (∃ i d', Reached (d :: ds) args i d' ∧ P i d') ↔
      P 0 d ∨ d.Rejects args ∧ ∃ i d', Reached ds args i d' ∧ P (i + 1) d' := by
  constructor
  · rintro ⟨_ | i, d', ⟨hget, hbefore⟩, h⟩
    · cases hget
      exact .inl h
    · refine .inr ⟨hbefore 0 i.succ_pos d rfl, i, d', ⟨hget, fun j hj d'' hd'' => ?_⟩, h⟩
      exact hbefore (j + 1) (Nat.succ_lt_succ hj) d'' hd''
  · rintro (h | ⟨hfirst, i, d', ⟨hget, hbefore⟩, h⟩)
    · exact ⟨0, d, ⟨rfl, nofun⟩, h⟩
    · refine ⟨i + 1, d', ⟨hget, fun j hj d'' hd'' => ?_⟩, h⟩
      cases j with
      | zero => cases hd''; exact hfirst
      | succ j => exact hbefore j (Nat.lt_of_succ_lt_succ hj) d'' hd''

/-- What comes of a search among clauses: the clause it comes to and that fits, nothing if they all
reject, or the failure of a clause it comes to. -/
structure Search (x : Except Error (Option Clause)) (cs : List Clause) (ds : List Demand)
    (args : List Value) : Prop where
  found : ∀ c, x = .ok (some c) ↔
    ∃ i d, Demand.Reached ds args i d ∧ cs[i]? = some c ∧ d.Fits args
  missed : x = .ok none ↔ ∀ d ∈ ds, d.Rejects args
  raised : ∀ e, x = .error e ↔ ∃ i d, Demand.Reached ds args i d ∧ d.Fails args e

namespace Registry

theorem search_firstFit {cs : List Clause} {ds : List Demand}
    (h : List.Forall₂ (fun c d => c.pattern.Meets d) cs ds) (args : List Value) :
    Search (firstFit cs args) cs ds args := by
  induction h with
  | nil => constructor <;> simp [firstFit, Demand.not_reached_nil]
  | @cons c d cs ds hfirst _ ih =>
    have hverdict := hfirst.verdict args
    rw [firstFit]
    constructor
    all_goals
      simp only [Demand.exists_reached_cons, List.forall_mem_cons, List.getElem?_cons_zero,
        List.getElem?_cons_succ, ← hverdict.accepted, ← hverdict.rejected, ← hverdict.failed]
      -- the first clause decides, unless it rejects
      rcases c.pattern.fits args with e | _ | _
    · simp
    · simpa using ih.found
    · simp
    · simp
    · simpa using ih.missed
    · simp
    · simp
    · simpa using ih.raised
    · simp

/-- A registry into which clauses were registered one after the other, with what the patterns of
each macro ask for in the order of registration. -/
inductive Written : Registry → (String → List Demand) → Prop
  | empty (terminals : List String) : Written (.empty terminals) fun _ => []
  | register {r r' : Registry} {ds : String → List Demand} {name : Value} {form : PatternForm}
      {candidate : Candidate} {c : Clause} {d : Demand} (written : Written r ds)
      (demands : form.Demands d) (registered : r.register name form candidate = .ok (r', c)) :
      Written r' fun n => if n = c.name then ds n ++ [d] else ds n
  | freeze {r : Registry} {ds : String → List Demand} (written : Written r ds) :
      Written r.freeze ds

namespace Written

variable {r : Registry} {ds : String → List Demand}

theorem wellFormed (h : r.Written ds) : r.WellFormed := by
  induction h with
  | empty terminals => exact wellFormed_empty terminals
  | register _ _ registered ih => exact ih.register registered
  | freeze _ ih => exact ih.freeze

/-- The pattern of each clause meets what was asked for when it was registered. -/
theorem meets (h : r.Written ds) (n : String) :
    List.Forall₂ (fun c d => c.pattern.Meets d) (r.clauses n) (ds n) := by
  induction h with
  | empty terminals => exact .nil
  | @register _ _ _ _ _ _ c _ _ demands registered ih =>
    obtain ⟨hadmits, hgains⟩ := register_ok registered
    beta_reduce
    by_cases hn : n = c.name
    · subst hn
      rw [if_pos rfl, hgains.last]
      have hlast := Pattern.meets_resolve demands hadmits.pattern
      exact List.rel_append ih (.cons hlast .nil)
    · rw [if_neg hn, hgains.others n hn]
      exact ih
  | freeze _ ih => exact ih

end Written

/-- A lookup finds the first clause that fits, whichever way the patterns were written: every
accepted way asks for something, and where it asks for matchers there is one for each argument.
Trying a clause with the wrong number of arguments asks no matcher, a matcher that rejects ends the
clause, and a clause that fits ends the search; so what is raised comes from the first matcher that
fails among those that are asked. If none fails, the clause that is found is the one with the least
index among those that fit, and none is found only if none fits. -/
theorem lookup_firstMatch {r : Registry} {ds : String → List Demand} (h : r.Written ds)
    (name : String) (args : List Value) :
    (∀ (form : PatternForm) p, form.resolve = .ok p → ∃ d, form.Demands d) ∧
    (∀ d ∈ ds name, ∀ ms, d.matchers = some ms → d.count = some ms.length) ∧
    (r.clauses name).length = (ds name).length ∧
    (∀ i (c : Clause), (r.clauses name)[i]? = some c → c.name = name ∧ c.index = i) ∧
    Search (r.lookup name args) (r.clauses name) (ds name) args ∧
    ((∀ d ∈ ds name, ∀ e, ¬ d.Fails args e) →
      (∀ c, r.lookup name args = .ok (some c) ↔ ∃ (i : Nat) (d : Demand),
        (ds name)[i]? = some d ∧ d.Fits args ∧ (r.clauses name)[i]? = some c ∧
        ∀ j < i, ∀ d' : Demand, (ds name)[j]? = some d' → ¬ d'.Fits args) ∧
      (r.lookup name args = .ok none ↔ ∀ d ∈ ds name, ¬ d.Fits args)) := by
  have hmeets := h.meets name
  have hsearch := search_firstFit hmeets args
  have hpattern : ∀ d ∈ ds name, ∃ p : Pattern, p.Meets d := fun d hd => by
    obtain ⟨i, rfl⟩ := List.mem_iff_get.1 hd
    exact ⟨_, hmeets.get (hmeets.length_eq.symm ▸ i.2 : i.1 < (r.clauses name).length) i.2⟩
  refine ⟨fun _ _ => PatternForm.exists_demands, fun d hd ms hms => ?_, hmeets.length_eq,
    fun _ _ hget => h.wellFormed.filed hget, hsearch, fun hquiet => ?_⟩
  · obtain ⟨p, hp⟩ := hpattern d hd
    exact hp.covers hms
  · -- without failures, to be rejected is not to fit
    have hrejects : ∀ d ∈ ds name, (d.Rejects args ↔ ¬ d.Fits args) := fun d hd => by
      obtain ⟨p, hp⟩ := hpattern d hd
      rw [(hp.verdict args).rejects_iff, and_iff_left (hquiet d hd)]
    refine ⟨fun c => (hsearch.found c).trans ?_, hsearch.missed.trans ?_⟩
    · constructor
      · rintro ⟨i, d, ⟨hget, hbefore⟩, hc, hfits⟩
        refine ⟨i, d, hget, hfits, hc, fun j hj d' hd' => ?_⟩
        exact (hrejects d' (List.mem_of_getElem? hd')).1 (hbefore j hj d' hd')
      · rintro ⟨i, d, hget, hfits, hc, hbefore⟩
        refine ⟨i, d, ⟨hget, fun j hj d' hd' => ?_⟩, hc, hfits⟩
        exact (hrejects d' (List.mem_of_getElem? hd')).2 (hbefore j hj d' hd')
    · exact forall₂_congr hrejects

end Registry

namespace Catalogue

/-- A matcher for literals that fails on everything else. -/
def literalOrFail : Matcher :=
  .predicate "literal_or_fail" fun v =>
    if Matcher.isVariant .literal v then .ok true else .error (.raised .valueFault "not a literal")

/-- A transformer that leaves its call as it is. -/
def unchanged : Candidate := .function "unchanged" fun t => .ofExcept (.ok (.tree t))

def twoNames : List Value := [.tree (.name "x" .source), .tree (.name "y" .source)]

def nameAndLiteral : List Value := [.tree (.name "x" .source), .tree (.literal (.int 1))]

end Catalogue

open Catalogue in
/-- A macro with four clauses whose patterns are written in four ways. Two names are no call of `f`,
and the second of them makes the second clause fail; a name and a literal fit that clause. -/
theorem Registry.lookup_firstMatch_fourWays : ∃ (r : Registry) (ds : String → List Demand),
    r.Written ds ∧ (ds "m").length = 4 ∧
    r.lookup "m" twoNames = .error (.raised .valueFault "not a literal") ∧
    (∃ i d, Demand.Reached (ds "m") twoNames i d ∧
      d.Fails twoNames (.raised .valueFault "not a literal")) ∧
    ∃ c, r.lookup "m" nameAndLiteral = .ok (some c) ∧ c.index = 1 ∧
      ∃ i d, Demand.Reached (ds "m") nameAndLiteral i d ∧ (r.clauses "m")[i]? = some c ∧
        d.Fits nameAndLiteral := by
  have hwritten : ∃ (r : Registry) (ds : String → List Demand), r.Written ds ∧
      (ds "m").length = 4 ∧ r.lookup "m" twoNames = .error (.raised .valueFault "not a literal") ∧
      ∃ c, r.lookup "m" nameAndLiteral = .ok (some c) ∧ c.index = 1 := by
    have hone := (Written.empty standardTerminals).register (.tuple [.text "f", .nothing])
      (show register _ (.text "m") _ unchanged = _ by rfl)
    have htwo := hone.register (.matchers [.value (.variety .name), .matcher literalOrFail])
      (show register _ (.text "m") _ unchanged = _ by rfl)
    have hthree := htwo.register (.count 2) (show register _ (.text "m") _ unchanged = _ by rfl)
    have hfour := hthree.register .nothing (show register _ (.text "m") _ unchanged = _ by rfl)
    exact ⟨_, _, hfour, rfl, rfl, _, rfl, rfl⟩
  obtain ⟨r, ds, h, hlength, hraised, c, hfound, hindex⟩ := hwritten
  obtain ⟨_, _, _, _, hnames, _⟩ := lookup_firstMatch h "m" twoNames
  obtain ⟨_, _, _, _, hmixed, _⟩ := lookup_firstMatch h "m" nameAndLiteral
  exact ⟨r, ds, h, hlength, hraised, (hnames.raised _).1 hraised, c, hfound, hindex,
    (hmixed.found c).1 hfound⟩

end HygienicMacros
