import HygienicMacros.Proofs.Coupling
import HygienicMacros.Proofs.ErrorKinds
import HygienicMacros.Proofs.Identity

/-! # One layer

Expanding once replaces the outermost macro calls and looks at nothing else. This is said without
running anything: `Tree.frontier` lists where a tree is touched, `Expander.rewrite` is what becomes
of one such place by itself, given the tag at hand, and `Tree.graft` puts the outcomes in their
places. `Expander.layer` rewrites the places in scan order with consecutive tags and stops at the
first error. With enough room on the stack the run does just that, and with less it overflows
(`visitOnce_layer`).

* `Tree.graft_frontier`: the frontier grafted back gives the tree.
* `Run.Yields`: a computation has an outcome if there is room for it; one lemma for each way to put
  computations together.
* `Expander.Follows`: with some room that does not depend on the state, a computation yields the
  rewriting of some places; `follows_scan` is by induction on the tree.
-/

namespace HygienicMacros

/-! ## The places that are touched -/

namespace Tree

mutual

/-- The outermost macro calls of a tree, and the nodes outside of them that no finished tree has, in
scan order. -/
def frontier (R : Registry) : Tree → List Tree
  | .literal _ => []
  | .name _ _ => []
  | .call (.symbol op) args notes =>
    if R.isMacro op then [.call (.symbol op) args notes] else frontierList R args
  | .call (.tree f) args _ => frontier R f ++ frontierList R args
  | .placeholder target => [.placeholder target]
  | .marker kind body => [.marker kind body]
  | .unhygienic ident => [.unhygienic ident]

/-- The frontiers of some trees, from left to right. -/
def frontierList (R : Registry) : List Tree → List Tree
  | [] => []
  | t :: ts => frontier R t ++ frontierList R ts

end

mutual

/-- A tree with other trees in the places of its frontier, in the same order. -/
def graft (R : Registry) : Tree → List Tree → Tree
  | .literal d, _ => .literal d
  | .name ident scope, _ => .name ident scope
  | .call (.symbol op) args notes, rs =>
    if R.isMacro op then rs.headD (.call (.symbol op) args notes)
    else .call (.symbol op) (graftList R args rs) notes
  | .call (.tree f) args notes, rs =>
    .call (.tree (graft R f (rs.take (frontier R f).length)))
      (graftList R args (rs.drop (frontier R f).length)) notes
  | .placeholder target, rs => rs.headD (.placeholder target)
  | .marker kind body, rs => rs.headD (.marker kind body)
  | .unhygienic ident, rs => rs.headD (.unhygienic ident)

/-- Some trees with other trees in the places of their frontiers. -/
def graftList (R : Registry) : List Tree → List Tree → List Tree
  | [], _ => []
  | t :: ts, rs =>
    graft R t (rs.take (frontier R t).length) ::
      graftList R ts (rs.drop (frontier R t).length)

end

theorem graftList_frontierList {R : Registry} : ∀ {ts : List Tree},
    (∀ t ∈ ts, t.graft R (t.frontier R) = t) → graftList R ts (frontierList R ts) = ts
  | [], _ => by rw [graftList]
  | t :: ts, h => by
    rw [List.forall_mem_cons] at h
    rw [graftList, frontierList, List.take_left, List.drop_left, h.1, graftList_frontierList h.2]

/-- With its own frontier in place, a tree is as it was. -/
theorem graft_frontier (R : Registry) (t : Tree) : t.graft R (t.frontier R) = t := by
  induction t using Tree.induct with
  | literal d => rw [graft]
  | name ident scope => rw [graft]
  | call op args notes ih =>
    rw [graft, frontier]
    split
    · rfl
    · rw [graftList_frontierList ih]
  | apply f args notes ihf ih =>
    rw [graft, frontier, List.take_left, List.drop_left, ihf, graftList_frontierList ih]
  | placeholder target => rw [graft, frontier]; rfl
  | bare kind => rw [graft, frontier]; rfl
  | marker kind body _ => rw [graft, frontier]; rfl
  | unhygienic ident => rw [graft, frontier]; rfl

end Tree

/-! ## One place by itself -/

/-- The error in place of a piece of text. -/
def failure? : Except Error String → Option Error
  | .ok _ => none
  | .error e => some e

namespace Expander

/-- The first failure of the hook on an application. -/
def complaint (s : Expander) (a : Transition) : Option Error :=
  s.hook.bind fun hook => (hook.pieces a).findSome? failure?

/-- The clause for a macro call, or why there is none. -/
def clauseFor (s : Expander) (op : String) (args : List Tree) (notes : Notes) :
    Except Error Clause :=
  match s.registry.lookup op (args.map .tree) with
  | .error e => .error e
  | .ok (some clause) => .ok clause
  | .ok none => .error (.noMatchingClause s.filename (.call (.symbol op) args notes) (.text op)
      ((s.registry.clauses op).map (·.pattern.describe)))

/-- The tree that a transformer computes for a macro call; a failure, or an answer that is no tree,
is reported with the place. -/
def answerOf (s : Expander) (clause : Clause) (invocation : Tree) : Except Error Tree :=
  match (clause.transformer.body invocation).outcome with
  | .ok (.tree answer) => .ok answer
  | .ok v => .error ((Error.unmet .transformerResult v).applied
      (useSite s.filename clause invocation))
  | .error e => .error (e.applied (useSite s.filename clause invocation))

/-- The application that an answer makes, unless the scope of the place is not one or the hook
fails. -/
def settled (s : Expander) (tag : Tag) (clause : Clause) (invocation : Tree) (notes : Notes)
    (answer : Tree) : Except Error Transition :=
  match Notes.caller notes with
  | .error e => .error e
  | .ok caller =>
    let a : Transition := ⟨clause.name, invocation, answer, tag, answer.resolve tag caller,
      clause.transformer.label, s.frame.depth⟩
    match s.complaint a with
    | none => .ok a
    | some e => .error e

/-- What becomes of one place of a frontier: the application that replaces it, or an error. -/
def rewrite (s : Expander) (tag : Tag) : Tree → Except Error Transition
  | .call (.symbol op) args notes => do
    let clause ← s.clauseFor op args notes
    let answer ← s.answerOf clause (.call (.symbol op) args notes)
    s.settled tag clause (.call (.symbol op) args notes) notes answer
  | t => .error (.invariant (.unexpectedNode s.filename t))

/-- Rewrites places from left to right, with the tags after `n`, until one fails. -/
def rewriteAll (s : Expander) : Nat → List Tree → Except Error (List Transition)
  | _, [] => .ok []
  | n, c :: cs => do
    let a ← s.rewrite (TagSupply.mk n).fresh.1 c
    let as ← s.rewriteAll (n + 1) cs
    return a :: as

/-- The applications of one layer of a tree, with the tags that come after the last one used and
after all in the tree. -/
def layer (s : Expander) (t : Tree) : Except Error (List Transition) :=
  s.rewriteAll (s.tags.skipPast t.maxTag).last (t.frontier s.registry)

variable {s : Expander}

theorem rewriteAll_cons_of_ok {n : Nat} {c : Tree} {cs : List Tree} {a : Transition}
    (h : s.rewrite (TagSupply.mk n).fresh.1 c = .ok a) :
    s.rewriteAll n (c :: cs) = (s.rewriteAll (n + 1) cs).map (a :: ·) := by
  rw [rewriteAll, h]
  cases s.rewriteAll (n + 1) cs <;> rfl

theorem rewriteAll_cons_of_error {n : Nat} {c : Tree} {cs : List Tree} {e : Error}
    (h : s.rewrite (TagSupply.mk n).fresh.1 c = .error e) :
    s.rewriteAll n (c :: cs) = .error e := by
  rw [rewriteAll, h]
  rfl

theorem rewriteAll_eq_ok_cons {n : Nat} {c : Tree} {cs : List Tree} {as : List Transition}
    (h : s.rewriteAll n (c :: cs) = .ok as) :
    ∃ a bs, as = a :: bs ∧ s.rewrite (TagSupply.mk n).fresh.1 c = .ok a ∧
      s.rewriteAll (n + 1) cs = .ok bs := by
  cases hc : s.rewrite (TagSupply.mk n).fresh.1 c with
  | error e =>
    rw [rewriteAll_cons_of_error hc] at h
    cases h
  | ok a =>
    rw [rewriteAll_cons_of_ok hc] at h
    cases hcs : s.rewriteAll (n + 1) cs with
    | error e =>
      rw [hcs] at h
      cases h
    | ok bs =>
      rw [hcs] at h
      cases h
      exact ⟨a, bs, rfl, rfl, rfl⟩

theorem length_rewriteAll : ∀ {cs : List Tree} {n : Nat} {as : List Transition},
    s.rewriteAll n cs = .ok as → as.length = cs.length
  | [], _, _, h => by cases h; rfl
  | c :: cs, n, as, h => by
    obtain ⟨a, bs, rfl, -, hcs⟩ := rewriteAll_eq_ok_cons h
    rw [List.length_cons, List.length_cons, length_rewriteAll hcs]

theorem rewriteAll_append_of_ok {ds : List Tree} : ∀ {cs : List Tree} {n : Nat}
    {as : List Transition}, s.rewriteAll n cs = .ok as →
      s.rewriteAll n (cs ++ ds) = (s.rewriteAll (n + cs.length) ds).map (as ++ ·)
  | [], n, as, h => by
    cases h
    rw [List.nil_append, List.length_nil, Nat.add_zero]
    cases s.rewriteAll n ds <;> rfl
  | c :: cs, n, as, h => by
    obtain ⟨a, bs, rfl, hc, hcs⟩ := rewriteAll_eq_ok_cons h
    rw [List.cons_append, rewriteAll_cons_of_ok hc, rewriteAll_append_of_ok hcs, List.length_cons,
      Nat.add_right_comm n 1, Nat.add_assoc n]
    cases s.rewriteAll (n + (cs.length + 1)) ds <;> rfl

/-- The rewriting fails with the error of the first place that fails. -/
theorem rewriteAll_eq_error {e : Error} : ∀ {cs : List Tree} {n : Nat},
    s.rewriteAll n cs = .error e ↔ ∃ before c after bs, cs = before ++ c :: after ∧
      s.rewriteAll n before = .ok bs ∧
      s.rewrite (TagSupply.mk (n + before.length)).fresh.1 c = .error e := by
  intro cs n
  constructor
  · induction cs generalizing n with
    | nil => intro h; cases h
    | cons c cs ih =>
      intro h
      cases hc : s.rewrite (TagSupply.mk n).fresh.1 c with
      | error e' =>
        rw [rewriteAll_cons_of_error hc] at h
        cases h
        exact ⟨[], c, cs, [], rfl, rfl, hc⟩
      | ok a =>
        have hcs : s.rewriteAll (n + 1) cs = .error e := by
          rw [rewriteAll_cons_of_ok hc] at h
          cases hcs : s.rewriteAll (n + 1) cs with
          | error e' => rw [hcs] at h; cases h; rfl
          | ok bs => rw [hcs] at h; cases h
        obtain ⟨before, c', after, bs, rfl, hbefore, hfail⟩ := ih hcs
        refine ⟨c :: before, c', after, a :: bs, rfl, ?_, ?_⟩
        · rw [rewriteAll_cons_of_ok hc, hbefore]
          rfl
        · rwa [List.length_cons, Nat.add_comm before.length, ← Nat.add_assoc]
  · rintro ⟨before, c, after, bs, rfl, hbefore, hfail⟩
    rw [rewriteAll_append_of_ok hbefore, rewriteAll_cons_of_error hfail]
    rfl

theorem rewriteAll_append_of_error {cs ds : List Tree} {n : Nat} {e : Error}
    (h : s.rewriteAll n cs = .error e) : s.rewriteAll n (cs ++ ds) = .error e := by
  obtain ⟨before, c, after, bs, rfl, hbefore, hfail⟩ := rewriteAll_eq_error.1 h
  exact rewriteAll_eq_error.2
    ⟨before, c, after ++ ds, bs, by rw [List.append_assoc, List.cons_append], hbefore, hfail⟩

/-! ## What a rewriting that succeeds consists of -/

theorem settled_ok {tag : Tag} {clause : Clause} {invocation answer : Tree} {notes : Notes}
    {a : Transition} (h : s.settled tag clause invocation notes answer = .ok a) :
    ∃ caller, Notes.caller notes = .ok caller ∧ s.complaint a = none ∧
      a = ⟨clause.name, invocation, answer, tag, answer.resolve tag caller,
        clause.transformer.label, s.frame.depth⟩ := by
  unfold settled at h
  split at h
  · cases h
  · rename_i caller hcaller
    dsimp only at h
    split at h
    · rename_i hquiet
      cases h
      exact ⟨caller, hcaller, hquiet, rfl⟩
    · cases h

theorem clauseFor_ok {op : String} {args : List Tree} {notes : Notes} {clause : Clause}
    (h : s.clauseFor op args notes = .ok clause) :
    s.registry.lookup op (args.map .tree) = .ok (some clause) := by
  unfold clauseFor at h
  split at h
  · cases h
  · rename_i hlookup
    cases h
    exact hlookup
  · cases h

theorem answerOf_ok {clause : Clause} {invocation answer : Tree}
    (h : s.answerOf clause invocation = .ok answer) :
    (clause.transformer.body invocation).outcome = .ok (.tree answer) := by
  unfold answerOf at h
  split at h
  · rename_i houtcome
    cases h
    exact houtcome
  · cases h
  · cases h

section
variable {tag : Tag} {op : String} {args : List Tree} {notes : Notes} {clause : Clause}
  {answer : Tree} {e : Error}

theorem rewrite_of_clause_error (h : s.clauseFor op args notes = .error e) :
    s.rewrite tag (.call (.symbol op) args notes) = .error e := by
  rw [rewrite, h]
  rfl

theorem rewrite_of_answer_error (hclause : s.clauseFor op args notes = .ok clause)
    (h : s.answerOf clause (.call (.symbol op) args notes) = .error e) :
    s.rewrite tag (.call (.symbol op) args notes) = .error e := by
  simp only [rewrite, hclause, h, bind, Except.bind]

theorem rewrite_of_answer (hclause : s.clauseFor op args notes = .ok clause)
    (h : s.answerOf clause (.call (.symbol op) args notes) = .ok answer) :
    s.rewrite tag (.call (.symbol op) args notes) =
      s.settled tag clause (.call (.symbol op) args notes) notes answer := by
  simp only [rewrite, hclause, h, bind, Except.bind]

end

/-- A place is replaced by what its clause answers, with the scopes resolved. -/
theorem rewrite_ok (hfun : s.registry.Functional) {tag : Tag} {c : Tree} {a : Transition}
    (h : s.rewrite tag c = .ok a) : s.registry.Applies a ∧ a.invocation = c ∧ a.tag = tag := by
  have hcall : ∃ op args notes, c = .call (.symbol op) args notes := by
    unfold rewrite at h
    split at h
    · exact ⟨_, _, _, rfl⟩
    · cases h
  obtain ⟨op, args, notes, rfl⟩ := hcall
  cases hclause : s.clauseFor op args notes with
  | error e =>
    rw [rewrite_of_clause_error hclause] at h
    cases h
  | ok clause =>
    cases hanswer : s.answerOf clause (.call (.symbol op) args notes) with
    | error e =>
      rw [rewrite_of_answer_error hclause hanswer] at h
      cases h
    | ok answer =>
      rw [rewrite_of_answer hclause hanswer] at h
      obtain ⟨caller, hcaller, -, rfl⟩ := settled_ok h
      have hlookup := clauseFor_ok hclause
      obtain ⟨x, hx⟩ := hfun (.call (.symbol op) args notes) clause (.intro hlookup)
      have houtcome := answerOf_ok hanswer
      have hbody : clause.transformer.body (.call (.symbol op) args notes) =
          .answer (.tree answer) := by
        rw [hx] at houtcome ⊢
        cases x with
        | error e => cases houtcome
        | ok v => cases houtcome; rfl
      exact ⟨.intro hlookup hbody hcaller, rfl, rfl⟩

theorem rewriteAll_ok (hfun : s.registry.Functional) : ∀ {cs : List Tree} {n : Nat}
    {as : List Transition}, s.rewriteAll n cs = .ok as →
      as.map (·.invocation) = cs ∧ Numbered n as ∧ ∀ a ∈ as, s.registry.Applies a
  | [], n, as, h => by
    cases h
    exact ⟨rfl, trivial, by simp⟩
  | c :: cs, n, as, h => by
    obtain ⟨a, bs, rfl, hc, hcs⟩ := rewriteAll_eq_ok_cons h
    obtain ⟨hstep, hinvocation, htag⟩ := rewrite_ok hfun hc
    obtain ⟨hplaces, hnumbers, hsteps⟩ := rewriteAll_ok hfun hcs
    refine ⟨by rw [List.map_cons, hinvocation, hplaces], ⟨by rw [htag]; rfl, hnumbers⟩, ?_⟩
    exact List.forall_mem_cons.2 ⟨hstep, hsteps⟩

/-- A macro call with a clause that fits, whose transformer answers a tree, whose scope, if it is a
number, is positive, and about which the hook does not fail. -/
inductive Replaceable (s : Expander) : Tree → Prop
  | intro {op : String} {args : List Tree} {notes : Notes} {clause : Clause} {answer : Tree}
      (lookup : s.registry.lookup op (args.map .tree) = .ok (some clause))
      (body : clause.transformer.body (.call (.symbol op) args notes) = .answer (.tree answer))
      (scope : ∀ n : Int, Notes.scope? notes = some (.int n) → 0 < n)
      (heard : ∀ a : Transition, a.invocation = .call (.symbol op) args notes →
        s.complaint a = none) :
      s.Replaceable (.call (.symbol op) args notes)

theorem Replaceable.rewrite {c : Tree} (h : s.Replaceable c) (tag : Tag) :
    ∃ a, s.rewrite tag c = .ok a := by
  obtain @⟨op, args, notes, clause, answer, hlookup, hbody, hscope, hheard⟩ := h
  have hclause : s.clauseFor op args notes = .ok clause := by rw [clauseFor, hlookup]
  have hanswer : s.answerOf clause (.call (.symbol op) args notes) = .ok answer := by
    rw [answerOf, hbody]
    rfl
  rw [rewrite_of_answer hclause hanswer, settled]
  cases hcaller : Notes.caller notes with
  | error e =>
    obtain ⟨n, hn, hlt, -⟩ := Notes.caller_error.1 hcaller
    have := hscope n hn
    omega
  | ok caller =>
    dsimp only
    rw [hheard _ rfl]
    exact ⟨_, rfl⟩

theorem rewriteAll_of_replaceable : ∀ {cs : List Tree}, (∀ c ∈ cs, s.Replaceable c) →
    ∀ n, ∃ as, s.rewriteAll n cs = .ok as
  | [], _, _ => ⟨[], rfl⟩
  | c :: cs, h, n => by
    rw [List.forall_mem_cons] at h
    obtain ⟨a, ha⟩ := h.1.rewrite (TagSupply.mk n).fresh.1
    obtain ⟨as, has⟩ := rewriteAll_of_replaceable h.2 (n + 1)
    exact ⟨a :: as, by rw [rewriteAll_cons_of_ok ha, has]; rfl⟩

end Expander

/-! ## Filing an application -/

theorem printPieces_of_failure {e : Error} : ∀ {pieces : List (Except Error String)} {s : Expander},
    pieces.findSome? failure? = some e → ∃ s', (printPieces pieces).on s = (.error e, s')
  | [], _, h => by cases h
  | .error e' :: rest, s, h => by
    cases h
    exact ⟨s, by rw [printPieces, Run.on_bind_of_error (on_printPiece_error e s)]⟩
  | .ok text :: rest, s, h => by
    have hrest : rest.findSome? failure? = some e := h
    obtain ⟨s', h'⟩ := printPieces_of_failure (s := { s with printed := s.printed ++ text }) hrest
    exact ⟨s', by rw [printPieces, Run.on_bind_of_ok (on_printPiece_ok text s), h']⟩

theorem record_of_complaint {s : Expander} {a : Transition} {e : Error}
    (h : s.complaint a = some e) : ∃ s', (record a).on s = (.error e, s') := by
  obtain ⟨hook, hhook, hpieces⟩ := Option.bind_eq_some_iff.1 h
  rw [record, Run.on_bind_of_ok (Run.on_modify _ _), Run.on_bind_of_ok (Run.on_get _)]
  dsimp only
  rw [hhook]
  exact printPieces_of_failure hpieces

theorem record_of_silence {s : Expander} {a : Transition} (h : s.complaint a = none) :
    ∃ text, (record a).on s =
      (.ok (), { s with history := a :: s.history, phase := .substituted, printed := text }) := by
  rw [record, Run.on_bind_of_ok (Run.on_modify _ _), Run.on_bind_of_ok (Run.on_get _)]
  dsimp only
  cases hhook : s.hook with
  | none => exact ⟨s.printed, rfl⟩
  | some hook =>
    have hpieces : (hook.pieces a).findSome? failure? = none := by
      rwa [Expander.complaint, hhook] at h
    refine on_printPieces (fun piece hpiece => ?_) _
    have hok := List.findSome?_eq_none_iff.1 hpieces piece hpiece
    cases piece with
    | ok text => exact ⟨text, rfl⟩
    | error e => cases hok

/-! ## Outcomes that take room -/

section
variable {α β : Type}

/-- With `N` left on the stack the computation has the given outcome: it fails with that error, or
returns what `f` makes of the applications, which are all it files. With less it overflows. -/
def Run.Yields (x : Run α) (s : Expander) (N : Nat) (outcome : Except Error (List Transition))
    (f : List Transition → α) : Prop :=
  ∃ s', x.on s = (if N ≤ s.budget.left then outcome.map f else .error .stackOverflow, s') ∧
    s.Later s' ∧ ∀ as, N ≤ s.budget.left → outcome = .ok as → Counted s as s'

namespace Run

variable {x : Run α} {s s' : Expander} {N N' : Nat} {outcome : Except Error (List Transition)}
  {f : List Transition → α} {g : List Transition → β} {e : Error}

theorem yields_pure (s : Expander) (a : α) : (pure a : Run α).Yields s 0 (.ok []) fun _ => a := by
  refine ⟨s, by rw [if_pos (Nat.zero_le _)]; rfl, .refl s, fun as _ has => ?_⟩
  cases has
  exact ⟨rfl, rfl, trivial⟩

theorem yields_of_error (h : x.on s = (.error e, s')) (hs : s.Later s') :
    x.Yields s 0 (.error e) f :=
  ⟨s', by rw [h, if_pos (Nat.zero_le _)]; rfl, hs, fun as _ has => by cases has⟩

/-- One computation after another that succeeds. -/
theorem Yields.bind {as : List Transition} (hx : x.Yields s N (.ok as) f) {y : α → Run β}
    (hy : ∀ s', s.Later s' → Counted s as s' →
      (y (f as)).Yields s' N' outcome fun bs => g (as ++ bs)) :
    (x >>= y).Yields s (max N N') (outcome.map (as ++ ·)) g := by
  obtain ⟨s₁, hrun, hlater, hcount⟩ := hx
  by_cases hN : N ≤ s.budget.left
  · rw [if_pos hN] at hrun
    have hcount := hcount as hN rfl
    obtain ⟨s₂, hrun', hlater', hcount'⟩ := hy s₁ hlater hcount
    rw [hlater.budget] at hrun' hcount'
    refine ⟨s₂, ?_, hlater.trans hlater', fun cs hmax hcs => ?_⟩
    · rw [on_bind_of_ok hrun, hrun']
      simp only [Nat.max_le, hN, true_and]
      cases outcome <;> rfl
    · cases outcome with
      | error e => cases hcs
      | ok bs =>
        cases hcs
        exact counted_trail.append hcount (hcount' bs (le_trans (le_max_right _ _) hmax) rfl)
  · rw [if_neg hN] at hrun
    have hmax : ¬ max N N' ≤ s.budget.left := fun h => hN (le_trans (le_max_left _ _) h)
    exact ⟨s₁, by rw [on_bind_of_error hrun, if_neg hmax], hlater, fun _ h => absurd h hmax⟩

theorem Yields.bind_error (hx : x.Yields s N (.error e) f) (y : α → Run β) :
    (x >>= y).Yields s N (.error e) g := by
  obtain ⟨s₁, hrun, hlater, -⟩ := hx
  refine ⟨s₁, ?_, hlater, fun as _ has => by cases has⟩
  by_cases hN : N ≤ s.budget.left
  · rw [if_pos hN] at hrun ⊢
    exact on_bind_of_error hrun
  · rw [if_neg hN] at hrun ⊢
    exact on_bind_of_error hrun

/-- What is done afterwards only puts the result into another form. -/
theorem Yields.map (hx : x.Yields s N outcome f) {y : α → Run β} {h : α → β}
    (hy : ∀ a s', s.Later s' → (y a).on s' = (.ok (h a), s')) :
    (x >>= y).Yields s N outcome fun as => h (f as) := by
  cases outcome with
  | error e => exact hx.bind_error y
  | ok as =>
    obtain ⟨s₁, hrun, hlater, hcount⟩ := hx
    refine ⟨s₁, ?_, hlater, hcount⟩
    by_cases hN : N ≤ s.budget.left
    · rw [if_pos hN] at hrun ⊢
      exact (on_bind_of_ok hrun).trans (hy _ s₁ hlater)
    · rw [if_neg hN] at hrun ⊢
      exact on_bind_of_error hrun

theorem Yields.during {a : Activity} (h : x.Yields (s.spend a) N outcome f) :
    (during a x).Yields s (s.budget.costs.of a + N) outcome f := by
  obtain ⟨s₁, hrun, hlater, hcount⟩ := h
  by_cases ha : s.budget.costs.of a ≤ s.budget.left
  · have hN : N ≤ (s.spend a).budget.left ↔ s.budget.costs.of a + N ≤ s.budget.left := by
      simp only [Budget.spend]
      omega
    refine ⟨_, ?_, hlater.during, fun as h has =>
      counted_trail.budget _ (hcount as (hN.2 h) has)⟩
    rw [on_during_of_covers (Budget.covers_eq_true.2 ha), hrun]
    exact Prod.ext (if_congr hN rfl rfl) rfl
  · have hN : ¬ s.budget.costs.of a + N ≤ s.budget.left := by omega
    refine ⟨s, ?_, .refl s, fun _ h => absurd h hN⟩
    rw [on_during_of_not_covers (Budget.covers_eq_false.2 (Nat.lt_of_not_le ha)), if_neg hN]

/-- The phase is no part of an outcome. -/
theorem Yields.of_phase {p : Phase} {y : Run α} (hy : y.on s = x.on { s with phase := p })
    (h : x.Yields { s with phase := p } N outcome f) : y.Yields s N outcome f := by
  obtain ⟨s₁, hrun, hlater, hcount⟩ := h
  exact ⟨s₁, hy.trans hrun, (Expander.Later.phase s p).trans hlater, fun as h has =>
    counted_trail.append (counted_trail.phase s p) (hcount as h has)⟩

end Run

end

/-! ## The steps of one application -/

section
variable {clause : Clause} {invocation answer : Tree} {notes : Notes} {s : Expander}

/-- A transformer that asks for nothing is applied by computing its answer. -/
theorem applyClause_yields (reenter : Mode → Value → Run Value) {x : Except Error Value}
    (hx : clause.transformer.body invocation = .ofExcept x)
    {outcome : Except Error (List Transition)} {f : List Transition → Tree}
    (hanswer : s.answerOf clause invocation = outcome.map f)
    (hnone : ∀ as, outcome = .ok as → as = []) :
    (applyClause reenter clause invocation).Yields s (s.budget.costs.of .application)
      outcome f := by
  have hlater : ∀ p, s.Later { s with calls := s.calls + 1, phase := p } := fun p =>
    ⟨rfl, rfl, rfl, rfl, rfl, rfl, rfl, Nat.le_refl _, [], rfl⟩
  by_cases hN : s.budget.costs.of .application ≤ s.budget.left
  · have hrun : ∃ p, (applyClause reenter clause invocation).on s =
        (s.answerOf clause invocation, { s with calls := s.calls + 1, phase := p }) := by
      rw [on_applyClause, hx, Expander.answerOf, hx,
        on_during_of_covers (s := { s with calls := s.calls + 1 }) (Budget.covers_eq_true.2 hN)]
      cases x with
      | error e => exact ⟨.failed, rfl⟩
      | ok v =>
        cases v with
        | tree t => exact ⟨s.phase, rfl⟩
        | _ => exact ⟨.failed, rfl⟩
    obtain ⟨p, hrun⟩ := hrun
    refine ⟨_, by rw [hrun, if_pos hN, hanswer], hlater p, fun as _ has => ?_⟩
    rw [hnone as has]
    exact ⟨rfl, rfl, trivial⟩
  · have hrun := applyClause_of_not_covers reenter clause invocation
      (Budget.covers_eq_false.2 (Nat.lt_of_not_le hN))
    exact ⟨_, by rw [hrun, if_neg hN], hlater .failed, fun _ h => absurd h hN⟩

theorem settle_of_covers (clause : Clause) (invocation : Tree) {caller : Option Tag}
    (hcaller : Notes.caller notes = .ok caller)
    (hs : s.budget.covers (.resolution answer.skeleton) = true) :
    ∃ s', (settle clause invocation notes answer).on s =
        ((s.settled s.tags.fresh.1 clause invocation notes answer).map (·.expansion), s') ∧
      ∀ a, s.settled s.tags.fresh.1 clause invocation notes answer = .ok a → Counted s [a] s' := by
  have hsettle : (settle clause invocation notes answer).on s = Run.on (do
      record (s.applied clause invocation answer caller)
      pure (answer.resolve s.tags.fresh.1 caller)) { s with tags := s.tags.fresh.2 } := by
    rw [settle, Run.on_bind_of_ok (on_freshTag s), hcaller]
    dsimp only
    rw [Run.on_bind_of_ok (Run.on_get _)]
    dsimp only
    rw [if_pos hs]
    rfl
  have hsettled : s.settled s.tags.fresh.1 clause invocation notes answer =
      match s.complaint (s.applied clause invocation answer caller) with
      | none => .ok (s.applied clause invocation answer caller)
      | some e => .error e := by
    rw [Expander.settled, hcaller]
    rfl
  rw [hsettle, hsettled]
  cases hcomplaint : s.complaint (s.applied clause invocation answer caller) with
  | some e =>
    obtain ⟨s', hrecord⟩ := record_of_complaint (s := { s with tags := s.tags.fresh.2 }) hcomplaint
    exact ⟨s', Run.on_bind_of_error hrecord, fun a ha => by cases ha⟩
  | none =>
    obtain ⟨text, hrecord⟩ := record_of_silence (s := { s with tags := s.tags.fresh.2 }) hcomplaint
    refine ⟨_, Run.on_bind_of_ok hrecord, fun a ha => ?_⟩
    cases ha
    exact ⟨rfl, rfl, rfl, trivial⟩

/-- An answer is settled as the rewriting says, with room to resolve its scopes. -/
theorem settle_yields (costs : Costs) (clause : Clause) (invocation answer : Tree) (notes : Notes) :
    ∃ N, ∀ s : Expander, s.budget.costs = costs →
      (settle clause invocation notes answer).Yields s N
        ((s.settled s.tags.fresh.1 clause invocation notes answer).map ([·]))
        fun as => (as.map (·.expansion)).headD invocation := by
  cases hcaller : Notes.caller notes with
  | error e =>
    refine ⟨0, fun s _ => ?_⟩
    have hrun : (settle clause invocation notes answer).on s = _ := settle_of_error hcaller s
    have hsettled : s.settled s.tags.fresh.1 clause invocation notes answer = .error e := by
      rw [Expander.settled, hcaller]
    rw [hsettled]
    exact Run.yields_of_error hrun ((steady_settle _ _ _ _).later hrun)
  | ok caller =>
    refine ⟨costs.of (.resolution answer.skeleton), fun s hcosts => ?_⟩
    subst hcosts
    by_cases hN : s.budget.costs.of (.resolution answer.skeleton) ≤ s.budget.left
    · have hcovers := Budget.covers_eq_true.2 hN
      obtain ⟨s', hrun, hcount⟩ := settle_of_covers clause invocation hcaller hcovers
      refine ⟨s', ?_, (steady_settle _ _ _ _).later hrun, fun as _ has => ?_⟩
      · rw [hrun, if_pos hN]
        cases s.settled s.tags.fresh.1 clause invocation notes answer <;> rfl
      · cases hsettled : s.settled s.tags.fresh.1 clause invocation notes answer with
        | error e => rw [hsettled] at has; cases has
        | ok a =>
          rw [hsettled] at has
          cases has
          exact hcount a hsettled
    · have hrun : (settle clause invocation notes answer).on s =
          (.error .stackOverflow, { s with tags := s.tags.fresh.2 }) := by
        rw [settle, Run.on_bind_of_ok (on_freshTag s), hcaller]
        dsimp only
        rw [Run.on_bind_of_ok (Run.on_get _)]
        dsimp only
        rw [if_neg (mt Budget.covers_eq_true.1 hN)]
        rfl
      exact ⟨_, by rw [hrun, if_neg hN], .fresh s, fun _ h => absurd h hN⟩

end

/-! ## Computations that follow the rewriting -/

/-- A state in which places are rewritten as in `e`, once each, with given costs and with the tags
after `n`. -/
structure Expander.Rewriter (e : Expander) (costs : Costs) (n : Nat) (s : Expander) : Prop
    extends e.Akin s where
  frame : s.frame = e.frame
  once : s.recursive = false
  costs : s.budget.costs = costs
  last : s.tags.last = n

namespace Expander.Rewriter

variable {e s s' : Expander} {costs : Costs} {n m : Nat}

theorem later (h : e.Rewriter costs n s) (hs : s.Later s') (hlast : s'.tags.last = m) :
    e.Rewriter costs m s' :=
  ⟨h.toAkin.trans hs.akin, hs.frame.trans h.frame, hs.recursive.trans h.once,
    (congrArg Budget.costs hs.budget).trans h.costs, hlast⟩

theorem phase (h : e.Rewriter costs n s) (p : Phase) :
    e.Rewriter costs n { s with phase := p } := h.later (.phase s p) h.last

theorem spend (h : e.Rewriter costs n s) (a : Activity) : e.Rewriter costs n (s.spend a) :=
  ⟨⟨h.registry, h.label, h.hook⟩, h.frame, h.once, h.costs, h.last⟩

theorem clauseFor (h : e.Rewriter costs n s) : s.clauseFor = e.clauseFor := by
  funext op args notes
  simp only [Expander.clauseFor, h.registry, h.toAkin.filename]

theorem answerOf (h : e.Rewriter costs n s) : s.answerOf = e.answerOf := by
  funext clause invocation
  simp only [Expander.answerOf, h.toAkin.filename]

theorem settled (h : e.Rewriter costs n s) : s.settled s.tags.fresh.1 =
    e.settled (TagSupply.mk n).fresh.1 := by
  have htags : s.tags = ⟨n⟩ := congrArg TagSupply.mk h.last
  funext clause invocation notes answer
  simp only [Expander.settled, Expander.complaint, h.hook, h.frame, htags]

end Expander.Rewriter

namespace Expander

section
variable {α β : Type}

/-- With some room that does not depend on the state, the computation yields the rewriting of some
places, with the tags after `n`. -/
def Follows (e : Expander) (costs : Costs) (n : Nat) (x : (Mode → Value → Run Value) → Run α)
    (cs : List Tree) (f : List Transition → α) : Prop :=
  ∃ N, ∀ reenter s, e.Rewriter costs n s → (x reenter).Yields s N (e.rewriteAll n cs) f

variable {e : Expander} {costs : Costs} {n : Nat} {x : (Mode → Value → Run Value) → Run α}
  {cs ds : List Tree} {f : List Transition → α}

theorem follows_pure (a : α) : e.Follows costs n (fun _ => pure a) [] fun _ => a :=
  ⟨0, fun _ s _ => Run.yields_pure s a⟩

/-- One computation after another rewrites the places of both. -/
theorem Follows.bind (hx : e.Follows costs n x cs f)
    {y : (Mode → Value → Run Value) → α → Run β} {g : List Transition → β}
    (hy : ∀ as, as.length = cs.length →
      e.Follows costs (n + cs.length) (fun r => y r (f as)) ds fun bs => g (as ++ bs)) :
    e.Follows costs n (fun r => x r >>= y r) (cs ++ ds) g := by
  obtain ⟨N, hx⟩ := hx
  cases hcs : e.rewriteAll n cs with
  | error err =>
    rw [hcs] at hx
    refine ⟨N, fun reenter s hs => ?_⟩
    rw [rewriteAll_append_of_error hcs]
    exact (hx reenter s hs).bind_error _
  | ok as =>
    rw [hcs] at hx
    have hlength := length_rewriteAll hcs
    obtain ⟨N', hy⟩ := hy as hlength
    refine ⟨max N N', fun reenter s hs => ?_⟩
    rw [rewriteAll_append_of_ok hcs]
    refine (hx reenter s hs).bind fun s' hlater hcount => hy reenter s' (hs.later hlater ?_)
    rw [hcount.last, hs.last, hlength]

theorem Follows.map (hx : e.Follows costs n x cs f) (g : α → β) :
    e.Follows costs n (fun r => do let a ← x r; pure (g a)) cs fun as => g (f as) := by
  obtain ⟨N, hx⟩ := hx
  exact ⟨N, fun reenter s hs => (hx reenter s hs).map fun a s' _ => Run.on_pure (g a) s'⟩

theorem Follows.during (hx : e.Follows costs n x cs f) (a : Activity) :
    e.Follows costs n (fun r => during a (x r)) cs f := by
  obtain ⟨N, hx⟩ := hx
  refine ⟨costs.of a + N, fun reenter s hs => ?_⟩
  rw [← hs.costs]
  exact (hx reenter _ (hs.spend a)).during

/-- The phase is no part of the rewriting. -/
theorem Follows.of_phase (hx : e.Follows costs n x cs f)
    {y : (Mode → Value → Run Value) → Run α}
    (hy : ∀ reenter s, e.Rewriter costs n s →
      ∃ p, (y reenter).on s = (x reenter).on { s with phase := p }) :
    e.Follows costs n y cs f := by
  obtain ⟨N, hx⟩ := hx
  refine ⟨N, fun reenter s hs => ?_⟩
  obtain ⟨p, hp⟩ := hy reenter s hs
  exact .of_phase hp (hx reenter _ (hs.phase p))

end

theorem rewriteAll_singleton (s : Expander) (n : Nat) (c : Tree) :
    s.rewriteAll n [c] = (s.rewrite (TagSupply.mk n).fresh.1 c).map ([·]) := by
  rw [rewriteAll]
  cases s.rewrite (TagSupply.mk n).fresh.1 c <;> rfl

end Expander

/-! ## Scans -/

section
variable {e : Expander} {costs : Costs} {n k : Nat} {op : String} {args : List Tree} {notes : Notes}

theorem expandCall_of_clause_error (reenter : Mode → Value → Run Value) {s : Expander} {err : Error}
    (h : s.clauseFor op args notes = .error err) :
    ∃ s', (expandCall reenter (k + 1) (.call (.symbol op) args notes)).on s = (.error err, s') ∧
      s.Later s' := by
  rw [Expander.clauseFor] at h
  rw [expandCall]
  split at h
  · rename_i hlookup
    cases h
    exact ⟨_, Run.on_bind_of_error (matchClause_of_error hlookup _), .phase s _⟩
  · cases h
  · rename_i hlookup
    cases h
    exact ⟨_, Run.on_bind_of_error (on_matchClause_none hlookup _), .phase s _⟩

/-- A macro call is expanded once by what the rewriting makes of it. -/
theorem follows_expandCall (hfun : e.registry.Functional) :
    e.Follows costs n (fun reenter => expandCall reenter (k + 1) (.call (.symbol op) args notes))
      [.call (.symbol op) args notes]
      fun as => (as.map (·.expansion)).headD (.call (.symbol op) args notes) := by
  cases hclause : e.clauseFor op args notes with
  | error err =>
    refine ⟨0, fun reenter s hs => ?_⟩
    rw [Expander.rewriteAll_singleton, Expander.rewrite_of_clause_error hclause]
    obtain ⟨s', hrun, hlater⟩ := expandCall_of_clause_error (k := k) reenter
      ((congrFun (congrFun (congrFun hs.clauseFor op) args) notes).trans hclause)
    exact Run.yields_of_error hrun hlater
  | ok clause =>
    have hlookup := Expander.clauseFor_ok hclause
    obtain ⟨x, hx⟩ := hfun (.call (.symbol op) args notes) clause (.intro hlookup)
    cases hanswer : e.answerOf clause (.call (.symbol op) args notes) with
    | error err =>
      refine ⟨costs.of .application, fun reenter s hs => ?_⟩
      rw [Expander.rewriteAll_singleton, Expander.rewrite_of_answer_error hclause hanswer]
      rw [← hs.registry] at hlookup
      refine .of_phase (on_expandCall_succ hlookup)
        (.bind_error (f := fun _ => .call (.symbol op) args notes) ?_ _)
      rw [← hs.costs]
      refine applyClause_yields reenter hx ?_ ?_
      · rw [(hs.phase .matched).answerOf, hanswer]
        rfl
      · intro as has
        cases has
    | ok answer =>
      obtain ⟨N, hsettle⟩ := settle_yields costs clause (.call (.symbol op) args notes) answer notes
      refine ⟨max (costs.of .application) N, fun reenter s hs => ?_⟩
      rw [Expander.rewriteAll_singleton, Expander.rewrite_of_answer hclause hanswer]
      rw [← hs.registry] at hlookup
      refine .of_phase (on_expandCall_succ hlookup) ?_
      have happly : (applyClause reenter clause (.call (.symbol op) args notes)).Yields
          { s with phase := .matched } (costs.of .application) (.ok []) fun _ => answer := by
        rw [← hs.costs]
        refine applyClause_yields reenter hx ?_ ?_
        · rw [(hs.phase .matched).answerOf, hanswer]
          rfl
        · intro as has
          cases has
          rfl
      have hnil : ∀ outcome : Except Error (List Transition), outcome = outcome.map ([] ++ ·) :=
        fun outcome => by cases outcome <;> rfl
      rw [hnil (Except.map _ _)]
      refine happly.bind fun s₁ hlater hcount => ?_
      have hs₁ : e.Rewriter costs n s₁ :=
        (hs.phase .matched).later hlater (hcount.last.trans hs.last)
      rw [← hs₁.settled]
      refine (hsettle s₁ hs₁.costs).map (h := id) fun a s₂ hlater' => ?_
      rw [Run.on_bind_of_ok (Run.on_get _)]
      rw [(hs₁.later hlater' rfl).once]
      rfl

/-- The trees of a list are rewritten one after the other. -/
theorem follows_scanList {E : (Mode → Value → Run Value) → Tree → Run Tree} :
    ∀ {ts : List Tree} {n : Nat},
    (∀ t ∈ ts, ∀ n, e.Follows costs n (fun r => scan (E r) t) (t.frontier e.registry)
      fun as => t.graft e.registry (as.map (·.expansion))) →
    e.Follows costs n (fun r => scanList (E r) ts) (Tree.frontierList e.registry ts)
      fun as => Tree.graftList e.registry ts (as.map (·.expansion))
  | [], _, _ => by
    simp only [scanList, Tree.frontierList, Tree.graftList]
    exact Expander.follows_pure []
  | t :: ts, n, h => by
    rw [List.forall_mem_cons] at h
    simp only [scanList, Tree.frontierList]
    refine (h.1 n).bind fun as hlength => ?_
    simp only [Tree.graftList, List.map_append, ← hlength,
      List.take_left' (List.length_map _), List.drop_left' (List.length_map _)]
    exact (follows_scanList h.2).map fun rs => t.graft e.registry (as.map (·.expansion)) :: rs

theorem follows_unexpected {t : Tree} {f : List Transition → Tree}
    (ht : e.rewrite (TagSupply.mk n).fresh.1 t =
      .error (.invariant (.unexpectedNode e.filename t))) :
    e.Follows costs n (fun _ => unexpected t) [t] f := by
  refine ⟨0, fun _ s hs => ?_⟩
  rw [Expander.rewriteAll_singleton, ht, ← hs.toAkin.filename]
  have hrun : (unexpected t).on s =
      (.error (.invariant (.unexpectedNode s.filename t)), { s with phase := .failed }) := by
    rw [unexpected, Run.on_bind_of_ok (Run.on_get s), on_failWith]
  exact Run.yields_of_error hrun (.phase s _)

/-- A scan that expands once rewrites the frontier, and grafts the outcomes into the tree. -/
theorem follows_scan (hfun : e.registry.Functional) (t : Tree) : ∀ n,
    e.Follows costs n (fun reenter => scan (expandCall reenter (k + 1)) t) (t.frontier e.registry)
      fun as => t.graft e.registry (as.map (·.expansion)) := by
  induction t using Tree.induct with
  | literal d =>
    intro n
    simp only [scan, Tree.frontier, Tree.graft]
    exact Expander.follows_pure _
  | name ident scope =>
    intro n
    simp only [scan, Tree.frontier, Tree.graft]
    exact Expander.follows_pure _
  | call op args notes ih =>
    intro n
    cases hop : e.registry.isMacro op with
    | true =>
      -- nothing below a macro call is scanned, so its parts have no say in the rewriting
      simp only [Tree.frontier, Tree.graft, hop, if_true]
      refine (follows_expandCall (k := k) hfun).of_phase fun reenter s hs => ⟨s.phase, ?_⟩
      rw [← hs.registry] at hop
      exact on_scan_macroCall hop
    | false =>
      simp only [Tree.frontier, Tree.graft, hop, Bool.false_eq_true, if_false]
      have hargs := (follows_scanList ih (n := n)).during (.arguments args.length)
      refine (hargs.map fun args => Tree.call (.symbol op) args notes).of_phase
        fun reenter s hs => ?_
      rw [← hs.registry] at hop
      exact ⟨_, on_scan_call hop⟩
  | apply f args notes ihf ih =>
    intro n
    rw [Tree.frontier]
    refine Expander.Follows.of_phase ?_ fun reenter s _ => ⟨.scanning, on_scan_apply⟩
    refine ((ihf n).during .operator).bind fun as hlength => ?_
    simp only [Tree.graft, List.map_append, ← hlength,
      List.take_left' (List.length_map _), List.drop_left' (List.length_map _)]
    exact ((follows_scanList ih).during (.arguments args.length)).map fun args =>
      Tree.call (.tree (f.graft e.registry (as.map (·.expansion)))) args notes
  | placeholder target =>
    intro n
    simp only [scan, Tree.frontier]
    exact follows_unexpected rfl
  | bare kind =>
    intro n
    simp only [scan, Tree.frontier]
    exact follows_unexpected rfl
  | marker kind body _ =>
    intro n
    simp only [scan, Tree.frontier]
    exact follows_unexpected rfl
  | unhygienic ident =>
    intro n
    simp only [scan, Tree.frontier]
    exact follows_unexpected rfl

end

/-! ## Whole trees -/

/-- With room to look through the tree, an entry is a scan. -/
theorem enter_of_scan {room : Nat} {mode : Mode} {s s₁ : Expander} {t : Tree}
    {r : Except Error Tree} (hopen : t.openNodes = []) (hentry : s.budget.covers .entry = true)
    (hsurvey : (s.budget.spend .entry).covers (.survey t.skeleton) = true)
    (hscan : (scan (expandCall (enter room) s.remaining) t).on (s.entered mode t) = (r, s₁)) :
    (enter (room + 1) mode (.tree t)).on s =
      (r.map .tree, { s₁ with recursive := s.recursive, budget := s.budget }) := by
  have hprepare : (prepare (.tree t)).on (s.spend .entry) =
      (.ok (), { s.spend .entry with tags := s.tags.skipPast t.maxTag }) := by
    rw [on_prepare, if_pos hsurvey, hopen]
  have hvalue : (scanValue (expandCall (enter room) s.remaining) (.tree t)).on (s.entered mode t) =
      (r.map .tree, s₁) := by
    rw [scanValue]
    cases r with
    | error e => exact Run.on_bind_of_error hscan
    | ok r => exact Run.on_bind_of_ok hscan
  rw [enter, on_during_of_covers hentry, Run.on_bind_of_ok hprepare,
    Run.on_bind_of_ok (Run.on_get _), on_withMode]
  exact congrArg (fun p : Except Error Value × Expander =>
    (p.1, { p.2 with recursive := s.recursive, budget := s.budget })) hvalue

section
variable {s : Expander} {t : Tree}

/-- The outcome of expanding once, with the room that it takes. -/
theorem visitOnce_outcome (hfun : s.registry.Functional) (hdepth : s.frame.depth < s.maxDepth)
    (hopen : t.openNodes = []) (costs : Costs) : ∃ N, ∀ limit, ∃ s',
      (visitOnce (.tree t)).on (s.withBudget ⟨limit, costs⟩) =
        (if N ≤ limit then
            (s.layer t).map fun as => .tree (t.graft s.registry (as.map (·.expansion)))
          else .error .stackOverflow, s') ∧
      (N ≤ limit → ∀ as, s.layer t = .ok as → s'.history = as.reverse ++ s.history) := by
  obtain ⟨k, hk⟩ : ∃ k, s.remaining = k + 1 :=
    ⟨s.remaining - 1, by rw [Expander.remaining]; omega⟩
  have hfollows : s.Follows costs (s.tags.skipPast t.maxTag).last
      (fun reenter => scan (expandCall reenter (k + 1)) t) (t.frontier s.registry)
      fun as => t.graft s.registry (as.map (·.expansion)) := follows_scan hfun t _
  obtain ⟨N, hscan⟩ := hfollows
  refine ⟨costs.of .entry + max (costs.of (.survey t.skeleton)) N, fun limit => ?_⟩
  have hpos := costs.pos .entry
  by_cases hfits : costs.of .entry + costs.of (.survey t.skeleton) ≤ limit
  · obtain ⟨room, rfl⟩ : ∃ room, limit = room + 1 := ⟨limit - 1, by omega⟩
    obtain ⟨s₁, hrun, -, hcount⟩ := hscan (enter room)
      (Expander.entered (s.withBudget ⟨room + 1, costs⟩) .once t)
      ⟨⟨rfl, rfl, rfl⟩, rfl, rfl, rfl, rfl⟩
    rw [← hk] at hrun
    have hN : N ≤ room + 1 - costs.of .entry ↔
        costs.of .entry + max (costs.of (.survey t.skeleton)) N ≤ room + 1 := by omega
    refine ⟨{ s₁ with recursive := s.recursive, budget := ⟨room + 1, costs⟩ }, ?_,
      fun hlimit as has => (hcount as (hN.2 hlimit) has).history⟩
    have henter := enter_of_scan (s := s.withBudget ⟨room + 1, costs⟩) hopen
      (Budget.covers_eq_true.2 (by change costs.of .entry ≤ room + 1; omega))
      (Budget.covers_eq_true.2 (by change costs.of _ ≤ room + 1 - costs.of .entry; omega)) hrun
    refine henter.trans (Prod.ext ?_ rfl)
    change (if N ≤ room + 1 - costs.of .entry then _ else _ : Except Error Tree).map _ = _
    rw [if_congr hN rfl rfl]
    split
    · rw [Expander.layer]
      cases s.rewriteAll (s.tags.skipPast t.maxTag).last (t.frontier s.registry) <;> rfl
    · rfl
  · have hN : ¬ costs.of .entry + max (costs.of (.survey t.skeleton)) N ≤ limit := by omega
    refine ⟨s.withBudget ⟨limit, costs⟩, ?_, fun h => absurd h hN⟩
    rw [if_neg hN]
    exact visitIn_of_unsurveyed (s := s.withBudget ⟨limit, costs⟩) (Nat.lt_of_not_le hfits) .once

end

/-- **Expanding once does what the layer says.** With enough room on the stack the outcome is the
error of the layer, or the tree with the expansions of the layer grafted into the places of its
frontier, where the macro calls were; with less the stack overflows. The layer has one application
for each place, and they are all that is filed. It fails only at a place that is not `Replaceable`,
with the error of the first one in scan order. -/
theorem visitOnce_layer {s : Expander} {t : Tree} (hfun : s.registry.Functional)
    (hdepth : s.frame.depth < s.maxDepth) (hopen : t.openNodes = []) :
    (∀ costs, ∃ N, ∀ limit,
      ((visitOnce (.tree t)).on (s.withBudget ⟨limit, costs⟩)).1 =
        if N ≤ limit then
          (s.layer t).map fun as => .tree (t.graft s.registry (as.map (·.expansion)))
        else .error .stackOverflow) ∧
    (∀ as, s.layer t = .ok as →
      (∀ v s', (visitOnce (.tree t)).on s = (.ok v, s') →
        s'.history = as.reverse ++ s.history ∧
        s'.transitions = s.transitions + (t.frontier s.registry).length) ∧
      as.map (·.invocation) = t.frontier s.registry ∧
      t.graft s.registry (as.map (·.invocation)) = t ∧ (∀ a ∈ as, s.registry.Applies a) ∧
      ∀ i (hi : i < as.length),
        (as[i].tag.number : Int) = max (s.tags.last : Int) t.maxTag + (i + 1)) ∧
    ((∀ c ∈ t.frontier s.registry, s.Replaceable c) → ∃ as, s.layer t = .ok as) ∧
    ∀ e, s.layer t = .error e ↔ ∃ before c after bs,
      t.frontier s.registry = before ++ c :: after ∧
      s.rewriteAll (s.tags.skipPast t.maxTag).last before = .ok bs ∧
      s.rewrite (TagSupply.mk ((s.tags.skipPast t.maxTag).last + before.length)).fresh.1 c =
        .error e := by
  refine ⟨fun costs => ?_, fun as hlayer => ?_, fun h => Expander.rewriteAll_of_replaceable h _,
    fun e => Expander.rewriteAll_eq_error⟩
  · obtain ⟨N, hN⟩ := visitOnce_outcome hfun hdepth hopen costs
    refine ⟨N, fun limit => ?_⟩
    obtain ⟨s', hrun, -⟩ := hN limit
    rw [hrun]
  · obtain ⟨hplaces, hnumbered, hsteps⟩ := Expander.rewriteAll_ok hfun hlayer
    refine ⟨fun v s' hrun => ?_, hplaces, ?_, hsteps, fun i hi => ?_⟩
    · obtain ⟨N, hN⟩ := visitOnce_outcome hfun hdepth hopen s.budget.costs
      obtain ⟨s₁, hrun', hhistory⟩ := hN s.budget.left
      obtain ⟨houtcome, rfl⟩ := Prod.mk.inj (hrun'.symm.trans hrun)
      split at houtcome
      · rename_i hfits
        rw [Expander.transitions, Expander.transitions, hhistory hfits as hlayer,
          List.length_append, List.length_reverse, Expander.length_rewriteAll hlayer, Nat.add_comm]
        exact ⟨rfl, rfl⟩
      · cases houtcome
    · rw [hplaces, Tree.graft_frontier]
    · rw [numbered_iff.1 hnumbered i hi, ← TagSupply.last_skipPast]
      push_cast
      rfl

/-- Two macro calls are replaced, after the tag in use; the one inside an argument is not. -/
theorem visitOnce_layer_reused :
    ∃ (as : List Transition) (s' : Expander), (visitOnce (.tree Catalogue.reused)).on
        (.ofRegistry Catalogue.binding 1 Expander.standardLabel) =
          (.ok (.tree (Catalogue.reused.graft Catalogue.binding.snapshot
            (as.map (·.expansion)))), s') ∧
      s'.transitions = 2 ∧ as.map (·.tag.number) = [4, 5] ∧
      as.map (·.invocation) = [Catalogue.op "with_x" [Catalogue.op "twice" [Catalogue.var "x"]],
        Catalogue.op "with_it" [Catalogue.var "it"]] := by
  obtain ⟨hrun, hfacts, -, -⟩ := visitOnce_layer
    (s := .ofRegistry Catalogue.binding 1 Expander.standardLabel) (t := Catalogue.reused)
    (Registry.functional_of_templates Catalogue.binding_fromTemplate) (by decide)
    (by decide +kernel)
  obtain ⟨N, hN⟩ := hrun Expander.standardBudget.costs
  have hstandard := hN Expander.standardBudget.left
  have hok : ((visitOnce (.tree Catalogue.reused)).on
      (.ofRegistry Catalogue.binding 1 Expander.standardLabel)).1.isOk = true := by decide +kernel
  obtain ⟨v, hv⟩ := Run.on_of_isOk hok
  have htags : ((Expander.ofRegistry Catalogue.binding 1 Expander.standardLabel).layer
      Catalogue.reused).toOption.map (·.map (·.tag.number)) = some [4, 5] := by decide +kernel
  cases hlayer : (Expander.ofRegistry Catalogue.binding 1 Expander.standardLabel).layer
      Catalogue.reused with
  | error e =>
    rw [hlayer] at htags
    cases htags
  | ok as =>
    rw [hlayer] at hstandard htags
    obtain ⟨hfiled, hplaces, -⟩ := hfacts as hlayer
    have hfirst := (congrArg Prod.fst hv).symm.trans hstandard
    split at hfirst
    · cases hfirst
      exact ⟨as, _, hv, (hfiled _ _ hv).2, Option.some.inj htags, hplaces⟩
    · cases hfirst

namespace Catalogue

/-- A macro that answers 1, whatever its argument is. -/
def forgetful : Registry :=
  (Registry.empty Registry.standardTerminals).add "m" (.arity 1)
    (.pure "user.tr" fun _ => .ok (.tree (.literal (.int 1))))

/-- An expander with the macro that answers 1. -/
def forgetting : Expander :=
  .ofRegistry forgetful Expander.standardDepth Expander.standardLabel

theorem replaceable_forgetting (t : Tree) : forgetting.Replaceable (op "m" [t]) := by
  refine .intro rfl rfl (fun n hn => ?_) fun _ _ => rfl
  cases hn

theorem frontier_forgetting (t : Tree) :
    (op "m" [t]).frontier forgetting.registry = [op "m" [t]] := rfl

theorem standardBudget_forgetting {n : Nat} (hn : 1000 ≤ n) : forgetting.budget.left <
    forgetting.budget.costs.of (.survey (op "m" [denials n]).skeleton) := by
  change 1000 < max ((denials n).skeleton.reach 3 3 3 + 3) 0 + 4
  rw [reach_denials]
  omega

/-- A macro call that is answered by a leaf is not replaced if its own argument is too deep. -/
theorem visitOnce_forgetting :
    (op "m" [denials 3000]).openNodes = [] ∧
    (∀ c ∈ (op "m" [denials 3000]).frontier forgetting.registry, forgetting.Replaceable c) ∧
    (visitOnce (.tree (op "m" [denials 3000]))).on forgetting =
      (.error .stackOverflow, forgetting) := by
  refine ⟨?_, ?_, ?_⟩
  · have hcall : (Mark.call []).isOpen = false := rfl
    rw [Tree.openNodes_eq_nil]
    simpa [op, hcall] using isOpen_denials 3000
  · rw [frontier_forgetting, List.forall_mem_singleton]
    exact replaceable_forgetting _
  · have hn : 1000 ≤ 3000 := by decide
    exact visitIn_of_unsurveyed (Nat.lt_add_left _ (standardBudget_forgetting hn)) .once

end Catalogue

end HygienicMacros
