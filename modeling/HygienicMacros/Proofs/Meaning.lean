import Mathlib.Data.List.Forall2
import HygienicMacros.Evaluator
import HygienicMacros.Proofs.Positions
import HygienicMacros.Proofs.Stepping

/-! # What binding macros mean

`Catalogue.binding` has three macros that bind names. Read as operators of the small language,
`with_x` leaves the variables of its body alone, `with_it` sets `it` there, and `twice` adds a
value to itself; `meaning` evaluates trees with them. Expanding a tree first and then evaluating
it gives the same (`expandMacros_meaning`): the tagged names that the expansions bind are never
the names of the source, whatever these are called.

`Expands R k t P` says that a tree has an expansion, whatever tag comes next, and what is known
of the outcome. It is derived from the outcomes of the arguments (`Expands.call`) and of what a
macro call is replaced by (`Expands.expand`).
-/

namespace HygienicMacros

/-! ## Trees that can be expanded -/

/-- With any tag to start from, the tree has an expansion with at most `k` macro applications
inside one another, and its outcome is as `P` says. -/
def Expands (R : Registry) (k : Nat) (t : Tree) (P : Tree → Prop) : Prop :=
  ∀ n, ∃ as r, Scans R (Rewrites R R.Applies .recursive k) [t] as [r] ∧ Numbered n as ∧ P r

namespace Expands

variable {R : Registry} {k : Nat} {P Q : Tree → Prop}

theorem of_finished {t : Tree} (ht : t.Finished R) (h : P t) : Expands R k t P :=
  fun _ => ⟨[], t, .of_finished ht, trivial, h⟩

/-- Trees that can each be expanded can be expanded one after the other. -/
theorem forest {ts : List Tree} {Ps : List (Tree → Prop)}
    (h : List.Forall₂ (Expands R k) ts Ps) (n : Nat) :
    ∃ as rs, Scans R (Rewrites R R.Applies .recursive k) ts as rs ∧ Numbered n as ∧
      List.Forall₂ (fun P r => P r) Ps rs := by
  induction h generalizing n with
  | nil => exact ⟨[], [], .nil, trivial, .nil⟩
  | cons h _ ih =>
    obtain ⟨as, r, hr, hnum, hP⟩ := h n
    obtain ⟨bs, rs, hrs, hnums, hPs⟩ := ih (n + as.length)
    exact ⟨as ++ bs, r :: rs, hr.cons hrs, numbered_append.2 ⟨hnum, hnums⟩, .cons hP hPs⟩

theorem call {op : String} {args : List Tree} {notes : Notes} {Ps : List (Tree → Prop)}
    (hop : R.isMacro op = false) (hargs : List.Forall₂ (Expands R k) args Ps)
    (h : ∀ rs, List.Forall₂ (fun P r => P r) Ps rs → Q (.call (.symbol op) rs notes)) :
    Expands R k (.call (.symbol op) args notes) Q := by
  intro n
  obtain ⟨as, rs, hscan, hnum, hPs⟩ := forest hargs n
  exact ⟨as ++ [], _, .call hop hscan .nil, by simpa using hnum, h rs hPs⟩

/-- A macro call can be expanded if one application leads to what can be expanded. -/
theorem expand {op : String} {args : List Tree} {notes : Notes} (hop : R.isMacro op = true)
    (h : ∀ tag, ∃ a, R.Applies a ∧ a.invocation = .call (.symbol op) args notes ∧ a.tag = tag ∧
      Expands R k a.expansion P) :
    Expands R (k + 1) (.call (.symbol op) args notes) P := by
  intro n
  obtain ⟨a, happ, hinv, htag, hexp⟩ := h ⟨n + 1, n.succ_pos⟩
  obtain ⟨bs, r, hscan, hnum, hP⟩ := hexp (n + 1)
  refine ⟨a :: bs, r, ?_, ⟨by rw [htag], hnum⟩, hP⟩
  have hcall : Rewrites R R.Applies .recursive (k + 1) (.call (.symbol op) args notes)
      (a :: bs) r := ⟨a, bs, rfl, happ, hinv, hscan⟩
  simpa using Scans.expand hop hcall .nil

theorem of_replaces {op : String} {args : List Tree} {notes : Notes} {out : Tag → Tree}
    (hop : R.isMacro op = true) (hout : R.Replaces (.call (.symbol op) args notes) out)
    (h : ∀ tag, Expands R k (out tag) P) :
    Expands R (k + 1) (.call (.symbol op) args notes) P := by
  refine expand hop fun tag => ?_
  obtain ⟨a, happ, hinv, htag, hexp⟩ := hout.applies tag
  exact ⟨a, happ, hinv, htag, hexp ▸ h tag⟩

end Expands

/-- What can be expanded is expanded, if there is room for it. -/
theorem expandWithin_of_expands {R : Registry} (hR : R.Regular) {t : Tree} {d : Nat}
    {P : Tree → Prop} (hopen : t.openNodes = []) (h : Expands R.snapshot d t P) (label : Value) :
    ∃ r, P r ∧ ∀ costs, ∃ N, ∀ limit,
      if N ≤ limit then expandWithin ⟨limit, costs⟩ R t d label = .ok (.tree r)
      else Overflowed (expandWithin ⟨limit, costs⟩ R t d label) := by
  obtain ⟨as, r, hscan, hnum, hP⟩ := h t.firstTag
  exact ⟨r, hP, fun _ => expandWithin_of_derivation hR hopen hscan hnum⟩

/-! ## Nesting -/

mutual

/-- The number of macro calls inside one another, on the path with the most of them. -/
def Tree.nesting (R : Registry) : Tree → Nat
  | .call (.symbol op) args _ => (if R.isMacro op then 1 else 0) + nestingList R args
  | .call (.tree f) args _ => max (nesting R f) (nestingList R args)
  | .marker _ (some body) => nesting R body
  | _ => 0

/-- The nesting of macro calls in some trees. -/
def Tree.nestingList (R : Registry) : List Tree → Nat
  | [] => 0
  | t :: ts => max (nesting R t) (nestingList R ts)

end

theorem Tree.nesting_le_nestingList {R : Registry} {t : Tree} :
    ∀ {ts : List Tree}, t ∈ ts → t.nesting R ≤ nestingList R ts
  | _ :: _, .head _ => Nat.le_max_left _ _
  | _ :: _, .tail _ h => (nesting_le_nestingList h).trans (Nat.le_max_right _ _)

/-! ## Closed trees -/

theorem Mark.isOpen_of_unscoped {notes : Notes} (h : Notes.scope? notes = none) :
    (Mark.call notes).isOpen = false := by
  simp [isOpen, h]

theorem Tree.openNodes_call {op : String} {args : List Tree} {notes : Notes}
    (hnotes : (Mark.call notes).isOpen = false) (h : ∀ a ∈ args, a.openNodes = []) :
    (call (.symbol op) args notes).openNodes = [] := by
  rw [openNodes_eq_nil]
  intro m hm
  rw [marks_call, List.mem_cons] at hm
  rcases hm with rfl | hm
  · exact hnotes
  · obtain ⟨a, ha, hm⟩ := List.mem_flatMap.1 hm
    exact openNodes_eq_nil.1 (h a ha) m hm

/-! ## Evaluation -/

theorem Environment.lookup_bind (env : Environment) (ident : String) (scope : Scope) (v : Value) :
    (env.bind ident scope v).lookup (ident, scope) = some v := by
  rw [bind, List.lookup_cons_self]

section
variable (env : Environment) (notes : Notes)

theorem evaluate_sum (args : List Tree) :
    evaluate env (.call (.symbol "+") args notes) = evaluateSum env (.int 0) args := by
  rw [evaluate.eq_def]
  rfl

theorem evaluate_block (args : List Tree) :
    evaluate env (.call (.symbol "do_block") args notes) = evaluateBlock env .nothing args := by
  rw [evaluate.eq_def]
  rfl

theorem evaluate_let (ident : String) (scope : Scope) (value body : Tree) :
    evaluate env (.call (.symbol "let") [.name ident scope, value, body] notes) =
      (evaluate env value).bind fun v => evaluate (env.bind ident scope v) body := by
  rw [evaluate, if_neg (by decide), if_neg (by decide), if_neg (by decide), if_pos rfl]
  dsimp only
  cases evaluate env value <;> rfl

end

/-! ## The language -/

namespace Catalogue

/-- The source trees over the operators `+`, `do_block`, `!` and `let`, which binds a name of the
source, and the macros of `binding`. -/
inductive BindingTree : Tree → Prop
  | literal (d : Datum) : BindingTree (.literal d)
  | name (ident : String) : BindingTree (.name ident .source)
  | form {op : String} {args : List Tree} {notes : Notes} (hop : op ∈ ["+", "do_block", "!"])
      (hnotes : Notes.scope? notes = none) (hargs : ∀ a ∈ args, BindingTree a) :
      BindingTree (.call (.symbol op) args notes)
  | bind (ident : String) {args : List Tree} {notes : Notes}
      (hnotes : Notes.scope? notes = none) (hargs : ∀ a ∈ args, BindingTree a) :
      BindingTree (.call (.symbol "let") (.name ident .source :: args) notes)
  | use {op : String} {e : Tree} {notes : Notes} (hop : op ∈ ["with_x", "with_it", "twice"])
      (hnotes : Notes.scope? notes = none) (he : BindingTree e) :
      BindingTree (.call (.symbol op) [e] notes)

mutual

/-- The value of a tree in which the macros are operators: `with_x` does nothing for the variables
of its body, `with_it` sets the variable `it`, and `twice` adds a value to itself. -/
def meaning (env : Environment) : Tree → Except Error Value
  | .call (.symbol "with_x") [body] _ => meaning env body
  | .call (.symbol "with_it") [body] _ => meaning (env.bind "it" .source (.int 1)) body
  | .call (.symbol "twice") [value] _ => do
    let v ← meaning env value
    let sum ← (Value.int 0).plus "+" v
    sum.plus "+" v
  -- The operators of the language, as in `evaluate`, with the macros below them.
  | .call (.symbol "!") (arg :: _) _ => do
    let v ← meaning env arg
    return .bool !v.holds
  | .call (.symbol "+") args _ => meaningSum env (.int 0) args
  | .call (.symbol "let") [.name ident scope, value, body] _ => do
    let v ← meaning env value
    meaning (env.bind ident scope v) body
  | .call (.symbol "do_block") args _ => meaningBlock env .nothing args
  | t => evaluate env t

/-- The sum of the values of some trees, added from the left to `sum`. -/
def meaningSum (env : Environment) (sum : Value) : List Tree → Except Error Value
  | [] => .ok sum
  | t :: ts => do
    let v ← meaning env t
    let sum ← sum.plus "+" v
    meaningSum env sum ts

/-- The value of the last of some trees, all of which are evaluated; `last` if there are none. -/
def meaningBlock (env : Environment) (last : Value) : List Tree → Except Error Value
  | [] => .ok last
  | t :: ts => do
    let v ← meaning env t
    meaningBlock env v ts

end

theorem BindingTree.openNodes {t : Tree} (h : BindingTree t) : t.openNodes = [] := by
  induction h with
  | literal d => rfl
  | name ident => rfl
  | form _ hnotes _ ih => exact Tree.openNodes_call (Mark.isOpen_of_unscoped hnotes) ih
  | bind ident hnotes _ ih =>
    exact Tree.openNodes_call (Mark.isOpen_of_unscoped hnotes) (List.forall_mem_cons.2 ⟨rfl, ih⟩)
  | use _ hnotes _ ih =>
    exact Tree.openNodes_call (Mark.isOpen_of_unscoped hnotes) (List.forall_mem_singleton.2 ih)

theorem isMacro_form : ∀ op ∈ ["+", "do_block", "!"], binding.isMacro op = false := by decide

theorem isMacro_use : ∀ op ∈ ["with_x", "with_it", "twice"], binding.isMacro op = true := by decide

/-! ## What the macros are replaced by -/

/-- A macro call with one argument is replaced by the template, filled and resolved. -/
theorem expands_filling {R : Registry} {k : Nat} {P : Tree → Prop} {op label target : String}
    {e template : Tree} {notes : Notes} {clause : Clause} (hop : R.isMacro op = true)
    (hlookup : R.lookup op [.tree e] = .ok (some clause))
    (hclause : clause.transformer = filling label template (onePart target))
    (hfill : template.substitute [(target, e)] = .ok (template.fill [(target, e)]))
    (hnotes : Notes.scope? notes = none)
    (h : ∀ tag, Expands R k ((template.fill [(target, e)]).resolve tag none) P) :
    Expands R (k + 1) (.call (.symbol op) [e] notes) P := by
  have hcaller : Notes.caller notes = .ok none := by simp [Notes.caller, hnotes]
  exact .of_replaces hop (replaces_filling hlookup hclause rfl hfill hcaller) h

/-- What the templates of the macros note on their calls, resolved. -/
def introduced (tag : Tag) : Notes := Notes.set Notes.scopeKey (.int tag.number) []

section
variable {e : Tree} (he : e.openNodes = []) (tag : Tag)
include he

theorem resolve_withX : (withXTemplate.fill [("body", e)]).resolve tag none =
    .call (.symbol "let") [.name "x" (.tag tag), .literal (.int 1), e] (introduced tag) :=
  congrArg (fun e => Tree.call (.symbol "let") [.name "x" (.tag tag), .literal (.int 1), e]
    (introduced tag)) (Tree.resolve_of_closed he tag none)

theorem resolve_withIt : (withItTemplate.fill [("body", e)]).resolve tag none =
    .call (.symbol "let") [.name "it" .source, .literal (.int 1), e] (introduced tag) :=
  congrArg (fun e => Tree.call (.symbol "let") [.name "it" .source, .literal (.int 1), e]
    (introduced tag)) (Tree.resolve_of_closed he tag none)

theorem resolve_twice : (twiceTemplate.fill [("value", e)]).resolve tag none =
    .call (.symbol "let") [.name "tmp" (.tag tag), e, .call (.symbol "+")
      [.name "tmp" (.tag tag), .name "tmp" (.tag tag)] (introduced tag)] (introduced tag) :=
  congrArg (fun e => Tree.call (.symbol "let") [.name "tmp" (.tag tag), e, .call (.symbol "+")
      [.name "tmp" (.tag tag), .name "tmp" (.tag tag)] (introduced tag)] (introduced tag))
    (Tree.resolve_of_closed he tag none)

end

/-! ## Meaning is kept -/

/-- Two environments with the same variables of the source. -/
def Agree (env env' : Environment) : Prop :=
  ∀ ident, env'.lookup (ident, .source) = env.lookup (ident, .source)

theorem Agree.bind_source {env env' : Environment} (h : Agree env env') (ident : String)
    (v : Value) : Agree (env.bind ident .source v) (env'.bind ident .source v) := by
  intro other
  rw [Environment.bind, Environment.bind, List.lookup_cons, List.lookup_cons, h other]

theorem Agree.bind_tag {env env' : Environment} (h : Agree env env') (ident : String) (tag : Tag)
    (v : Value) : Agree env (env'.bind ident (.tag tag) v) := by
  intro other
  rw [Environment.bind, List.lookup_cons, beq_eq_false_iff_ne.2 (by simp), h other]

/-- What comes out evaluates to what the source means, whatever tagged names stand for. -/
def Faithful (t r : Tree) : Prop :=
  ∀ env env', Agree env env' → evaluate env' r = meaning env t

theorem evaluateSum_eq {ts rs : List Tree} (h : List.Forall₂ Faithful ts rs)
    {env env' : Environment} (henv : Agree env env') (sum : Value) :
    evaluateSum env' sum rs = meaningSum env sum ts := by
  induction h generalizing sum with
  | nil => rfl
  | cons h _ ih =>
    rw [evaluateSum, meaningSum, h env env' henv]
    cases meaning env _ with
    | error e => rfl
    | ok v =>
      dsimp only [bind, Except.bind]
      cases sum.plus "+" v with
      | error e => rfl
      | ok sum => exact ih sum

theorem evaluateBlock_eq {ts rs : List Tree} (h : List.Forall₂ Faithful ts rs)
    {env env' : Environment} (henv : Agree env env') (last : Value) :
    evaluateBlock env' last rs = meaningBlock env last ts := by
  induction h generalizing last with
  | nil => rfl
  | cons h _ ih =>
    rw [evaluateBlock, meaningBlock, h env env' henv]
    cases meaning env _ with
    | error e => rfl
    | ok v => exact ih v

theorem faithful_form {op : String} {args rs : List Tree} {notes : Notes}
    (hop : op ∈ ["+", "do_block", "!"]) (h : List.Forall₂ Faithful args rs) :
    Faithful (.call (.symbol op) args notes) (.call (.symbol op) rs notes) := by
  intro env env' henv
  simp only [List.mem_cons, List.not_mem_nil, or_false] at hop
  rcases hop with rfl | rfl | rfl
  · rw [evaluate_sum, meaning, evaluateSum_eq h henv]
  · rw [evaluate_block, meaning, evaluateBlock_eq h henv]
  · cases h with
    | nil => rfl
    | cons h _ =>
      rw [meaning, ← h env env' henv, evaluate, if_neg (by decide), if_pos rfl]
      rfl

theorem faithful_bind {ident : String} {args rs : List Tree} {notes : Notes}
    (h : List.Forall₂ Faithful args rs) :
    Faithful (.call (.symbol "let") (.name ident .source :: args) notes)
      (.call (.symbol "let") (.name ident .source :: rs) notes) := by
  intro env env' henv
  rcases h with _ | ⟨hvalue, _ | ⟨hbody, _ | ⟨_, hrest⟩⟩⟩
  · rfl
  · rfl
  · rw [evaluate_let, meaning, hvalue env env' henv]
    cases meaning env _ with
    | error e => rfl
    | ok v => exact hbody _ _ (henv.bind_source ident v)
  · simp [meaning, evaluate, hrest.length_eq]

section
variable {e r : Tree} {notes outer inner : Notes} (tag : Tag) (h : Faithful e r)
include h

theorem faithful_withX : Faithful (.call (.symbol "with_x") [e] notes)
    (.call (.symbol "let") [.name "x" (.tag tag), .literal (.int 1), r] outer) := by
  intro env env' henv
  rw [evaluate_let, meaning]
  exact h _ _ (henv.bind_tag "x" tag _)

theorem faithful_withIt : Faithful (.call (.symbol "with_it") [e] notes)
    (.call (.symbol "let") [.name "it" .source, .literal (.int 1), r] outer) := by
  intro env env' henv
  rw [evaluate_let, meaning]
  exact h _ _ (henv.bind_source "it" _)

theorem faithful_twice : Faithful (.call (.symbol "twice") [e] notes)
    (.call (.symbol "let") [.name "tmp" (.tag tag), r, .call (.symbol "+")
      [.name "tmp" (.tag tag), .name "tmp" (.tag tag)] inner] outer) := by
  intro env env' henv
  rw [evaluate_let, meaning, h env env' henv]
  cases meaning env e with
  | error e => rfl
  | ok v =>
    have htmp : evaluate (env'.bind "tmp" (.tag tag) v) (.name "tmp" (.tag tag)) = .ok v := by
      rw [evaluate, Environment.lookup_bind]
    dsimp only [bind, Except.bind]
    simp only [evaluate_sum, evaluateSum, htmp]
    cases (Value.int 0).plus "+" v with
    | error e => rfl
    | ok sum =>
      dsimp only
      cases sum.plus "+" v <;> rfl

end

theorem expands_let {R : Registry} {k : Nat} {P Q S : Tree → Prop} {ident : String}
    {scope : Scope} {value body : Tree} {notes : Notes} (hop : R.isMacro "let" = false)
    (hvalue : Expands R k value P) (hbody : Expands R k body Q)
    (h : ∀ v b, P v → Q b → S (.call (.symbol "let") [.name ident scope, v, b] notes)) :
    Expands R k (.call (.symbol "let") [.name ident scope, value, body] notes) S := by
  have hname : Expands R k (.name ident scope) (· = .name ident scope) :=
    .of_finished (Tree.finished_name _ _) rfl
  refine .call hop (.cons hname (.cons hvalue (.cons hbody .nil))) ?_
  rintro _ (_ | ⟨rfl, _ | ⟨hv, _ | ⟨hb, _ | _⟩⟩⟩)
  exact h _ _ hv hb

/-- A call of a macro is expanded to what evaluates to its meaning, if its argument is. -/
theorem expands_use {op : String} {e : Tree} {notes : Notes} {k : Nat}
    (hop : op ∈ ["with_x", "with_it", "twice"]) (hnotes : Notes.scope? notes = none)
    (hopen : e.openNodes = [])
    (he : Expands binding.snapshot k e (Faithful e)) :
    Expands binding.snapshot (k + 1) (.call (.symbol op) [e] notes)
      (Faithful (.call (.symbol op) [e] notes)) := by
  have hone : Expands binding.snapshot k (.literal (.int 1)) (· = .literal (.int 1)) :=
    .of_finished (Tree.finished_literal _) rfl
  simp only [List.mem_cons, List.not_mem_nil, or_false] at hop
  rcases hop with rfl | rfl | rfl
  · refine expands_filling rfl rfl rfl rfl hnotes fun tag => ?_
    rw [resolve_withX hopen]
    exact expands_let rfl hone he fun _ _ hv hb => hv ▸ faithful_withX tag hb
  · refine expands_filling rfl rfl rfl rfl hnotes fun tag => ?_
    rw [resolve_withIt hopen]
    exact expands_let rfl hone he fun _ _ hv hb => hv ▸ faithful_withIt hb
  · refine expands_filling rfl rfl rfl rfl hnotes fun tag => ?_
    have hsum : (Tree.call (.symbol "+") [.name "tmp" (.tag tag), .name "tmp" (.tag tag)]
        (introduced tag)).Finished binding.snapshot :=
      Tree.finished_call.2 ⟨rfl, by simp [Tree.finished_name]⟩
    rw [resolve_twice hopen]
    exact expands_let rfl he (.of_finished (P := (· = _)) hsum rfl)
      fun _ _ hv hb => hb ▸ faithful_twice tag hv

/-- Every source tree is expanded to one that evaluates to its meaning. -/
theorem BindingTree.expands {t : Tree} (ht : BindingTree t) : ∀ {k : Nat},
    t.nesting binding ≤ k → Expands binding.snapshot k t (Faithful t) := by
  -- The bound of an operator's call is a bound of its arguments.
  have forest : ∀ {args : List Tree} {k : Nat}, (∀ a ∈ args, ∀ {k : Nat},
      a.nesting binding ≤ k → Expands binding.snapshot k a (Faithful a)) →
      Tree.nestingList binding args ≤ k →
      List.Forall₂ (Expands binding.snapshot k) args (args.map Faithful) := by
    intro args k ih hk
    rw [List.forall₂_map_right_iff, List.forall₂_same]
    exact fun a ha => ih a ha ((Tree.nesting_le_nestingList ha).trans hk)
  induction ht with
  | literal d =>
    intro k _
    exact .of_finished (Tree.finished_literal d) fun _ _ _ => rfl
  | name ident =>
    intro k _
    refine .of_finished (Tree.finished_name ident .source) fun env env' henv => ?_
    change evaluate env' _ = evaluate env _
    rw [evaluate, evaluate, henv]
  | form hop _ _ ih =>
    intro k hk
    rw [Tree.nesting] at hk
    refine .call (isMacro_form _ hop) (forest ih (by omega)) fun rs hrs => ?_
    rw [List.forall₂_map_left_iff] at hrs
    exact faithful_form hop hrs
  | bind ident _ _ ih =>
    intro k hk
    have hname : Expands binding.snapshot k (.name ident .source) (· = .name ident .source) :=
      .of_finished (Tree.finished_name _ _) rfl
    rw [Tree.nesting, Tree.nestingList] at hk
    refine .call rfl (.cons hname (forest ih (by omega))) ?_
    rintro _ (_ | ⟨rfl, hrs⟩)
    rw [List.forall₂_map_left_iff] at hrs
    exact faithful_bind hrs
  | use hop hnotes he ih =>
    intro k hk
    rw [Tree.nesting, if_pos (isMacro_use _ hop), Tree.nestingList, Tree.nestingList] at hk
    obtain ⟨l, rfl⟩ : ∃ l, k = l + 1 := ⟨k - 1, by omega⟩
    exact expands_use hop hnotes he.openNodes (ih (by omega))

/-- Without macros, the meaning of a tree is its value. -/
theorem BindingTree.meaning_eq {t : Tree} (ht : BindingTree t) (h : t.macroCalls binding = [])
    (env : Environment) : meaning env t = evaluate env t := by
  obtain ⟨as, r, hscan, -, hr⟩ := ht.expands (Nat.le_refl _) 0
  have hsame : [r] = [t] := (hscan.of_macroCalls_eq_nil (List.forall_mem_singleton.2 h)).2
  cases hsame
  exact (hr env env fun _ => rfl).symm

/-- **Binding macros keep the meaning.** For a tree of the language whose macro calls are not nested
too deep there is one tree that evaluates to its meaning in every environment, and that is what the
expansion returns with enough room on the stack, whatever each activity takes of it; with less, the
stack overflows. -/
theorem expandMacros_meaning {t : Tree} (ht : BindingTree t) {d : Nat} (hd : 0 < d)
    (hnesting : t.nesting binding ≤ d) (label : Value) :
    ∃ r, (∀ env, evaluate env r = meaning env t) ∧
      (∀ costs, ∃ N, ∀ limit,
        if N ≤ limit then expandWithin ⟨limit, costs⟩ binding t d label = .ok (.tree r)
        else Overflowed (expandWithin ⟨limit, costs⟩ binding t d label)) ∧
      (expandMacros binding (.tree t) (.int d) label).1 =
        expandWithin Expander.standardBudget binding t d label := by
  obtain ⟨r, hr, hreturns⟩ :=
    expandWithin_of_expands binding_regular ht.openNodes (ht.expands hnesting) label
  exact ⟨r, fun env => hr env env fun _ => rfl, hreturns, expandMacros_eq_within binding t hd label⟩

/-- A tree that has variables of its own called as those of the macros are. -/
def shadowed : Tree :=
  op "let" [var "x", .literal (.int 5), op "let" [var "tmp", .literal (.int 7),
    op "with_x" [op "twice" [op "+" [var "x", var "tmp",
      op "with_it" [op "+" [var "it", var "x"]]]]]]]

theorem shadowed_bindingTree : BindingTree shadowed := by
  have hit : BindingTree (op "with_it" [op "+" [var "it", var "x"]]) :=
    .use (by decide) rfl (.form (by decide) rfl
      (List.forall_mem_cons.2 ⟨.name "it", List.forall_mem_singleton.2 (.name "x")⟩))
  have hsum : BindingTree (op "+" [var "x", var "tmp",
      op "with_it" [op "+" [var "it", var "x"]]]) :=
    .form (by decide) rfl (List.forall_mem_cons.2 ⟨.name "x", List.forall_mem_cons.2
      ⟨.name "tmp", List.forall_mem_singleton.2 hit⟩⟩)
  refine .bind "x" rfl (List.forall_mem_cons.2 ⟨.literal _, List.forall_mem_singleton.2 ?_⟩)
  refine .bind "tmp" rfl (List.forall_mem_cons.2 ⟨.literal _, List.forall_mem_singleton.2 ?_⟩)
  exact .use (by decide) rfl (.use (by decide) rfl hsum)

theorem expandMacros_meaning_shadowed : BindingTree shadowed ∧ shadowed.nesting binding = 3 ∧
    meaning [] shadowed = .ok (.int 36) ∧
    ∃ r, (∀ env, evaluate env r = meaning env shadowed) ∧
      (expandMacros binding (.tree shadowed) (.int 3) Expander.standardLabel).1 =
        .ok (.tree r) := by
  refine ⟨shadowed_bindingTree, rfl, rfl, ?_⟩
  obtain ⟨r, hr, hreturns, hrun⟩ := expandMacros_meaning shadowed_bindingTree (d := 3) (by decide)
    (Nat.le_refl 3) Expander.standardLabel
  obtain ⟨N, hN⟩ := hreturns Expander.standardBudget.costs
  obtain ⟨r', hr', -⟩ := exists_of_returnedTags
    (x := (expandMacros binding (.tree shadowed) (.int 3) Expander.standardLabel).1)
    (by decide +kernel)
  refine ⟨r, hr, hrun.trans ((returns_of_threshold hN).1 _ (not_overflowed (hrun.symm.trans hr')))⟩

/-- Negations inside one another. -/
def denials : Nat → Tree
  | 0 => truth true
  | n + 1 => op "!" [denials n]

theorem denials_bindingTree : ∀ n, BindingTree (denials n)
  | 0 => .literal _
  | n + 1 => .form (by decide) rfl (List.forall_mem_singleton.2 (denials_bindingTree n))

theorem reach_denials (operator argument body : Nat) : ∀ n,
    (denials n).skeleton.reach operator argument body = n * argument
  | 0 => (Nat.zero_mul argument).symm
  | n + 1 => by
    change max ((denials n).skeleton.reach operator argument body + argument) 0 = _
    rw [reach_denials operator argument body n, Nat.max_zero, Nat.succ_mul]

theorem nesting_denials : ∀ n, (denials n).nesting binding = 0
  | 0 => rfl
  | n + 1 => by
    change 0 + max ((denials n).nesting binding) 0 = 0
    rw [nesting_denials n]
    rfl

theorem meaning_denials (env : Environment) : ∀ n,
    meaning env (denials n) = .ok (.bool (n % 2 == 0))
  | 0 => rfl
  | n + 1 => by
    rw [denials, op, meaning, meaning_denials env n]
    change Except.ok (Value.bool !(n % 2 == 0)) = _
    rcases Nat.mod_two_eq_zero_or_one n with h | h <;> simp [Nat.add_mod, h]

/-- The standard stack has no room to look through that many. -/
theorem standardBudget_denials {n : Nat} (hn : 1000 ≤ n) : Expander.standardBudget.left <
    Expander.standardBudget.costs.of (.survey (denials n).skeleton) := by
  change 1000 < (denials n).skeleton.reach 3 3 3 + 4
  rw [reach_denials]
  omega

theorem expandMacros_denials_ne (R : Registry) {n : Nat} (hn : 1000 ≤ n) {d : Nat} (hd : 0 < d)
    (label v : Value) : (expandMacros R (.tree (denials n)) (.int d) label).1 ≠ .ok v := by
  rw [expandMacros_eq_within R _ hd, expandWithin_of_unsurveyed (standardBudget_denials hn)]
  rintro ⟨⟩

/-- A tree without macros that means something need not be expanded: it can be too deep. -/
theorem expandMacros_denials : BindingTree (denials 3000) ∧ (denials 3000).nesting binding = 0 ∧
    meaning [] (denials 3000) = .ok (.bool true) ∧
    ∀ v, (expandMacros binding (.tree (denials 3000)) (.int Expander.standardDepth)
      Expander.standardLabel).1 ≠ .ok v := by
  have hn : 1000 ≤ 3000 := by decide
  have hd : 0 < Expander.standardDepth := by decide
  exact ⟨denials_bindingTree _, nesting_denials _, meaning_denials _ _,
    expandMacros_denials_ne binding hn hd _⟩

end Catalogue

end HygienicMacros
