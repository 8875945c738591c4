import HygienicMacros.Proofs.Completeness

/-! # Where an expansion fails

A scan that fails does so at one macro call, or at a node that no finished tree has. `Meets` follows
the scan to that macro call, through the trees before it, which are expanded, and through the
replacements of the macro calls around it. It never goes into a transformer, so no application is at
work when the macro call is met; but all activities around it are, and what they take of the stack
is gone. `Breaks` says how the macro call itself then fails: no clause
takes it, the depth limit is reached, its transformer fails, or the answer cannot be put in its
place.

* `Meets.error`: a scan fails as the macro call does that it meets.
* `scan_error`: there is no other way, apart from the nodes that are refused and from a stack that
  overflows.
* `Enters.error`: the same for an entry, which may be given nested lists of trees.
-/

namespace HygienicMacros

variable {α β : Type}

theorem Run.on_bind_error {x : Run α} {f : α → Run β} {s s' : Expander} {e : Error} :
    on (x >>= f) s = (.error e, s') ↔ x.on s = (.error e, s') ∨
      ∃ a s₁, x.on s = (.ok a, s₁) ∧ (f a).on s₁ = (.error e, s') := by
  rw [on_bind]
  rcases x.on s with ⟨e' | a, s₁⟩
  · simp
  · simp

theorem withFrame_of_error {f : Frame} {x : Run α} {s s₁ : Expander} {e : Error}
    (h : x.on { s with stack := f :: s.stack } = (.error e, s₁)) :
    ∃ s', (withFrame f x).on s = (.error e, s') := by
  rw [on_withFrame, h]
  exact ⟨_, rfl⟩

theorem during_of_error {a : Activity} {x : Run α} {s s₁ : Expander} {e : Error}
    (h : x.on (s.spend a) = (.error e, s₁)) (hs : s.budget.covers a = true) :
    ∃ s', (during a x).on s = (.error e, s') := by
  rw [on_during_of_covers hs, h]
  exact ⟨_, rfl⟩

theorem withMode_of_error {mode : Mode} {x : Run α} {s s₁ : Expander} {e : Error}
    (h : x.on { s with recursive := mode == .recursive } = (.error e, s₁)) :
    ∃ s', (withMode mode x).on s = (.error e, s') := by
  rw [on_withMode, h]
  exact ⟨_, rfl⟩

section
variable (reenter : Mode → Value → Run Value)

/-! ## The two relations -/

/-- `Meets reenter k ts s c j s'`: the scan of `ts` in the state `s`, where `k` more expansions may
be nested, comes to the macro call `c`, where `j` more may be, in the state `s'`. -/
inductive Meets : Nat → List Tree → Expander → Tree → Nat → Expander → Prop
  | here {k op args notes ts s} (hop : s.registry.isMacro op = true) :
      Meets k (.call (.symbol op) args notes :: ts) s (.call (.symbol op) args notes) k s
  | next {k t r ts s s₁ c j s'} (first : (scan (expandCall reenter k) t).on s = (.ok r, s₁))
      (rest : Meets k ts s₁ c j s') : Meets k (t :: ts) s c j s'
  | part {k op args notes ts s c j s'} (hop : s.registry.isMacro op = false)
      (hfits : s.budget.covers (.arguments args.length) = true)
      (parts : Meets k args (Expander.spend
        { s with phase := if s.registry.isTerminal op then .terminal else .scanning }
        (.arguments args.length)) c j s') :
      Meets k (.call (.symbol op) args notes :: ts) s c j s'
  | head {k f args notes ts s c j s'} (hfits : s.budget.covers .operator = true)
      (head : Meets k [f] (Expander.spend { s with phase := .scanning } .operator) c j s') :
      Meets k (.call (.tree f) args notes :: ts) s c j s'
  | operand {k f f' args notes ts s s₁ c j s'}
      (head : (during .operator (scan (expandCall reenter k) f)).on { s with phase := .scanning } =
        (.ok f', s₁))
      (hfits : s₁.budget.covers (.arguments args.length) = true)
      (parts : Meets k args (s₁.spend (.arguments args.length)) c j s') :
      Meets k (.call (.tree f) args notes :: ts) s c j s'
  | again {k op args notes ts clause answer expansion s s₁ s₂ c j s'}
      (hop : s.registry.isMacro op = true)
      (hlookup : s.registry.lookup op (args.map .tree) = .ok (some clause))
      (happly : (applyClause reenter clause (.call (.symbol op) args notes)).on
        { s with phase := .matched } = (.ok answer, s₁))
      (hsettle : (settle clause (.call (.symbol op) args notes) notes answer).on s₁ =
        (.ok expansion, s₂))
      (hmode : s₂.recursive = true) (hfits : s₂.budget.covers .replacement = true)
      (inner : Meets k [expansion] (Expander.spend { s₂ with
        stack := s.frame.inside clause.name (.call (.symbol op) args notes) :: s₂.stack }
        .replacement) c j s') :
      Meets (k + 1) (.call (.symbol op) args notes :: ts) s c j s'

/-- `Breaks reenter k c s e`: the macro call `c`, met in the state `s` where `k` more expansions may
be nested, fails with `e` before it is replaced. -/
inductive Breaks : Nat → Tree → Expander → Error → Prop
  | unmatched {k op args notes s e s'}
      (hmatch : (matchClause (.call (.symbol op) args notes) (.symbol op) args).on s =
        (.error e, s')) :
      Breaks k (.call (.symbol op) args notes) s e
  | tooDeep {op args notes clause s}
      (hlookup : s.registry.lookup op (args.map .tree) = .ok (some clause)) :
      Breaks 0 (.call (.symbol op) args notes) s (.depthExceeded (.nested s.filename
        (s.frame.inside clause.name (.call (.symbol op) args notes)).path) s.maxDepth)
  | unanswered {k op args notes clause s e s'}
      (hlookup : s.registry.lookup op (args.map .tree) = .ok (some clause))
      (happly : (applyClause reenter clause (.call (.symbol op) args notes)).on
        { s with phase := .matched } = (.error e, s')) :
      Breaks (k + 1) (.call (.symbol op) args notes) s e
  | unsettled {k op args notes clause answer s s₁ e s'}
      (hlookup : s.registry.lookup op (args.map .tree) = .ok (some clause))
      (happly : (applyClause reenter clause (.call (.symbol op) args notes)).on
        { s with phase := .matched } = (.ok answer, s₁))
      (hsettle : (settle clause (.call (.symbol op) args notes) notes answer).on s₁ =
        (.error e, s')) :
      Breaks (k + 1) (.call (.symbol op) args notes) s e

end

/-! ## One node -/

section
variable {E : Tree → Run Tree} {s s' : Expander} {t : Tree} {ts : List Tree} {e : Error}

theorem scanList_of_error (h : (scan E t).on s = (.error e, s')) :
    (scanList E (t :: ts)).on s = (.error e, s') := by
  rw [scanList, Run.on_bind_of_error h]

theorem scan_of_error (h : (scanList E [t]).on s = (.error e, s')) :
    (scan E t).on s = (.error e, s') := by
  rw [scanList, scanList] at h
  rcases Run.on_bind_error.1 h with h | ⟨r, s₁, -, h⟩
  · exact h
  · cases h

end

/-! ## A macro call -/

section
variable {reenter : Mode → Value → Run Value} {k : Nat} {op : String} {args : List Tree}
  {notes : Notes} {clause : Clause} {s s' : Expander} {e : Error}

theorem Breaks.error {c : Tree} (h : Breaks reenter k c s e) :
    ∃ s', (expandCall reenter k c).on s = (.error e, s') := by
  cases h with
  | unmatched hmatch =>
    rw [expandCall]
    exact ⟨_, Run.on_bind_of_error hmatch⟩
  | tooDeep hlookup => exact ⟨_, on_expandCall_zero hlookup⟩
  | unanswered hlookup happly =>
    rw [on_expandCall_succ hlookup]
    exact ⟨_, Run.on_bind_of_error happly⟩
  | unsettled hlookup happly hsettle =>
    rw [on_expandCall_succ hlookup, Run.on_bind_of_ok happly]
    exact ⟨_, Run.on_bind_of_error hsettle⟩

end

/-! ## A whole scan -/

section
variable {reenter : Mode → Value → Run Value} {k j : Nat} {c : Tree} {ts us : List Tree}
  {s s₁ : Expander} {e : Error}

theorem Meets.append (h : Meets reenter k ts s c j s₁) : Meets reenter k (ts ++ us) s c j s₁ := by
  induction h with
  | here hop => exact .here hop
  | next first _ ih => exact .next first ih
  | part hop hfits parts _ => exact .part hop hfits parts
  | head hfits head _ => exact .head hfits head
  | operand head hfits parts _ => exact .operand head hfits parts
  | again hop hlookup happly hsettle hmode hfits inner _ =>
    exact .again hop hlookup happly hsettle hmode hfits inner

/-- A scan fails as the macro call does that it meets. -/
theorem Meets.error (h : Meets reenter k ts s c j s₁) (hc : Breaks reenter j c s₁ e) :
    ∃ s', (scanList (expandCall reenter k) ts).on s = (.error e, s') := by
  induction h with
  | here hop =>
    obtain ⟨s', h⟩ := hc.error
    exact ⟨s', scanList_of_error (by rw [on_scan_macroCall hop, h])⟩
  | next first _ ih =>
    obtain ⟨s', h⟩ := ih hc
    rw [scanList, Run.on_bind_of_ok first]
    exact ⟨s', Run.on_bind_of_error h⟩
  | part hop hfits _ ih =>
    obtain ⟨s', h⟩ := ih hc
    obtain ⟨s₂, h⟩ := during_of_error h hfits
    refine ⟨s₂, scanList_of_error ?_⟩
    rw [on_scan_call hop]
    exact Run.on_bind_of_error h
  | head hfits _ ih =>
    obtain ⟨s', h⟩ := ih hc
    obtain ⟨s₂, h⟩ := during_of_error (scan_of_error h) hfits
    refine ⟨s₂, scanList_of_error ?_⟩
    rw [on_scan_apply]
    exact Run.on_bind_of_error h
  | operand head hfits _ ih =>
    obtain ⟨s', h⟩ := ih hc
    obtain ⟨s₂, h⟩ := during_of_error h hfits
    refine ⟨s₂, scanList_of_error ?_⟩
    rw [on_scan_apply, Run.on_bind_of_ok head]
    exact Run.on_bind_of_error h
  | again hop hlookup happly hsettle hmode hfits _ ih =>
    obtain ⟨s', h⟩ := ih hc
    obtain ⟨s₂, h⟩ := during_of_error (scan_of_error h) hfits
    obtain ⟨s₃, h⟩ := withFrame_of_error h
    refine ⟨s₃, scanList_of_error ?_⟩
    rw [on_scan_macroCall hop, on_expandCall_succ hlookup, Run.on_bind_of_ok happly,
      Run.on_bind_of_ok hsettle, Run.on_bind_of_ok (Run.on_get _), if_pos hmode, h]

/-- The error of a scan that fails: a macro call is met that fails with it, a node is refused, or
the stack overflows. -/
def Stops (reenter : Mode → Value → Run Value) (k : Nat) (ts : List Tree) (s : Expander)
    (e : Error) : Prop :=
  (∃ c j s₁, Meets reenter k ts s c j s₁ ∧ Breaks reenter j c s₁ e) ∨
    (∃ filename node, e = .invariant (.unexpectedNode filename node)) ∨ e = .stackOverflow

theorem Stops.map {k' : Nat} {s' : Expander} (h : Stops reenter k ts s e)
    (hmeets : ∀ {c j s₁}, Meets reenter k ts s c j s₁ → Meets reenter k' us s' c j s₁) :
    Stops reenter k' us s' e := by
  rcases h with ⟨c, j, s₁, hm, hc⟩ | h
  · exact .inl ⟨c, j, s₁, hmeets hm, hc⟩
  · exact .inr h

end

/-! ## What stays the same on the way -/

/-- Two states of one run, possibly in different frames: they agree in the registry, the label and
the hook. -/
structure Expander.Akin (s s' : Expander) : Prop where
  registry : s'.registry = s.registry
  label : s'.label = s.label
  hook : s'.hook = s.hook

theorem Expander.Akin.trans {s₁ s₂ s₃ : Expander} (h : s₁.Akin s₂) (h' : s₂.Akin s₃) : s₁.Akin s₃ :=
  ⟨h'.registry.trans h.registry, h'.label.trans h.label, h'.hook.trans h.hook⟩

theorem Expander.Later.akin {s s' : Expander} (h : s.Later s') : s.Akin s' :=
  ⟨h.registry, h.label, h.hook⟩

theorem Expander.Akin.filename {s s' : Expander} (h : s.Akin s') : s'.filename = s.filename := by
  rw [Expander.filename, Expander.filename, h.label]

theorem Meets.akin {reenter : Mode → Value → Run Value} (hre : ∀ mode v, (reenter mode v).Steady)
    {k j : Nat} {ts : List Tree} {c : Tree} {s s' : Expander} (h : Meets reenter k ts s c j s') :
    s.Akin s' := by
  induction h with
  | here hop => exact ⟨rfl, rfl, rfl⟩
  | next first _ ih => exact ((steady_scan (steady_expandCall hre _) _).later first).akin.trans ih
  | part hop hfits _ ih => exact ⟨ih.registry, ih.label, ih.hook⟩
  | head hfits _ ih => exact ⟨ih.registry, ih.label, ih.hook⟩
  | operand head hfits _ ih =>
    have hhead := ((steady_during (steady_scan (steady_expandCall hre _) _) _).later head).akin
    exact (Expander.Later.phase _ .scanning).akin.trans
      (hhead.trans ⟨ih.registry, ih.label, ih.hook⟩)
  | again hop hlookup happly hsettle hmode hfits _ ih =>
    have hstep := ((steady_applyClause hre _ _).later happly).trans
      ((steady_settle _ _ _ _).later hsettle)
    exact (Expander.Later.phase _ .matched).akin.trans
      (hstep.akin.trans ⟨ih.registry, ih.label, ih.hook⟩)

/-! ## Entries -/

/-- The scan of a value comes to a macro call: the value is a tree or a nested list, and the items
before are expanded. -/
inductive MeetsIn (reenter : Mode → Value → Run Value) (k : Nat) :
    Value → Expander → Tree → Nat → Expander → Prop
  | tree {t s c j s'} (meets : Meets reenter k [t] s c j s') : MeetsIn reenter k (.tree t) s c j s'
  | item {before v after rs s s₁ c j s'} (hfits : s.budget.covers .items = true)
      (first : (scanValues (expandCall reenter k) before).on (s.spend .items) = (.ok rs, s₁))
      (item : MeetsIn reenter k v s₁ c j s') :
      MeetsIn reenter k (.list (before ++ v :: after)) s c j s'

/-- `Enters room mode v s c j s'`: an entry with the value `v` in the state `s`, whose transformers
have `room` for entries of their own, comes to the macro call `c`. -/
def Enters (room : Nat) (mode : Mode) (v : Value) (s : Expander) (c : Tree) (j : Nat)
    (s' : Expander) : Prop :=
  s.budget.covers .entry = true ∧ ∃ s₁, (prepare v).on (s.spend .entry) = (.ok (), s₁) ∧
    MeetsIn (enter room) s₁.remaining v { s₁ with recursive := mode == .recursive } c j s'

theorem scanValues_of_error {E : Tree → Run Tree} {v : Value} {after : List Value} {e : Error}
    {s₁ s' : Expander} (h : (scanValue E v).on s₁ = (.error e, s')) :
    ∀ {before rs s}, (scanValues E before).on s = (.ok rs, s₁) →
      (scanValues E (before ++ v :: after)).on s = (.error e, s')
  | [], rs, s, first => by
    rw [scanValues] at first
    cases first
    rw [List.nil_append, scanValues, Run.on_bind_of_error h]
  | u :: before, rs, s, first => by
    rw [scanValues] at first
    obtain ⟨r, s₂, hu, first⟩ := Run.on_bind_ok.1 first
    obtain ⟨rs', s₃, hbefore, hpure⟩ := Run.on_bind_ok.1 first
    cases hpure
    rw [List.cons_append, scanValues, Run.on_bind_of_ok hu,
      Run.on_bind_of_error (scanValues_of_error h hbefore)]

theorem MeetsIn.error {reenter : Mode → Value → Run Value} {k j : Nat} {v : Value} {c : Tree}
    {s s₁ : Expander} {e : Error} (h : MeetsIn reenter k v s c j s₁)
    (hc : Breaks reenter j c s₁ e) :
    ∃ s', (scanValue (expandCall reenter k) v).on s = (.error e, s') := by
  induction h with
  | tree meets =>
    obtain ⟨s', h⟩ := meets.error hc
    rw [scanValue, Run.on_bind_of_error (scan_of_error h)]
    exact ⟨s', rfl⟩
  | item hfits first _ ih =>
    obtain ⟨s', h⟩ := ih hc
    obtain ⟨s₂, h⟩ := during_of_error (scanValues_of_error h first) hfits
    rw [scanValue, Run.on_bind_of_error h]
    exact ⟨s₂, rfl⟩

theorem MeetsIn.akin {reenter : Mode → Value → Run Value}
    (hre : ∀ mode v, (reenter mode v).Steady) {k j : Nat} {v : Value} {c : Tree} {s s' : Expander}
    (h : MeetsIn reenter k v s c j s') : s.Akin s' := by
  induction h with
  | tree meets => exact meets.akin hre
  | item hfits first _ ih =>
    have hfirst := ((steady_scanValues (steady_expandCall hre _) _).later first).akin.trans ih
    exact ⟨hfirst.registry, hfirst.label, hfirst.hook⟩

section
variable {room : Nat} {mode : Mode} {v : Value} {s s' : Expander} {e : Error}

theorem Enters.akin {c : Tree} {j : Nat} {s₁ : Expander} (h : Enters room mode v s c j s₁) :
    s.Akin s₁ := by
  obtain ⟨-, s₀, hprepare, hmeets⟩ := h
  have hscan := hmeets.akin (steady_enter room)
  have hready := (steady_prepare v).later hprepare
  exact Expander.Akin.trans ⟨hready.registry, hready.label, hready.hook⟩
    ⟨hscan.registry, hscan.label, hscan.hook⟩

/-- An entry fails as the macro call does that it comes to. -/
theorem Enters.error {c : Tree} {j : Nat} {s₁ : Expander} (h : Enters room mode v s c j s₁)
    (hc : Breaks (enter room) j c s₁ e) :
    ∃ s', (enter (room + 1) mode v).on s = (.error e, s') := by
  obtain ⟨hfits, s₀, hprepare, hmeets⟩ := h
  obtain ⟨s₂, hscan⟩ := hmeets.error hc
  obtain ⟨s₃, h⟩ := withMode_of_error hscan
  rw [enter]
  refine during_of_error (Eq.trans ?_ h) hfits
  rw [Run.on_bind_of_ok hprepare, Run.on_bind_of_ok (Run.on_get s₀)]

end

end HygienicMacros
