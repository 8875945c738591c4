import HygienicMacros.Macro.Shelf

/-! # What registration does to a registry

A registration either succeeds, and then one clause is added at the end of one macro and nothing
else has changed, or it fails and nothing has changed at all (`Registry.register_ok`,
`Registry.register_error`). From this follow the laws that hold of a registry and its snapshots
after any requests (`Shelf.orderly_after`):

* `Registry.WellFormed`: terminals are not macros, macros are what has clauses, and every clause
  knows its macro and its place.
* `Shelf.Sound`: no two registries refer to one table, and a registry with two numbers is frozen.
  This is what the copy of the table in a snapshot is for: without it, a registration would be seen
  through the snapshot.
* `Shelf.Step.sound`, `Shelf.Step.wellFormed`: one step keeps both, and so do all of them
  (`Shelf.kept_after`).
* `Shelf.Step.at?_of_frozen`, `Shelf.at?_after_of_frozen`: one step, and so any number of them,
  leaves a frozen registry as it is.
-/

namespace HygienicMacros

namespace Registry

/-! ## One registration -/

/-- The registration of a clause in a registry is in order: the name can be one of a macro and is
not terminal, the transformer and the pattern are what they have to be, and the registry is open. -/
structure Admits (r : Registry) (name : Value) (pattern : PatternForm) (candidate : Candidate)
    (c : Clause) : Prop where
  name : macroName name = .ok c.name
  transformer : candidate.transformer = .ok c.transformer
  pattern : pattern.resolve = .ok c.pattern
  terminal : r.isTerminal c.name = false
  unfrozen : r.frozen = false
  index : c.index = (r.clauses c.name).length

/-- How a registry with one more clause is related to the one before. -/
structure Gains (r r' : Registry) (c : Clause) : Prop where
  last : r'.clauses c.name = r.clauses c.name ++ [c]
  others : ∀ n, n ≠ c.name → r'.clauses n = r.clauses n
  isMacro : ∀ n, r'.isMacro n = (r.isMacro n || c.name == n)
  terminals : r'.terminals = r.terminals
  frozen : r'.frozen = r.frozen

theorem lookup_append (c : Clause) (n : String) : ∀ macros : ClauseTable,
    (append c macros).lookup n =
      if n = c.name then some ((macros.lookup n).getD [] ++ [c]) else macros.lookup n
  | [] => by
    by_cases h : n = c.name
    · simp [append, h]
    · simp [append, List.lookup_cons, h, beq_false_of_ne h]
  | (k, clauses) :: rest => by
    rw [append]
    by_cases hk : k = c.name
    · rw [if_pos hk, List.lookup_cons, List.lookup_cons]
      by_cases h : n = c.name
      · simp [h, hk]
      · have hkn : (n == k) = false := beq_false_of_ne fun heq => h (heq.trans hk)
        simp [h, hkn]
    · rw [if_neg hk, List.lookup_cons, List.lookup_cons, lookup_append c n rest]
      by_cases h : n = c.name
      · have hkn : (n == k) = false := beq_false_of_ne fun heq => hk (heq.symm.trans h)
        simp [h, h ▸ hkn]
      · rw [if_neg h, if_neg h]

/-- What has clauses is a macro. -/
theorem isMacro_of_clauses {r : Registry} {n : String} (h : r.clauses n ≠ []) :
    r.isMacro n = true := by
  rw [isMacro]
  rw [clauses] at h
  rcases hn : r.macros.lookup n with _ | clauses
  · rw [hn] at h
    exact absurd rfl h
  · rfl

theorem gains_add (r : Registry) (name : String) (pattern : Pattern) (transformer : Transformer) :
    r.Gains (r.add name pattern transformer)
      ⟨name, pattern, transformer, (r.clauses name).length⟩ where
  last := by simp [clauses, add, lookup_append]
  others n hn := by simp [clauses, add, lookup_append, hn]
  isMacro n := by
    by_cases hn : n = name
    · simp [isMacro, add, lookup_append, hn]
    · simp [isMacro, add, lookup_append, hn, Ne.symm hn]
  terminals := rfl
  frozen := rfl

/-- A registration that succeeds was in order, and has added its clause. -/
theorem register_ok {r r' : Registry} {name : Value} {pattern : PatternForm}
    {candidate : Candidate} {c : Clause} (h : r.register name pattern candidate = .ok (r', c)) :
    r.Admits name pattern candidate c ∧ r.Gains r' c := by
  unfold register at h
  rcases hname : macroName name with e | s <;> rw [hname] at h
  · cases h
  rcases hcandidate : candidate.transformer with e | f <;> rw [hcandidate] at h
  · cases h
  rcases hpattern : pattern.resolve with e | p <;> rw [hpattern] at h
  · cases h
  change (if r.isTerminal s = true then _ else if r.frozen = true then _ else _) = _ at h
  split at h
  · cases h
  split at h
  · cases h
  · rename_i hterminal hfrozen
    cases h
    exact ⟨⟨hname, hcandidate, hpattern, Bool.not_eq_true _ ▸ hterminal,
      Bool.not_eq_true _ ▸ hfrozen, rfl⟩, gains_add r s p f⟩

/-- A registration that fails was not in order. -/
theorem register_error {r : Registry} {name : Value} {pattern : PatternForm}
    {candidate : Candidate} {e : Error} (h : r.register name pattern candidate = .error e)
    (c : Clause) : ¬ r.Admits name pattern candidate c := by
  intro hadmits
  unfold register at h
  rw [hadmits.name, hadmits.transformer, hadmits.pattern] at h
  change (if r.isTerminal c.name = true then _ else if r.frozen = true then _ else _) = _ at h
  rw [hadmits.terminal, hadmits.unfrozen] at h
  cases h

/-! ## Well-formed registries -/

/-- Terminals are not macros, macros are what has clauses, and every clause knows its macro and its
place among the clauses of that macro. -/
structure WellFormed (r : Registry) : Prop where
  terminal : ∀ n, r.isTerminal n = true → r.isMacro n = false
  named : ∀ n, r.isMacro n = true ↔ r.clauses n ≠ []
  filed : ∀ {n : String} {i : Nat} {c : Clause}, (r.clauses n)[i]? = some c →
    c.name = n ∧ c.index = i

theorem wellFormed_empty (terminals : List String) : (empty terminals).WellFormed where
  terminal _ _ := rfl
  named n := by simp [isMacro, clauses, empty]
  filed h := by simp [clauses, empty] at h

theorem WellFormed.freeze {r : Registry} (h : r.WellFormed) : r.freeze.WellFormed :=
  ⟨h.terminal, h.named, h.filed⟩

theorem WellFormed.register {r r' : Registry} (h : r.WellFormed) {name : Value}
    {pattern : PatternForm} {candidate : Candidate} {c : Clause}
    (hr : r.register name pattern candidate = .ok (r', c)) : r'.WellFormed := by
  obtain ⟨hadmits, hgains⟩ := register_ok hr
  refine ⟨fun n hn => ?_, fun n => ?_, fun {n i d} hd => ?_⟩
  · have hn' : r.isTerminal n = true := by
      rw [isTerminal, hgains.terminals] at hn
      exact hn
    -- the new macro is not terminal, or it would have been refused
    have hne : c.name ≠ n := by
      rintro rfl
      rw [hadmits.terminal] at hn'
      cases hn'
    rw [hgains.isMacro, h.terminal n hn', beq_false_of_ne hne, Bool.or_self]
  · by_cases hn : n = c.name
    · subst hn
      simp [hgains.isMacro, hgains.last]
    · rw [hgains.isMacro, hgains.others n hn, beq_false_of_ne (Ne.symm hn), Bool.or_false]
      exact h.named n
  · by_cases hn : n = c.name
    · subst hn
      rw [hgains.last] at hd
      by_cases hi : i < (r.clauses c.name).length
      · rw [List.getElem?_append_left hi] at hd
        exact h.filed hd
      · -- past the old clauses there is only the new one
        rw [List.getElem?_append_right (Nat.le_of_not_lt hi), List.getElem?_singleton] at hd
        split at hd
        · cases hd
          exact ⟨rfl, by rw [hadmits.index]; omega⟩
        · cases hd
    · rw [hgains.others n hn] at hd
      exact h.filed hd

end Registry

/-! ## A registry and its snapshots -/

namespace Shelf

/-- What can be asked of a registry. -/
inductive Request where
  /-- Register a clause. -/
  | register (name : Value) (pattern : PatternForm) (candidate : Candidate)
  /-- Apply the decorator for a name and a pattern to a function, which registers it. -/
  | decorate (name : Value) (pattern : PatternForm) (candidate : Candidate)
  | freeze
  | snapshot

/-- A request, made of the registry with a number. -/
def Request.command (n : Nat) : Request → Command
  | .register name pattern candidate => .register n name pattern candidate
  | .decorate name pattern candidate => .register n name pattern candidate
  | .freeze => .freeze n
  | .snapshot => .snapshot n

/-- The shelf after requests, each made of the registry with a number. -/
def after (shelf : Shelf) : List (Nat × Request) → Shelf
  | [] => shelf
  | (n, request) :: rest => after (shelf.perform (request.command n)).2 rest

/-- The shelf with one registry, which has no macros yet. -/
def single (terminals : List String) : Shelf := empty.place (Registry.empty terminals)

variable {shelf shelf' : Shelf} {n m k : Nat} {h : Holding} {r : Registry}

/-! ### What a number stands for -/

theorem holding?_eq_some : shelf.holding? n = some (k, h) ↔
    shelf.numbers[n]? = some k ∧ shelf.holdings[k]? = some h := by
  rw [holding?]
  rcases shelf.numbers[n]? with _ | i
  · simp
  · rcases hi : shelf.holdings[i]? with _ | h'
    · simp only [Option.bind_eq_bind, Option.bind_some, hi, Option.bind_none, reduceCtorEq,
        Option.some.injEq, false_iff, not_and]
      rintro rfl
      simp [hi]
    · simp only [Option.bind_eq_bind, Option.bind_some, hi, Option.pure_def, Option.some.injEq,
        Prod.mk.injEq]
      constructor
      · rintro ⟨rfl, rfl⟩
        exact ⟨rfl, hi⟩
      · rintro ⟨rfl, hh⟩
        exact ⟨rfl, Option.some.inj (hi.symm.trans hh)⟩

theorem at?_eq_some : shelf.at? n = some r ↔
    ∃ k h, shelf.holding? n = some (k, h) ∧ shelf.read h = r := by
  simp [at?]

theorem at?_of_holding? (hn : shelf.holding? n = some (k, h)) :
    shelf.at? n = some (shelf.read h) := at?_eq_some.2 ⟨k, h, hn, rfl⟩

/-- Nothing is shared that can change: every registry has a table of its own, and a registry with
two numbers is frozen. -/
structure Sound (shelf : Shelf) : Prop where
  numbered : ∀ {n k : Nat}, shelf.numbers[n]? = some k → k < shelf.holdings.length
  tabled : ∀ {k : Nat} {h : Holding}, shelf.holdings[k]? = some h → h.table < shelf.tables.length
  apart : ∀ {k k' : Nat} {h h' : Holding}, shelf.holdings[k]? = some h →
    shelf.holdings[k']? = some h' → h.table = h'.table → k = k'
  alone : ∀ {n n' k : Nat} {h : Holding}, shelf.numbers[n]? = some k → shelf.numbers[n']? = some k →
    shelf.holdings[k]? = some h → h.frozen = false → n = n'

theorem sound_empty : empty.Sound where
  numbered hn := by cases hn
  tabled hk := by cases hk
  apart hk := by cases hk
  alone hn := by cases hn

/-! ### What each change does -/

/-- The registry `r` is now read at the number `k`, and at all other numbers what was read
before. -/
def Puts (shelf : Shelf) (k : Nat) (r : Registry) (shelf' : Shelf) : Prop :=
  ∀ m, shelf'.at? m = if m = k then some r else shelf.at? m

/-- An element of a list with one more at the end. -/
theorem getElem?_concat {α : Type} (l : List α) (a : α) (i : Nat) :
    (l ++ [a])[i]? = if i = l.length then some a else l[i]? := by
  grind

theorem puts_place (hs : shelf.Sound) (r : Registry) :
    shelf.Puts shelf.numbers.length r (shelf.place r) := by
  intro m
  rw [at?, at?, holding?, holding?]
  simp only [place, getElem?_concat]
  split
  · simp [read, table]
  · rcases hm : shelf.numbers[m]? with _ | k
    · rfl
    · have hk := hs.numbered hm
      simp only [Option.bind_eq_bind, Option.bind_some, if_neg (Nat.ne_of_lt hk)]
      rcases hh : shelf.holdings[k]? with _ | h
      · rfl
      · have ht := hs.tabled hh
        simp [read, table, getElem?_concat, Nat.ne_of_lt ht]

/-- The new registry refers to a new table and has a new number, so nothing is shared with it. -/
theorem Sound.place (hs : shelf.Sound) (r : Registry) : (shelf.place r).Sound := by
  constructor <;>
    simp only [Shelf.place, getElem?_concat, List.length_append, List.length_singleton]
  case numbered =>
    intro n k hn
    split at hn
    · cases hn
      exact Nat.lt_succ_self _
    · exact Nat.lt_succ_of_lt (hs.numbered hn)
  case tabled =>
    intro k h hk
    split at hk
    · cases hk
      exact Nat.lt_succ_self _
    · exact Nat.lt_succ_of_lt (hs.tabled hk)
  case apart =>
    intro k k' h h' hk hk' heq
    split at hk <;> split at hk'
    · omega
    · cases hk
      exact absurd heq.symm (Nat.ne_of_lt (hs.tabled hk'))
    · cases hk'
      exact absurd heq (Nat.ne_of_lt (hs.tabled hk))
    · exact hs.apart hk hk' heq
  case alone =>
    intro n n' k h hn hn' hk hopen
    split at hn <;> split at hn'
    · omega
    · cases hn
      exact absurd rfl (Nat.ne_of_lt (hs.numbered hn'))
    · cases hn'
      exact absurd rfl (Nat.ne_of_lt (hs.numbered hn))
    · rw [if_neg (Nat.ne_of_lt (hs.numbered hn))] at hk
      exact hs.alone hn hn' hk hopen

/-- Only one number reads the table of a registry that is not frozen. -/
theorem puts_rewrite (hs : shelf.Sound) (hn : shelf.holding? n = some (k, h))
    (hopen : h.frozen = false) (macros : ClauseTable) :
    shelf.Puts n { shelf.read h with macros := macros } (shelf.rewrite h macros) := by
  obtain ⟨hk, hh⟩ := holding?_eq_some.1 hn
  intro m
  change ((shelf.holding? m).map fun p => (shelf.rewrite h macros).read p.2) = _
  split
  · rename_i hm
    rw [hm, hn]
    simp [read, table, rewrite, hs.tabled hh]
  · rename_i hm
    rw [at?]
    rcases hm' : shelf.holding? m with _ | ⟨k', h'⟩
    · rfl
    · obtain ⟨hk', hh'⟩ := holding?_eq_some.1 hm'
      -- a registry with the same table would be this one, under another number
      have hne : h.table ≠ h'.table := by
        intro heq
        cases hs.apart hh hh' heq
        exact hm (hs.alone hk' hk hh hopen)
      simp [read, table, rewrite, List.getElem?_set_ne hne]

theorem Sound.rewrite (hs : shelf.Sound) (h : Holding) (macros : ClauseTable) :
    (shelf.rewrite h macros).Sound :=
  ⟨hs.numbered, fun hk => by rw [Shelf.rewrite, List.length_set]; exact hs.tabled hk, hs.apart,
    hs.alone⟩

/-- Freezing is seen at one number: a registry that has another one is frozen already. -/
theorem puts_close (hs : shelf.Sound) (hn : shelf.holding? n = some (k, h)) :
    shelf.Puts n (shelf.read h).freeze (shelf.close k h) := by
  obtain ⟨hk, hh⟩ := holding?_eq_some.1 hn
  intro m
  rw [at?, at?, holding?, holding?]
  simp only [close]
  rcases hm : shelf.numbers[m]? with _ | k'
  · have hne : m ≠ n := by
      rintro rfl
      rw [hk] at hm
      cases hm
    rw [if_neg hne]
    rfl
  · simp only [Option.bind_eq_bind, Option.bind_some]
    by_cases heq : k = k'
    · subst heq
      rw [List.getElem?_set_self (hs.numbered hk), hh]
      split
      · rfl
      · rename_i hne
        have hfrozen : h.frozen = true := by
          cases hf : h.frozen with
          | true => rfl
          | false => exact absurd (hs.alone hm hk hh hf) hne
        simp [read, table, ← hfrozen]
    · have hne : m ≠ n := by
        rintro rfl
        exact heq (Option.some.inj (hk.symm.trans hm))
      rw [List.getElem?_set_ne heq, if_neg hne]
      rfl

theorem Sound.close (hs : shelf.Sound) (hh : shelf.holdings[k]? = some h) :
    (shelf.close k h).Sound := by
  -- a registry of the new shelf was there before, with its table, and frozen only if it is now
  have before : ∀ {i : Nat} {h' : Holding}, (shelf.close k h).holdings[i]? = some h' →
      ∃ h₀, shelf.holdings[i]? = some h₀ ∧ h₀.table = h'.table ∧
        (h'.frozen = false → h₀.frozen = false) := by
    intro i h' hi
    by_cases hik : k = i
    · subst hik
      rw [Shelf.close, List.getElem?_set_self (List.getElem?_eq_some_iff.1 hh).1] at hi
      cases hi
      exact ⟨h, hh, rfl, fun hf => by cases hf⟩
    · rw [Shelf.close, List.getElem?_set_ne hik] at hi
      exact ⟨h', hi, rfl, fun hf => hf⟩
  constructor
  case numbered =>
    intro n i hi
    rw [Shelf.close, List.length_set]
    exact hs.numbered hi
  case tabled =>
    intro i h' hi
    obtain ⟨h₀, h0, htable, -⟩ := before hi
    exact htable ▸ hs.tabled h0
  case apart =>
    intro i j h₁ h₂ hi hj heq
    obtain ⟨h₁', h1, htable1, -⟩ := before hi
    obtain ⟨h₂', h2, htable2, -⟩ := before hj
    exact hs.apart h1 h2 (htable1.trans (heq.trans htable2.symm))
  case alone =>
    intro n n' i h' hn hn' hi hopen
    obtain ⟨h₀, h0, -, hfrozen⟩ := before hi
    exact hs.alone hn hn' h0 (hfrozen hopen)

/-- One more number for a registry reads the same. -/
theorem puts_share (hn : shelf.holding? n = some (k, h)) :
    shelf.Puts shelf.numbers.length (shelf.read h) (shelf.share k) := by
  obtain ⟨-, hh⟩ := holding?_eq_some.1 hn
  intro m
  rw [at?, at?, holding?, holding?]
  simp only [share, getElem?_concat]
  split
  · simp [hh, read, table]
  · rfl

theorem Sound.share (hs : shelf.Sound) (hh : shelf.holdings[k]? = some h)
    (hfrozen : h.frozen = true) : (shelf.share k).Sound := by
  refine ⟨fun {n i} hn => ?_, hs.tabled, hs.apart, fun {n n' i h'} hn hn' hi hopen => ?_⟩
  · simp only [Shelf.share, getElem?_concat] at hn
    split at hn
    · cases hn
      exact (List.getElem?_eq_some_iff.1 hh).1
    · exact hs.numbered hn
  · -- the numbers of a registry that is not frozen are the old ones
    have hne : i ≠ k := by
      rintro rfl
      cases hh.symm.trans hi
      rw [hfrozen] at hopen
      cases hopen
    have old : ∀ {m : Nat}, (shelf.share k).numbers[m]? = some i → shelf.numbers[m]? = some i := by
      intro m hm
      simp only [Shelf.share, getElem?_concat] at hm
      split at hm
      · exact absurd (Option.some.inj hm).symm hne
      · exact hm
    exact hs.alone (old hn) (old hn') hi hopen

/-! ### One request -/

theorem perform_missing (hn : shelf.holding? n = none) (request : Request) :
    shelf.perform (request.command n) = (.error missing, shelf) := by
  cases request <;> simp only [Request.command, perform, withHolding, hn]

theorem perform_freeze (hn : shelf.holding? n = some (k, h)) :
    shelf.perform (.freeze n) = (.ok .closed, shelf.close k h) := by
  simp only [perform, withHolding, hn]

theorem perform_snapshot (hn : shelf.holding? n = some (k, h)) :
    shelf.perform (.snapshot n) = (.ok (.copied shelf.numbers.length h.frozen),
      if h.frozen then shelf.share k else shelf.place (shelf.read h).freeze) := by
  simp only [perform, withHolding, hn]

theorem perform_register (hn : shelf.holding? n = some (k, h)) (name : Value)
    (pattern : PatternForm) (candidate : Candidate) :
    shelf.perform (.register n name pattern candidate) =
      match (shelf.read h).register name pattern candidate with
      | .ok (r', c) => (.ok (.registered c), shelf.rewrite h r'.macros)
      | .error e => (.error e, shelf) := by
  simp only [perform, withHolding, hn]
  rcases (shelf.read h).register name pattern candidate with e | ⟨r', c⟩
  · rfl
  · rfl

/-- A registration that succeeds is seen at one number. -/
theorem puts_register (hs : shelf.Sound) (hn : shelf.holding? n = some (k, h)) {name : Value}
    {pattern : PatternForm} {candidate : Candidate} {r' : Registry} {c : Clause}
    (hr : (shelf.read h).register name pattern candidate = .ok (r', c)) :
    shelf.Puts n r' (shelf.rewrite h r'.macros) := by
  obtain ⟨hadmits, hgains⟩ := Registry.register_ok hr
  have hr' : { shelf.read h with macros := r'.macros } = r' := by
    dsimp only
    rw [← hgains.terminals, ← hgains.frozen]
  have hputs := puts_rewrite hs hn hadmits.unfrozen r'.macros
  rwa [hr'] at hputs

/-- A snapshot is seen at the next number, and nowhere else. -/
theorem puts_snapshot (hs : shelf.Sound) (hn : shelf.holding? n = some (k, h)) :
    shelf.Puts shelf.numbers.length (shelf.read h).freeze
      (if h.frozen then shelf.share k else shelf.place (shelf.read h).freeze) := by
  split
  · rename_i hfrozen
    have hself : (shelf.read h).freeze = shelf.read h := by
      simp [Registry.freeze, read, hfrozen]
    rw [hself]
    exact puts_share hn
  · exact puts_place hs _

/-- What becomes of the registries in one step: at one number another registry is read, which came
from one that was read before. -/
inductive Step (shelf shelf' : Shelf) : Prop
  | same (h : shelf' = shelf)
  | registered {n : Nat} {r r' : Registry} {name : Value} {pattern : PatternForm}
      {candidate : Candidate} {c : Clause} (found : shelf.at? n = some r)
      (register : r.register name pattern candidate = .ok (r', c)) (puts : shelf.Puts n r' shelf')
  | frozen {n : Nat} {r : Registry} (found : shelf.at? n = some r)
      (puts : shelf.Puts n r.freeze shelf')
  | copied {n k : Nat} {r : Registry} (found : shelf.at? n = some r) (new : shelf.at? k = none)
      (puts : shelf.Puts k r.freeze shelf')

theorem at?_length : shelf.at? shelf.numbers.length = none := by
  rw [at?, holding?, List.getElem?_eq_none (Nat.le_refl _)]
  rfl

theorem step_perform (hs : shelf.Sound) (n : Nat) (request : Request) :
    shelf.Step (shelf.perform (request.command n)).2 := by
  rcases hn : shelf.holding? n with _ | ⟨k, h⟩
  · rw [perform_missing hn]
    exact .same rfl
  have hregister : ∀ name pattern candidate,
      shelf.Step (shelf.perform (.register n name pattern candidate)).2 := by
    intro name pattern candidate
    rw [perform_register hn]
    rcases hr : (shelf.read h).register name pattern candidate with e | ⟨r', c⟩
    · exact .same rfl
    · exact .registered (at?_of_holding? hn) hr (puts_register hs hn hr)
  cases request with
  | register name pattern candidate => exact hregister name pattern candidate
  | decorate name pattern candidate => exact hregister name pattern candidate
  | freeze =>
    rw [Request.command, perform_freeze hn]
    exact .frozen (at?_of_holding? hn) (puts_close hs hn)
  | snapshot =>
    rw [Request.command, perform_snapshot hn]
    exact .copied (at?_of_holding? hn) at?_length (puts_snapshot hs hn)

/-- A request keeps apart what can change. -/
theorem Sound.perform (hs : shelf.Sound) (n : Nat) (request : Request) :
    (shelf.perform (request.command n)).2.Sound := by
  rcases hn : shelf.holding? n with _ | ⟨k, h⟩
  · rw [perform_missing hn]
    exact hs
  obtain ⟨-, hh⟩ := holding?_eq_some.1 hn
  have hregister : ∀ name pattern candidate,
      (shelf.perform (.register n name pattern candidate)).2.Sound := by
    intro name pattern candidate
    rw [perform_register hn]
    rcases (shelf.read h).register name pattern candidate with e | ⟨r', c⟩
    · exact hs
    · exact hs.rewrite h r'.macros
  cases request with
  | register name pattern candidate => exact hregister name pattern candidate
  | decorate name pattern candidate => exact hregister name pattern candidate
  | freeze =>
    rw [Request.command, perform_freeze hn]
    exact hs.close hh
  | snapshot =>
    rw [Request.command, perform_snapshot hn]
    dsimp only
    split
    · rename_i hfrozen
      exact hs.share hh hfrozen
    · exact hs.place _

/-! ### All requests -/

/-- Every registry on the shelf is well formed. -/
def WellFormed (shelf : Shelf) : Prop := ∀ n r, shelf.at? n = some r → r.WellFormed

theorem Puts.wellFormed (hputs : shelf.Puts k r shelf') (h : shelf.WellFormed)
    (hr : r.WellFormed) : shelf'.WellFormed := by
  intro m r' hm
  rw [hputs m] at hm
  split at hm
  · cases hm
    exact hr
  · exact h m r' hm

theorem Step.wellFormed (hstep : shelf.Step shelf') (h : shelf.WellFormed) : shelf'.WellFormed := by
  cases hstep with
  | same heq => exact heq ▸ h
  | registered found register puts => exact puts.wellFormed h ((h _ _ found).register register)
  | frozen found puts => exact puts.wellFormed h (h _ _ found).freeze
  | copied found _ puts => exact puts.wellFormed h (h _ _ found).freeze

/-- A frozen registry is not changed by a step. -/
theorem Step.at?_of_frozen (hstep : shelf.Step shelf') (h : shelf.at? m = some r)
    (hr : r.frozen = true) : shelf'.at? m = some r := by
  cases hstep with
  | same heq => exact heq ▸ h
  | @registered n q q' name pattern candidate c found register puts =>
    rw [puts m]
    split
    · -- it would have been refused, as the registry is frozen
      rename_i hm
      subst hm
      have hopen := (Registry.register_ok register).1.unfrozen
      rw [Option.some.inj (found.symm.trans h), hr] at hopen
      cases hopen
    · exact h
  | @frozen n q found puts =>
    rw [puts m]
    split
    · rename_i hm
      subst hm
      rw [Option.some.inj (found.symm.trans h), Registry.freeze, ← hr]
    · exact h
  | @copied n k q found new puts =>
    rw [puts m]
    split
    · rename_i hm
      subst hm
      rw [new] at h
      cases h
    · exact h

theorem kept_after {requests : List (Nat × Request)} : ∀ {shelf : Shelf}, shelf.Sound →
    shelf.WellFormed → (shelf.after requests).Sound ∧ (shelf.after requests).WellFormed := by
  induction requests with
  | nil => exact fun hs h => ⟨hs, h⟩
  | cons first rest ih =>
    exact fun hs h => ih (hs.perform _ _) ((step_perform hs _ _).wellFormed h)

theorem at?_after_of_frozen {requests : List (Nat × Request)} (hr : r.frozen = true) :
    ∀ {shelf : Shelf}, shelf.Sound → shelf.at? n = some r →
      (shelf.after requests).at? n = some r := by
  induction requests with
  | nil => exact fun _ h => h
  | cons first rest ih =>
    exact fun hs h => ih (hs.perform _ _) ((step_perform hs _ _).at?_of_frozen h hr)

/-- The ends of a registration in the registry `r` with the number `n`: if it is in order, its
clause is added and nothing else changes; if not, nothing changes. -/
inductive Registers (shelf : Shelf) (n : Nat) (r : Registry) (name : Value)
    (pattern : PatternForm) (candidate : Candidate) : Except Error Receipt × Shelf → Prop
  | filed {c r' shelf'} (admits : r.Admits name pattern candidate c) (gains : r.Gains r' c)
      (read : shelf'.at? n = some r') (others : ∀ m, m ≠ n → shelf'.at? m = shelf.at? m) :
      Registers shelf n r name pattern candidate (.ok (.registered c), shelf')
  | refused {e} (refused : ∀ c, ¬ r.Admits name pattern candidate c) :
      Registers shelf n r name pattern candidate (.error e, shelf)

/-- The laws of a registry and its snapshots. -/
structure Orderly (shelf : Shelf) : Prop where
  /-- No terminal name is a macro. -/
  terminal : ∀ k r, shelf.at? k = some r → ∀ n, r.isTerminal n = true → r.isMacro n = false
  /-- A macro is what has clauses. -/
  named : ∀ k r, shelf.at? k = some r → ∀ n, r.isMacro n = true ↔ r.clauses n ≠ []
  /-- A clause knows its macro and its place. -/
  filed : ∀ k r, shelf.at? k = some r → ∀ (n : String) (i : Nat) (c : Clause),
    (r.clauses n)[i]? = some c → c.name = n ∧ c.index = i
  /-- A registration adds one clause, or fails and changes nothing. -/
  registers : ∀ n r, shelf.at? n = some r → ∀ name pattern candidate,
    shelf.Registers n r name pattern candidate
      (shelf.perform (.register n name pattern candidate))
  /-- A frozen registry never changes, whatever is asked of any registry. -/
  frozen : ∀ n r, shelf.at? n = some r → r.frozen = true →
    ∀ requests, (shelf.after requests).at? n = some r
  /-- A snapshot gets the next number and changes nothing else. It has what its source had when it
  was taken, and never changes, whatever is then asked of any registry. -/
  copied : ∀ n r, shelf.at? n = some r → ∃ copy shelf',
    shelf.perform (.snapshot n) = (.ok (.copied shelf.numbers.length r.frozen), shelf') ∧
      (∀ m, m ≠ shelf.numbers.length → shelf'.at? m = shelf.at? m) ∧
      copy.terminals = r.terminals ∧ (∀ name, copy.clauses name = r.clauses name) ∧
      copy.frozen = true ∧
      ∀ requests, (shelf'.after requests).at? shelf.numbers.length = some copy

/-- **The laws of registries hold after any requests**, made of a registry and of the snapshots of
it in any order, those that fail included. -/
theorem orderly_after (terminals : List String) (requests : List (Nat × Request)) :
    ((single terminals).after requests).Orderly := by
  have hfirst : (single terminals).WellFormed :=
    (puts_place sound_empty _).wellFormed (fun n r hn => by cases hn)
      (Registry.wellFormed_empty terminals)
  have hsound : (single terminals).Sound := sound_empty.place _
  obtain ⟨hs, hwf⟩ : ((single terminals).after requests).Sound ∧
      ((single terminals).after requests).WellFormed := kept_after hsound hfirst
  generalize (single terminals).after requests = shelf at hs hwf
  constructor
  case terminal => exact fun k r hr => (hwf k r hr).terminal
  case named => exact fun k r hr => (hwf k r hr).named
  case filed => exact fun k r hr n i c => (hwf k r hr).filed
  case registers =>
    intro n r hr name pattern candidate
    obtain ⟨k, h, hn, rfl⟩ := at?_eq_some.1 hr
    rw [perform_register hn]
    rcases hreg : (shelf.read h).register name pattern candidate with e | ⟨r', c⟩
    · exact .refused (Registry.register_error hreg)
    · obtain ⟨hadmits, hgains⟩ := Registry.register_ok hreg
      have hputs := puts_register hs hn hreg
      exact .filed hadmits hgains ((hputs n).trans (if_pos rfl))
        fun m hm => (hputs m).trans (if_neg hm)
  case frozen => exact fun n r hr hfrozen requests => at?_after_of_frozen hfrozen hs hr
  case copied =>
    intro n r hr
    obtain ⟨k, h, hn, rfl⟩ := at?_eq_some.1 hr
    have hputs := puts_snapshot hs hn
    have hsound := hs.perform n .snapshot
    rw [Request.command, perform_snapshot hn] at hsound
    exact ⟨(shelf.read h).freeze, _, perform_snapshot hn,
      fun m hm => (hputs m).trans (if_neg hm), rfl, fun _ => rfl, rfl,
      fun requests => at?_after_of_frozen rfl hsound ((hputs _).trans (if_pos rfl))⟩

/-- A snapshot keeps its one clause while its source gets a second one; a clause for the snapshot
and one for a terminal are refused. The snapshot of the snapshot is the same registry. -/
example :
    let clause (name : String) : Request :=
      .register (.text name) (.value .nothing) (.value (.variety .node))
    let shelf := (single ["case"]).after [(0, clause "m"), (0, .snapshot), (0, clause "m"),
      (1, clause "m"), (0, clause "case"), (1, .snapshot)]
    [0, 1, 2].map (fun n => (shelf.at? n).map fun r => (r.clauses "m").map (·.index)) =
        [some [0, 1], some [0], some [0]] ∧
      shelf.numbers = [0, 1, 1] ∧ shelf.tables.length = 2 := by
  decide

end Shelf

end HygienicMacros
