import HygienicMacros.Expander.Context
import HygienicMacros.Proofs.Adequacy

/-! # The allocation of tags

Tags are handed out one after the other, and numbers that are in use elsewhere are skipped. However
the two are mixed, a tag is larger than all that came before it (`TagSupply.allocates_after`).

A supply knows only the last number. A counter that is read and moved on its own has two numbers,
the last one and the next one, and a skip has to move both: `TagCounter` is such a counter, and
`TagCounter.InStep` says that its numbers fit together and to those of a supply. One step keeps
this (`TagCounter.InStep.step`), so it holds after every sequence of steps, and the counter hands
out the tags of the supply.
-/

namespace HygienicMacros

/-! ## Supplies -/

namespace TagSupply

/-- The supply after some steps. -/
def after (s : TagSupply) (steps : List TagStep) : TagSupply := steps.foldl step s

/-- The tags that are handed out in some steps. -/
def issued (s : TagSupply) : List TagStep → List Tag
  | [] => []
  | .fresh :: rest => s.fresh.1 :: s.fresh.2.issued rest
  | .skip n :: rest => (s.skipPast n).issued rest

theorem skipPast_of_le_last {n : Int} {s : TagSupply} (h : n ≤ s.last) : s.skipPast n = s :=
  if_neg (Int.not_lt.2 h)

/-- The step lemma: the last number never falls. -/
theorem last_le_step (s : TagSupply) (x : TagStep) : s.last ≤ (s.step x).last := by
  cases x with
  | fresh => exact Nat.le_succ s.last
  | skip n => exact s.last_le_skipPast n

/-- The run lemma: what was handed out or skipped is not above the last number. -/
theorem le_last_after (steps : List TagStep) (s : TagSupply) :
    s.last ≤ (s.after steps).last ∧
      (∀ tag ∈ s.issued steps, tag.number ≤ (s.after steps).last) ∧
      ∀ n : Int, .skip n ∈ steps → n ≤ (s.after steps).last := by
  induction steps generalizing s with
  | nil => exact ⟨Nat.le_refl _, List.forall_mem_nil _, fun n hn => by cases hn⟩
  | cons x rest ih =>
    obtain ⟨hlast, hissued, hskipped⟩ := ih (s.step x)
    have hle : s.last ≤ ((s.step x).after rest).last := Nat.le_trans (s.last_le_step x) hlast
    cases x with
    | fresh =>
      refine ⟨hle, fun tag htag => ?_, fun n hn => ?_⟩
      · rcases List.mem_cons.1 htag with rfl | htag
        · exact hlast
        · exact hissued tag htag
      · rcases List.mem_cons.1 hn with hn | hn
        · cases hn
        · exact hskipped n hn
    | skip m =>
      refine ⟨hle, hissued, fun n hn => ?_⟩
      rcases List.mem_cons.1 hn with hn | hn
      · cases hn
        have hskip := last_skipPast m s
        have hle : ((s.skipPast m).last : Int) ≤ ((s.skipPast m).after rest).last :=
          Int.ofNat_le.2 hlast
        show m ≤ ((s.skipPast m).after rest).last
        omega
      · exact hskipped n hn

/-- The trace ends with the last number. -/
theorem getLastD_trace (steps : List TagStep) (s : TagSupply) :
    (s.trace steps).getLastD s.last = (s.after steps).last := by
  induction steps generalizing s with
  | nil => rfl
  | cons x rest ih =>
    rw [trace, List.getLastD_cons]
    exact ih (s.step x)

end TagSupply

/-! ## Counters -/

/-- A counter with its two numbers apart: the next one to hand out, and the last one used. -/
structure TagCounter where
  next : Int
  last : Int
  deriving DecidableEq, Repr

namespace TagCounter

/-- No number used yet. -/
def start : TagCounter := ⟨1, 0⟩

/-- Hands out the next number. -/
def fresh (c : TagCounter) : Int × TagCounter := (c.next, ⟨c.next + 1, c.next⟩)

/-- Goes on behind a number, if it is above the last one. -/
def skipPast (n : Int) (c : TagCounter) : TagCounter := if c.last < n then ⟨n + 1, n⟩ else c

/-- The counter after a step. -/
def step (c : TagCounter) : TagStep → TagCounter
  | .fresh => c.fresh.2
  | .skip n => c.skipPast n

/-- The counter after some steps. -/
def after (c : TagCounter) (steps : List TagStep) : TagCounter := steps.foldl step c

/-- The numbers that are handed out in some steps. -/
def issued (c : TagCounter) : List TagStep → List Int
  | [] => []
  | .fresh :: rest => c.fresh.1 :: c.fresh.2.issued rest
  | .skip n :: rest => (c.skipPast n).issued rest

/-- The counter counts on from the last number of the supply. -/
structure InStep (c : TagCounter) (s : TagSupply) : Prop where
  last : c.last = s.last
  next : c.next = c.last + 1

variable {c : TagCounter} {s : TagSupply}

theorem InStep.fresh_eq (h : c.InStep s) : c.fresh.1 = s.fresh.1.number := by
  show c.next = ((s.last + 1 : Nat) : Int)
  rw [h.next, h.last]
  rfl

/-- The step lemma: the numbers stay in step, also where a skip changes nothing. -/
theorem InStep.step (h : c.InStep s) (x : TagStep) : (c.step x).InStep (s.step x) := by
  cases x with
  | fresh => exact ⟨h.fresh_eq, rfl⟩
  | skip n =>
    have hlast := h.last
    show (c.skipPast n).InStep (s.skipPast n)
    unfold skipPast TagSupply.skipPast
    split
    · have hn : 0 ≤ n := by omega
      rw [if_pos (by omega)]
      exact ⟨(Int.toNat_of_nonneg hn).symm, rfl⟩
    · rw [if_neg (by omega)]
      exact h

/-- The run lemma: counter and supply hand out the same numbers. -/
theorem InStep.run (steps : List TagStep) {c : TagCounter} {s : TagSupply} (h : c.InStep s) :
    (c.after steps).InStep (s.after steps) ∧
      c.issued steps = (s.issued steps).map fun tag => (tag.number : Int) := by
  induction steps generalizing c s with
  | nil => exact ⟨h, rfl⟩
  | cons x rest ih =>
    obtain ⟨hafter, hissued⟩ := ih (h.step x)
    refine ⟨hafter, ?_⟩
    cases x with
    | fresh =>
      show c.fresh.1 :: (c.step .fresh).issued rest = _
      rw [hissued, h.fresh_eq]
      rfl
    | skip n => exact hissued

end TagCounter

/-! ## The laws of allocation -/

/-- The laws of a supply `s` after `steps`: the tag that it hands out next is positive, larger than
all that were handed out and all that were skipped, and one more than the last number, which it
then is itself; a skip up to the last number changes nothing. -/
structure TagSupply.Allocates (steps : List TagStep) (s : TagSupply) : Prop where
  positive : 0 < s.fresh.1.number
  issued : ∀ tag ∈ start.issued steps, tag.number < s.fresh.1.number
  skipped : ∀ n : Int, .skip n ∈ steps → n < s.fresh.1.number
  next : s.fresh.1.number = s.last + 1
  last : s.fresh.2.last = s.fresh.1.number
  idle : ∀ n : Int, n ≤ s.last → s.skipPast n = s

/-- **Every tag is larger than all before it**, in whatever order tags are handed out and numbers
are skipped, and a counter with two numbers never falls out of step. -/
theorem TagSupply.allocates_after (steps : List TagStep) :
    Allocates steps (start.after steps) ∧
      (start.trace steps).getLastD 0 = (start.after steps).last ∧
      (TagCounter.start.after steps).InStep (start.after steps) ∧
      TagCounter.start.issued steps = (start.issued steps).map fun tag => (tag.number : Int) := by
  obtain ⟨-, hissued, hskipped⟩ := le_last_after steps start
  have hstart : TagCounter.start.InStep start := ⟨rfl, rfl⟩
  refine ⟨?_, getLastD_trace steps start, hstart.run steps⟩
  constructor
  case positive => exact Nat.succ_pos _
  case issued => exact fun tag htag => Nat.lt_succ_of_le (hissued tag htag)
  case skipped => exact fun n hn => Int.lt_of_le_of_lt (hskipped n hn) (Int.lt_succ _)
  case next => rfl
  case last => rfl
  case idle => exact fun n hn => skipPast_of_le_last hn

/-- A skip to a number below zero, to the last number and past it, between tags. -/
example :
    let steps : List TagStep := [.skip (-4), .fresh, .skip 1, .fresh, .skip 7, .skip 3, .fresh]
    (TagSupply.start.issued steps).map (·.number) = [1, 2, 8] ∧
      TagSupply.start.trace steps = [0, 1, 1, 2, 7, 7, 8] := by
  decide

end HygienicMacros
