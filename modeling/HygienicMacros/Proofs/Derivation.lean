import Mathlib.Data.Set.Basic
import HygienicMacros.Expander.Check
import HygienicMacros.Expander.State
import HygienicMacros.Proofs.Marks

/-! # Derivations

What a successful expansion does, without the expander: which macro calls it found, what they were
replaced by, and what came out. `Scans R Call ts as rs` follows the scan of the trees `ts`, where
`Call` says what becomes of a macro call; `Rewrites R Step mode k` is what becomes of it when `k`
more expansions may be nested, one application `Step` at a time. Both list the applications in
the order in which they are made.

* `Scans.traced`: every mark of a result, and of a macro call found on the way, is a mark of the
  input or of the outcome of an earlier application.
* `Rewrites.finished`: in recursive mode, what comes out has nothing left to expand.
-/

namespace HygienicMacros

/-! ## The two relations -/

/-- The trees `ts` become `rs` in a scan whose macro calls become what `Call` says. -/
inductive Scans (R : Registry) (Call : Tree → List Transition → Tree → Prop) :
    List Tree → List Transition → List Tree → Prop
  | nil : Scans R Call [] [] []
  | literal {d : Datum} {ts as rs} (rest : Scans R Call ts as rs) :
      Scans R Call (.literal d :: ts) as (.literal d :: rs)
  | name {ident : String} {scope : Scope} {ts as rs} (rest : Scans R Call ts as rs) :
      Scans R Call (.name ident scope :: ts) as (.name ident scope :: rs)
  | call {op : String} {args args' : List Tree} {notes : Notes} {ts as bs rs}
      (hop : R.isMacro op = false) (parts : Scans R Call args as args')
      (rest : Scans R Call ts bs rs) :
      Scans R Call (.call (.symbol op) args notes :: ts) (as ++ bs)
        (.call (.symbol op) args' notes :: rs)
  | apply {f f' : Tree} {args args' : List Tree} {notes : Notes} {ts as bs cs rs}
      (head : Scans R Call [f] as [f']) (parts : Scans R Call args bs args')
      (rest : Scans R Call ts cs rs) :
      Scans R Call (.call (.tree f) args notes :: ts) (as ++ bs ++ cs)
        (.call (.tree f') args' notes :: rs)
  | expand {op : String} {args : List Tree} {notes : Notes} {r : Tree} {ts as bs rs}
      (hop : R.isMacro op = true) (result : Call (.call (.symbol op) args notes) as r)
      (rest : Scans R Call ts bs rs) :
      Scans R Call (.call (.symbol op) args notes :: ts) (as ++ bs) (r :: rs)

/-- What becomes of a macro call: one application and, in recursive mode, the scan of its outcome
with one nested expansion less. -/
def Rewrites (R : Registry) (Step : Transition → Prop) (mode : Mode) :
    Nat → Tree → List Transition → Tree → Prop
  | 0 => fun _ _ _ => False
  | k + 1 => fun invocation as r => ∃ a bs, as = a :: bs ∧ Step a ∧ a.invocation = invocation ∧
      match mode with
      | .once => bs = [] ∧ r = a.expansion
      | .recursive => Scans R (Rewrites R Step mode k) [a.expansion] bs [r]

namespace Scans

variable {R : Registry} {Call : Tree → List Transition → Tree → Prop}

/-! ## Forests -/

theorem cons {t r : Tree} {ts rs : List Tree} {as bs : List Transition}
    (h : Scans R Call [t] as [r]) (hs : Scans R Call ts bs rs) :
    Scans R Call (t :: ts) (as ++ bs) (r :: rs) := by
  cases h with
  | literal rest => cases rest; exact .literal hs
  | name rest => cases rest; exact .name hs
  | call hop parts rest => cases rest; rw [List.append_nil]; exact .call hop parts hs
  | apply head parts rest => cases rest; rw [List.append_nil]; exact .apply head parts hs
  | expand hop result rest => cases rest; rw [List.append_nil]; exact .expand hop result hs

theorem of_cons {t : Tree} {ts rs : List Tree} {as : List Transition}
    (h : Scans R Call (t :: ts) as rs) :
    ∃ bs cs r rs', as = bs ++ cs ∧ rs = r :: rs' ∧ Scans R Call [t] bs [r] ∧
      Scans R Call ts cs rs' := by
  cases h with
  | literal rest => exact ⟨[], _, _, _, rfl, rfl, .literal .nil, rest⟩
  | name rest => exact ⟨[], _, _, _, rfl, rfl, .name .nil, rest⟩
  | call hop parts rest =>
    exact ⟨_, _, _, _, rfl, rfl, by simpa using Scans.call hop parts .nil, rest⟩
  | apply head parts rest =>
    exact ⟨_, _, _, _, rfl, rfl, by simpa using Scans.apply head parts .nil, rest⟩
  | expand hop result rest =>
    exact ⟨_, _, _, _, rfl, rfl, by simpa using Scans.expand hop result .nil, rest⟩

theorem of_mem {t : Tree} : ∀ {ts rs : List Tree} {as : List Transition}, Scans R Call ts as rs →
    t ∈ ts → ∃ bs r, Scans R Call [t] bs [r]
  | _ :: _, _, _, h, .head _ =>
    have ⟨bs, _, r, _, _, _, ht, _⟩ := h.of_cons
    ⟨bs, r, ht⟩
  | _ :: _, _, _, h, .tail _ ht =>
    have ⟨_, _, _, _, _, _, _, hs⟩ := h.of_cons
    hs.of_mem ht

/-- The arguments of an operator are scanned. -/
theorem of_call {op : String} {args : List Tree} {notes : Notes} {r : Tree}
    {as : List Transition} (hop : R.isMacro op = false)
    (h : Scans R Call [.call (.symbol op) args notes] as [r]) {a : Tree} (ha : a ∈ args) :
    ∃ bs r, Scans R Call [a] bs [r] := by
  cases h with
  | call _ parts _ => exact parts.of_mem ha
  | expand hop' _ _ => rw [hop] at hop'; cases hop'

end Scans

/-! ## Applications -/

theorem Scans.steps {R : Registry} {Call : Tree → List Transition → Tree → Prop}
    {Step : Transition → Prop} (hcall : ∀ t as r, Call t as r → ∀ a ∈ as, Step a)
    {ts rs : List Tree} {as : List Transition} (h : Scans R Call ts as rs) : ∀ a ∈ as, Step a := by
  induction h with
  | nil => simp
  | literal _ ih => exact ih
  | name _ ih => exact ih
  | call _ _ _ ihp ih => exact List.forall_mem_append.2 ⟨ihp, ih⟩
  | apply _ _ _ ihh ihp ih =>
    exact List.forall_mem_append.2 ⟨List.forall_mem_append.2 ⟨ihh, ihp⟩, ih⟩
  | expand _ result _ ih => exact List.forall_mem_append.2 ⟨hcall _ _ _ result, ih⟩

theorem Rewrites.steps {R : Registry} {Step : Transition → Prop} {mode : Mode} :
    ∀ k t as r, Rewrites R Step mode k t as r → ∀ a ∈ as, Step a
  | 0, _, _, _, h => h.elim
  | k + 1, _, _, _, h => by
    obtain ⟨a, bs, rfl, ha, -, h⟩ := h
    refine List.forall_mem_cons.2 ⟨ha, ?_⟩
    cases mode with
    | once => rw [h.1]; simp
    | recursive => exact Scans.steps (Rewrites.steps k) h

/-! ## Where marks come from -/

/-- Each application finds its macro call among what is known, and its outcome becomes known. -/
def Traced : Set Mark → List Transition → Prop
  | _, [] => True
  | K, a :: as => (∀ m ∈ a.invocation.marks, m ∈ K) ∧
      Traced (K ∪ { m | m ∈ a.expansion.marks }) as

/-- The marks known after some applications. -/
def Known (K : Set Mark) (as : List Transition) : Set Mark :=
  K ∪ { m | ∃ a ∈ as, m ∈ a.expansion.marks }

theorem known_nil (K : Set Mark) : Known K [] = K := by
  ext m
  simp [Known]

theorem known_cons (K : Set Mark) (a : Transition) (as : List Transition) :
    Known K (a :: as) = Known (K ∪ { m | m ∈ a.expansion.marks }) as := by
  ext m
  simp [Known, or_assoc]

theorem known_append (K : Set Mark) (as bs : List Transition) :
    Known K (as ++ bs) = Known (Known K as) bs := by
  ext m
  simp [Known, or_and_right, exists_or, or_assoc]

theorem subset_known (K : Set Mark) (as : List Transition) : K ⊆ Known K as :=
  Set.subset_union_left

theorem traced_append {K : Set Mark} : ∀ {as bs : List Transition},
    Traced K as → Traced (Known K as) bs → Traced K (as ++ bs)
  | [], bs, _, h => by rwa [known_nil] at h
  | a :: as, bs, h, h' => by
    rw [known_cons] at h'
    exact ⟨h.1, traced_append h.2 h'⟩

/-- What every application hands on from its macro call to its outcome, all known marks have. -/
theorem Traced.invariant {Step : Transition → Prop} {P : Mark → Prop}
    (hstep : ∀ a, Step a → (∀ m ∈ a.invocation.marks, P m) → ∀ m ∈ a.expansion.marks, P m) :
    ∀ {as : List Transition} {K : Set Mark}, Traced K as → (∀ a ∈ as, Step a) → (∀ m ∈ K, P m) →
      ∀ m ∈ Known K as, P m
  | [], K, _, _, hK => by rwa [known_nil]
  | a :: as, K, h, hs, hK => by
    rw [known_cons]
    refine Traced.invariant hstep h.2 (fun b hb => hs b (.tail _ hb)) ?_
    rintro m (hm | hm)
    · exact hK m hm
    · exact hstep a (hs a (.head _)) (fun m hm => hK m (h.1 m hm)) m hm

/-- What a macro call becomes is traced, and made of known marks. -/
def Traceable (Call : Tree → List Transition → Tree → Prop) : Prop :=
  ∀ {t : Tree} {as : List Transition} {r : Tree} {K : Set Mark}, Call t as r →
    (∀ m ∈ t.marks, m ∈ K) → Traced K as ∧ ∀ m ∈ r.marks, m ∈ Known K as

theorem Scans.traced {R : Registry} {Call : Tree → List Transition → Tree → Prop}
    (hcall : Traceable Call) {ts rs : List Tree} {as : List Transition}
    (h : Scans R Call ts as rs) {K : Set Mark} (hK : ∀ m ∈ ts.flatMap Tree.marks, m ∈ K) :
    Traced K as ∧ ∀ m ∈ rs.flatMap Tree.marks, m ∈ Known K as := by
  induction h generalizing K with
  | nil => exact ⟨trivial, by simp⟩
  | literal rest ih => exact ih hK
  | @name ident scope ts as rs rest ih =>
    simp only [List.flatMap_cons, Tree.marks_name, List.singleton_append, List.forall_mem_cons]
      at hK ⊢
    obtain ⟨h1, h2⟩ := ih hK.2
    exact ⟨h1, subset_known K as hK.1, h2⟩
  | @call op args args' notes ts as bs rs hop parts rest ihp ih =>
    simp only [List.flatMap_cons, Tree.marks_call, List.cons_append, List.forall_mem_cons,
      List.forall_mem_append] at hK ⊢
    obtain ⟨p1, p2⟩ := ihp hK.2.1
    obtain ⟨r1, r2⟩ := ih fun m hm => subset_known K as (hK.2.2 m hm)
    rw [known_append]
    refine ⟨traced_append p1 r1, ?_, ?_, r2⟩
    · exact subset_known _ bs (subset_known K as hK.1)
    · exact fun m hm => subset_known _ bs (p2 m hm)
  | @apply f f' args args' notes ts as bs cs rs head parts rest ihh ihp ih =>
    simp only [List.flatMap_cons, Tree.marks_apply, List.cons_append, List.forall_mem_cons,
      List.forall_mem_append] at hK ⊢
    obtain ⟨f1, f2⟩ := ihh (K := K) (by simpa using hK.2.1.1)
    obtain ⟨p1, p2⟩ := ihp fun m hm => subset_known K as (hK.2.1.2 m hm)
    obtain ⟨r1, r2⟩ := ih fun m hm => subset_known _ bs (subset_known K as (hK.2.2 m hm))
    rw [known_append, known_append]
    refine ⟨?_, ?_, ⟨?_, ?_⟩, r2⟩
    · exact traced_append (traced_append f1 p1) (by rwa [known_append])
    · exact subset_known _ cs (subset_known _ bs (subset_known K as hK.1))
    · exact fun m hm => subset_known _ cs (subset_known _ bs (f2 m (by simpa using hm)))
    · exact fun m hm => subset_known _ cs (p2 m hm)
  | @expand op args notes r ts as bs rs hop result rest ih =>
    simp only [List.flatMap_cons, List.forall_mem_append] at hK ⊢
    obtain ⟨c1, c2⟩ := hcall result hK.1
    obtain ⟨r1, r2⟩ := ih fun m hm => subset_known K as (hK.2 m hm)
    rw [known_append]
    exact ⟨traced_append c1 r1, fun m hm => subset_known _ bs (c2 m hm), r2⟩

theorem Rewrites.traceable (R : Registry) (Step : Transition → Prop) (mode : Mode) :
    ∀ k, Traceable (Rewrites R Step mode k)
  | 0, _, _, _, _, h, _ => h.elim
  | k + 1, t, as, r, K, h, hK => by
    obtain ⟨a, bs, rfl, -, rfl, h⟩ := h
    have hbs : Traced (K ∪ { m | m ∈ a.expansion.marks }) bs ∧
        ∀ m ∈ r.marks, m ∈ Known (K ∪ { m | m ∈ a.expansion.marks }) bs := by
      cases mode with
      | once =>
        obtain ⟨rfl, rfl⟩ := h
        exact ⟨trivial, fun m hm => subset_known _ [] (.inr hm)⟩
      | recursive =>
        have := Scans.traced (Rewrites.traceable R Step .recursive k) h
          (K := K ∪ { m | m ∈ a.expansion.marks })
        simp only [List.flatMap_cons, List.flatMap_nil, List.append_nil] at this
        exact this fun m hm => .inr hm
    rw [known_cons]
    exact ⟨⟨hK, hbs.1⟩, hbs.2⟩

/-- If every application whose macro call has no open scopes replaces it by a tree without any,
what has none becomes what has none. -/
theorem Scans.closed {R : Registry} {Step : Transition → Prop} {mode : Mode} {k : Nat} {t r : Tree}
    {as : List Transition} (d : Scans R (Rewrites R Step mode k) [t] as [r])
    (hstep : ∀ a, Step a → a.invocation.openNodes = [] → a.expansion.openNodes = [])
    (ht : t.openNodes = []) : r.openNodes = [] := by
  simp only [Tree.openNodes_eq_nil] at hstep ht ⊢
  obtain ⟨htraced, hmarks⟩ := d.traced (Rewrites.traceable _ _ mode k)
    (K := { m | m ∈ t.marks }) (by simp)
  have hknown := htraced.invariant hstep (d.steps (Rewrites.steps k)) ht
  exact fun m hm => hknown m (hmarks m (by simpa using hm))

/-! ## Finished trees -/

/-- Whether a node may stay in a finished tree: a literal, a name, or a call of no macro. -/
def Registry.keeps (R : Registry) : Tree → Bool
  | .literal _ => true
  | .name _ _ => true
  | .call (.symbol op) _ _ => !R.isMacro op
  | .call (.tree _) _ _ => true
  | _ => false

/-- A tree in which nothing is left to expand and nothing is refused, at any depth. -/
def Tree.Finished (R : Registry) (t : Tree) : Prop := ∀ n ∈ t.nodes, R.keeps n = true

namespace Tree

variable {R : Registry}

theorem finished_literal (d : Datum) : (literal d).Finished R := by
  simp [Finished, nodes, Registry.keeps]

theorem finished_name (ident : String) (scope : Scope) : (name ident scope).Finished R := by
  simp [Finished, nodes, Registry.keeps]

theorem finished_call {op : String} {args : List Tree} {notes : Notes} :
    (call (.symbol op) args notes).Finished R ↔
      R.isMacro op = false ∧ ∀ a ∈ args, a.Finished R := by
  simp only [Finished, nodes, nodesList_eq, List.forall_mem_cons, List.forall_mem_flatMap,
    Registry.keeps, Bool.not_eq_true']

theorem finished_apply {f : Tree} {args : List Tree} {notes : Notes} :
    (call (.tree f) args notes).Finished R ↔ f.Finished R ∧ ∀ a ∈ args, a.Finished R := by
  simp only [Finished, nodes, nodesList_eq, List.forall_mem_cons, List.forall_mem_append,
    List.forall_mem_flatMap, Registry.keeps, true_and]

/-- A finished tree has no macro calls, no placeholders and no markers. -/
theorem finished_iff {t : Tree} :
    t.Finished R ↔ t.macroCalls R = [] ∧ t.placeholders = [] ∧ t.ofVariety .marker = [] := by
  simp only [macroCalls, placeholders, ofVariety, List.filterMap_eq_nil_iff,
    List.filter_eq_nil_iff, ← forall_and]
  refine forall_congr' fun n => forall_congr' fun _ => ?_
  rcases n with _ | ⟨_ | _, _, _⟩ | _ | _ | ⟨_ | _ | _, _⟩ | _ <;>
    simp [Registry.keeps, Registry.macroCall?, target?, variety,
      MarkerKind.variety, Variety.isA]

end Tree

/-- If macro calls become finished trees, a scan does too. -/
theorem Scans.finished {R : Registry} {Call : Tree → List Transition → Tree → Prop}
    (hcall : ∀ t as r, Call t as r → r.Finished R) {ts rs : List Tree} {as : List Transition}
    (h : Scans R Call ts as rs) : ∀ r ∈ rs, r.Finished R := by
  induction h with
  | nil => simp
  | literal _ ih => exact List.forall_mem_cons.2 ⟨Tree.finished_literal _, ih⟩
  | name _ ih => exact List.forall_mem_cons.2 ⟨Tree.finished_name _ _, ih⟩
  | call hop _ _ ihp ih => exact List.forall_mem_cons.2 ⟨Tree.finished_call.2 ⟨hop, ihp⟩, ih⟩
  | apply _ _ _ ihh ihp ih =>
    exact List.forall_mem_cons.2 ⟨Tree.finished_apply.2 ⟨ihh _ (.head _), ihp⟩, ih⟩
  | expand _ result _ ih => exact List.forall_mem_cons.2 ⟨hcall _ _ _ result, ih⟩

theorem Rewrites.finished {R : Registry} {Step : Transition → Prop} :
    ∀ k t as r, Rewrites R Step .recursive k t as r → r.Finished R
  | 0, _, _, _, h => h.elim
  | k + 1, _, _, r, ⟨_, _, _, _, _, h⟩ =>
    Scans.finished (Rewrites.finished k) h r (.head _)

end HygienicMacros
