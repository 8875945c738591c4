import Mathlib.Data.List.Forall2
import HygienicMacros.Macro.Registry
import HygienicMacros.Proofs.Marks

/-! # Alike trees

Two runs of the expander can be compared step by step although they differ in something that it
does not look at. A `Likeness` says what may differ: which literals, which notes of a call and which
errors count as the same. It never touches the scope that is noted for a call, which the expander
does look at.

* `Tree.Alike`, `Value.Alike`: trees of the same form whose literals and notes are alike. They have
  the same skeleton and the same tags, and stay alike when their open scopes are resolved.
* `Course.Alike`: transformers that make alike requests as long as they get alike answers.
* `Course.Passes`: a transformer that ends with the error it was handed.
-/

namespace HygienicMacros

variable {α β γ κ : Type}

/-- What related items have in common, related lists have in common. -/
theorem map_eq_of_forall₂ {R : α → β → Prop} {f : α → γ} {g : β → γ} {as : List α} {bs : List β}
    (h : List.Forall₂ R as bs) (hfg : ∀ {a b}, R a b → f a = g b) : as.map f = bs.map g := by
  have hmapped : List.Forall₂ Eq (as.map f) (bs.map g) := List.rel_map (@hfg) h
  rwa [List.forall₂_eq_eq_eq] at hmapped

/-- What counts as the same in two runs: which literals, notes and errors. After an error of the
first run that is waived, the second run may do anything. -/
structure Likeness where
  datum : Datum → Datum → Prop
  notes : Notes → Notes → Prop
  error : Error → Error → Prop
  waived : Error → Prop
  datum_refl : ∀ d, datum d d
  notes_refl : ∀ n, notes n n
  error_refl : ∀ e, error e e
  scope : ∀ {m n}, notes m n → Notes.scope? m = Notes.scope? n
  resolve : ∀ {m n} (tag : Tag), notes m n → notes (Notes.resolve tag m) (Notes.resolve tag n)

/-! ## Trees -/

/-- Trees of the same form, whose literals and notes are alike. -/
inductive Tree.Alike (L : Likeness) : Tree → Tree → Prop
  | literal {a b} (datum : L.datum a b) : Alike L (.literal a) (.literal b)
  | call {op as bs m n} (args : List.Forall₂ (Alike L) as bs) (notes : L.notes m n) :
      Alike L (.call (.symbol op) as m) (.call (.symbol op) bs n)
  | apply {f g as bs m n} (head : Alike L f g) (args : List.Forall₂ (Alike L) as bs)
      (notes : L.notes m n) : Alike L (.call (.tree f) as m) (.call (.tree g) bs n)
  | placeholder (target : String) : Alike L (.placeholder target) (.placeholder target)
  | name (ident : String) (scope : Scope) : Alike L (.name ident scope) (.name ident scope)
  | bare (kind : MarkerKind) : Alike L (.marker kind none) (.marker kind none)
  | marker {kind a b} (body : Alike L a b) : Alike L (.marker kind (some a)) (.marker kind (some b))
  | unhygienic (ident : String) : Alike L (.unhygienic ident) (.unhygienic ident)

namespace Tree

variable {L : Likeness}

theorem Alike.refl (t : Tree) : t.Alike L t := by
  induction t using Tree.induct with
  | literal d => exact .literal (L.datum_refl d)
  | call op args notes ih => exact .call (List.forall₂_same.2 ih) (L.notes_refl notes)
  | apply f args notes ihf ih => exact .apply ihf (List.forall₂_same.2 ih) (L.notes_refl notes)
  | placeholder target => exact .placeholder target
  | name ident scope => exact .name ident scope
  | bare kind => exact .bare kind
  | marker kind body ih => exact .marker ih
  | unhygienic ident => exact .unhygienic ident

/-- Another relation between the items of two lists, where the first item is known to be in its
list. -/
theorem forall₂_mono {P Q : Tree → Tree → Prop} {as bs : List Tree} (h : List.Forall₂ P as bs)
    (hPQ : ∀ a ∈ as, ∀ b, P a b → Q a b) : List.Forall₂ Q as bs :=
  ((List.forall₂_and_left as bs).2 ⟨hPQ, h⟩).imp fun _ _ hab => hab.1 _ hab.2

theorem skeletons_eq {as bs : List Tree}
    (h : List.Forall₂ (fun a b => skeleton a = skeleton b) as bs) :
    skeletons as = skeletons bs := by
  induction h with
  | nil => rfl
  | cons hab _ ih => rw [skeletons, skeletons, hab, ih]

theorem Alike.skeleton {a : Tree} : ∀ {b}, a.Alike L b → a.skeleton = b.skeleton := by
  induction a using Tree.induct with
  | call op args notes ih =>
    rintro _ (_ | ⟨hargs, -⟩)
    rw [Tree.skeleton, Tree.skeleton,
      skeletons_eq (forall₂_mono hargs fun a ha _ h => ih a ha h)]
  | apply f args notes ihf ih =>
    rintro _ (_ | _ | ⟨hf, hargs, -⟩)
    rw [Tree.skeleton, Tree.skeleton, ihf hf,
      skeletons_eq (forall₂_mono hargs fun a ha _ h => ih a ha h)]
  | marker kind body ih =>
    intro b h
    cases h with
    | marker hbody => rw [Tree.skeleton, Tree.skeleton, ih hbody]
  | _ => intro b h; cases h; rfl

/-- The nodes of alike trees are alike, in scan order. -/
theorem Alike.nodes {a : Tree} : ∀ {b}, a.Alike L b → List.Forall₂ (Alike L) a.nodes b.nodes := by
  induction a using Tree.induct with
  | call op args notes ih =>
    rintro _ (_ | ⟨hargs, hnotes⟩)
    have hnodes := forall₂_mono hargs fun a ha _ h => ih a ha h
    rw [Tree.nodes, Tree.nodes, nodesList_eq, nodesList_eq]
    exact .cons (.call hargs hnotes) (List.rel_flatMap hnodes fun _ _ h => h)
  | apply f args notes ihf ih =>
    rintro _ (_ | _ | ⟨hf, hargs, hnotes⟩)
    have hnodes := forall₂_mono hargs fun a ha _ h => ih a ha h
    rw [Tree.nodes, Tree.nodes, nodesList_eq, nodesList_eq]
    exact .cons (.apply hf hargs hnotes)
      (List.rel_append (ihf hf) (List.rel_flatMap hnodes fun _ _ h => h))
  | marker kind body ih =>
    intro b h
    cases h with
    | marker hbody => exact .cons (.marker hbody) (ih hbody)
  | unhygienic ident =>
    intro b h
    cases h
    exact .cons (.unhygienic ident) (.cons (.name ident .source) .nil)
  | _ => intro b h; cases h; exact .cons (by constructor <;> assumption) .nil

theorem Alike.isOpen {a b : Tree} (h : a.Alike L b) : a.isOpen = b.isOpen := by
  cases h with
  | call _ hnotes => simp only [Tree.isOpen, L.scope hnotes]
  | apply _ _ hnotes => simp only [Tree.isOpen, L.scope hnotes]
  | _ => rfl

theorem Alike.ownTag? {a b : Tree} (h : a.Alike L b) : a.ownTag? = b.ownTag? := by
  cases h with
  | call _ hnotes => simp only [Tree.ownTag?, L.scope hnotes]
  | apply _ _ hnotes => simp only [Tree.ownTag?, L.scope hnotes]
  | _ => rfl

theorem Alike.variety {a b : Tree} (h : a.Alike L b) : a.variety = b.variety := by
  cases h <;> rfl

theorem Alike.tags {a b : Tree} (h : a.Alike L b) : a.tags = b.tags := by
  have hown : ∀ {c d : Tree}, c.Alike L d → Option.Rel Eq c.ownTag? d.ownTag? := by
    intro c d hcd
    rw [hcd.ownTag?]
    cases d.ownTag? with
    | none => exact .none
    | some n => exact .some rfl
  have htags : List.Forall₂ Eq a.tags b.tags := List.rel_filterMap (@hown) h.nodes
  rwa [List.forall₂_eq_eq_eq] at htags

theorem Alike.openNodes {a b : Tree} (h : a.Alike L b) :
    List.Forall₂ (Alike L) a.openNodes b.openNodes :=
  List.rel_filter (fun _ _ hab => by simp only [hab.isOpen]) h.nodes

theorem forall₂_resolveList {tag : Tag} {caller : Option Tag} {as bs : List Tree}
    (h : List.Forall₂ (fun a b => (a.resolve tag caller).Alike L (b.resolve tag caller)) as bs) :
    List.Forall₂ (Alike L) (resolveList tag caller as) (resolveList tag caller bs) := by
  induction h with
  | nil => exact .nil
  | cons hab _ ih => exact .cons hab ih

/-- Alike trees stay alike when their open scopes are resolved. -/
theorem Alike.resolve {a : Tree} (tag : Tag) (caller : Option Tag) :
    ∀ {b}, a.Alike L b → (a.resolve tag caller).Alike L (b.resolve tag caller) := by
  induction a using Tree.induct with
  | call op args notes ih =>
    rintro _ (_ | ⟨hargs, hnotes⟩)
    exact .call (forall₂_resolveList (forall₂_mono hargs fun a ha _ h => ih a ha h))
      (L.resolve tag hnotes)
  | apply f args notes ihf ih =>
    rintro _ (_ | _ | ⟨hf, hargs, hnotes⟩)
    exact .apply (ihf hf) (forall₂_resolveList (forall₂_mono hargs fun a ha _ h => ih a ha h))
      (L.resolve tag hnotes)
  | marker kind body ih =>
    intro b h
    cases h with
    | marker hbody => exact .marker (ih hbody)
  | _ => intro b h; cases h; first | exact .refl _ | exact .literal ‹_›

end Tree

/-! ## Values -/

/-- A value that holds no trees to be walked. -/
def Value.IsLeaf : Value → Prop
  | .tree _ | .list _ | .tuple _ => False
  | _ => True

/-- Values that are the same but for the trees in nested lists and tuples, which are alike. -/
inductive Value.Alike (L : Likeness) : Value → Value → Prop
  | tree {a b} (tree : a.Alike L b) : Alike L (.tree a) (.tree b)
  | list {vs ws} (items : List.Forall₂ (Alike L) vs ws) : Alike L (.list vs) (.list ws)
  | tuple {vs ws} (items : List.Forall₂ (Alike L) vs ws) : Alike L (.tuple vs) (.tuple ws)
  | leaf {v} (leaf : v.IsLeaf) : Alike L v v

namespace Value

variable {L : Likeness}

mutual

theorem Alike.refl : ∀ v : Value, v.Alike L v
  | .tree t => .tree (.refl t)
  | .list vs => .list (alike_refl_list vs)
  | .tuple vs => .tuple (alike_refl_list vs)
  | .nothing | .bool _ | .int _ | .float _ | .text _ | .atom _ | .pending _ | .record _
  | .variety _ => .leaf trivial

theorem alike_refl_list : ∀ vs : List Value, List.Forall₂ (Alike L) vs vs
  | [] => .nil
  | v :: vs => .cons (.refl v) (alike_refl_list vs)

end

theorem forest_of_isLeaf {v : Value} (h : v.IsLeaf) : v.forest = ([], v.misfit?) := by
  cases v <;> first | rfl | cases h

mutual

/-- The trees in alike values are alike, and the misfit is the same. -/
theorem Alike.forest : ∀ {v w : Value}, v.Alike L w →
    List.Forall₂ (Tree.Alike L) v.forest.1 w.forest.1 ∧ v.forest.2 = w.forest.2
  | .tree a, _, h => by
    cases h with
    | tree h => exact ⟨.cons h .nil, rfl⟩
    | leaf h => cases h
  | .list vs, _, h => by
    cases h with
    | list h => rw [Value.forest, Value.forest]; exact forestList_alike h
    | leaf h => cases h
  | .tuple vs, _, h => by
    cases h with
    | tuple h => rw [Value.forest, Value.forest]; exact forestList_alike h
    | leaf h => cases h
  | .nothing, _, .leaf h | .bool _, _, .leaf h | .int _, _, .leaf h | .float _, _, .leaf h
  | .text _, _, .leaf h | .atom _, _, .leaf h | .pending _, _, .leaf h | .record _, _, .leaf h
  | .variety _, _, .leaf h => by
    rw [forest_of_isLeaf h]
    exact ⟨.nil, rfl⟩

theorem forestList_alike : ∀ {vs ws : List Value}, List.Forall₂ (Alike L) vs ws →
    List.Forall₂ (Tree.Alike L) (forestList vs).1 (forestList ws).1 ∧
      (forestList vs).2 = (forestList ws).2
  | [], _, .nil => ⟨.nil, rfl⟩
  | v :: vs, w :: ws, .cons h hs => by
    obtain ⟨htrees, hmisfit⟩ := Alike.forest h
    obtain ⟨hrest, hlast⟩ := forestList_alike hs
    rw [forestList, forestList]
    rcases hv : v.forest with ⟨ts, _ | e⟩ <;> rcases hw : w.forest with ⟨us, _ | e'⟩ <;>
      rw [hv, hw] at htrees hmisfit <;> cases hmisfit
    · exact ⟨List.rel_append htrees hrest, hlast⟩
    · exact ⟨htrees, rfl⟩

end

end Value

/-! ## Transformers -/

namespace Course

/-- The course ends with this error, without another expansion. -/
def Passes (e : Error) : Course κ α → Prop
  | .answer _ => False
  | .fail e' => e' = e
  | .expand _ _ _ => False
  | .freshTag next => ∀ tag, (next tag).Passes e
  | .observe next => ∀ o, (next o).Passes e
  | .register _ _ _ _ next => ∀ r, (next r).Passes e

end Course

/-- Outcomes that are both values, in a relation, or both errors, and alike. -/
inductive Likeness.Outcomes (L : Likeness) (Q : α → β → Prop) :
    Except Error α → Except Error β → Prop
  | ok {a b} (value : Q a b) : Outcomes L Q (.ok a) (.ok b)
  | error {e e'} (error : L.error e e') : Outcomes L Q (.error e) (.error e')

/-- Registrations with the same success in every two registries with the same terminals of which
both are frozen or none. -/
def Likeness.Registrations (L : Likeness) (name name' : Value) (pattern pattern' : PatternForm)
    (candidate candidate' : Candidate) : Prop :=
  ∀ r r' : Registry, r'.terminals = r.terminals → r'.frozen = r.frozen →
    L.Outcomes (fun _ _ => True) (r.register name pattern candidate)
      (r'.register name' pattern' candidate')

/-- The same registration succeeds in both, or fails in both with the same error. -/
theorem Likeness.registrations_refl (L : Likeness) (name : Value) (pattern : PatternForm)
    (candidate : Candidate) : L.Registrations name name pattern pattern candidate candidate := by
  intro r r' hterminals hfrozen
  unfold Registry.register
  rcases Registry.macroName name with e | s
  · exact .error (L.error_refl e)
  rcases candidate.transformer with e | f
  · exact .error (L.error_refl e)
  rcases pattern.resolve with e | p
  · exact .error (L.error_refl e)
  have hterminal : r'.isTerminal s = r.isTerminal s := by
    rw [Registry.isTerminal, Registry.isTerminal, hterminals]
  change L.Outcomes _ (if r.isTerminal s = true then _ else if r.frozen = true then _ else _)
    (if r'.isTerminal s = true then _ else if r'.frozen = true then _ else _)
  rw [hterminal, hfrozen]
  split
  · exact .error (L.error_refl _)
  split
  · exact .error (L.error_refl _)
  · exact .ok trivial

/-- Courses that make alike requests as long as they get alike answers. A waived error that the
first one is handed is passed on. -/
inductive Course.Alike (L : Likeness) : Action Value → Action Value → Prop
  | answer {v w} (answer : v.Alike L w) : Alike L (.answer v) (.answer w)
  | fail {e e'} (error : L.error e e') : Alike L (.fail e) (.fail e')
  | expand {mode v w next next'} (input : v.Alike L w)
      (returned : ∀ {a b}, a.Alike L b → Alike L (next (.ok a)) (next' (.ok b)))
      (failed : ∀ {e e'}, L.error e e' → Alike L (next (.error e)) (next' (.error e')))
      (waived : ∀ {e}, L.waived e → (next (.error e)).Passes e) :
      Alike L (.expand mode v next) (.expand mode w next')
  | freshTag {next next'} (told : ∀ tag, Alike L (next tag) (next' tag)) :
      Alike L (.freshTag next) (.freshTag next')
  | observe {next next'} (told : ∀ o, Alike L (next o) (next' o)) :
      Alike L (.observe next) (.observe next')
  | register {site name name' pattern pattern' candidate candidate' next next'}
      (registrations : L.Registrations name name' pattern pattern' candidate candidate')
      (returned : Alike L (next (.ok ())) (next' (.ok ())))
      (failed : ∀ {e e'}, L.error e e' → Alike L (next (.error e)) (next' (.error e'))) :
      Alike L (.register site name pattern candidate next)
        (.register site name' pattern' candidate' next')

end HygienicMacros
