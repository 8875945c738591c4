import Mathlib.Data.List.Induction
import Mathlib.Data.List.Nodup
import HygienicMacros.Catalogue
import HygienicMacros.Proofs.Filling
import HygienicMacros.Proofs.NormalForm

/-! # What quoting makes of a template

Quoting goes through a template from left to right and keeps the targets it has met. All that the
state does is to refuse a target met before: quoting uses the targets of the template one after the
other and gives its quoted form (`Tree.quoting_eq`), and using targets fails at the first one that
is repeated (`Quoting.run_useAll_of_repeated`).

What stands where in the quoted form is said by position (`Tree.subtree?_quoted`). Quoting does not
go into the body of an injection point nor into a marked name, so the positions are those of
`Tree.templateAt?`.

* `quote_exact`: when a template cannot be quoted, and what its quotation is if it can.
* `quote_idempotent`: a quotation can be quoted again, and stays as it is.
-/

namespace HygienicMacros

/-! ## The nodes of a template -/

namespace Tree

mutual

/-- The targets of the injection points and placeholders of a template, in scan order. The body of
an injection point is not looked at. -/
def unquoteTargets : Tree → List String
  | .call (.symbol _) args _ => unquoteTargetsList args
  | .call (.tree f) args _ => f.unquoteTargets ++ unquoteTargetsList args
  | .placeholder target => [target]
  | .marker (.unquote target) _ => [target]
  | .marker _ (some body) => body.unquoteTargets
  | _ => []

/-- The targets of some templates. -/
def unquoteTargetsList : List Tree → List String
  | [] => []
  | t :: ts => t.unquoteTargets ++ unquoteTargetsList ts

end

theorem unquoteTargetsList_eq (ts : List Tree) :
    unquoteTargetsList ts = ts.flatMap unquoteTargets := by
  induction ts with
  | nil => rfl
  | cons t ts ih => rw [unquoteTargetsList, ih, List.flatMap_cons]

/-- The children of a template without the bodies of injection points and of marked names. -/
def templateChildren : Tree → List Tree
  | .marker (.unquote _) _ => []
  | .unhygienic _ => []
  | t => t.children

/-- The tree at a position of a template, outside the bodies of injection points. -/
def templateAt? (t : Tree) : List Nat → Option Tree
  | [] => some t
  | i :: p => t.templateChildren[i]?.bind fun c => c.templateAt? p

end Tree

/-! ## Targets are used one after the other -/

namespace Quoting

/-- Uses some targets from left to right. -/
def useAll : List String → Quoting Unit
  | [] => pure ()
  | target :: rest => do
    use target
    useAll rest

theorem useAll_append (first second : List String) :
    useAll (first ++ second) = (do useAll first; useAll second) := by
  induction first with
  | nil => simp [useAll]
  | cons target rest ih => simp [useAll, ih]

theorem placeholder_eq (target : String) :
    placeholder target = (do useAll [target]; return .placeholder target) := by
  simp [placeholder, useAll]

theorem run_use (target : String) (seen : List String) : (use target).run seen =
    if target ∈ seen then .error (.duplicateTarget target) else .ok ((), target :: seen) := by
  unfold use
  rw [StateT.run_bind]
  show ((if seen.contains target then _ else _ : Quoting Unit)).run seen = _
  by_cases h : target ∈ seen
  · rw [if_pos (List.contains_iff_mem.2 h), if_pos h]
    rfl
  · rw [if_neg (mt List.contains_iff_mem.1 h), if_neg h]
    rfl

/-- New targets that are different can all be used. -/
theorem run_useAll_of_nodup {targets seen : List String} (h : targets.Nodup)
    (hnew : ∀ target ∈ targets, target ∉ seen) :
    (useAll targets).run seen = .ok ((), targets.reverse ++ seen) := by
  induction targets generalizing seen with
  | nil => rfl
  | cons target rest ih =>
    rw [List.nodup_cons] at h
    rw [List.forall_mem_cons] at hnew
    have hrest : ∀ other ∈ rest, other ∉ target :: seen := by
      intro other hother hmem
      rcases List.mem_cons.1 hmem with rfl | hmem
      · exact h.1 hother
      · exact hnew.2 other hother hmem
    rw [useAll, StateT.run_bind, run_use, if_neg hnew.1]
    show (useAll rest).run (target :: seen) = _
    rw [ih h.2 hrest, List.reverse_cons, List.append_assoc]
    rfl

/-- The first target that was used before is refused. -/
theorem run_useAll_of_repeated {before : List String} {target : String} (h : before.Nodup)
    (hmem : target ∈ before) (after : List String) :
    (useAll (before ++ target :: after)).run [] = .error (.duplicateTarget target) := by
  have hused : target ∈ before.reverse ++ [] := by simpa using hmem
  rw [useAll_append, StateT.run_bind, run_useAll_of_nodup h (by simp)]
  show (useAll (target :: after)).run (before.reverse ++ []) = _
  rw [useAll, StateT.run_bind, run_use, if_pos hused]
  rfl

/-- In a list with a repetition there is a first item that has occurred before. -/
theorem exists_repeated {targets : List String} (h : ¬ targets.Nodup) :
    ∃ before target after, targets = before ++ target :: after ∧ before.Nodup ∧
      target ∈ before := by
  -- from the end, since a repetition in the first targets comes before one with the last
  induction targets using List.reverseRecOn with
  | nil => exact absurd List.nodup_nil h
  | append_singleton init last ih =>
    by_cases hinit : init.Nodup
    · refine ⟨init, last, [], rfl, hinit, ?_⟩
      by_contra hlast
      refine h (List.nodup_append.2 ⟨hinit, List.nodup_singleton _, ?_⟩)
      intro target htarget other hother heq
      rw [List.mem_singleton.1 hother] at heq
      exact hlast (heq ▸ htarget)
    · obtain ⟨before, target, after, rfl, hbefore, hmem⟩ := ih hinit
      exact ⟨before, target, after ++ [last], by simp, hbefore, hmem⟩

end Quoting

/-! ## The quoted form -/

theorem Notes.set_of_absent {key : String} (v : Value) :
    ∀ {notes : Notes}, find? key notes = none → set key v notes = notes ++ [(.text key, v)]
  | [], _ => rfl
  | (k, w) :: rest, h => by
    rw [find?_cons] at h
    split at h
    · cases h
    · rename_i hk
      rw [set, if_neg hk, set_of_absent v h, List.cons_append]

/-- A call without a scope gets one at the end of its notes. -/
theorem Notes.opened_eq (notes : Notes) : opened notes =
    if (scope? notes).isSome then notes else notes ++ [(.text scopeKey, .pending .template)] := by
  rw [opened]
  cases h : scope? notes with
  | some v => rfl
  | none => exact set_of_absent _ h

theorem templateScope_eq {names callerNames : List String}
    (h : ∀ ident, ident ∈ names ↔ ident ∈ callerNames) (ident : String) :
    templateScope names ident =
      .pending (if ident ∈ callerNames then .caller else .template) := by
  simp [templateScope, h]

namespace Tree

variable (names : List String)

theorem quotedList_eq (ts : List Tree) : quotedList names ts = ts.map (quoted names) := by
  induction ts with
  | nil => rfl
  | cons t ts ih => rw [quotedList, ih, List.map_cons]

theorem children_quoted (t : Tree) :
    (t.quoted names).children = t.templateChildren.map (quoted names) := by
  rcases t with _ | ⟨_ | _, _, _⟩ | _ | ⟨_, _ | _ | _⟩ | ⟨_ | _ | _, _ | _⟩ | _ <;>
    simp [quoted, quotedList_eq, children, templateChildren]

/-- What stands at a position of the template stands there quoted. -/
theorem subtree?_quoted (t : Tree) (p : List Nat) :
    (t.quoted names).subtree? p = (t.templateAt? p).map (quoted names) := by
  induction p generalizing t with
  | nil => rfl
  | cons i p ih =>
    simp only [subtree?, templateAt?, children_quoted, List.getElem?_map]
    cases t.templateChildren[i]? with
    | none => rfl
    | some c => exact ih c

theorem mem_nodes_quoted {t u : Tree} :
    u ∈ (t.quoted names).nodes ↔ ∃ p v, t.templateAt? p = some v ∧ v.quoted names = u := by
  simp only [mem_nodes_iff, subtree?_quoted, Option.map_eq_some_iff]

/-- The placeholders of a quoted template are its injection points and placeholders. -/
theorem targets_quoted (t : Tree) : (t.quoted names).targets = t.unquoteTargets := by
  have list : ∀ ts : List Tree, (∀ t ∈ ts, (t.quoted names).targets = t.unquoteTargets) →
      (quotedList names ts).flatMap targets = unquoteTargetsList ts := by
    intro ts h
    rw [quotedList_eq, unquoteTargetsList_eq, List.flatMap_map]
    exact List.flatMap_congr h
  induction t using Tree.induct with
  | literal d => rfl
  | call op args notes ih => rw [quoted, targets_call, list args ih, unquoteTargets]
  | apply f args notes ihf ih =>
    rw [quoted, targets_apply, list args ih, ihf, unquoteTargets]
  | placeholder target => rfl
  | name ident scope => cases scope <;> rfl
  | bare kind => cases kind <;> rfl
  | marker kind body ih =>
    cases kind with
    | unquote target => rfl
    | _ => exact (targets_marker _ _).trans ih
  | unhygienic ident => rfl

/-- Quoting uses the targets of the template from left to right, and gives its quoted form. -/
theorem quoting_eq (t : Tree) :
    t.quoting names = (do Quoting.useAll t.unquoteTargets; return t.quoted names) := by
  -- the targets of the arguments are used in a row, and then the quoted arguments are put together
  have list : ∀ ts : List Tree, (∀ t ∈ ts,
      t.quoting names = (do Quoting.useAll t.unquoteTargets; return t.quoted names)) →
      quotingList names ts =
        (do Quoting.useAll (unquoteTargetsList ts); return quotedList names ts) := by
    intro ts h
    induction ts with
    | nil => rfl
    | cons t ts ih =>
      rw [quotingList, h t (.head _), ih fun u hu => h u (.tail _ hu), unquoteTargetsList,
        Quoting.useAll_append, quotedList]
      simp
  induction t using Tree.induct with
  | literal d => rfl
  | call op args notes ih =>
    rw [quoting, list args ih, quoted, unquoteTargets]
    simp
  | apply f args notes ihf ih =>
    rw [quoting, ihf, list args ih, quoted, unquoteTargets, Quoting.useAll_append]
    simp
  | placeholder target => exact Quoting.placeholder_eq target
  | name ident scope => cases scope <;> rfl
  | bare kind =>
    cases kind with
    | unquote target => exact Quoting.placeholder_eq target
    | _ => rfl
  | marker kind body ih =>
    cases kind with
    | unquote target => exact Quoting.placeholder_eq target
    | _ => simp [quoting, ih, quoted, unquoteTargets]
  | unhygienic ident => rfl

/-- Of the quotation markers only bare ones are left. -/
theorem ofVariety_quoted {t : Tree} : (t.quoted names).ofVariety .quotation = [] ↔
    ∀ p body, t.templateAt? p ≠ some (.marker .quotation body) := by
  have hvariety : ∀ v : Tree, (v.quoted names).variety.isA .quotation = true ↔
      ∃ body, v = .marker .quotation body := by
    intro v
    rcases v with _ | ⟨_ | _, _, _⟩ | _ | ⟨_, _ | _ | _⟩ | ⟨_ | _ | _, _ | _⟩ | _ <;>
      simp [quoted, variety, MarkerKind.variety, Variety.isA]
  rw [ofVariety, List.filter_eq_nil_iff]
  constructor
  · intro h p body hp
    exact h _ ((mem_nodes_quoted names).2 ⟨p, _, hp, rfl⟩) ((hvariety _).2 ⟨body, rfl⟩)
  · intro h u hu hquotation
    obtain ⟨p, v, hp, rfl⟩ := (mem_nodes_quoted names).1 hu
    obtain ⟨body, rfl⟩ := (hvariety v).1 hquotation
    exact h p body hp

end Tree

/-! ## Quotations -/

/-- `q` is the quotation of the template `t`, in which the names listed in `callerNames` belong to
the caller: all that stands in `t` outside the bodies of injection points stands in `q` at the same
position, and nothing else does. -/
structure Quotation (callerNames : List String) (t q : Tree) : Prop where
  targets : q.targets = t.unquoteTargets
  unmarked : q.ofVariety .quotation = []
  positions : ∀ p, (q.subtree? p).isSome = (t.templateAt? p).isSome
  injection : ∀ p target body, t.templateAt? p = some (.marker (.unquote target) body) →
    q.subtree? p = some (.placeholder target)
  placeholder : ∀ p target, t.templateAt? p = some (.placeholder target) →
    q.subtree? p = some (.placeholder target)
  literal : ∀ p d, t.templateAt? p = some (.literal d) → q.subtree? p = some (.literal d)
  unscopedName : ∀ p ident, t.templateAt? p = some (.name ident .source) →
    q.subtree? p =
      some (.name ident (.pending (if ident ∈ callerNames then .caller else .template)))
  unhygienicName : ∀ p ident, t.templateAt? p = some (.unhygienic ident) →
    q.subtree? p = some (.name ident (.pending .caller))
  scopedName : ∀ p ident scope, t.templateAt? p = some (.name ident scope) → scope ≠ .source →
    q.subtree? p = some (.name ident scope)
  call : ∀ p head args notes, t.templateAt? p = some (.call head args notes) →
    ∃ head' args', q.subtree? p = some (.call head' args' (if (Notes.scope? notes).isSome then notes
        else notes ++ [(.text Notes.scopeKey, .pending .template)])) ∧
      (∀ op, head' = .symbol op ↔ head = .symbol op) ∧ args'.length = args.length
  marker : ∀ p body, t.templateAt? p = some (.marker .plain body) →
    ∃ body', q.subtree? p = some (.marker .plain body') ∧ body'.isSome = body.isSome

theorem quotation_quoted {names callerNames : List String}
    (hnames : ∀ ident, ident ∈ names ↔ ident ∈ callerNames) {t : Tree}
    (h : ∀ p body, t.templateAt? p ≠ some (.marker .quotation body)) :
    Quotation callerNames t (t.quoted names) := by
  have hat : ∀ {p u}, t.templateAt? p = some u →
      (t.quoted names).subtree? p = some (u.quoted names) := by
    intro p u hp
    rw [Tree.subtree?_quoted, hp]
    rfl
  constructor
  case targets => exact Tree.targets_quoted names t
  case unmarked => exact (Tree.ofVariety_quoted names).2 h
  case positions =>
    intro p
    rw [Tree.subtree?_quoted, Option.isSome_map]
  case injection =>
    intro p target body hp
    rw [hat hp]
    cases body <;> rfl
  case placeholder =>
    intro p target hp
    rw [hat hp]
    rfl
  case literal =>
    intro p d hp
    rw [hat hp]
    rfl
  case unscopedName =>
    intro p ident hp
    rw [hat hp, ← templateScope_eq hnames]
    rfl
  case unhygienicName =>
    intro p ident hp
    rw [hat hp]
    rfl
  case scopedName =>
    intro p ident scope hp hscope
    rw [hat hp]
    cases scope with
    | source => exact absurd rfl hscope
    | _ => rfl
  case call =>
    intro p head args notes hp
    rw [hat hp, ← Notes.opened_eq]
    cases head with
    | symbol op =>
      refine ⟨_, _, rfl, fun other => Iff.rfl, ?_⟩
      rw [Tree.quotedList_eq, List.length_map]
    | tree f =>
      refine ⟨_, _, rfl, fun other => ⟨nofun, nofun⟩, ?_⟩
      rw [Tree.quotedList_eq, List.length_map]
  case marker =>
    intro p body hp
    rw [hat hp]
    cases body with
    | none => exact ⟨none, rfl, rfl⟩
    | some body => exact ⟨some _, rfl, rfl⟩

/-- The names that a value lists, each once. -/
theorem Value.nameSet_texts {v : Value} {idents : List String} (requirement : Requirement)
    (h : v.iterate = .ok (idents.map .text)) : v.nameSet requirement = .ok idents.eraseDups := by
  have hhashable : unhashableList? (idents.map .text) = none := by
    clear h
    induction idents with
    | nil => rfl
    | cons ident rest ih => exact ih
  simp only [nameSet, h, bind, Except.bind, hhashable]
  simp [List.filterMap_map, List.filter_map, Function.comp_def, pure, Except.pure]

/-- Quoting fails where a target is used again, and then where quotation markers are left. -/
theorem Value.quote_tree {v : Value} {callerNames : List String}
    (h : v.iterate = .ok (callerNames.map .text)) (t : Tree) :
    (tree t).quote v = do
      let _ ← (Quoting.useAll t.unquoteTargets).run []
      (tree (t.quoted callerNames.eraseDups)).checkMarkers (.variety .quotation) quotingContext
      return tree (t.quoted callerNames.eraseDups) := by
  rw [quote, nameSet_texts _ h]
  show (do
    let q ← ((do return tree (← t.quoting callerNames.eraseDups) : Quoting Value)).run' []
    q.checkMarkers (.variety .quotation) quotingContext
    return q) = _
  rw [Tree.quoting_eq]
  simp only [StateT.run'_eq, StateT.run_bind, StateT.run_pure, bind_assoc, map_bind, pure_bind,
    map_pure]

/-- **Quoting meets its specification.** A template cannot be quoted if it has a target twice, and
the error is the target whose second occurrence comes first; else if a bare quotation marker is
left. Every other template has its quotation. -/
theorem quote_exact {names : Value} {callerNames : List String}
    (hnames : names.iterate = .ok (callerNames.map .text)) (t : Tree) :
    ((∃ target, (Value.tree t).quote names = .error (.duplicateTarget target)) ↔
      ¬ t.unquoteTargets.Nodup) ∧
    (∀ target, (Value.tree t).quote names = .error (.duplicateTarget target) →
      ∃ before after, t.unquoteTargets = before ++ target :: after ∧ before.Nodup ∧
        target ∈ before) ∧
    ((∃ violation, (Value.tree t).quote names = .error (.invariant violation)) ↔
      t.unquoteTargets.Nodup ∧ ∃ p body, t.templateAt? p = some (.marker .quotation body)) ∧
    (t.unquoteTargets.Nodup → (∀ p body, t.templateAt? p ≠ some (.marker .quotation body)) →
      ∃ q, (Value.tree t).quote names = .ok (.tree q) ∧ Quotation callerNames t q) := by
  have hquote := Value.quote_tree hnames t
  by_cases hnodup : t.unquoteTargets.Nodup
  · rw [Quoting.run_useAll_of_nodup hnodup (by simp), Value.checkMarkers_variety] at hquote
    by_cases hbare : ∀ p body, t.templateAt? p ≠ some (.marker .quotation body)
    · rw [(Tree.ofVariety_quoted _).2 hbare] at hquote
      change _ = Except.ok _ at hquote
      have hquotation : Quotation callerNames t (t.quoted callerNames.eraseDups) :=
        quotation_quoted (fun ident => List.mem_eraseDups) hbare
      rw [hquote]
      refine ⟨by simp [hnodup], by simp, by simpa using fun _ => hbare, fun _ _ => ?_⟩
      exact ⟨_, rfl, hquotation⟩
    · have hleft := mt (Tree.ofVariety_quoted callerNames.eraseDups).1 hbare
      obtain ⟨first, rest, hmarkers⟩ := List.exists_cons_of_ne_nil hleft
      rw [hmarkers] at hquote
      change _ = Except.error _ at hquote
      rw [hquote]
      refine ⟨by simp [hnodup], by simp, ?_, fun _ h => absurd h hbare⟩
      simpa [hnodup] using hbare
  · obtain ⟨before, target, after, hsplit, hbefore, hmem⟩ := Quoting.exists_repeated hnodup
    have hrun := Quoting.run_useAll_of_repeated hbefore hmem after
    rw [← hsplit] at hrun
    rw [hrun] at hquote
    change _ = Except.error _ at hquote
    rw [hquote]
    refine ⟨by simp [hnodup], ?_, by simp [hnodup], fun h => absurd h hnodup⟩
    intro other hother
    cases hother
    exact ⟨before, after, hsplit, hbefore, hmem⟩

/-- A template with names of all kinds and a quotation marker in the body of its injection point;
one in which `b` is the first target to come again; and one with a quotation marker that is left. -/
theorem quote_exact_mixed :
    (∃ q, (Value.tree (.call (.tree (.name "x" .source)) [.name "y" .source, .unhygienic "x",
        .marker (.unquote "a") (some (.marker .quotation none)), .name "x" (.tag ⟨1, by decide⟩),
        .marker .plain (some (.placeholder "b"))] [(.text "line", .int 7)])).quote
          (.tuple [.text "y"]) = .ok (.tree q) ∧
      q = .call (.tree (.name "x" (.pending .template))) [.name "y" (.pending .caller),
        .name "x" (.pending .caller), .placeholder "a", .name "x" (.tag ⟨1, by decide⟩),
        .marker .plain (some (.placeholder "b"))]
        [(.text "line", .int 7), (.text "scope", .pending .template)] ∧
      q.targets = ["a", "b"]) ∧
    ((Value.tree (Catalogue.op "f" [Catalogue.hole "a", Catalogue.hole "b", .placeholder "b",
        .placeholder "a"])).quote (.tuple [.text "y"]) = .error (.duplicateTarget "b") ∧
      ∃ before after, ["a", "b", "b", "a"] = before ++ "b" :: after ∧ before.Nodup ∧
        "b" ∈ before) ∧
    ∃ violation, (Value.tree (Catalogue.op "f" [.marker .quotation none])).quote
      (.tuple [.text "y"]) = .error (.invariant violation) := by
  have hnames : (Value.tuple [.text "y"]).iterate = .ok (["y"].map .text) := rfl
  refine ⟨?_, ⟨rfl, ?_⟩, ?_⟩
  · obtain ⟨q, hq, hquotation⟩ := (quote_exact hnames (.call (.tree (.name "x" .source))
      [.name "y" .source, .unhygienic "x", .marker (.unquote "a") (some (.marker .quotation none)),
        .name "x" (.tag ⟨1, by decide⟩), .marker .plain (some (.placeholder "b"))]
      [(.text "line", .int 7)])).2.2.2 (by decide) ((Tree.ofVariety_quoted []).1 rfl)
    cases hq
    exact ⟨_, rfl, rfl, hquotation.targets⟩
  · exact (quote_exact hnames (Catalogue.op "f" [Catalogue.hole "a", Catalogue.hole "b",
      .placeholder "b", .placeholder "a"])).2.1 "b" rfl
  · exact (quote_exact hnames (Catalogue.op "f" [.marker .quotation none])).2.2.1.2
      ⟨by decide, [0], none, rfl⟩

/-! ## Quoting again -/

theorem Notes.opened_opened (notes : Notes) : opened (opened notes) = opened notes := by
  have hscope : ∃ v, scope? (opened notes) = some v := by
    rw [opened]
    cases h : scope? notes with
    | some v => exact ⟨v, h⟩
    | none => exact ⟨_, scope?_set _ notes⟩
  obtain ⟨v, hv⟩ := hscope
  rw [opened, hv]

namespace Tree

variable (names names' : List String)

/-- In a quoted template nothing is left to be quoted, whichever names are listed. -/
theorem quoted_quoted (t : Tree) : (t.quoted names).quoted names' = t.quoted names := by
  have list : ∀ ts : List Tree, (∀ t ∈ ts, (t.quoted names).quoted names' = t.quoted names) →
      quotedList names' (quotedList names ts) = quotedList names ts := by
    intro ts h
    rw [quotedList_eq, quotedList_eq, List.map_map]
    exact List.map_congr_left h
  induction t using Tree.induct with
  | literal d => rfl
  | call op args notes ih => rw [quoted, quoted, list args ih, Notes.opened_opened]
  | apply f args notes ihf ih => rw [quoted, quoted, list args ih, ihf, Notes.opened_opened]
  | placeholder target => rfl
  | name ident scope => cases scope <;> rfl
  | bare kind => cases kind <;> rfl
  | marker kind body ih =>
    cases kind with
    | unquote target => rfl
    | _ => exact congrArg (fun body => marker _ (some body)) ih
  | unhygienic ident => rfl

theorem unquoteTargets_quoted (t : Tree) :
    (t.quoted names).unquoteTargets = t.unquoteTargets := by
  rw [← targets_quoted [], quoted_quoted, targets_quoted]

/-- Quoting a quoted template uses the targets of the template, and gives what it is given. -/
theorem quoting_quoted (t : Tree) : (t.quoted names).quoting names' = t.quoting names := by
  rw [quoting_eq, quoting_eq, unquoteTargets_quoted, quoted_quoted]

end Tree

theorem Quoting.run_bind_ok {α β : Type} {x : Quoting α} {f : α → Quoting β} {b : β}
    {seen seen' : List String} (h : (x >>= f).run seen = .ok (b, seen')) :
    ∃ a between, x.run seen = .ok (a, between) ∧ (f a).run between = .ok (b, seen') := by
  rw [StateT.run_bind] at h
  cases hx : x.run seen with
  | error e => rw [hx] at h; cases h
  | ok p => rw [hx] at h; exact ⟨p.1, p.2, rfl, h⟩

namespace Value

mutual

/-- Induction over the values that are rebuilt tree by tree: a list follows from its items, and what
is neither a tree nor a list has nothing below it. -/
theorem induct_lists {P : Value → Prop} (tree : ∀ t, P (.tree t))
    (list : ∀ items, (∀ v ∈ items, P v) → P (.list items))
    (other : ∀ v, (∀ t, v ≠ .tree t) → (∀ items, v ≠ .list items) → P v) : ∀ v, P v
  | .tree t => tree t
  | .list items => list items (induct_items tree list other items)
  | .nothing => other _ nofun nofun
  | .bool _ => other _ nofun nofun
  | .int _ => other _ nofun nofun
  | .float _ => other _ nofun nofun
  | .text _ => other _ nofun nofun
  | .atom _ => other _ nofun nofun
  | .pending _ => other _ nofun nofun
  | .tuple _ => other _ nofun nofun
  | .record _ => other _ nofun nofun
  | .variety _ => other _ nofun nofun

theorem induct_items {P : Value → Prop} (tree : ∀ t, P (.tree t))
    (list : ∀ items, (∀ v ∈ items, P v) → P (.list items))
    (other : ∀ v, (∀ t, v ≠ .tree t) → (∀ items, v ≠ .list items) → P v) :
    ∀ items : List Value, ∀ v ∈ items, P v
  | [] => List.forall_mem_nil P
  | v :: vs => List.forall_mem_cons.2
      ⟨induct_lists tree list other v, induct_items tree list other vs⟩

end

/-- Quoting what quoting has given uses the same targets and gives it again. -/
theorem mapTrees_quoting_again (names names' : List String) (v : Value) :
    ∀ {q : Value} {seen seen' : List String},
      (v.mapTrees (Tree.quoting names)).run seen = .ok (q, seen') →
        (q.mapTrees (Tree.quoting names')).run seen = .ok (q, seen') := by
  induction v using induct_lists with
  | tree t =>
    intro q seen seen' h
    rw [mapTrees] at h
    obtain ⟨r, between, hr, hq⟩ := Quoting.run_bind_ok h
    cases hq
    have hquoted : r = t.quoted names := by
      rw [Tree.quoting_eq] at hr
      obtain ⟨_, _, -, hr⟩ := Quoting.run_bind_ok hr
      cases hr
      rfl
    rw [mapTrees, StateT.run_bind, hquoted, Tree.quoting_quoted, hr, hquoted]
    rfl
  | list items ih =>
    -- each item finds the targets used that it found used before
    have hitems : ∀ {qs : List Value} {seen seen' : List String},
        (mapTreesList (Tree.quoting names) items).run seen = .ok (qs, seen') →
          (mapTreesList (Tree.quoting names') qs).run seen = .ok (qs, seen') := by
      induction items with
      | nil =>
        intro qs seen seen' h
        cases h
        rfl
      | cons v vs ihs =>
        intro qs seen seen' h
        rw [mapTreesList] at h
        obtain ⟨q, between, hq, h⟩ := Quoting.run_bind_ok h
        obtain ⟨rest, last, hrest, h⟩ := Quoting.run_bind_ok h
        cases h
        rw [mapTreesList, StateT.run_bind, ih v (.head _) hq]
        show (mapTreesList (Tree.quoting names') rest >>= fun r => pure (q :: r)).run between = _
        rw [StateT.run_bind, ihs (fun w hw => ih w (.tail _ hw)) hrest]
        rfl
    intro q seen seen' h
    rw [mapTrees] at h
    obtain ⟨qs, between, hqs, hq⟩ := Quoting.run_bind_ok h
    cases hq
    rw [mapTrees, StateT.run_bind, hitems hqs]
    rfl
  | other v htree hlist =>
    intro q seen seen' h
    cases v with
    | tree t => exact absurd rfl (htree t)
    | list items => exact absurd rfl (hlist items)
    | variety w =>
      cases w <;> cases h
      rfl
    | _ => cases h

/-- A quotation is what a run over the template gives, if no quotation marker is left in it. -/
theorem quote_eq_ok {template names q : Value} : template.quote names = .ok q ↔
    ∃ listed used, names.nameSet .unhygienicNames = .ok listed ∧
      (template.mapTrees (Tree.quoting listed)).run [] = .ok (q, used) ∧
      q.checkMarkers (.variety .quotation) quotingContext = .ok () := by
  unfold quote
  cases hset : names.nameSet .unhygienicNames with
  | error e => exact ⟨fun h => (by cases h), fun ⟨_, _, h, _⟩ => (by cases h)⟩
  | ok listed =>
    change ((template.mapTrees (Tree.quoting listed)).run' [] >>= _) = _ ↔ _
    rw [StateT.run'_eq]
    constructor
    · intro h
      cases hrun : (template.mapTrees (Tree.quoting listed)).run [] with
      | error e => rw [hrun] at h; cases h
      | ok p =>
        rw [hrun] at h
        change (p.1.checkMarkers (.variety .quotation) quotingContext >>= fun _ => pure p.1) = _
          at h
        cases hcheck : p.1.checkMarkers (.variety .quotation) quotingContext with
        | error e => rw [hcheck] at h; cases h
        | ok _ =>
          rw [hcheck] at h
          cases h
          exact ⟨listed, p.2, rfl, hrun, hcheck⟩
    · rintro ⟨_, used, ⟨⟩, hrun, hcheck⟩
      rw [hrun]
      change (q.checkMarkers (.variety .quotation) quotingContext >>= fun _ => pure q) = _
      rw [hcheck]
      rfl

end Value

/-- **Quoting is idempotent.** What was quoted, with whatever names of the caller, can be quoted
again with any others, and stays as it is with all its notes. -/
theorem quote_idempotent {template names q names' : Value} {callerNames : List String}
    (h : template.quote names = .ok q) (hnames : names'.iterate = .ok (callerNames.map .text)) :
    q.quote names' = .ok q := by
  obtain ⟨listed, used, -, hrun, hcheck⟩ := Value.quote_eq_ok.1 h
  refine Value.quote_eq_ok.2 ⟨callerNames.eraseDups, used, Value.nameSet_texts _ hnames, ?_, hcheck⟩
  exact Value.mapTrees_quoting_again listed _ template hrun

/-- Two templates that share their targets, with names of all kinds, notes and an injection point in
a marker. -/
def Catalogue.shared : Value :=
  .list [.tree (.call (.tree (.name "x" .source)) [.name "y" .source, .unhygienic "x",
      .marker .plain (some (.marker (.unquote "a") none))] [(.text "line", .int 7)]),
    .tree (op "f" [.placeholder "b"])]

/-- In the first quotation `y` is the caller's; in the second one that would be `x`. -/
theorem quote_idempotent_shared : ∃ q,
    Catalogue.shared.quote (.tuple [.text "y"]) = .ok q ∧
    q = .list [.tree (.call (.tree (.name "x" (.pending .template)))
        [.name "y" (.pending .caller), .name "x" (.pending .caller),
          .marker .plain (some (.placeholder "a"))]
        [(.text "line", .int 7), (.text "scope", .pending .template)]),
      .tree (.call (.symbol "f") [.placeholder "b"] [(.text "scope", .pending .template)])] ∧
    q.quote (.list [.text "x", .text "z"]) = .ok q := by
  have hnames : (Value.list [.text "x", .text "z"]).iterate = .ok (["x", "z"].map .text) := rfl
  have hquote : ∃ q, Catalogue.shared.quote (.tuple [.text "y"]) = .ok q := ⟨_, rfl⟩
  obtain ⟨q, hq⟩ := hquote
  refine ⟨q, hq, ?_, quote_idempotent hq hnames⟩
  cases hq
  rfl

end HygienicMacros
