import Mathlib.Data.List.Forall2
import HygienicMacros.Proofs.Freshness
import HygienicMacros.Proofs.Positions

/-! # Names that belong to the caller

A template can leave a name to its caller. The name is then resolved in the scope noted on the
macro call: that of the source, a tag of the input, or the tag of the one earlier application whose
template the macro call was part of, however often the call was handed on as an argument since
(`visitRecursively_callerScoped`).

For that the note has to survive. `Kept u later r` says what becomes of the nodes of an outcome `u`
on the way to the tree `r` in the result: each is there, at the same position and with the same
notes, or it is part of a macro call that was expanded later. A scan keeps nodes in this sense
(`Scans.kept`), and so the outcome of every application is kept up to the result (`Rewrites.ends`).
-/

namespace HygienicMacros

open HygienicMacros.Tree

/-! ## What becomes of the nodes of an outcome -/

/-- Every node of `u` is in `r` at the same position and with the same label, its notes included, or
it is part of the macro call of one of the applications `later`. -/
def Kept (later : List Transition) (u r : Tree) : Prop :=
  ∀ p v, u.subtree? p = some v → (r.subtree? p).map rootLabel = some v.rootLabel ∨
    ∃ q q' a, p = q ++ q' ∧ a ∈ later ∧ u.subtree? q = some a.invocation ∧
      a.invocation.subtree? q' = some v

section
variable {later later' : List Transition} {u r : Tree}

theorem Kept.mono (h : Kept later u r) (hl : later ⊆ later') : Kept later' u r := by
  intro p v hv
  rcases h p v hv with h | ⟨q, q', a, rfl, ha, hq, hq'⟩
  · exact .inl h
  · exact .inr ⟨q, q', a, rfl, hl ha, hq, hq'⟩

theorem kept_invocation {a : Transition} (ha : a ∈ later) (r : Tree) : Kept later a.invocation r :=
  fun p _ hv => .inr ⟨[], p, a, rfl, ha, rfl, hv⟩

/-- A node is kept with what is below it if its label stays and its children are kept. -/
theorem kept_of_children (hlabel : r.rootLabel = u.rootLabel)
    (h : List.Forall₂ (Kept later) u.children r.children) : Kept later u r := by
  rintro (_ | ⟨i, p⟩) v hv
  · cases hv
    exact .inl (congrArg some hlabel)
  · obtain ⟨c, hc, hv⟩ := Option.bind_eq_some_iff.1 hv
    obtain ⟨hi, rfl⟩ := List.getElem?_eq_some_iff.1 hc
    have hi' : i < r.children.length := h.length_eq ▸ hi
    have hchild : Kept later u.children[i] r.children[i] := h.get hi hi'
    rcases hchild p v hv with h | ⟨q, q', a, rfl, ha, hq, hq'⟩
    · left
      simpa [subtree?, List.getElem?_eq_getElem hi'] using h
    · refine .inr ⟨i :: q, q', a, rfl, ha, ?_, hq'⟩
      simpa [subtree?, List.getElem?_eq_getElem hi] using hq

end

theorem forall₂_kept_mono {later later' : List Transition} {us rs : List Tree}
    (h : List.Forall₂ (Kept later) us rs) (hl : later ⊆ later') :
    List.Forall₂ (Kept later') us rs :=
  h.imp fun _ _ h => h.mono hl

/-- A scan keeps the nodes of what it scans. -/
theorem Scans.kept {R : Registry} {Call : Tree → List Transition → Tree → Prop}
    (hcall : ∀ t as r, Call t as r → ∃ a ∈ as, a.invocation = t) {ts rs : List Tree}
    {as : List Transition} (h : Scans R Call ts as rs) : List.Forall₂ (Kept as) ts rs := by
  induction h with
  | nil => exact .nil
  | literal _ ih => exact .cons (kept_of_children rfl .nil) ih
  | name _ ih => exact .cons (kept_of_children rfl .nil) ih
  | call _ _ _ ihp ih =>
    refine .cons (kept_of_children rfl ?_) (forall₂_kept_mono ih (List.subset_append_right _ _))
    exact forall₂_kept_mono ihp (List.subset_append_left _ _)
  | @apply f f' args args' notes ts as bs cs rs _ _ _ ihh ihp ih =>
    have hhead : as ⊆ as ++ bs ++ cs :=
      List.Subset.trans (List.subset_append_left as bs) (List.subset_append_left _ cs)
    have hparts : bs ⊆ as ++ bs ++ cs :=
      List.Subset.trans (List.subset_append_right as bs) (List.subset_append_left _ cs)
    refine .cons (kept_of_children rfl (.cons ?_ ?_))
      (forall₂_kept_mono ih (List.subset_append_right _ _))
    · exact (List.forall₂_cons.1 ihh).1.mono hhead
    · exact forall₂_kept_mono ihp hparts
  | @expand op args notes r ts as bs rs _ result _ ih =>
    obtain ⟨a, ha, hinv⟩ := hcall _ _ _ result
    refine .cons ?_ (forall₂_kept_mono ih (List.subset_append_right _ _))
    rw [← hinv]
    exact kept_invocation (List.mem_append_left _ ha) r

/-- The outcome of each of the applications is kept up to some tree in `rs`. -/
def Ends (rs : List Tree) : List Transition → Prop
  | [] => True
  | a :: as => (∃ r ∈ rs.flatMap nodes, Kept as a.expansion r) ∧ Ends rs as

theorem Ends.mono {rs rs' : List Tree} (h : rs.flatMap nodes ⊆ rs'.flatMap nodes) :
    ∀ {as : List Transition}, Ends rs as → Ends rs' as
  | [], _ => trivial
  | _ :: _, ⟨⟨r, hr, hkept⟩, hs⟩ => ⟨⟨r, h hr, hkept⟩, hs.mono h⟩

theorem ends_append {rs : List Tree} {bs : List Transition} (hbs : Ends rs bs) :
    ∀ {as : List Transition}, Ends rs as → Ends rs (as ++ bs)
  | [], _ => hbs
  | _ :: _, ⟨⟨r, hr, hkept⟩, hs⟩ =>
    ⟨⟨r, hr, hkept.mono (List.subset_append_left _ _)⟩, ends_append hbs hs⟩

theorem Ends.get {rs : List Tree} : ∀ {as : List Transition}, Ends rs as →
    ∀ j (hj : j < as.length), ∃ r ∈ rs.flatMap nodes, Kept (as.drop (j + 1)) as[j].expansion r
  | _ :: _, h, 0, _ => h.1
  | _ :: _, h, j + 1, hj => h.2.get j (Nat.lt_of_succ_lt_succ hj)

theorem Scans.ends {R : Registry} {Call : Tree → List Transition → Tree → Prop}
    (hcall : ∀ t as r, Call t as r → Ends [r] as) {ts rs : List Tree} {as : List Transition}
    (h : Scans R Call ts as rs) : Ends rs as := by
  -- what is in a part of a tree, or in a tree of the forest, is in the forest
  have part : ∀ {r : Tree} {cs rs : List Tree}, cs ⊆ r.children →
      cs.flatMap nodes ⊆ (r :: rs).flatMap nodes := by
    intro r cs rs hcs n hn
    obtain ⟨c, hc, hn⟩ := List.mem_flatMap.1 hn
    rw [List.flatMap_cons, nodes_eq]
    exact List.mem_append_left _ (.tail _ (List.mem_flatMap.2 ⟨c, hcs hc, hn⟩))
  have rest : ∀ {r : Tree} {rs : List Tree}, rs.flatMap nodes ⊆ (r :: rs).flatMap nodes := by
    intro r rs
    rw [List.flatMap_cons]
    exact List.subset_append_right _ _
  induction h with
  | nil => trivial
  | literal _ ih => exact ih.mono rest
  | name _ ih => exact ih.mono rest
  | call _ _ _ ihp ih =>
    refine ends_append (ih.mono rest) (ihp.mono (part ?_))
    exact List.Subset.refl _
  | apply _ _ _ ihh ihp ih =>
    refine ends_append (ih.mono rest) (ends_append (ihp.mono (part ?_)) (ihh.mono (part ?_)))
    · exact List.subset_cons_self _ _
    · exact List.cons_subset.2 ⟨.head _, List.nil_subset _⟩
  | @expand op args notes r ts as bs rs _ result _ ih =>
    refine ends_append (ih.mono rest) ((hcall _ _ _ result).mono ?_)
    rw [List.flatMap_cons, List.flatMap_cons, List.flatMap_nil, List.append_nil]
    exact List.subset_append_left _ _

theorem Rewrites.invocation {R : Registry} {Step : Transition → Prop} {mode : Mode} :
    ∀ k t as r, Rewrites R Step mode k t as r → ∃ a ∈ as, a.invocation = t
  | 0, _, _, _, h => h.elim
  | _ + 1, _, _, _, ⟨a, _, rfl, _, hinv, _⟩ => ⟨a, .head _, hinv⟩

theorem Rewrites.ends {R : Registry} {Step : Transition → Prop} :
    ∀ k t as r, Rewrites R Step .recursive k t as r → Ends [r] as
  | 0, _, _, _, h => h.elim
  | k + 1, _, _, r, h => by
    obtain ⟨a, bs, rfl, -, -, d⟩ := h
    have hself : r ∈ [r].flatMap nodes := by
      rw [List.flatMap_cons, nodes_eq]
      exact .head _
    have hkept : Kept bs a.expansion r :=
      (List.forall₂_cons.1 (d.kept (Rewrites.invocation k))).1
    exact ⟨⟨r, hself, hkept⟩, d.ends (Rewrites.ends k)⟩

/-! ## What one application resolves -/

/-- An application resolves its answer in the scope noted on the macro call. -/
theorem Registry.Applies.resolved {R : Registry} {a : Transition} (h : R.Applies a) :
    ∃ caller : Option Tag, a.expansion = a.answer.resolve a.tag caller ∧
      a.invocation.ownTag? = caller.map fun c => (c.number : Int) := by
  obtain ⟨-, -, hcaller⟩ := h
  rename_i op args notes clause answer tag caller depth
  refine ⟨caller, rfl, ?_⟩
  cases caller with
  | some c => simp only [ownTag?, Notes.scope?_of_caller hcaller, Option.map_some]
  | none =>
    unfold Notes.caller at hcaller
    split at hcaller
    · rw [callerOfValue] at hcaller
      split at hcaller <;> cases hcaller
    · simp only [ownTag?, Option.map_none]

namespace Transition

variable {a : Transition} {caller : Option Tag} {p : List Nat}

theorem subtree?_of_resolved (ha : a.expansion = a.answer.resolve a.tag caller) {u : Tree}
    (hu : a.answer.subtree? p = some u) :
    a.expansion.subtree? p = some (u.resolve a.tag caller) := by
  rw [ha, subtree?_resolve, hu, Option.map_some]

/-- A call of an answer is in the outcome at the same position, with its notes resolved. -/
theorem call_of_resolved (ha : a.expansion = a.answer.resolve a.tag caller) {head : Head}
    {args : List Tree} {notes : Notes}
    (hu : a.answer.subtree? p = some (.call head args notes)) :
    ∃ head' args', a.expansion.subtree? p =
      some (.call head' args' (Notes.resolve a.tag notes)) := by
  rw [subtree?_of_resolved ha hu]
  cases head with
  | symbol op => exact ⟨_, _, rfl⟩
  | tree f => exact ⟨_, _, rfl⟩

end Transition

/-! ## Whole runs -/

/-- The tag noted on a macro call comes from the input, or from one earlier application. -/
theorem origin_of_allowed {base j : Nat} {t : Tree} {as : List Transition} {n : Int}
    (hmax : ∀ n ∈ t.tags, n ≤ (base : Int)) (hnum : Numbered base as) (hj : j < as.length)
    (h : Allowed t.tags base (base + j) n) :
    (n ∈ t.tags ∧ ∀ a ∈ as, (a.tag.number : Int) ≠ n) ∨
      n ∉ t.tags ∧ ∃ i, ∃ hi : i < as.length, i < j ∧ (as[i].tag.number : Int) = n ∧
        ∀ k (hk : k < as.length), (as[k].tag.number : Int) = n → k = i := by
  have hget := numbered_iff.1 hnum
  rcases h with h | ⟨hlow, hhigh⟩
  · refine .inl ⟨h, fun a ha heq => ?_⟩
    obtain ⟨i, hi, rfl⟩ := List.getElem_of_mem ha
    have h1 := hmax n h
    have h2 := hget i hi
    omega
  · right
    -- the tags count up from `base`, so the position is the distance
    obtain ⟨i, hn⟩ : ∃ i : Nat, n = (base + (i + 1) : Nat) := ⟨(n - base - 1).toNat, by omega⟩
    have hij : i < j := by omega
    have hi : i < as.length := hij.trans hj
    refine ⟨fun h => by have := hmax n h; omega, i, hi, hij, ?_, fun k hk heq => ?_⟩
    · rw [hget i hi, hn]
    · have := hget k hk
      omega

/-- How a run over `t` that makes the applications `as` and ends with `r` treats what templates
leave to their callers. -/
structure CallerScoped (t : Tree) (as : List Transition) (r : Tree) : Prop where
  /-- The tag noted on a macro call is one of the input, and then of no application, or else the
  tag of exactly one application, which was made before. -/
  origin : ∀ j (hj : j < as.length) n, as[j].invocation.ownTag? = some n →
    (n ∈ t.tags ∧ ∀ a ∈ as, (a.tag.number : Int) ≠ n) ∨
      n ∉ t.tags ∧ ∃ i, ∃ hi : i < as.length, i < j ∧ (as[i].tag.number : Int) = n ∧
        ∀ k (hk : k < as.length), (as[k].tag.number : Int) = n → k = i
  /-- The caller's names of an answer get the tag noted on the macro call, -/
  noted : ∀ a ∈ as, ∀ n, a.invocation.ownTag? = some n → ∃ tag : Tag, (tag.number : Int) = n ∧
    ∀ p ident, a.answer.subtree? p = some (.name ident (.pending .caller)) →
      a.expansion.subtree? p = some (.name ident (.tag tag))
  /-- or the source scope if there is none. -/
  unnoted : ∀ a ∈ as, a.invocation.ownTag? = none →
    ∀ p ident, a.answer.subtree? p = some (.name ident (.pending .caller)) →
      a.expansion.subtree? p = some (.name ident .source)
  /-- The template's own names and calls get the tag of the application. -/
  templateName : ∀ a ∈ as, ∀ p ident,
    a.answer.subtree? p = some (.name ident (.pending .template)) →
      a.expansion.subtree? p = some (.name ident (.tag a.tag))
  templateCall : ∀ a ∈ as, ∀ p head args notes,
    a.answer.subtree? p = some (.call head args notes) →
      Notes.scope? notes = some (.pending .template) →
      ∃ head' args', a.expansion.subtree? p =
        some (.call head' args' (Notes.set Notes.scopeKey (.int a.tag.number) notes))
  /-- So a caller's name of `b` binds as the names of the template that the call of `b` was part
  of, if they are spelled alike, and as no name of the source. -/
  met : ∀ a ∈ as, ∀ b ∈ as, b.invocation.ownTag? = some (a.tag.number : Int) →
    ∀ p q x y, b.answer.subtree? p = some (.name x (.pending .caller)) →
      a.answer.subtree? q = some (.name y (.pending .template)) →
      ∃ x' y', b.expansion.subtree? p = some x' ∧ a.expansion.subtree? q = some y' ∧
        (x'.sameBinding y' = true ↔ x = y) ∧ ∀ z, x'.sameBinding (.name z .source) = false
  /-- A call that is not the template's own keeps its notes when the answer is resolved, -/
  untouched : ∀ a ∈ as, ∀ p head args notes,
    a.answer.subtree? p = some (.call head args notes) →
      Notes.scope? notes ≠ some (.pending .template) →
      ∃ head' args', a.expansion.subtree? p = some (.call head' args' notes)
  /-- and in what follows: what the application left is in the result, at some position, with every
  node in its place and with its notes, apart from the macro calls that were expanded later. -/
  kept : ∀ j (hj : j < as.length), ∃ q r', r.subtree? q = some r' ∧
    Kept (as.drop (j + 1)) as[j].expansion r'

theorem callerScoped_of_derivation {R : Registry} {k base : Nat} {t r : Tree}
    {as : List Transition} (d : Scans R (Rewrites R R.Applies .recursive k) [t] as [r])
    (hmax : ∀ n ∈ t.tags, n ≤ (base : Int)) (hnum : Numbered base as)
    (hat : ∀ i (hi : i < as.length), ∀ n ∈ as[i].invocation.tags,
      Allowed t.tags base (base + i) n) : CallerScoped t as r := by
  have happ : ∀ a ∈ as, R.Applies a := d.steps (Rewrites.steps _)
  have hnoted : ∀ a ∈ as, ∀ n, a.invocation.ownTag? = some n → ∃ tag : Tag,
      (tag.number : Int) = n ∧ ∀ p ident,
        a.answer.subtree? p = some (.name ident (.pending .caller)) →
          a.expansion.subtree? p = some (.name ident (.tag tag)) := by
    intro a ha n hn
    obtain ⟨caller, hexp, hown⟩ := (happ a ha).resolved
    rw [hown, Option.map_eq_some_iff] at hn
    obtain ⟨tag, rfl, rfl⟩ := hn
    exact ⟨tag, rfl, fun p ident hp => Transition.subtree?_of_resolved hexp hp⟩
  have htemplate : ∀ a ∈ as, ∀ p ident,
      a.answer.subtree? p = some (.name ident (.pending .template)) →
        a.expansion.subtree? p = some (.name ident (.tag a.tag)) := by
    intro a ha p ident hp
    obtain ⟨caller, hexp, -⟩ := (happ a ha).resolved
    exact Transition.subtree?_of_resolved hexp hp
  constructor
  case origin =>
    intro j hj n hn
    refine origin_of_allowed hmax hnum hj (hat j hj n ?_)
    exact List.mem_filterMap.2 ⟨_, mem_nodes_iff.2 ⟨[], rfl⟩, hn⟩
  case noted => exact hnoted
  case unnoted =>
    intro a ha hn p ident hp
    obtain ⟨caller, hexp, hown⟩ := (happ a ha).resolved
    rw [hown, Option.map_eq_none_iff] at hn
    subst hn
    exact Transition.subtree?_of_resolved hexp hp
  case templateName => exact htemplate
  case templateCall =>
    intro a ha p head args notes hp hscope
    obtain ⟨caller, hexp, -⟩ := (happ a ha).resolved
    rw [← Notes.resolve_template hscope]
    exact Transition.call_of_resolved hexp hp
  case met =>
    intro a ha b hb hown p q x y hx hy
    obtain ⟨tag, htag, hname⟩ := hnoted b hb _ hown
    obtain rfl : tag = a.tag := Tag.ext_number (Int.ofNat_inj.1 htag)
    refine ⟨_, _, hname p x hx, htemplate a ha q y hy, ?_, fun z => ?_⟩
    · simp [sameBinding]
    · simp [sameBinding]
  case untouched =>
    intro a ha p head args notes hp hscope
    obtain ⟨caller, hexp, -⟩ := (happ a ha).resolved
    rw [← Notes.resolve_other hscope]
    exact Transition.call_of_resolved hexp hp
  case kept =>
    intro j hj
    obtain ⟨r', hr', hkept⟩ := (d.ends (Rewrites.ends k)).get j hj
    rw [List.flatMap_cons, List.flatMap_nil, List.append_nil] at hr'
    obtain ⟨q, hq⟩ := mem_nodes_iff.1 hr'
    exact ⟨q, r', hq, hkept⟩

/-- **Names of the caller are resolved at the macro call.** In a run that succeeds, with
transformers that are functions of the macro call and bring no tag of their own, they get the scope
of the place where the call was written, through any number of expansions. -/
theorem visitRecursively_callerScoped {s s' : Expander} {t : Tree} {v : Value}
    (hfun : s.registry.Functional) (hadds : s.registry.AddsNoTags)
    (h : (visitRecursively (.tree t)).on s = (.ok v, s')) :
    ∃ r as, v = .tree r ∧ s'.history = as.reverse ++ s.history ∧ CallerScoped t as r := by
  have hrun : (visitIn .recursive (.tree t)).on s = (.ok v, s') := h
  rw [on_visitIn] at hrun
  obtain ⟨r, as, rfl, -, d, hcount⟩ := derivation_of_functional hfun hrun
  have hbase := TagSupply.last_skipPast t.maxTag s.tags
  have hmax : ∀ n ∈ t.tags, n ≤ ((TagSupply.skipPast t.maxTag s.tags).last : Int) := by
    intro n hn
    have : n ≤ t.maxTag := le_largest hn
    omega
  obtain ⟨htraced, -⟩ := d.traced (Rewrites.traceable _ _ _ _) (K := { m | m ∈ t.marks }) (by simp)
  obtain ⟨hat, -⟩ := Traced.allowed hadds (Nat.le_refl _) htraced (d.steps (Rewrites.steps _))
    hcount.numbered fun m hm n hn => .inl (mem_tags.2 ⟨m, hm, hn⟩)
  exact ⟨r, as, rfl, hcount.history,
    callerScoped_of_derivation d hmax hcount.numbered fun i hi => (hat i hi).1⟩

namespace Catalogue

/-- Adds `it` to the argument, where `it` is bound by `with_it`, whose call is handed to
`with_x`. -/
def addItTemplate : Tree :=
  (op "with_x" [op "with_it" [op "+" [var "it", hole "n"]]]).quoted []

/-- Macros that bind names, and one that is written with them. -/
def anaphoric : Registry :=
  binding.add "add_it" (.arity 1) (filling "add_it" addItTemplate (onePart "n"))

theorem anaphoric_fromTemplate : ∀ c ∈ anaphoric.rules, c.FromTemplate :=
  Registry.forall_rules_add
    ⟨Pattern.blind_arity 1, _, _, _, rfl, onePart_fills _ rfl (by decide)⟩ binding_fromTemplate

end Catalogue

theorem visitRecursively_callerScoped_handedOn :
    ∃ r s', (visitRecursively (.tree (Catalogue.op "add_it" [Catalogue.var "it"]))).on
        (.ofRegistry Catalogue.anaphoric 3 Expander.standardLabel) = (.ok (.tree r), s') ∧
      ∃ as, s'.history = as.reverse ∧
        s'.history.map (fun a => (a.macroName, a.invocation.ownTag?, a.tag.number)) =
          [("with_it", some 1, 3), ("with_x", some 1, 2), ("add_it", none, 1)] ∧
        CallerScoped (Catalogue.op "add_it" [Catalogue.var "it"]) as r := by
  have hrules := Catalogue.anaphoric_fromTemplate
  obtain ⟨v, hrun⟩ := Run.on_of_isOk
    (x := visitRecursively (.tree (Catalogue.op "add_it" [Catalogue.var "it"])))
    (s := .ofRegistry Catalogue.anaphoric 3 Expander.standardLabel) (by decide +kernel)
  obtain ⟨r, as, rfl, hhist, hscoped⟩ := visitRecursively_callerScoped
    (Registry.functional_of_templates hrules) (Registry.addsNoTags_of_templates hrules) hrun
  exact ⟨r, _, hrun, as, hhist.trans (List.append_nil _), by decide +kernel, hscoped⟩

end HygienicMacros
