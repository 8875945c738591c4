import HygienicMacros.Proofs.Templates

/-! # Tags are fresh

Each application of a macro gets a tag of its own: it occurs neither in the tree that is expanded,
nor in the macro call, nor in what any earlier application left. So the names that a template
introduces are names of no one else (`visit_freshlyTagged`).

The invariant is about what is known at a point of the run: a known tag is one of the input, or one
of those allocated since (`Allowed`). One application adds no tag but its own
(`AddsNoTags.expansion`), so a run of applications keeps it (`Traced.allowed`).
-/

namespace HygienicMacros

/-- No transformer brings a tag of its own: every tag of an answer is one of the macro call. -/
def Registry.AddsNoTags (R : Registry) : Prop :=
  ∀ t c a, R.Takes t c → c.transformer.body t = .answer (.tree a) → ∀ n ∈ a.tags, n ∈ t.tags

/-- A tag of the input, or one allocated after `base` and up to `last`. -/
def Allowed (T : List Int) (base last : Nat) (n : Int) : Prop :=
  n ∈ T ∨ (base : Int) < n ∧ n ≤ (last : Int)

theorem Allowed.mono {T : List Int} {base last last' : Nat} {n : Int}
    (h : Allowed T base last n) (hl : last ≤ last') : Allowed T base last' n := by
  rcases h with h | ⟨h1, h2⟩
  · exact .inl h
  · exact .inr ⟨h1, by omega⟩

theorem Allowed.le {T : List Int} {base last : Nat} {n : Int} (h : Allowed T base last n)
    (hT : ∀ n ∈ T, n ≤ (base : Int)) (hlast : base ≤ last) : n ≤ (last : Int) := by
  rcases h with h | h
  · have := hT n h
    omega
  · exact h.2

theorem Registry.AddsNoTags.expansion {R : Registry} (hR : R.AddsNoTags) {a : Transition}
    (h : R.Applies a) {n : Int} (hn : n ∈ a.expansion.tags) :
    n = a.tag.number ∨ n ∈ a.invocation.tags := by
  rcases h.tags hn with hn | hn | hn
  · exact .inl hn
  · exact .inr hn
  · obtain ⟨hlookup, hbody, -⟩ := h
    exact .inr (hR _ _ _ (.intro hlookup) hbody n hn)

/-- The run lemma: what is known after some applications, and at each of them, is allowed. -/
theorem Traced.allowed {R : Registry} (hR : R.AddsNoTags) {T : List Int} {base : Nat} :
    ∀ {as : List Transition} {last : Nat} {K : Set Mark}, base ≤ last → Traced K as →
      (∀ a ∈ as, R.Applies a) → Numbered last as →
      (∀ m ∈ K, ∀ n, m.tag? = some n → Allowed T base last n) →
      (∀ i (hi : i < as.length), (∀ n ∈ as[i].invocation.tags, Allowed T base (last + i) n) ∧
        ∀ n ∈ as[i].expansion.tags, Allowed T base (last + (i + 1)) n) ∧
      ∀ m ∈ Known K as, ∀ n, m.tag? = some n → Allowed T base (last + as.length) n
  | [], last, K, _, _, _, _, hK => by
    rw [known_nil]
    exact ⟨fun i hi => absurd hi (Nat.not_lt_zero i), hK⟩
  | a :: as, last, K, hb, htr, happ, hnum, hK => by
    have hinv : ∀ n ∈ a.invocation.tags, Allowed T base last n := by
      intro n hn
      obtain ⟨m, hm, hmn⟩ := Tree.mem_tags.1 hn
      exact hK m (htr.1 m hm) n hmn
    have hexp : ∀ n ∈ a.expansion.tags, Allowed T base (last + 1) n := by
      intro n hn
      rcases hR.expansion (happ a (.head _)) hn with h | h
      · exact .inr ⟨by have := hnum.1; omega, by have := hnum.1; omega⟩
      · exact (hinv n h).mono (Nat.le_succ last)
    have hK' : ∀ m ∈ K ∪ { m | m ∈ a.expansion.marks }, ∀ n, m.tag? = some n →
        Allowed T base (last + 1) n := by
      rintro m (hm | hm) n hn
      · exact (hK m hm n hn).mono (Nat.le_succ last)
      · exact hexp n (Tree.mem_tags.2 ⟨m, hm, hn⟩)
    obtain ⟨h1, h2⟩ := Traced.allowed hR (Nat.le_succ_of_le hb) htr.2
      (fun b hb => happ b (.tail _ hb)) hnum.2 hK'
    refine ⟨fun i hi => ?_, fun m hm n hn => ?_⟩
    · cases i with
      | zero => exact ⟨hinv, hexp⟩
      | succ i =>
        obtain ⟨h3, h4⟩ := h1 i (Nat.lt_of_succ_lt_succ hi)
        exact ⟨fun n hn => (h3 n hn).mono (by omega), fun n hn => (h4 n hn).mono (by omega)⟩
    · rw [known_cons] at hm
      exact (h2 m hm n hn).mono (by rw [List.length_cons]; omega)

/-! ## Whole runs -/

/-- The names that the template of an application introduced, as its outcome has them. -/
def Transition.introduced (a : Transition) : List Tree :=
  a.answer.nodes.filterMap fun
    | .name ident (.pending .template) => some (.name ident (.tag a.tag))
    | _ => none

theorem Transition.mem_introduced {a : Transition} {x : Tree} :
    x ∈ a.introduced ↔ ∃ ident, x = .name ident (.tag a.tag) ∧
      Tree.name ident (.pending .template) ∈ a.answer.nodes := by
  rw [introduced, List.mem_filterMap]
  constructor
  · rintro ⟨n, hn, h⟩
    split at h
    · rename_i ident
      cases h
      exact ⟨ident, rfl, hn⟩
    · cases h
  · rintro ⟨ident, rfl, hn⟩
    exact ⟨_, hn, rfl⟩

theorem Tree.eq_of_sameBinding {ident : String} {scope : Scope} {y : Tree}
    (h : (name ident scope).sameBinding y = true) : y = name ident scope := by
  cases y with
  | name i s =>
    simp only [sameBinding, Bool.and_eq_true, beq_iff_eq] at h
    rw [h.1, h.2]
  | _ => cases h

theorem Tree.tag_mem_tags {t : Tree} {ident : String} {tag : Tag}
    (h : name ident (.tag tag) ∈ t.nodes) : (tag.number : Int) ∈ t.tags :=
  mem_tags.2 ⟨_, mem_marks_name.2 h, rfl⟩

namespace Transition

variable {a b : Transition} {x y : Tree}

/-- The names a template introduces are in the outcome. -/
theorem introduced_shown (ha : a.Settled) (hx : x ∈ a.introduced) : x ∈ a.expansion.nodes := by
  obtain ⟨ident, rfl, hname⟩ := mem_introduced.1 hx
  obtain ⟨caller, hexp⟩ := ha
  rw [← Tree.mem_marks_name, hexp, Tree.marks_resolve, List.mem_map]
  exact ⟨_, Tree.mem_marks_name.2 hname, rfl⟩

theorem introduced_apart_of_not_mem {t : Tree} (ha : (a.tag.number : Int) ∉ t.tags)
    (hx : x ∈ a.introduced) (hy : y ∈ t.nodes) : x.sameBinding y = false := by
  obtain ⟨ident, rfl, -⟩ := mem_introduced.1 hx
  refine Bool.eq_false_iff.2 fun hsame => ha (@Tree.tag_mem_tags _ ident _ ?_)
  rwa [← Tree.eq_of_sameBinding hsame]

theorem introduced_apart (h : a.tag ≠ b.tag) (hx : x ∈ a.introduced) (hy : y ∈ b.introduced) :
    x.sameBinding y = false := by
  obtain ⟨ident, rfl, -⟩ := mem_introduced.1 hx
  obtain ⟨ident', rfl, -⟩ := mem_introduced.1 hy
  refine Bool.eq_false_iff.2 fun hsame => h ?_
  have hname := Tree.eq_of_sameBinding hsame
  simp only [Tree.name.injEq, Scope.tag.injEq] at hname
  exact hname.2.symm

end Transition

/-- The tags of a run over `t` that makes the applications `as` and ends with `r`. -/
structure FreshlyTagged (base : Int) (t : Tree) (as : List Transition) (r : Tree) : Prop where
  /-- The tags are the numbers after `base`, in the order of the applications. -/
  number : ∀ i (hi : i < as.length), (as[i].tag.number : Int) = base + (i + 1)
  input : ∀ a ∈ as, (a.tag.number : Int) ∉ t.tags
  invocation : ∀ a ∈ as, (a.tag.number : Int) ∉ a.invocation.tags
  earlier : ∀ i j (hi : i < as.length) (hj : j < as.length), i < j →
    (as[j].tag.number : Int) ∉ as[i].expansion.tags
  /-- The names a template introduces are in the outcome, and are no names of the input. -/
  shown : ∀ a ∈ as, ∀ x ∈ a.introduced, x ∈ a.expansion.nodes
  apartFromInput : ∀ a ∈ as, ∀ x ∈ a.introduced, ∀ y ∈ t.nodes, x.sameBinding y = false
  /-- Two applications introduce no name in common. -/
  apart : ∀ i j (hi : i < as.length) (hj : j < as.length), i ≠ j →
    ∀ x ∈ as[i].introduced, ∀ y ∈ as[j].introduced, x.sameBinding y = false
  /-- A tag of the result is one of the input, or one of these. -/
  result : ∀ n ∈ r.tags, n ∈ t.tags ∨ base < n ∧ n ≤ base + as.length

/-- Applications that are numbered after `base` and know only what is allowed are freshly tagged. -/
theorem freshlyTagged_of_allowed {base : Nat} {t r : Tree} {as : List Transition}
    (hmax : ∀ n ∈ t.tags, n ≤ (base : Int)) (hnum : Numbered base as)
    (hsettled : ∀ a ∈ as, a.Settled)
    (hat : ∀ i (hi : i < as.length),
      (∀ n ∈ as[i].invocation.tags, Allowed t.tags base (base + i) n) ∧
        ∀ n ∈ as[i].expansion.tags, Allowed t.tags base (base + (i + 1)) n)
    (hend : ∀ n ∈ r.tags, Allowed t.tags base (base + as.length) n) :
    FreshlyTagged base t as r := by
  have hget := numbered_iff.1 hnum
  have hinput : ∀ a ∈ as, (a.tag.number : Int) ∉ t.tags := by
    intro a ha hn
    obtain ⟨i, hi, rfl⟩ := List.getElem_of_mem ha
    have h1 := hmax _ hn
    have h2 := hget i hi
    omega
  constructor
  case number =>
    intro i hi
    rw [hget i hi]
    push_cast
    rfl
  case input => exact hinput
  case invocation =>
    intro a ha hn
    obtain ⟨i, hi, rfl⟩ := List.getElem_of_mem ha
    have h1 := ((hat i hi).1 _ hn).le hmax (by omega)
    have h2 := hget i hi
    omega
  case earlier =>
    intro i j hi hj hij hn
    have h1 := ((hat i hi).2 _ hn).le hmax (by omega)
    have h2 := hget j hj
    omega
  case shown => exact fun a ha x hx => Transition.introduced_shown (hsettled a ha) hx
  case apartFromInput =>
    exact fun a ha x hx y hy => Transition.introduced_apart_of_not_mem (hinput a ha) hx hy
  case apart =>
    intro i j hi hj hij x hx y hy
    refine Transition.introduced_apart (fun htag => hij ?_) hx hy
    have h1 := hget i hi
    have h2 := hget j hj
    rw [htag] at h1
    omega
  case result => exact fun n hn => by simpa [Allowed] using hend n hn

/-- **Tags are fresh.** In a run that succeeds, with transformers that are functions of the macro
call and bring no tag of their own, every application gets a tag that was in use nowhere before. -/
theorem visit_freshlyTagged (mode : Mode) {s s' : Expander} {t : Tree} {v : Value}
    (hfun : s.registry.Functional) (hadds : s.registry.AddsNoTags)
    (h : (visitIn mode (.tree t)).on s = (.ok v, s')) :
    ∃ r as, v = .tree r ∧ s'.history = as.reverse ++ s.history ∧
      FreshlyTagged (max (s.tags.last : Int) t.maxTag) t as r := by
  rw [on_visitIn] at h
  obtain ⟨r, as, rfl, -, d, hcount⟩ := derivation_of_functional hfun h
  refine ⟨r, as, rfl, hcount.history, ?_⟩
  have hbase := TagSupply.last_skipPast t.maxTag s.tags
  have hnum := hcount.numbered
  dsimp only at hnum
  rw [← hbase]
  generalize (TagSupply.skipPast t.maxTag s.tags).last = base at hbase hnum
  have hmax : ∀ n ∈ t.tags, n ≤ (base : Int) := by
    intro n hn
    have : n ≤ t.maxTag := Tree.le_largest hn
    omega
  have happ : ∀ a ∈ as, s.registry.Applies a := d.steps (Rewrites.steps _)
  obtain ⟨htraced, hresult⟩ := d.traced (Rewrites.traceable _ _ mode _)
    (K := { m | m ∈ t.marks }) (by simp)
  obtain ⟨hat, hend⟩ := Traced.allowed hadds (Nat.le_refl base) htraced happ hnum
    fun m hm n hn => .inl (Tree.mem_tags.2 ⟨m, hm, hn⟩)
  refine freshlyTagged_of_allowed hmax hnum (fun a ha => (happ a ha).settled) hat fun n hn => ?_
  obtain ⟨m, hm, hmn⟩ := Tree.mem_tags.1 hn
  exact hend m (hresult m (by simpa using hm)) n hmn

theorem Registry.addsNoTags_of_templates {R : Registry}
    (h : ∀ c ∈ R.rules, c.FromTemplate) : R.AddsNoTags := by
  intro t c a ht hbody n hn
  obtain ⟨-, label, template, parts, hc, hfills⟩ := h c ht.mem
  rw [hc] at hbody
  obtain ⟨x, hx, hxn⟩ := Tree.mem_tags.1 hn
  rcases Catalogue.filling_marks hfills.partsOf hbody x hx with h | h
  · have : n ∈ template.tags := Tree.mem_tags.2 ⟨x, h, hxn⟩
    rw [hfills.tags] at this
    cases this
  · exact Tree.mem_tags.2 ⟨x, h, hxn⟩

theorem visit_freshlyTagged_reused :
    ∃ r s', (visitIn .recursive (.tree Catalogue.reused)).on
        (.ofRegistry Catalogue.binding 2 Expander.standardLabel) = (.ok (.tree r), s') ∧
      ∃ as, s'.history = as.reverse ∧ as.length = 3 ∧
        FreshlyTagged 3 Catalogue.reused as r := by
  have hrules := Catalogue.binding_fromTemplate
  obtain ⟨v, s', hrun, hlen⟩ : ∃ v s', (visitIn .recursive (.tree Catalogue.reused)).on
      (.ofRegistry Catalogue.binding 2 Expander.standardLabel) = (.ok v, s') ∧
      s'.history.length = 3 := by
    obtain ⟨v, hv⟩ := Run.on_of_isOk (x := visitIn .recursive (.tree Catalogue.reused))
      (s := .ofRegistry Catalogue.binding 2 Expander.standardLabel) (by decide +kernel)
    exact ⟨v, _, hv, by decide +kernel⟩
  obtain ⟨r, as, rfl, hhist, hfresh⟩ := visit_freshlyTagged .recursive
    (Registry.functional_of_templates hrules) (Registry.addsNoTags_of_templates hrules) hrun
  have has : s'.history = as.reverse := hhist.trans (List.append_nil _)
  exact ⟨r, s', hrun, as, has, by rw [← hlen, has, List.length_reverse], hfresh⟩

end HygienicMacros
