import HygienicMacros.Catalogue
import HygienicMacros.Proofs.Filling
import HygienicMacros.Proofs.Retagging

/-! # Macros made of templates

A macro that fills a template asks the expander for nothing, and what it answers is made of the
template and of parts of the macro call: `mem_marks_fill` for one template, `filling_marks` for
the transformer. `Registry.forall_rules_add` takes a statement about all clauses of a registry
apart, one registration after the other.
-/

namespace HygienicMacros

/-! ## Filling -/

/-- A substitution with the tags of its trees renamed. -/
def Substitution.retag (ρ : Tag → Tag) (m : Substitution) : Substitution :=
  m.map fun (target, t) => (target, t.retag ρ)

theorem Substitution.lookup_retag (ρ : Tag → Tag) (m : Substitution) (target : String) :
    (m.retag ρ).lookup target = (m.lookup target).map (Tree.retag ρ) :=
  lookup_map (Tree.retag ρ) m target

theorem Substitution.part_retag (ρ : Tag → Tag) (m : Substitution) (target : String) :
    (m.retag ρ).part target = (m.part target).retag ρ := by
  rw [part, part, lookup_retag]
  cases m.lookup target <;> rfl

namespace Tree

/-- A filled template is made of the template and of what is put in. -/
theorem mem_marks_fill {m : Substitution} {x : Mark} {t : Tree} (h : x ∈ (t.fill m).marks) :
    x ∈ t.marks ∨ ∃ p ∈ m, x ∈ p.2.marks := by
  refine (mem_marks_plug.1 h).imp_right ?_
  rintro ⟨target, -, hx⟩
  rw [Substitution.part] at hx
  cases hm : m.lookup target with
  | none => rw [hm] at hx; cases hx
  | some u =>
    rw [hm] at hx
    exact ⟨_, mem_of_lookup hm, hx⟩

/-- Filling goes through a renaming of tags. -/
theorem retag_fill (ρ : Tag → Tag) (m : Substitution) (t : Tree) :
    (t.fill m).retag ρ = (t.retag ρ).fill (m.retag ρ) := by
  rw [fill, fill, retag, mapScopes_plug]
  exact congrArg (plug · _) (funext fun target => (Substitution.part_retag ρ m target).symm)

/-- A template without tags is filled with renamed trees as it is with the trees. -/
theorem substitute_retag {ρ : Tag → Tag} {m : Substitution} {t r : Tree} (ht : t.tags = [])
    (h : t.substitute m = .ok r) : t.substitute (m.retag ρ) = .ok (r.retag ρ) := by
  have hfixed : t.retag ρ = t := retag_of_fixed fun tag htag => by rw [ht] at htag; cases htag
  have hmissing : (m.retag ρ).missing? t.targets = m.missing? t.targets := by
    rw [Substitution.missing?, Substitution.missing?]
    congr 1
    funext target
    rw [Substitution.lookup_retag, Option.isNone_map]
  have hr := substitute_ok h
  rw [substitute_eq, Substitution.provided] at h ⊢
  rw [hmissing]
  split at h
  · cases h
  · rw [hr, retag_fill, hfixed]

end Tree

/-! ## Registries of template macros -/

namespace Registry

theorem mem_append_rules {c d : Clause} : ∀ {macros : List (String × List Clause)},
    d ∈ (append c macros).flatMap (·.2) ↔ d = c ∨ d ∈ macros.flatMap (·.2)
  | [] => by simp [append]
  | (k, clauses) :: rest => by
    rw [append]
    split
    · simp only [List.flatMap_cons, List.mem_append, List.mem_singleton]
      grind
    · simp only [List.flatMap_cons, List.mem_append, mem_append_rules]
      grind

theorem forall_rules_empty {P : Clause → Prop} (terminals : List String) :
    ∀ c ∈ (empty terminals).rules, P c := by
  intro c h
  cases h

theorem forall_rules_add {P : Clause → Prop} {R : Registry} {name : String} {pattern : Pattern}
    {transformer : Transformer}
    (h : P ⟨name, pattern, transformer, (R.clauses name).length⟩) (hR : ∀ c ∈ R.rules, P c) :
    ∀ c ∈ (R.add name pattern transformer).rules, P c := by
  intro c hc
  rcases mem_append_rules.1 hc with rfl | hc
  · exact h
  · exact hR c hc

end Registry

namespace Catalogue

/-- The parts that a template macro takes from its arguments. -/
def PartsOf (parts : List Tree → Option Substitution) : Prop :=
  ∀ args m, parts args = some m → ∀ p ∈ m, ∀ x ∈ p.2.marks, x ∈ args.flatMap Tree.marks

theorem onePart_partsOf (target : String) : PartsOf (onePart target) := by
  intro args m h p hp x hx
  unfold onePart at h
  split at h
  · cases h
    rw [List.mem_singleton] at hp
    subst hp
    simpa using hx
  · cases h

theorem filling_body (label : String) (template : Tree) (parts : List Tree → Option Substitution)
    (head : Head) (args : List Tree) (notes : Notes) :
    (filling label template parts).body (.call head args notes) = .ofExcept (match parts args with
      | some m => (template.substitute m).map Value.tree
      | none => .error (.fault .indexRange)) := rfl

theorem filling_answer {label : String} {template : Tree}
    {parts : List Tree → Option Substitution} {t a : Tree}
    (h : (filling label template parts).body t = .answer (.tree a)) :
    ∃ head args notes m, t = .call head args notes ∧ parts args = some m ∧
      template.substitute m = .ok a := by
  cases t with
  | call head args notes =>
    refine ⟨head, args, notes, ?_⟩
    rw [filling_body] at h
    cases hp : parts args with
    | none => rw [hp] at h; cases h
    | some m =>
      rw [hp] at h
      dsimp only at h
      cases hs : template.substitute m with
      | error e => rw [hs] at h; cases h
      | ok r => rw [hs] at h; cases h; exact ⟨m, rfl, rfl, hs⟩
  | _ => cases h

/-- What a template macro answers is made of its template and of the macro call. -/
theorem filling_marks {label : String} {template : Tree}
    {parts : List Tree → Option Substitution} (hparts : PartsOf parts) {t a : Tree}
    (h : (filling label template parts).body t = .answer (.tree a)) :
    ∀ x ∈ a.marks, x ∈ template.marks ∨ x ∈ t.marks := by
  obtain ⟨head, args, notes, m, rfl, hm, hs⟩ := filling_answer h
  intro x hx
  rw [Tree.substitute_ok hs] at hx
  refine (Tree.mem_marks_fill hx).imp_right ?_
  rintro ⟨p, hp, hxp⟩
  have hargs := hparts args m hm p hp x hxp
  cases head with
  | symbol op => simp [hargs]
  | tree f => simp [hargs]

/-- What makes a template regular: its parts come from the arguments, whatever their tags, and it
has no tag of its own and no call that is its caller's. -/
structure Fills (template : Tree) (parts : List Tree → Option Substitution) : Prop where
  partsOf : PartsOf parts
  natural : ∀ (ρ : Tag → Tag) (args : List Tree),
    parts (args.map (Tree.retag ρ)) = (parts args).map (Substitution.retag ρ)
  tags : template.tags = []
  calls : ∀ m ∈ template.marks, ¬ m.IsCallerCall

theorem onePart_fills (target : String) {template : Tree} (htags : template.tags = [])
    (hcalls : ∀ m ∈ template.marks, ¬ m.IsCallerCall) : Fills template (onePart target) where
  partsOf := onePart_partsOf target
  natural ρ args := by rcases args with _ | ⟨t, _ | ⟨u, us⟩⟩ <;> rfl
  tags := htags
  calls := hcalls

end Catalogue

/-- Whether arguments fit does not depend on their tags. -/
def Pattern.Blind (p : Pattern) : Prop :=
  ∀ (ρ : Tag → Tag) (args : List Tree),
    p.fits ((args.map (Tree.retag ρ)).map .tree) = p.fits (args.map .tree)

theorem Pattern.blind_arity (n : Nat) : (Pattern.arity n).Blind := by
  intro ρ args
  simp only [fits, List.length_map]

/-- Whether a tree is accepted does not depend on its tags. -/
def Matcher.Blind (m : Matcher) : Prop :=
  ∀ (ρ : Tag → Tag) (t : Tree), m.accepts (.tree (t.retag ρ)) = m.accepts (.tree t)

theorem Matcher.blind_anything : Matcher.anything.Blind := fun _ _ => rfl

theorem Matcher.blind_head (op : String) (arity : Value) : (Matcher.head op arity).Blind := by
  intro ρ t
  rcases t with _ | ⟨_ | _, _, _⟩ | _ | _ | ⟨_, _ | _⟩ | _
  case call.symbol => simp only [Tree.retag_call, accepts, isCallOf, List.length_map]
  all_goals rfl

theorem Pattern.allAccept_retag (ρ : Tag → Tag) : ∀ {ms : List Matcher} (args : List Tree),
    (∀ m ∈ ms, m.Blind) →
    allAccept ms ((args.map (Tree.retag ρ)).map .tree) = allAccept ms (args.map .tree)
  | [], _, _ => by rw [allAccept.eq_def, allAccept.eq_def]
  | _ :: _, [], _ => rfl
  | m :: ms, t :: ts, h => by
    have ih := allAccept_retag ρ ts fun m' hm' => h m' (.tail _ hm')
    simp only [List.map_cons, allAccept, h m (.head _) ρ t, ih]

theorem Pattern.blind_shape {ms : List Matcher} (h : ∀ m ∈ ms, m.Blind) :
    (Pattern.shape ms).Blind := by
  intro ρ args
  simp only [fits, List.length_map, allAccept_retag ρ args h]

/-- A clause that fills a template, with a pattern that does not look at tags. -/
def Clause.FromTemplate (c : Clause) : Prop :=
  c.pattern.Blind ∧ ∃ label template parts,
    c.transformer = Catalogue.filling label template parts ∧ Catalogue.Fills template parts

namespace Registry

variable {R : Registry}

theorem functional_of_templates (h : ∀ c ∈ R.rules, c.FromTemplate) : R.Functional := by
  intro t c ht
  obtain ⟨-, label, template, parts, hc, -⟩ := h c ht.mem
  rw [hc]
  exact ⟨_, rfl⟩

theorem firstFit_retag (ρ : Tag → Tag) (args : List Tree) : ∀ {clauses : List Clause},
    (∀ c ∈ clauses, c.pattern.Blind) →
    firstFit clauses ((args.map (Tree.retag ρ)).map .tree) = firstFit clauses (args.map .tree)
  | [], _ => rfl
  | c :: cs, h => by
    rw [firstFit, firstFit, h c (.head _) ρ args,
      firstFit_retag ρ args fun d hd => h d (.tail _ hd)]

/-- A registry of template macros is regular. -/
theorem regular_of_templates (h : ∀ c ∈ R.rules, c.FromTemplate) : R.Regular where
  takes := by
    rintro ρ - t c ⟨hlookup⟩
    rw [Tree.retag_call]
    refine .intro ?_
    rw [lookup, firstFit_retag ρ]
    · exact hlookup
    · exact fun d hd => (h d (mem_rules hd)).1
  answers := by
    intro ρ _ t c a ht ha
    obtain ⟨-, label, template, parts, hc, hfills⟩ := h c ht.mem
    obtain ⟨hlookup⟩ := ht
    rw [hc] at ha ⊢
    obtain ⟨head, args, notes, m, ⟨⟩, hm, hs⟩ := Catalogue.filling_answer ha
    rw [Tree.retag_call, Catalogue.filling_body, hfills.natural, hm, Option.map_some]
    simp only [Tree.substitute_retag hfills.tags hs]
    rfl
  functional := functional_of_templates h
  closes := by
    intro t c a ht hopen ha m hm hcall
    obtain ⟨-, label, template, parts, hc, hfills⟩ := h c ht.mem
    rw [hc] at ha
    rcases Catalogue.filling_marks hfills.partsOf ha m hm with hm | hm
    · exact hfills.calls m hm hcall
    · have hopen' := Tree.openNodes_eq_nil.1 hopen m hm
      rw [hcall.isOpen] at hopen'
      cases hopen'

end Registry

/-! ## What a macro call is replaced by -/

/-- A macro call is replaced by what `out` makes of the tag, and by nothing else. -/
structure Registry.Replaces (R : Registry) (invocation : Tree) (out : Tag → Tree) : Prop where
  applies : ∀ tag, ∃ a,
    R.Applies a ∧ a.invocation = invocation ∧ a.tag = tag ∧ a.expansion = out tag
  only : ∀ a, R.Applies a → a.invocation = invocation → a.expansion = out a.tag

/-- A call of a template macro is replaced by the template, filled and resolved. -/
theorem Catalogue.replaces_filling {R : Registry} {op label : String} {args : List Tree}
    {notes : Notes} {clause : Clause} {template answer : Tree}
    {parts : List Tree → Option Substitution} {m : Substitution} {caller : Option Tag}
    (hlookup : R.lookup op (args.map .tree) = .ok (some clause))
    (hclause : clause.transformer = filling label template parts) (hparts : parts args = some m)
    (hfill : template.substitute m = .ok answer) (hcaller : Notes.caller notes = .ok caller) :
    R.Replaces (.call (.symbol op) args notes) fun tag => answer.resolve tag caller := by
  have hbody : clause.transformer.body (.call (.symbol op) args notes) =
      .answer (.tree answer) := by
    rw [hclause, filling_body, hparts]
    simp only [hfill]
    rfl
  constructor
  case applies =>
    intro tag
    have happ : R.Applies ⟨clause.name, .call (.symbol op) args notes, answer, tag,
        answer.resolve tag caller, clause.transformer.label, 0⟩ := .intro hlookup hbody hcaller
    exact ⟨_, happ, rfl, rfl, rfl⟩
  case only =>
    rintro a ⟨hlookup', hbody', hcaller'⟩ hinv
    cases hinv
    rw [hlookup] at hlookup'
    cases hlookup'
    rw [hbody] at hbody'
    cases hbody'
    rw [hcaller] at hcaller'
    cases hcaller'
    rfl

theorem Catalogue.binding_fromTemplate : ∀ c ∈ binding.rules, c.FromTemplate := by
  refine Registry.forall_rules_add
    ⟨Pattern.blind_arity 1, _, _, _, rfl, onePart_fills _ rfl (by decide)⟩ ?_
  refine Registry.forall_rules_add
    ⟨Pattern.blind_arity 1, _, _, _, rfl, onePart_fills _ rfl (by decide)⟩ ?_
  refine Registry.forall_rules_add
    ⟨Pattern.blind_arity 1, _, _, _, rfl, onePart_fills _ rfl (by decide)⟩ ?_
  exact Registry.forall_rules_empty _

theorem Catalogue.binding_regular : binding.Regular :=
  Registry.regular_of_templates binding_fromTemplate

/-- A tree in which the tag 3 is in use, with macros inside and beside one another. -/
def Catalogue.reused : Tree :=
  op "+" [.name "x" (.tag ⟨3, by decide⟩), op "with_x" [op "twice" [var "x"]],
    op "with_it" [var "it"]]

end HygienicMacros
