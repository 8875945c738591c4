import Mathlib.Algebra.Order.Field.Power
import Mathlib.Algebra.Order.Ring.Rat
import Mathlib.Data.Int.Cast.Lemmas
import Mathlib.Data.Nat.Prime.Basic
import Mathlib.Data.Rat.Lemmas
import HygienicMacros.Proofs.Flattening
import HygienicMacros.Proofs.Mappings
import HygienicMacros.Proofs.Obliviousness
import HygienicMacros.Proofs.Quoting

/-! # Equality of trees

Equality does not look at the notes of calls, and looks at the kind and the value of literals. Two
trees are equal exactly if they are the same once they are erased (`Tree.equal_iff`): `Tree.erased`
drops all notes, and gives every number in a literal the one form that its value has
(`Binary64.canonical_eq_iff`).

Nothing that is made of a tree depends on what is erased: erasing the result is the same as starting
from the erased tree (`Tree.erased_quoted`, `Tree.erased_resolve`, `Tree.erased_plug`,
`Tree.erased_rename`). So equality is a congruence (`equal_congruence`), as long as the values that
are put into a template agree as literals do: `substitute_equal_values_differ` has two equal values
that do not.
-/

namespace HygienicMacros

/-! ## The value of a number -/

namespace Binary64

/-- What a number stands for. A NaN stands for itself only. -/
inductive Exact where
  | nan (origin : Origin)
  | infinite (negative : Bool)
  | number (q : ℚ)

/-- The mantissa with its sign. -/
def signed (negative : Bool) (mantissa : Nat) : Int :=
  if negative then -mantissa else mantissa

/-- The exact value of a number. -/
def value : Binary64 → Exact
  | .nan origin => .nan origin
  | .infinite negative => .infinite negative
  | .finite negative mantissa exponent => .number (signed negative mantissa * 2 ^ exponent)

theorem cast_atUnit {exponent unit : Int} (h : unit ≤ exponent) (negative : Bool) (mantissa : Nat) :
    (atUnit negative mantissa exponent unit : ℚ) =
      signed negative mantissa * 2 ^ exponent / 2 ^ unit := by
  have hpower : ((2 ^ (exponent - unit).toNat : ℕ) : ℚ) = 2 ^ exponent / 2 ^ unit := by
    rw [← zpow_sub₀ two_ne_zero, Nat.cast_pow, Nat.cast_ofNat, ← zpow_natCast,
      Int.toNat_of_nonneg (Int.sub_nonneg.2 h)]
  have hatUnit : atUnit negative mantissa exponent unit =
      signed negative mantissa * (2 ^ (exponent - unit).toNat : ℕ) := by
    cases negative <;> simp [atUnit, signed]
  rw [hatUnit, Int.cast_mul, Int.cast_natCast, hpower, mul_div_assoc]

theorem atUnit_eq_iff {na nb : Bool} {ma mb : Nat} {ea eb : Int} :
    atUnit na ma ea (min ea eb) = atUnit nb mb eb (min ea eb) ↔
      (signed na ma : ℚ) * 2 ^ ea = signed nb mb * 2 ^ eb := by
  have hunit : (2 : ℚ) ^ min ea eb ≠ 0 := zpow_ne_zero _ two_ne_zero
  rw [← Int.cast_inj (α := ℚ), cast_atUnit (min_le_left ea eb), cast_atUnit (min_le_right ea eb),
    div_left_inj' hunit]

/-- Numbers agree if they have the same value. -/
theorem agrees_iff_value {x y : Binary64} : x.agrees y = true ↔ x.value = y.value := by
  cases x <;> cases y <;> simp [agrees, equal, value, atUnit_eq_iff]

/-- The same value in lowest terms, a zero without its sign. -/
def canonical (x : Binary64) : Binary64 :=
  match x.value with
  | .nan origin => .nan origin
  | .infinite negative => .infinite negative
  | .number q => .finite (q < 0) q.num.natAbs (-q.den.log2)

/-- The denominator of a value is a power of two. -/
theorem exists_den_eq (n : Int) (e : Int) : ∃ k, ((n : ℚ) * 2 ^ e).den = 2 ^ k := by
  have hdyadic : ∃ (a : ℤ) (j : ℕ), (n : ℚ) * 2 ^ e = Rat.divInt a (2 ^ j : ℕ) := by
    cases e with
    | ofNat j => exact ⟨n * 2 ^ j, 0, by simp [Rat.divInt_eq_div]⟩
    | negSucc j => exact ⟨n, j + 1, by simp [Rat.divInt_eq_div, zpow_negSucc, div_eq_mul_inv]⟩
  obtain ⟨a, j, h⟩ := hdyadic
  have hdvd : (Rat.divInt a (2 ^ j : ℕ)).den ∣ 2 ^ j := Int.natCast_dvd_natCast.1 (Rat.den_dvd a _)
  obtain ⟨k, -, hk⟩ := (Nat.dvd_prime_pow Nat.prime_two).1 hdvd
  exact ⟨k, h ▸ hk⟩

theorem signed_num (q : ℚ) : signed (q < 0) q.num.natAbs = q.num := by
  by_cases hq : q < 0
  · have hnum : q.num < 0 := Rat.num_neg.2 hq
    simp only [signed, hq, decide_true, if_true]
    omega
  · have hnum : 0 ≤ q.num := Rat.num_nonneg.2 (not_lt.1 hq)
    simp only [signed, hq, decide_false, Bool.false_eq_true, if_false]
    omega

theorem value_canonical (x : Binary64) : x.canonical.value = x.value := by
  rcases x with _ | _ | ⟨negative, mantissa, exponent⟩
  · rfl
  · rfl
  · obtain ⟨k, hk⟩ := exists_den_eq (signed negative mantissa) exponent
    simp only [canonical, value]
    generalize (signed negative mantissa : ℚ) * 2 ^ exponent = q at hk
    have hq : (q.num : ℚ) / 2 ^ k = q := by
      conv_rhs => rw [← Rat.num_div_den q, hk]
      rw [Nat.cast_pow, Nat.cast_ofNat]
    rw [signed_num, hk, Nat.log2_two_pow, zpow_neg, zpow_natCast, ← div_eq_mul_inv, hq]

/-- Two numbers have the same form in lowest terms if they have the same value. -/
theorem canonical_eq_iff {x y : Binary64} : x.canonical = y.canonical ↔ x.value = y.value := by
  constructor
  · intro h
    rw [← value_canonical x, h, value_canonical]
  · intro h
    rw [canonical, canonical, h]

end Binary64

/-! ## Erased trees -/

/-- The literal with its numbers in lowest terms. -/
def Datum.canonical : Datum → Datum
  | .float x => .float x.canonical
  | .pair a b => .pair a.canonical b.canonical
  | d => d

theorem Datum.equal_iff {c d : Datum} : c.equal d = true ↔ c.canonical = d.canonical := by
  induction c generalizing d with
  | float x =>
    cases d <;> simp [equal, canonical, Binary64.agrees_iff_value, Binary64.canonical_eq_iff]
  | pair a b iha ihb => cases d <;> simp [equal, canonical, iha, ihb]
  | _ => cases d <;> simp [equal, canonical]

theorem Datum.canonical_canonical (d : Datum) : d.canonical.canonical = d.canonical := by
  induction d with
  | float x => exact congrArg float (Binary64.canonical_eq_iff.2 x.value_canonical)
  | pair a b iha ihb => rw [canonical, canonical, iha, ihb]
  | _ => rfl

namespace Tree

mutual

/-- The tree without notes, and with the numbers in its literals in lowest terms. -/
def erased : Tree → Tree
  | .literal d => .literal d.canonical
  | .call (.symbol op) args _ => .call (.symbol op) (erasedList args) []
  | .call (.tree f) args _ => .call (.tree f.erased) (erasedList args) []
  | .placeholder target => .placeholder target
  | .name ident scope => .name ident scope
  | .marker kind none => .marker kind none
  | .marker kind (some body) => .marker kind (some body.erased)
  | .unhygienic ident => .unhygienic ident

/-- Some trees without notes. -/
def erasedList : List Tree → List Tree
  | [] => []
  | t :: ts => t.erased :: erasedList ts

end

theorem erasedList_eq (ts : List Tree) : erasedList ts = ts.map erased := by
  induction ts with
  | nil => rfl
  | cons t ts ih => rw [erasedList, ih, List.map_cons]

@[simp] theorem erased_call (op : String) (args : List Tree) (notes : Notes) :
    (call (.symbol op) args notes).erased = call (.symbol op) (args.map erased) [] := by
  rw [erased, erasedList_eq]

@[simp] theorem erased_apply (f : Tree) (args : List Tree) (notes : Notes) :
    (call (.tree f) args notes).erased = call (.tree f.erased) (args.map erased) [] := by
  rw [erased, erasedList_eq]

/-- Trees are equal if nothing tells them apart once they are erased. -/
theorem equal_iff {a : Tree} : ∀ {b : Tree}, a.equal b = true ↔ a.erased = b.erased := by
  have list : ∀ {as bs : List Tree},
      (∀ a ∈ as, ∀ {b : Tree}, a.equal b = true ↔ a.erased = b.erased) →
      (equalList as bs = true ↔ erasedList as = erasedList bs) := by
    intro as bs h
    rw [equalList_iff, erasedList_eq, erasedList_eq, ← List.forall₂_eq_eq_eq,
      List.forall₂_map_left_iff, List.forall₂_map_right_iff]
    exact ⟨fun hab => forall₂_mono hab fun a ha _ => (h a ha).1,
      fun hab => forall₂_mono hab fun a ha _ => (h a ha).2⟩
  induction a using Tree.induct with
  | literal d =>
    intro b
    rcases b with _ | ⟨_ | _, _, _⟩ | _ | _ | ⟨_, _ | _⟩ | _ <;>
      simp [equal, erased, Datum.equal_iff]
  | call op args notes ih =>
    intro b
    rcases b with _ | ⟨_ | _, _, _⟩ | _ | _ | ⟨_, _ | _⟩ | _ <;> simp [equal, erased, list ih]
  | apply f args notes ihf ih =>
    intro b
    rcases b with _ | ⟨_ | _, _, _⟩ | _ | _ | ⟨_, _ | _⟩ | _ <;> simp [equal, erased, list ih, ihf]
  | marker kind body ih =>
    intro b
    rcases b with _ | ⟨_ | _, _, _⟩ | _ | _ | ⟨_, _ | _⟩ | _ <;> simp [equal, erased, ih]
  | _ =>
    intro b
    rcases b with _ | ⟨_ | _, _, _⟩ | _ | _ | ⟨_, _ | _⟩ | _ <;> simp [equal, erased]

/-! ## What a view of the tree sees -/

theorem children_erased (t : Tree) : t.erased.children = t.children.map erased := by
  rcases t with _ | ⟨_ | _, _, _⟩ | _ | _ | ⟨_, _ | _⟩ | _ <;>
    simp [erased, erasedList_eq, children]

theorem nodes_erased (t : Tree) : t.erased.nodes = t.nodes.map erased := by
  induction t using induct_children with
  | h t ih =>
    rw [nodes_eq, nodes_eq t, children_erased, List.map_cons, List.flatMap_map, List.map_flatMap]
    exact congrArg (t.erased :: ·) (List.flatMap_congr ih)

theorem variety_erased (t : Tree) : t.erased.variety = t.variety := by
  rcases t with _ | ⟨_ | _, _, _⟩ | _ | _ | ⟨_, _ | _⟩ | _ <;> rfl

theorem ofVariety_erased (v : Variety) (t : Tree) :
    t.erased.ofVariety v = (t.ofVariety v).map erased := by
  rw [ofVariety, nodes_erased, List.filter_map, ofVariety]
  congr 2
  funext u
  exact congrArg (·.isA v) (variety_erased u)

/-- A view that does not look at what is erased. -/
theorem filterMap_nodes_erased {α : Type} {view : Tree → Option α}
    (h : ∀ u, view u.erased = view u) (t : Tree) :
    t.erased.nodes.filterMap view = t.nodes.filterMap view := by
  rw [nodes_erased, List.filterMap_map]
  exact congrArg (List.filterMap · t.nodes) (funext h)

theorem targets_erased (t : Tree) : t.erased.targets = t.targets :=
  filterMap_nodes_erased
    (fun u => by rcases u with _ | ⟨_ | _, _, _⟩ | _ | _ | ⟨_, _ | _⟩ | _ <;> rfl) t

theorem bindings_erased (t : Tree) : t.erased.bindings = t.bindings :=
  filterMap_nodes_erased
    (fun u => by rcases u with _ | ⟨_ | _, _, _⟩ | _ | _ | ⟨_, _ | _⟩ | _ <;> rfl) t

/-! ## What is made of the tree -/

theorem map_erased {f g : Tree → Tree} {ts : List Tree} (h : ∀ t ∈ ts, (f t).erased = g t.erased) :
    (ts.map f).map erased = (ts.map erased).map g := by
  rw [List.map_map, List.map_map]
  exact List.map_congr_left h

theorem erased_quoted (names : List String) (t : Tree) :
    (t.quoted names).erased = (t.erased.quoted names).erased := by
  induction t using Tree.induct with
  | literal d => exact congrArg literal d.canonical_canonical.symm
  | call op args notes ih => simpa [quoted, quotedList_eq] using ih
  | apply f args notes ihf ih => simpa [quoted, quotedList_eq, ihf] using ih
  | marker kind body ih => cases kind <;> simp [quoted, erased, ih]
  | _ => rfl

theorem erased_mapScopes {f : Scope → Scope} {g : Notes → Notes} (hg : g [] = []) (t : Tree) :
    (t.mapScopes f g).erased = t.erased.mapScopes f g := by
  induction t using Tree.induct with
  | call op args notes ih =>
    rw [mapScopes_call, erased_call, erased_call, mapScopes_call, map_erased ih, hg]
  | apply u args notes ihu ih =>
    rw [mapScopes_apply, erased_apply, erased_apply, mapScopes_apply, map_erased ih, ihu, hg]
  | marker kind body ih => rw [mapScopes, erased, erased, mapScopes, ih]
  | _ => rfl

theorem erased_resolve (tag : Tag) (caller : Option Tag) (t : Tree) :
    (t.resolve tag caller).erased = t.erased.resolve tag caller := by
  rw [resolve_eq, resolve_eq, erased_mapScopes rfl]

theorem erased_plug (σ : String → Tree) (t : Tree) :
    (t.plug σ).erased = t.erased.plug fun target => (σ target).erased := by
  induction t using Tree.induct with
  | call op args notes ih =>
    rw [plug_call, erased_call, erased_call, plug_call, map_erased ih]
  | apply f args notes ihf ih =>
    rw [plug_apply, erased_apply, erased_apply, plug_apply, map_erased ih, ihf]
  | marker kind body ih => rw [plug, erased, erased, plug, ih]
  | _ => rfl

theorem erased_rename (ρ : Renaming) (t : Tree) :
    (t.rename ρ).erased = t.erased.rename ρ := by
  induction t using Tree.induct with
  | call op args notes ih =>
    rw [rename, erased_call, erased_call, rename, renameList_eq, renameList_eq, map_erased ih]
  | apply f args notes ihf ih =>
    rw [rename, erased_apply, erased_apply, rename, renameList_eq, renameList_eq, map_erased ih,
      ihf]
  | name ident scope =>
    obtain ⟨ident', scope', h⟩ := apply_cases ρ ident scope
    rw [erased, rename, h, erased]
  | marker kind body ih => rw [rename, erased, erased, rename, ih]
  | _ => rfl

theorem unquoteTargets_erased (t : Tree) : t.erased.unquoteTargets = t.unquoteTargets := by
  rw [← targets_quoted [], ← targets_erased, ← erased_quoted, targets_erased, targets_quoted]

end Tree

/-! ## Equal outcomes -/

/-- Outcomes that are equal trees, or errors of the same kind. A search that does not end counts as
an error of its own. -/
inductive EqualOutcome : Except Error Value → Except Error Value → Prop
  | returned {t u : Tree} (equal : t.equal u = true) : EqualOutcome (.ok (.tree t)) (.ok (.tree u))
  | raised {e e' : Error} (kind : e.kind = e'.kind)
      (endless : e = .endlessRenaming ↔ e' = .endlessRenaming) : EqualOutcome (.error e) (.error e')

/-- A value lists names, one for each of its items. -/
def Value.Lists (v : Value) (names : List String) : Prop := v.iterate = .ok (names.map .text)

/-- Two values list the same names, whatever the order, or neither of them lists names. -/
structure Value.SameNames (v w : Value) : Prop where
  both : (∃ xs, v.Lists xs) ↔ ∃ ys, w.Lists ys
  members : ∀ {xs ys}, v.Lists xs → w.Lists ys → ∀ x, x ∈ xs ↔ x ∈ ys

theorem Value.SameNames.of_lists {v w : Value} {xs ys : List String} (hv : v.Lists xs)
    (hw : w.Lists ys) (h : ∀ x, x ∈ xs ↔ x ∈ ys) : v.SameNames w := by
  have unique : ∀ {v : Value} {xs xs' : List String}, v.Lists xs → v.Lists xs' → xs = xs' :=
    fun hxs hxs' => List.map_injective_iff.2 (fun _ _ => Value.text.inj)
      (Except.ok.inj (hxs.symm.trans hxs'))
  refine ⟨⟨fun _ => ⟨ys, hw⟩, fun _ => ⟨xs, hv⟩⟩, fun {xs' ys'} hxs' hys' => ?_⟩
  rw [unique hxs' hv, unique hys' hw]
  exact h

/-- Two values that stand for equal trees, or neither of them for any. -/
def Value.SamePart (v w : Value) : Prop :=
  (∃ t u, v.asTree = .ok t ∧ w.asTree = .ok u ∧ t.equal u = true) ∨ ¬ v.IsPart ∧ ¬ w.IsPart

/-- Mappings with the same targets, in any order, whose values for a target stand for equal trees,
or neither of them for any. -/
structure Mapping.Agrees (m m' : Mapping) : Prop where
  keys : ∀ target, target ∈ m.keys ↔ target ∈ m'.keys
  values : ∀ {target v w}, m.entries.lookup target = some v → m'.entries.lookup target = some w →
    v.SamePart w

section
variable {a b : Tree}

/-- The same error. -/
theorem EqualOutcome.error (e : Error) : EqualOutcome (.error e) (.error e) := .raised rfl .rfl

theorem EqualOutcome.of_erased (h : a.erased = b.erased) :
    EqualOutcome (.ok (.tree a)) (.ok (.tree b)) := .returned (Tree.equal_iff.2 h)

/-! ### Quoting -/

theorem Tree.quoted_congr {names names' : List String} (h : ∀ x, x ∈ names ↔ x ∈ names')
    (t : Tree) : t.quoted names = t.quoted names' := by
  have hscope : templateScope names = templateScope names' := funext fun ident =>
    (templateScope_eq h ident).trans (templateScope_eq (fun _ => .rfl) ident).symm
  induction t using Tree.induct with
  | call op args notes ih =>
    rw [quoted, quoted, quotedList_eq, quotedList_eq, List.map_congr_left ih]
  | apply f args notes ihf ih =>
    rw [quoted, quoted, quotedList_eq, quotedList_eq, List.map_congr_left ih, ihf]
  | name ident scope =>
    cases scope with
    | source => rw [quoted, quoted, hscope]
    | _ => rfl
  | marker kind body ih =>
    cases kind with
    | unquote target => rfl
    | _ => exact congrArg (fun body => marker _ (some body)) ih
  | bare kind => cases kind <;> rfl
  | _ => rfl

/-- What does not list names is of the wrong type. -/
theorem Value.nameSet_error {v : Value} (h : ¬ ∃ names, v.Lists names) :
    ∃ e, v.nameSet .unhygienicNames = .error e ∧ e.kind = .typeFault ∧ e ≠ .endlessRenaming := by
  have texts : ∀ items : List Value, (∀ item ∈ items, ∃ s, item = .text s) →
      ∃ names : List String, items = names.map .text := by
    intro items hitems
    induction items with
    | nil => exact ⟨[], rfl⟩
    | cons item rest ih =>
      obtain ⟨s, rfl⟩ := hitems item (.head _)
      obtain ⟨names, rfl⟩ := ih fun item hitem => hitems item (.tail _ hitem)
      exact ⟨s :: names, rfl⟩
  unfold nameSet
  cases hiterate : v.iterate with
  | error e =>
    refine ⟨e, rfl, ?_⟩
    cases v <;> cases hiterate <;> exact ⟨rfl, by simp⟩
  | ok items =>
    simp only [bind, Except.bind]
    split
    · exact ⟨_, rfl, rfl, by simp⟩
    · split
      · rename_i hothers
        have hitems : ∀ item ∈ items, ∃ s, item = .text s := by
          intro item hitem
          have htext := List.filter_eq_nil_iff.1 hothers item hitem
          cases item with
          | text s => exact ⟨s, rfl⟩
          | _ => exact absurd rfl htext
        obtain ⟨names, rfl⟩ := texts items hitems
        exact absurd ⟨names, hiterate⟩ h
      · exact ⟨_, rfl, rfl, by simp⟩

/-- Quotation markers are left in both of two trees or in none. -/
theorem checkMarkers_equal (h : a.erased = b.erased) :
    EqualOutcome
      (do (Value.tree a).checkMarkers (.variety .quotation) quotingContext; return .tree a)
      (do (Value.tree b).checkMarkers (.variety .quotation) quotingContext; return .tree b) := by
  have hmarkers : (a.ofVariety .quotation).map Tree.erased =
      (b.ofVariety .quotation).map Tree.erased := by
    rw [← Tree.ofVariety_erased, h, Tree.ofVariety_erased]
  rw [Value.checkMarkers_variety, Value.checkMarkers_variety]
  generalize a.ofVariety .quotation = xs, b.ofVariety .quotation = ys at hmarkers
  rcases xs with _ | ⟨x, xs⟩ <;> rcases ys with _ | ⟨y, ys⟩
  · exact .of_erased h
  · cases hmarkers
  · cases hmarkers
  · exact .raised rfl (by simp)

theorem quote_equal (h : a.erased = b.erased) {names names' : Value}
    (hnames : names.SameNames names') :
    EqualOutcome ((Value.tree a).quote names) ((Value.tree b).quote names') := by
  by_cases hlists : ∃ xs, names.Lists xs
  · obtain ⟨ys, hys⟩ := hnames.both.1 hlists
    obtain ⟨xs, hxs⟩ := hlists
    have hmembers : ∀ x, x ∈ xs.eraseDups ↔ x ∈ ys.eraseDups := fun x => by
      rw [List.mem_eraseDups, List.mem_eraseDups, hnames.members hxs hys x]
    rw [Value.quote_tree hxs, Value.quote_tree hys, Tree.quoted_congr hmembers]
    have htargets : a.unquoteTargets = b.unquoteTargets := by
      rw [← a.unquoteTargets_erased, h, b.unquoteTargets_erased]
    have hquoted : (a.quoted ys.eraseDups).erased = (b.quoted ys.eraseDups).erased := by
      rw [Tree.erased_quoted, h, ← Tree.erased_quoted]
    rw [htargets]
    cases (Quoting.useAll b.unquoteTargets).run [] with
    | error e => exact .error e
    | ok used => exact checkMarkers_equal hquoted
  · have hneither : ¬ ∃ ys, names'.Lists ys := fun hys => hlists (hnames.both.2 hys)
    obtain ⟨e, he, hkind, hend⟩ := Value.nameSet_error hlists
    obtain ⟨e', he', hkind', hend'⟩ := Value.nameSet_error hneither
    rw [Value.quote, Value.quote, he, he']
    exact .raised (hkind.trans hkind'.symm) (iff_of_false hend hend')

/-! ### Substitution -/

namespace Mapping.Agrees

variable {m m' : Mapping}

theorem symm (h : m.Agrees m') : m'.Agrees m where
  keys target := (h.keys target).symm
  values := by
    intro target v w hv hw
    rcases h.values hw hv with ⟨t, u, ht, hu, htu⟩ | hneither
    · exact .inl ⟨u, t, hu, ht, Tree.equal_iff.2 (Tree.equal_iff.1 htu).symm⟩
    · exact .inr hneither.symm

theorem fit (h : m.Agrees m') (hfit : m.Fit) : m'.Fit := by
  rintro ⟨target, w⟩ hfield
  have hw := lookup_of_mem m'.distinct hfield
  have hkey : target ∈ m.keys := (h.keys target).2 (List.mem_map_of_mem hfield)
  obtain ⟨v, hv⟩ := Option.isSome_iff_exists.1 (isSome_lookup.2 hkey)
  rcases h.values hv hw with ⟨_, u, _, hu, _⟩ | hneither
  · exact Value.isPart_iff.2 ⟨u, hu⟩
  · exact absurd (hfit _ (mem_of_lookup hv)) hneither.1

theorem part? (h : m.Agrees m') (hfit : m.Fit) (target : String) :
    (m.part? target).map Tree.erased = (m'.part? target).map Tree.erased := by
  have hkeys := h.keys target
  rw [Mapping.keys, Mapping.keys, ← isSome_lookup, ← isSome_lookup] at hkeys
  rw [Mapping.part?, Mapping.part?]
  cases hv : m.entries.lookup target with
  | none =>
    cases hw : m'.entries.lookup target with
    | none => rfl
    | some w => simp [hv, hw] at hkeys
  | some v =>
    cases hw : m'.entries.lookup target with
    | none => simp [hv, hw] at hkeys
    | some w =>
      rcases h.values hv hw with ⟨t, u, ht, hu, htu⟩ | hneither
      · rw [Option.bind_some, Option.bind_some, ht, hu]
        exact congrArg some (Tree.equal_iff.1 htu)
      · exact absurd (hfit _ (mem_of_lookup hv)) hneither.1

end Mapping.Agrees

theorem substitute_equal (h : a.erased = b.erased) {m m' : Mapping} (hm : m.Agrees m') :
    EqualOutcome ((Value.tree a).substitute m.arguments)
      ((Value.tree b).substitute m'.arguments) := by
  by_cases hfit : m.Fit
  · obtain ⟨s, hs, -, hfind⟩ := m.exists_substitution hfit
    obtain ⟨s', hs', -, hfind'⟩ := m'.exists_substitution (hm.fit hfit)
    have hfinds : ∀ target,
        (s.lookup target).map Tree.erased = (s'.lookup target).map Tree.erased := by
      intro target
      rw [hfind, hfind', hm.part? hfit]
    have htargets : a.targets = b.targets := by rw [← a.targets_erased, h, b.targets_erased]
    have hmissing : s.missing? b.targets = s'.missing? b.targets := by
      rw [Substitution.missing?, Substitution.missing?]
      congr 1
      funext target
      rw [← Option.isNone_map, hfinds, Option.isNone_map]
    rw [Value.substitute_tree hs, Value.substitute_tree hs', htargets, Substitution.provided,
      Substitution.provided, hmissing]
    cases s'.missing? b.targets with
    | some target => exact .raised rfl (by simp)
    | none =>
      refine .of_erased ?_
      rw [Tree.fill, Tree.fill, Tree.erased_plug, Tree.erased_plug, h]
      refine Tree.plug_congr fun target _ => ?_
      rw [Substitution.part, Substitution.part, ← Option.getD_map Tree.erased,
        ← Option.getD_map Tree.erased, hfinds]
  · have hfit' : ¬ m'.Fit := fun hfit' => hfit (hm.symm.fit hfit')
    obtain ⟨_, _, _, _, _, _, _, herror⟩ := m.substitute_unfit hfit
    obtain ⟨_, _, _, _, _, _, _, herror'⟩ := m'.substitute_unfit hfit'
    rw [herror, herror']
    exact .raised rfl (by simp)

/-! ### Scopes -/

theorem resolve_equal (h : a.erased = b.erased) (tag caller : Value) :
    EqualOutcome ((Value.tree a).resolve tag caller) ((Value.tree b).resolve tag caller) := by
  rw [Value.resolve, Value.resolve]
  cases Tag.ofValue tag with
  | error e => exact .error e
  | ok t =>
    cases callerOfValue caller with
    | error e => exact .error e
    | ok c => exact .of_erased (by rw [Tree.erased_resolve, Tree.erased_resolve, h])

theorem flatten_equal (h : a.erased = b.erased) (sep : Value) :
    EqualOutcome ((Value.tree a).flatten sep) ((Value.tree b).flatten sep) := by
  have hbindings : a.bindings = b.bindings := by rw [← a.bindings_erased, h, b.bindings_erased]
  rw [flatten_tree, flatten_tree, hbindings]
  cases renamingFor sep b.bindings with
  | error e => exact .error e
  | ok ρ => exact .of_erased (by rw [Tree.erased_rename, Tree.erased_rename, h])

theorem collect_placeholders_equal (h : a.erased = b.erased) :
    (Value.tree a).collect Tree.placeholders = (Value.tree b).collect Tree.placeholders := by
  have hplaceholders : a.placeholders = b.placeholders := by
    rw [Tree.placeholders_eq, ← a.targets_erased, h, b.targets_erased, ← Tree.placeholders_eq]
  simp only [Value.collect, Value.forest, List.flatMap_cons, List.flatMap_nil, hplaceholders]

end

/-! ## Congruence -/

/-- **Equality is a congruence that notes cannot influence.** It is an equivalence, and trees are
equal exactly if they are the same once their notes are erased and the numbers in their literals are
in lowest terms, which two numbers share exactly if they have the same value. Equal trees are
quoted, filled, resolved and flattened to equal trees, or all fail with errors of the same kind, and
they have the same placeholders. The values that go into a template have to agree as literals do. -/
theorem equal_congruence :
    Equivalence (fun a b : Tree => a.equal b = true) ∧
    (∀ a b : Tree, a.equal b = true ↔ a.erased = b.erased) ∧
    (∀ x y : Binary64, x.canonical = y.canonical ↔ x.value = y.value) ∧
    ∀ a b : Tree, a.equal b = true →
      (∀ names names' : Value, names.SameNames names' →
        EqualOutcome ((Value.tree a).quote names) ((Value.tree b).quote names')) ∧
      (∀ m m' : Mapping, m.Agrees m' →
        EqualOutcome ((Value.tree a).substitute m.arguments)
          ((Value.tree b).substitute m'.arguments)) ∧
      (∀ tag caller : Value,
        EqualOutcome ((Value.tree a).resolve tag caller) ((Value.tree b).resolve tag caller)) ∧
      (∀ sep : Value, EqualOutcome ((Value.tree a).flatten sep) ((Value.tree b).flatten sep)) ∧
      (Value.tree a).collect Tree.placeholders = (Value.tree b).collect Tree.placeholders := by
  refine ⟨⟨fun a => ?_, fun h => ?_, fun h h' => ?_⟩, fun _ _ => Tree.equal_iff,
    fun _ _ => Binary64.canonical_eq_iff, fun a b h => ?_⟩
  · exact Tree.equal_iff.2 rfl
  · exact Tree.equal_iff.2 (Tree.equal_iff.1 h).symm
  · exact Tree.equal_iff.2 ((Tree.equal_iff.1 h).trans (Tree.equal_iff.1 h'))
  · have herased := Tree.equal_iff.1 h
    exact ⟨fun _ _ => quote_equal herased, fun _ _ => substitute_equal herased,
      resolve_equal herased, flatten_equal herased, collect_placeholders_equal herased⟩

namespace Catalogue

/-- A template with a zero of either sign, a placeholder and two names. -/
def zeroTemplate (negative : Bool) (notes : Notes) : Tree :=
  .call (.symbol "f") [.literal (.pair (.float (.zero negative)) (.int 1)), .placeholder "x",
    .name "y" .source, .name "y" (.tag ⟨1, Nat.one_pos⟩)] notes

/-- Values for the targets `x` and `k`. -/
def twoTargets (x k : Value) : Mapping :=
  ⟨[("x", x), ("k", k)], List.nodup_cons.2 ⟨by simp, List.nodup_singleton _⟩⟩

/-- The same in another order. -/
def twoTargetsSwapped (x k : Value) : Mapping :=
  ⟨[("k", k), ("x", x)], List.nodup_cons.2 ⟨by simp, List.nodup_singleton _⟩⟩

theorem agrees_twoTargets {x x' k k' : Value} (hx : x.SamePart x') (hk : k.SamePart k') :
    (twoTargets x k).Agrees (twoTargetsSwapped x' k') where
  keys target := by simp [Mapping.keys, twoTargets, twoTargetsSwapped, or_comm]
  values := by
    intro target v w hv hw
    have hfirst := mem_of_lookup hv
    have hsecond := mem_of_lookup hw
    simp only [twoTargets, twoTargetsSwapped, List.mem_cons, List.not_mem_nil, or_false,
      Prod.mk.injEq] at hfirst hsecond
    rcases hfirst with ⟨rfl, rfl⟩ | ⟨rfl, rfl⟩ <;> rcases hsecond with ⟨hname, rfl⟩ | ⟨hname, rfl⟩
    · exact absurd hname (by decide)
    · exact hx
    · exact hk
    · exact absurd hname (by decide)

end Catalogue

open Catalogue in
/-- The two zeros are equal numbers, nothing stands for the atom `nil`, and neither notes nor the
order of names and targets matter. -/
theorem equal_congruence_zeros :
    (zeroTemplate false [(.text "line", .int 7)]).equal
      (zeroTemplate true [(.text "scope", .int 3)]) = true ∧
    EqualOutcome ((Value.tree (zeroTemplate false [(.text "line", .int 7)])).quote
        (.tuple [.text "y", .text "x"]))
      ((Value.tree (zeroTemplate true [(.text "scope", .int 3)])).quote
        (.list [.text "x", .text "y", .text "x"])) ∧
    EqualOutcome ((Value.tree (zeroTemplate false [(.text "line", .int 7)])).substitute
        (twoTargets .nothing (.float (.zero true))).arguments)
      ((Value.tree (zeroTemplate true [(.text "scope", .int 3)])).substitute
        (twoTargetsSwapped (.atom "nil") (.float (.zero false))).arguments) := by
  have hequal : (zeroTemplate false [(.text "line", .int 7)]).equal
      (zeroTemplate true [(.text "scope", .int 3)]) = true := by rfl
  have hxs : (Value.tuple [.text "y", .text "x"]).Lists ["y", "x"] := rfl
  have hys : (Value.list [.text "x", .text "y", .text "x"]).Lists ["x", "y", "x"] := rfl
  have hnames : (Value.tuple [.text "y", .text "x"]).SameNames
      (.list [.text "x", .text "y", .text "x"]) := .of_lists hxs hys (by simp)
  have hmappings : (twoTargets .nothing (.float (.zero true))).Agrees
      (twoTargetsSwapped (.atom "nil") (.float (.zero false))) :=
    agrees_twoTargets (.inl ⟨_, _, rfl, rfl, rfl⟩) (.inl ⟨_, _, rfl, rfl, rfl⟩)
  obtain ⟨-, -, -, hcongruence⟩ := equal_congruence
  obtain ⟨hquote, hsubstitute, -⟩ := hcongruence _ _ hequal
  exact ⟨hequal, hquote _ _ hnames, hsubstitute _ _ hmappings⟩

/-- Values that are equal outside of trees need not be equal literals: the number 1 equals the truth
value true, but fills a placeholder with another literal. -/
theorem substitute_equal_values_differ : ¬ ∀ (a b : Tree) (m m' : Mapping), a.equal b = true →
    (∀ target, target ∈ m.keys ↔ target ∈ m'.keys) →
    (∀ target v w, m.entries.lookup target = some v → m'.entries.lookup target = some w →
      v.equal w = true) →
    EqualOutcome ((Value.tree a).substitute m.arguments)
      ((Value.tree b).substitute m'.arguments) := by
  intro h
  have hvalues : ∀ target v w, [("x", Value.int 1)].lookup target = some v →
      [("x", Value.bool true)].lookup target = some w → v.equal w = true := by
    intro target v w hv hw
    cases List.mem_singleton.1 (mem_of_lookup hv)
    cases List.mem_singleton.1 (mem_of_lookup hw)
    rfl
  have houtcome : EqualOutcome (.ok (.tree (.literal (.int 1))))
      (.ok (.tree (.literal (.bool true)))) :=
    h (.placeholder "x") (.placeholder "x") ⟨[("x", .int 1)], List.nodup_singleton _⟩
      ⟨[("x", .bool true)], List.nodup_singleton _⟩ rfl (fun _ => .rfl) hvalues
  cases houtcome with
  | returned hequal => cases hequal

end HygienicMacros
