import HygienicMacros.Proofs.ControlCharacters
import HygienicMacros.Proofs.Reports

/-! # What an outline draws

The lines of an outline, read off the tree and not off the way they are written. The line of a node
is found from its position alone: every step of the way down but the last leaves a trunk or a gap,
the last step a connector, and the label of the node follows.

* `Tree.positions`: all positions of a tree. They are those where there is a node (`mem_positions`),
  in lexicographic order (`positions_sorted`), and so name the nodes in scan order
  (`subtree?_positions`).
* `Tree.ahead`: what stands before the label of the node at a position.
* `Tree.outline_rows`: the rows of an outline, whatever stands before its root.
* `dump_drawn`: the lines of an outline are the lines of the nodes, one for each.
-/

namespace HygienicMacros

theorem Span.texts_intersperse (rows : List (List Span)) :
    texts (intersperse (.plain "\n") rows) = Text.unlines (rows.map texts) := by
  induction rows with
  | nil => rfl
  | cons row rows ih =>
    cases rows with
    | nil => exact (String.intercalate_singleton).symm
    | cons row' rows =>
      show texts (row ++ .plain "\n" :: intersperse (.plain "\n") (row' :: rows)) =
        "\n".intercalate (texts row :: texts row' :: rows.map texts)
      rw [texts_append, texts_cons, ih, String.intercalate_cons_cons, String.append_assoc]
      rfl

namespace Tree

/-! ## All positions -/

mutual

/-- The positions of a tree, each node before its children and these from left to right. -/
def positions : Tree → List (List Nat)
  | .call (.symbol _) args _ => [] :: positionsFrom 0 args
  | .call (.tree f) args _ => [] :: (f.positions.map (0 :: ·) ++ positionsFrom 1 args)
  | .marker _ (some body) => [] :: body.positions.map (0 :: ·)
  | .unhygienic _ => [[], [0]]
  | .literal _ | .placeholder _ | .name _ _ | .marker _ none => [[]]

/-- The positions in some children, the first of them child `k`. -/
def positionsFrom (k : Nat) : List Tree → List (List Nat)
  | [] => []
  | t :: ts => t.positions.map (k :: ·) ++ positionsFrom (k + 1) ts

end

theorem positions_eq (t : Tree) : t.positions = [] :: positionsFrom 0 t.children := by
  rcases t with _ | ⟨_ | _, _, _⟩ | _ | _ | ⟨_, _ | _⟩ | _ <;>
    simp [positions, positionsFrom, children]

theorem mem_positionsFrom {ts : List Tree} {k : Nat} {p : List Nat} :
    p ∈ positionsFrom k ts ↔
      ∃ j c q, p = (k + j) :: q ∧ ts[j]? = some c ∧ q ∈ c.positions := by
  induction ts generalizing k with
  | nil => simp [positionsFrom]
  | cons t ts ih =>
    rw [positionsFrom, List.mem_append, List.mem_map, ih]
    constructor
    · rintro (⟨q, hq, rfl⟩ | ⟨j, c, q, rfl, hc, hq⟩)
      · exact ⟨0, t, q, rfl, rfl, hq⟩
      · exact ⟨j + 1, c, q, by rw [Nat.add_right_comm, Nat.add_assoc], hc, hq⟩
    · rintro ⟨_ | j, c, q, rfl, hc, hq⟩
      · cases hc
        exact .inl ⟨q, hq, rfl⟩
      · exact .inr ⟨j, c, q, by rw [Nat.add_right_comm, Nat.add_assoc], hc, hq⟩

/-- The positions of a tree are those where there is a node. -/
theorem mem_positions {t : Tree} {p : List Nat} : p ∈ t.positions ↔ (t.subtree? p).isSome := by
  induction p generalizing t with
  | nil => simp [positions_eq, subtree?]
  | cons i p ih =>
    rw [positions_eq, List.mem_cons, or_iff_right (List.cons_ne_nil i p), mem_positionsFrom,
      subtree?]
    constructor
    · rintro ⟨j, c, q, heq, hc, hq⟩
      obtain ⟨rfl, rfl⟩ := List.cons.inj heq
      rw [Nat.zero_add, hc]
      exact ih.1 hq
    · intro h
      cases hc : t.children[i]? with
      | none => simp [hc] at h
      | some c =>
        rw [hc] at h
        exact ⟨i, c, p, by rw [Nat.zero_add], hc, ih.2 h⟩

theorem positionsFrom_sorted {ts : List Tree} (h : ∀ t ∈ ts, t.positions.Pairwise (· < ·))
    (k : Nat) : (positionsFrom k ts).Pairwise (· < ·) := by
  induction ts generalizing k with
  | nil => exact .nil
  | cons t ts ih =>
    rw [positionsFrom, List.pairwise_append]
    refine ⟨?_, ih (fun u hu => h u (.tail _ hu)) (k + 1), ?_⟩
    · refine List.pairwise_map.2 ((h t (.head _)).imp fun hlt => ?_)
      exact List.cons_lt_cons_self.2 hlt
    · -- a later child has a greater index
      intro p hp q hq
      obtain ⟨p, -, rfl⟩ := List.mem_map.1 hp
      obtain ⟨j, -, q, rfl, -⟩ := mem_positionsFrom.1 hq
      exact List.Lex.rel (by omega)

/-- The positions of a tree stand in lexicographic order. -/
theorem positions_sorted (t : Tree) : t.positions.Pairwise (· < ·) := by
  induction t using induct_children with
  | h t ih =>
    rw [positions_eq]
    refine .cons (fun p hp => ?_) (positionsFrom_sorted ih 0)
    obtain ⟨j, -, q, rfl, -⟩ := mem_positionsFrom.1 hp
    exact .nil

/-- Induction over the last children of a node, the first of them child `k`. -/
theorem induct_lastChildren {t : Tree} {P : Nat → List Tree → Prop} (nil : ∀ k, P k [])
    (cons : ∀ k c ts, t.children[k]? = some c → t.children.length = k + 1 + ts.length →
      P (k + 1) ts → P k (c :: ts)) {k : Nat} {ts : List Tree} (h : t.children.drop k = ts) :
    P k ts := by
  induction ts generalizing k with
  | nil => exact nil k
  | cons c ts ih =>
    have hc : t.children[k]? = some c := by rw [← List.head?_drop, h, List.head?_cons]
    have hrest : t.children.drop (k + 1) = ts := by rw [← List.tail_drop, h, List.tail_cons]
    have hlength : t.children.length = k + 1 + ts.length := by
      have := List.length_drop (i := k) (l := t.children)
      rw [h, List.length_cons] at this
      omega
    exact cons k c ts hc hlength (ih hrest)

/-- The positions name the nodes in scan order. -/
theorem subtree?_positions (t : Tree) : t.positions.map t.subtree? = t.nodes.map some := by
  induction t using induct_children with
  | h t ih =>
    rw [positions_eq, nodes_eq, List.map_cons, List.map_cons]
    refine congrArg (some t :: ·) (induct_lastChildren (t := t)
      (P := fun k ts => (positionsFrom k ts).map t.subtree? = (ts.flatMap nodes).map some)
      (fun _ => rfl) ?_ List.drop_zero)
    intro k c ts hc _ hrest
    have hchild : t.subtree? ∘ (k :: ·) = c.subtree? := by
      funext q
      simp only [Function.comp_apply, subtree?, hc, Option.bind_some]
    rw [positionsFrom, List.map_append, List.map_map, hchild, ih c (List.mem_of_getElem? hc),
      hrest, List.flatMap_cons, List.map_append]

/-! ## The line of a node -/

/-- Whether child `k` is the last one. -/
def isLastChild (t : Tree) (k : Nat) : Bool := t.children.length == k + 1

/-- Whether child `k` is the operator of a call. -/
def isOperatorChild : Tree → Nat → Bool
  | .call (.tree _) _ _, 0 => true
  | _, _ => false

/-- What stands directly before child `k`. -/
def connector (t : Tree) (k : Nat) : String :=
  (if t.isLastChild k then "└── " else "├── ") ++ (if t.isOperatorChild k then "(op) " else "")

/-- What stands below, before the descendants of child `k`. -/
def trunk (t : Tree) (k : Nat) : String := if t.isLastChild k then "    " else "│   "

/-- What stands before the node at a position. -/
def ahead (t : Tree) : List Nat → String
  | [] => ""
  | [k] => t.connector k
  | k :: i :: p => t.trunk k ++ match t.children[k]? with
    | some c => c.ahead (i :: p)
    | none => ""

/-- The label of a node: its operator, its marker without the body, or all of a leaf. -/
def caption : Tree → String
  | .call (.symbol op) _ _ => op
  | .call (.tree _) _ _ => "(call)"
  | .marker .plain _ => "$NodeMarker"
  | .marker .quotation _ => "$QuoteMarker"
  | .marker (.unquote target) _ => "$Unquote<target=" ++ Text.quoted target ++ ">"
  | .unhygienic _ => "$Unhygienic"
  | t => t.unparse

/-- The line of the node at a position. -/
def drawnLine (t : Tree) (p : List Nat) : String :=
  t.ahead p ++ ((t.subtree? p).map caption).getD ""

/-- The row of the node at a position, where nodes have other labels, the root stands after `lead`
and all other nodes after `margin`. -/
def row (label : Tree → String) (lead margin : String) (t : Tree) (p : List Nat) : String :=
  (if p = [] then lead else margin ++ t.ahead p) ++ ((t.subtree? p).map label).getD ""

theorem row_cons {label : Tree → String} {lead margin : String} {t c : Tree} {k : Nat}
    (hc : t.children[k]? = some c) (p : List Nat) :
    t.row label lead margin (k :: p) =
      c.row label (margin ++ t.connector k) (margin ++ t.trunk k) p := by
  cases p with
  | nil => simp [row, ahead, subtree?, hc]
  | cons i p => simp [row, ahead, subtree?, hc, String.append_assoc]

/-! ## The rows of an outline -/

/-- The text of the label of a node. -/
def labelText (style : OutlineStyle) (t : Tree) : String := Span.texts (t.label style)

/-- The outline of the tree has the rows of its nodes, whatever stands before it. -/
def Outlined (style : OutlineStyle) (t : Tree) : Prop :=
  ∀ lead margin, (t.outline style lead margin).map Span.texts =
    t.positions.map (t.row (labelText style) (Span.texts lead) (Span.texts margin))

section
variable {style : OutlineStyle} {t c : Tree} {k : Nat} (lead margin : List Span)

/-- The rows of a child, after the spans that lead to it. -/
theorem Outlined.child (h : c.Outlined style) (hc : t.children[k]? = some c)
    {branch trunk : List Span} (hbranch : Span.texts branch = t.connector k)
    (htrunk : Span.texts trunk = t.trunk k) :
    (c.outline style (margin ++ branch) (margin ++ trunk)).map Span.texts =
      (c.positions.map (k :: ·)).map
        (t.row (labelText style) (Span.texts lead) (Span.texts margin)) := by
  have hrow : t.row (labelText style) (Span.texts lead) (Span.texts margin) ∘ (k :: ·) =
      c.row (labelText style) (Span.texts margin ++ t.connector k)
        (Span.texts margin ++ t.trunk k) :=
    funext (row_cons hc)
  rw [h, List.map_map, hrow, Span.texts_append, Span.texts_append, hbranch, htrunk]

theorem isLastChild_eq {ts : List Tree} (h : t.children.length = k + 1 + ts.length) :
    t.isLastChild k = ts.isEmpty := by
  cases ts <;> simp [isLastChild, h]

theorem texts_branchSpan : Span.texts [branchSpan (t.isLastChild k)] =
    if t.isLastChild k then "└── " else "├── " := by
  cases t.isLastChild k <;> rfl

theorem texts_trunkSpan : Span.texts [trunkSpan (t.isLastChild k)] = t.trunk k := by
  unfold trunk
  cases t.isLastChild k <;> rfl

theorem outlineList_rows (ih : ∀ c ∈ t.children, c.Outlined style)
    (hop : ∀ j, k ≤ j → t.isOperatorChild j = false) {ts : List Tree}
    (hts : t.children.drop k = ts) :
    (outlineList style margin ts).map Span.texts = (positionsFrom k ts).map
      (t.row (labelText style) (Span.texts lead) (Span.texts margin)) := by
  revert hop
  refine induct_lastChildren (t := t) (P := fun k ts =>
    (∀ j, k ≤ j → t.isOperatorChild j = false) → (outlineList style margin ts).map Span.texts =
      (positionsFrom k ts).map (t.row (labelText style) (Span.texts lead) (Span.texts margin)))
    (fun _ _ => rfl) ?_ hts
  intro k c ts hc hlength hrest hop
  have hconnector : Span.texts [branchSpan (t.isLastChild k)] = t.connector k := by
    rw [texts_branchSpan, connector, hop k (Nat.le_refl k)]
    exact (String.append_empty).symm
  have hchild := (ih c (List.mem_of_getElem? hc)).child lead margin hc hconnector texts_trunkSpan
  rw [outlineList, positionsFrom, List.map_append, List.map_append, ← isLastChild_eq hlength,
    hchild, hrest fun j hj => hop j (Nat.le_of_succ_le hj)]

end

/-- The outline of a call of an operator tree: the operator is child 0, and its connector has a
mark. -/
theorem outlined_apply {style : OutlineStyle} {f : Tree} {args : List Tree} {notes : Notes}
    (ih : ∀ c ∈ f :: args, c.Outlined style) : (call (.tree f) args notes).Outlined style := by
  intro lead margin
  have hlast : (call (.tree f) args notes).isLastChild 0 = args.isEmpty :=
    isLastChild_eq (Nat.add_comm _ _)
  have hconnector : Span.texts [branchSpan args.isEmpty, operatorMark] =
      (call (.tree f) args notes).connector 0 := by
    rw [connector, hlast]
    cases args.isEmpty <;> rfl
  have htrunk : Span.texts [trunkSpan args.isEmpty] = (call (.tree f) args notes).trunk 0 :=
    hlast ▸ texts_trunkSpan
  have hoperator := (ih f (.head _)).child lead margin rfl hconnector htrunk
  have hop : ∀ j, 1 ≤ j → (call (.tree f) args notes).isOperatorChild j = false := by
    intro j hj
    obtain ⟨j, rfl⟩ := Nat.exists_eq_add_of_le' hj
    rfl
  have hdrop : (call (.tree f) args notes).children.drop 1 = args := rfl
  have hargs := outlineList_rows lead margin (t := call (.tree f) args notes) ih hop hdrop
  rw [outline, positions, List.map_cons, List.map_append, hoperator, hargs, List.map_cons,
    List.map_append, Span.texts_append]
  rfl

/-- The outline of any other tree. -/
theorem outline_eq {style : OutlineStyle} {lead margin : List Span} {t : Tree}
    (h : ∀ k, t.isOperatorChild k = false) : t.outline style lead margin =
      (lead ++ t.label style) :: outlineList style margin t.children := by
  rcases t with _ | ⟨_ | _, _, _⟩ | _ | _ | ⟨_, _ | _⟩ | _
  case call.tree => cases h 0
  all_goals simp [outline, outlineList, children, label, spans]

/-- The rows of an outline are the rows of the nodes, in the order of their positions. -/
theorem outline_rows (style : OutlineStyle) (t : Tree) : t.Outlined style := by
  have hplain : ∀ t : Tree, (∀ k, t.isOperatorChild k = false) →
      (∀ c ∈ t.children, c.Outlined style) → t.Outlined style := by
    intro t hop ih lead margin
    rw [outline_eq hop, positions_eq, List.map_cons, List.map_cons,
      outlineList_rows lead margin ih (fun j _ => hop j) List.drop_zero, Span.texts_append]
    rfl
  induction t using induct_children with
  | h t ih =>
    rcases t with _ | ⟨_ | f, args, notes⟩ | _ | _ | _ | _
    case call.tree => exact outlined_apply ih
    all_goals exact hplain _ (fun _ => rfl) ih

/-! ## The text of an outline -/

/-- The text of an outline is the text of its rows, which do not depend on how operators are
coloured. -/
theorem texts_outlineSpans (style : OutlineStyle) (t : Tree) :
    Span.texts (t.outlineSpans style) =
      Text.unlines (t.positions.map (t.row (labelText style) "" "")) := by
  rw [outlineSpans, Span.texts_intersperse, outline_rows]
  rfl

theorem labelText_eq_caption (roleOf : String → Role) (t : Tree) :
    t.labelText ⟨roleOf, false⟩ = t.caption := by
  rcases t with _ | ⟨_ | _, _, _⟩ | _ | _ | ⟨_ | _ | target, _⟩ | _
  case call.symbol op _ _ => exact String.append_empty
  case marker.unquote =>
    show "$" ++ ("Unquote" ++ ("<" ++ ("target=" ++ Text.quoted target) ++ ">" ++ "")) =
      "$Unquote<target=" ++ Text.quoted target ++ ">"
    have hhead : "$Unquote<target=" = "$" ++ "Unquote" ++ "<" ++ "target=" := by decide
    simp only [hhead, String.append_assoc, String.append_empty]
  all_goals rfl

theorem row_caption (t : Tree) : t.row caption "" "" = t.drawnLine := by
  funext p
  cases p <;> simp [row, drawnLine, ahead]

theorem visible_connector (t : Tree) (k : Nat) : Text.Visible (t.connector k) := by
  unfold connector
  rw [Text.visible_append]
  constructor <;> split <;> decide

theorem visible_ahead (t : Tree) (p : List Nat) : Text.Visible (t.ahead p) := by
  induction p generalizing t with
  | nil => exact (by decide : Text.Visible "")
  | cons k p ih =>
    cases p with
    | nil => exact t.visible_connector k
    | cons i p =>
      rw [ahead, Text.visible_append]
      constructor
      · unfold trunk
        split <;> decide
      · split
        · exact ih _
        · decide

/-- A control character in a row is one of a text that is shown as it is. -/
theorem lacks_row {c : Char} (hc : c.toNat < 0x20) {style : OutlineStyle} {t : Tree}
    (h : t.Lacks c) (hkeys : style.showNotes = true → t.KeysLack c) (p : List Nat) :
    Text.Lacks c (t.row (labelText style) "" "" p) := by
  have hempty : Text.Lacks c "" := (by decide : Text.Visible "").lacks hc
  refine Text.lacks_append.2 ⟨?_, ?_⟩
  · split
    · exact hempty
    · exact Text.lacks_append.2 ⟨hempty, (t.visible_ahead p).lacks hc⟩
  · cases hu : t.subtree? p with
    | none => exact hempty
    | some u =>
      have hmem := mem_nodes_iff.2 ⟨p, hu⟩
      exact lacks_label hc (h.of_mem hmem) fun hshow => (hkeys hshow).of_mem hmem

end Tree

/-- An outline without notes draws the tree: there is one line for each node, in scan order, and it
is the line of the position of that node. The positions are all positions in the tree, in
lexicographic order, an operator before the arguments. -/
theorem dump_drawn (t : Tree) (h : t.Lacks '\n') (registry : Option Registry) :
    ∃ text, (Value.tree t).dump .plain false registry = .ok text ∧
      Text.lines text = t.positions.map t.drawnLine ∧
      t.positions.map t.subtree? = t.nodes.map some ∧
      (∀ p, p ∈ t.positions ↔ (t.subtree? p).isSome) ∧
      t.positions.Pairwise (· < ·) := by
  refine ⟨_, rfl, ?_, t.subtree?_positions, fun p => Tree.mem_positions, t.positions_sorted⟩
  have hlabel : Tree.labelText ⟨roleIn registry, false⟩ = Tree.caption :=
    funext (Tree.labelText_eq_caption _)
  have hrows : t.positions ≠ [] := by
    rw [Tree.positions_eq]
    exact List.cons_ne_nil _ _
  rw [Tree.texts_outlineSpans, Text.lines_unlines (mt List.map_eq_nil_iff.1 hrows), hlabel,
    Tree.row_caption]
  refine List.forall_mem_map.2 fun p _ => Tree.lacks_row (by decide) h (fun hshow => ?_) p
  exact absurd hshow Bool.false_ne_true

/-- A call whose operator is a call of a name without arguments, with a marker and a bare name as
arguments; a newline inside a literal is shown as an escape. -/
def branching : Tree :=
  .call (.tree (.call (.tree (.name "f" .source)) [] []))
    [.marker (.unquote "x")
      (some (.call (.symbol "g") [.literal (.int 1), .literal (.text "a\nb")] [])),
     .unhygienic "y"] []

theorem dump_drawn_branching : branching.Lacks '\n' ∧
    ∃ text, (Value.tree branching).dump .plain false none = .ok text ∧
      Text.lines text =
        ["(call)",
         "├── (op) (call)",
         "│   └── (op) f",
         "├── $Unquote<target='x'>",
         "│   └── g",
         "│       ├── 1",
         "│       └── \"a\\nb\"",
         "└── $Unhygienic",
         "    └── y"] := by
  have h : branching.Lacks '\n' := by
    unfold Tree.Lacks Text.Lacks
    decide
  obtain ⟨text, htext, hlines, -⟩ := dump_drawn branching h none
  refine ⟨h, text, htext, ?_⟩
  rw [hlines]
  decide

end HygienicMacros
