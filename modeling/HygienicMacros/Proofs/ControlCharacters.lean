import HygienicMacros.Proofs.Positions
import HygienicMacros.Render.Text

/-! # Control characters in shown texts

Whatever is quoted, counted or inspected is shown without control characters, which stand there as
escapes (`Text.visible_quoted`, `Value.visible_inspect`). Only some texts are shown as they are:
operator symbols, names, atoms, the targets of placeholders, and the keys of notes. So a control
character that is in none of them is nowhere in a rendered tree (`Tree.lacks_spans`,
`Tree.lacks_label`).
-/

namespace HygienicMacros

/-! ## Texts -/

namespace Text

/-- A text without control characters. -/
def Visible (s : String) : Prop := ∀ c ∈ s.toList, 0x20 ≤ c.toNat

instance (s : String) : Decidable (Visible s) :=
  List.decidableBAll (fun c : Char => 0x20 ≤ c.toNat) s.toList

/-- A text without a given character. -/
def Lacks (c : Char) (s : String) : Prop := c ∉ s.toList

@[simp] theorem visible_append {a b : String} : Visible (a ++ b) ↔ Visible a ∧ Visible b := by
  simp [Visible, or_imp, forall_and]

@[simp] theorem lacks_append {c : Char} {a b : String} :
    Lacks c (a ++ b) ↔ Lacks c a ∧ Lacks c b := by
  simp [Lacks]

theorem visible_ofList {cs : List Char} :
    Visible (String.ofList cs) ↔ ∀ c ∈ cs, 0x20 ≤ c.toNat := by
  simp [Visible]

theorem Visible.lacks {c : Char} {s : String} (h : Visible s) (hc : c.toNat < 0x20) : Lacks c s :=
  fun hmem => Nat.not_lt.2 (h c hmem) hc

theorem mem_intercalate {c : Char} {sep : String} : ∀ {ts : List String},
    c ∈ (sep.intercalate ts).toList → c ∈ sep.toList ∨ ∃ t ∈ ts, c ∈ t.toList
  | [], h => by simp at h
  | [t], h => .inr ⟨t, .head _, by simpa using h⟩
  | t :: t' :: ts, h => by
    rw [String.intercalate_cons_cons, String.toList_append, String.toList_append, List.mem_append,
      List.mem_append] at h
    rcases h with (h | h) | h
    · exact .inr ⟨t, .head _, h⟩
    · exact .inl h
    · exact (mem_intercalate h).imp_right fun ⟨u, hu, hc⟩ => ⟨u, .tail _ hu, hc⟩

theorem visible_commas {ts : List String} (h : ∀ t ∈ ts, Visible t) : Visible (commas ts) := by
  intro c hc
  rcases mem_intercalate hc with hc | ⟨t, ht, hc⟩
  · exact (show Visible ", " by decide) c hc
  · exact h t ht c hc

theorem lacks_commas {c : Char} (hc : c.toNat < 0x20) {ts : List String}
    (h : ∀ t ∈ ts, Lacks c t) : Lacks c (commas ts) := by
  intro hmem
  rcases mem_intercalate hmem with hmem | ⟨t, ht, hmem⟩
  · exact (show Visible ", " by decide).lacks hc hmem
  · exact h t ht hmem

/-! ## Quoted texts -/

theorem le_of_mem_pair {a b c : Char} (ha : 0x20 ≤ a.toNat) (hb : 0x20 ≤ b.toNat)
    (h : c ∈ [a, b]) : 0x20 ≤ c.toNat := by
  rcases List.mem_pair.1 h with rfl | rfl
  · exact ha
  · exact hb

theorem le_of_mem_hex {c : Char} : ∀ {width n : Nat}, c ∈ hex width n → 0x20 ≤ c.toNat
  | 0, _, h => by cases h
  | width + 1, n, h => by
    rcases List.mem_append.1 h with h | h
    · exact le_of_mem_hex h
    · have hdigit : ∀ d < 16, 0x20 ≤ (Nat.digitChar d).toNat := by decide
      rw [List.mem_singleton.1 h]
      exact hdigit _ (Nat.mod_lt n (by decide))

/-- An escape is a backslash, a letter and digits. -/
theorem le_of_mem_escape {letter c : Char} (hletter : 0x20 ≤ letter.toNat) {width n : Nat}
    (h : c ∈ ['\\', letter] ++ hex width n) : 0x20 ≤ c.toNat := by
  rcases List.mem_append.1 h with h | h
  · exact le_of_mem_pair (by decide) hletter h
  · exact le_of_mem_hex h

theorem le_of_isPrintable {c : Char} (h : isPrintable c = true) : 0x20 ≤ c.toNat := by
  unfold isPrintable at h
  split at h
  · exact of_decide_eq_true h
  · omega

theorem le_of_mem_quotedChar {quote x c : Char} (hquote : 0x20 ≤ quote.toNat)
    (h : c ∈ quotedChar quote x) : 0x20 ≤ c.toNat := by
  unfold quotedChar at h
  split at h
  · exact le_of_mem_pair (by decide) (by decide) h
  split at h
  · rename_i hx
    exact le_of_mem_pair (by decide) (hx ▸ hquote) h
  iterate 3
    split at h
    · exact le_of_mem_pair (by decide) (by decide) h
  split at h
  · rename_i hprintable
    rw [List.mem_singleton.1 h]
    exact le_of_isPrintable hprintable
  unfold hexEscape at h
  dsimp only at h
  split at h
  · exact le_of_mem_escape (by decide) h
  split at h
  · exact le_of_mem_escape (by decide) h
  · exact le_of_mem_escape (by decide) h

theorem le_of_mem_doubleQuotedChar {x c : Char} (h : c ∈ doubleQuotedChar x) :
    0x20 ≤ c.toNat := by
  unfold doubleQuotedChar at h
  split at h
  · rename_i hx
    exact le_of_mem_pair (by decide) (hx ▸ by decide) h
  iterate 6
    split at h
    · exact le_of_mem_pair (by decide) (by decide) h
  split at h
  · exact le_of_mem_escape (by decide) h
  · rename_i hx
    rw [List.mem_singleton.1 h]
    exact Nat.not_lt.1 hx

/-- A text between quotes, where each character is written as one or several that are no control
characters. -/
theorem visible_between {quote : Char} {write : Char → List Char} (hquote : 0x20 ≤ quote.toNat)
    (hwrite : ∀ x, ∀ c ∈ write x, 0x20 ≤ c.toNat) (cs : List Char) :
    Visible (String.ofList (quote :: (cs.flatMap write ++ [quote]))) := by
  rw [visible_ofList]
  intro c hc
  rcases List.mem_cons.1 hc with rfl | hc
  · exact hquote
  rcases List.mem_append.1 hc with hc | hc
  · obtain ⟨x, -, hx⟩ := List.mem_flatMap.1 hc
    exact hwrite x c hx
  · rw [List.mem_singleton.1 hc]
    exact hquote

theorem visible_quoted (s : String) : Visible (quoted s) := by
  have hquote : 0x20 ≤ (quoteFor s.toList).toNat := by
    unfold quoteFor
    split <;> decide
  exact visible_between hquote (fun _ _ => le_of_mem_quotedChar hquote) s.toList

theorem visible_doubleQuoted (s : String) : Visible (doubleQuoted s) :=
  visible_between (by decide) (fun _ _ => le_of_mem_doubleQuotedChar) s.toList

/-! ## Numbers -/

theorem le_of_mem_toDigits {n : Nat} {c : Char} (h : c ∈ Nat.toDigits 10 n) : 0x20 ≤ c.toNat := by
  have hdigit := Nat.isDigit_of_mem_toDigits (by decide) (by decide) h
  rw [Char.isDigit, Bool.and_eq_true, decide_eq_true_eq] at hdigit
  exact Nat.le_trans (by decide) (UInt32.le_iff_toNat_le.1 hdigit.1)

theorem visible_nat (n : Nat) : Visible (toString n) := by
  intro c hc
  rw [Nat.toString_eq_ofList_toDigits, String.toList_ofList] at hc
  exact le_of_mem_toDigits hc

theorem visible_int (n : Int) : Visible (toString n) := by
  rw [Int.toString_eq_repr, Int.repr_eq_if]
  split
  · exact visible_nat _
  · exact visible_append.2 ⟨by decide, visible_nat _⟩

end Text

theorem DecimalFormat.visible_zeros (n : Nat) : Text.Visible (zeros n) := by
  rw [zeros, Text.visible_ofList]
  intro c hc
  rw [List.eq_of_mem_replicate hc]
  decide

theorem DecimalFormat.visible_layout (format : DecimalFormat) (digits : Nat) (p : Int) :
    Text.Visible (format.layout digits p) := by
  -- all digits of the number, or some of them
  have hdigits : ∀ ds : List Char, ds ⊆ Nat.toDigits 10 digits →
      Text.Visible (String.ofList ds) := by
    intro ds hds
    exact Text.visible_ofList.2 fun c hc => Text.le_of_mem_toDigits (hds hc)
  have htake := fun n => hdigits _ (List.take_subset n (Nat.toDigits 10 digits))
  have hdrop := fun n => hdigits _ (List.drop_subset n (Nat.toDigits 10 digits))
  have hall := hdigits _ (List.Subset.refl _)
  unfold layout
  dsimp only
  split
  · split
    · exact Text.visible_append.2 ⟨Text.visible_append.2 ⟨by decide, visible_zeros _⟩, hall⟩
    · split
      · exact Text.visible_append.2 ⟨Text.visible_append.2 ⟨hall, visible_zeros _⟩, by decide⟩
      · exact Text.visible_append.2 ⟨Text.visible_append.2 ⟨htake _, by decide⟩, hdrop _⟩
  · have hexponent : ∀ q : Int, Text.Visible (format.exponentText q) := by
      intro q
      unfold exponentText
      simp only [Text.visible_append]
      refine ⟨⟨?_, visible_zeros _⟩, Text.visible_nat _⟩
      split <;> decide
    simp only [Text.visible_append]
    refine ⟨⟨⟨htake 1, ?_⟩, by decide⟩, hexponent _⟩
    split
    · decide
    · exact Text.visible_append.2 ⟨by decide, hdrop 1⟩

theorem Binary64.visible_write (format : DecimalFormat) (x : Binary64) :
    Text.Visible (x.write format) := by
  cases x with
  | nan origin => exact (show Text.Visible "nan" by decide)
  | infinite negative =>
    show Text.Visible (if negative then "-inf" else "inf")
    split <;> decide
  | finite negative m e =>
    rw [write, Text.visible_append]
    constructor
    · split <;> decide
    · split
      · decide
      · exact format.visible_layout _ _

/-! ## Inspected values -/

theorem visible_boolText (b : Bool) : Text.Visible (boolText b) := by
  cases b <;> decide

theorem visible_atomText (name : String) : Text.Visible (atomText name) := by
  simp only [atomText, Text.visible_append, Text.visible_quoted]
  decide

theorem Pending.visible_inspect (p : Pending) : Text.Visible p.inspect := by
  cases p <;> decide

theorem Variety.visible_label (v : Variety) : Text.Visible v.label := by
  cases v <;> decide

theorem visible_tupleText {parts : List String} (h : ∀ s ∈ parts, Text.Visible s) :
    Text.Visible (tupleText parts) := by
  unfold tupleText
  split
  · simp only [Text.visible_append, h _ (.head _)]
    decide
  · simp only [Text.visible_append, Text.visible_commas h]
    decide

theorem Datum.visible_inspect (d : Datum) : Text.Visible d.inspect := by
  induction d with
  | bool b => exact visible_boolText b
  | int n => exact Text.visible_int n
  | float x => exact x.visible_write _
  | text s => exact Text.visible_quoted s
  | atom name => exact visible_atomText name
  | pair first second ihf ihs =>
    exact visible_tupleText (List.forall_mem_cons.2 ⟨ihf, List.forall_mem_singleton.2 ihs⟩)

theorem Scope.visible_inspect (scope : Scope) : Text.Visible scope.inspect := by
  cases scope with
  | source => exact (show Text.Visible "None" by decide)
  | tag t => exact Text.visible_nat t.number
  | pending p => exact p.visible_inspect

theorem MarkerKind.visible_inspect (kind : MarkerKind) {body : String} (h : Text.Visible body) :
    Text.Visible (kind.inspect body) := by
  cases kind with
  | plain =>
    show Text.Visible ("NodeMarker(body=" ++ body ++ ")")
    simp only [Text.visible_append, h]
    decide
  | quotation =>
    show Text.Visible ("QuoteMarker(body=" ++ body ++ ")")
    simp only [Text.visible_append, h]
    decide
  | unquote target =>
    show Text.Visible ("Unquote(target=" ++ Text.quoted target ++ ", body=" ++ body ++ ")")
    simp only [Text.visible_append, Text.visible_quoted, h]
    decide

theorem Tree.inspectList_eq (ts : List Tree) : inspectList ts = ts.map inspect := by
  induction ts with
  | nil => rfl
  | cons t ts ih => rw [inspectList, ih, List.map_cons]

theorem Tree.visible_inspect (t : Tree) : Text.Visible t.inspect := by
  have hargs : ∀ args : List Tree, (∀ a ∈ args, Text.Visible a.inspect) →
      Text.Visible (tupleText (inspectList args)) := by
    intro args h
    rw [inspectList_eq]
    exact visible_tupleText (List.forall_mem_map.2 h)
  induction t using Tree.induct with
  | literal d =>
    show Text.Visible ("Literal(value=" ++ d.inspect ++ ")")
    simp only [Text.visible_append, d.visible_inspect]
    decide
  | call op args notes ih =>
    show Text.Visible ("Call(op=" ++ Text.quoted op ++ ", args=" ++
      tupleText (inspectList args) ++ ")")
    simp only [Text.visible_append, Text.visible_quoted, hargs args ih]
    decide
  | apply f args notes ihf ih =>
    show Text.Visible ("Call(op=" ++ f.inspect ++ ", args=" ++ tupleText (inspectList args) ++ ")")
    simp only [Text.visible_append, ihf, hargs args ih]
    decide
  | placeholder target =>
    show Text.Visible ("Placeholder(target=" ++ Text.quoted target ++ ")")
    simp only [Text.visible_append, Text.visible_quoted]
    decide
  | name ident scope =>
    show Text.Visible ("BindingName(name=" ++ Text.quoted ident ++ ", scope=" ++
      scope.inspect ++ ")")
    simp only [Text.visible_append, Text.visible_quoted, scope.visible_inspect]
    decide
  | bare kind =>
    show Text.Visible (kind.inspect "None")
    exact kind.visible_inspect (by decide)
  | marker kind body ih =>
    show Text.Visible (kind.inspect body.inspect)
    exact kind.visible_inspect ih
  | unhygienic ident =>
    show Text.Visible ("Unhygienic(body=BindingName(name=" ++ Text.quoted ident ++ ", scope=None))")
    simp only [Text.visible_append, Text.visible_quoted]
    decide

mutual

theorem Value.visible_inspect : ∀ v : Value, Text.Visible v.inspect
  | .nothing => by
    show Text.Visible "None"
    decide
  | .bool b => visible_boolText b
  | .int n => Text.visible_int n
  | .float x => x.visible_write _
  | .text s => Text.visible_quoted s
  | .atom name => visible_atomText name
  | .pending p => p.visible_inspect
  | .tuple items => visible_tupleText (visible_inspectList items)
  | .list items => by
    show Text.Visible ("[" ++ Text.commas (inspectList items) ++ "]")
    simp only [Text.visible_append, Text.visible_commas (visible_inspectList items)]
    decide
  | .record entries => by
    show Text.Visible ("\x7b" ++ Text.commas (inspectEntries entries) ++ "\x7d")
    simp only [Text.visible_append, Text.visible_commas (visible_inspectEntries entries)]
    decide
  | .variety v => by
    show Text.Visible ("<class " ++ Text.quoted v.fullName ++ ">")
    simp only [Text.visible_append, Text.visible_quoted]
    decide
  | .tree t => t.visible_inspect

theorem Value.visible_inspectList : ∀ vs : List Value, ∀ s ∈ inspectList vs, Text.Visible s
  | [] => List.forall_mem_nil _
  | v :: vs => List.forall_mem_cons.2 ⟨v.visible_inspect, visible_inspectList vs⟩

theorem Value.visible_inspectEntries :
    ∀ entries : List (Value × Value), ∀ s ∈ inspectEntries entries, Text.Visible s
  | [] => List.forall_mem_nil _
  | (key, v) :: rest => by
    refine List.forall_mem_cons.2 ⟨?_, visible_inspectEntries rest⟩
    simp only [Text.visible_append, key.visible_inspect, v.visible_inspect]
    decide

end

/-! ## Rendered trees -/

theorem Span.lacks_texts {c : Char} {spans : List Span} :
    Text.Lacks c (texts spans) ↔ ∀ s ∈ spans, Text.Lacks c s.text := by
  induction spans with
  | nil => simp [Text.Lacks]
  | cons s rest ih => rw [texts_cons, Text.lacks_append, ih, List.forall_mem_cons]

/-- The texts in the value of a literal that are shown as they are. -/
def Datum.bareTexts : Datum → List String
  | .atom name => [name]
  | .pair first second => first.bareTexts ++ second.bareTexts
  | _ => []

namespace Tree

/-- The texts of a node that are shown as they are: an operator symbol, the atoms of a literal, the
target of a placeholder, a name. -/
def bareTexts : Tree → List String
  | .literal d => d.bareTexts
  | .call (.symbol op) _ _ => [op]
  | .placeholder target => [target]
  | .name ident _ => [ident]
  | _ => []

/-- The notes of a node. -/
def notes : Tree → Notes
  | .call _ _ notes => notes
  | _ => []

/-- No operator symbol, atom, target of a placeholder or name in the tree has the character. -/
def Lacks (c : Char) (t : Tree) : Prop := ∀ u ∈ t.nodes, ∀ s ∈ u.bareTexts, Text.Lacks c s

/-- No text that is the key of a note in the tree has the character. -/
def KeysLack (c : Char) (t : Tree) : Prop :=
  ∀ u ∈ t.nodes, ∀ key value, (.text key, value) ∈ u.notes → Text.Lacks c key

variable {c : Char} {t u : Tree}

theorem Lacks.own (h : t.Lacks c) : ∀ s ∈ t.bareTexts, Text.Lacks c s := h t (mem_nodes_self t)

theorem Lacks.of_mem (h : t.Lacks c) (hu : u ∈ t.nodes) : u.Lacks c :=
  fun v hv => h v (mem_nodes_trans hu hv)

theorem KeysLack.of_mem (h : t.KeysLack c) (hu : u ∈ t.nodes) : u.KeysLack c :=
  fun v hv => h v (mem_nodes_trans hu hv)

theorem Lacks.child (h : t.Lacks c) (hu : u ∈ t.children) : u.Lacks c :=
  h.of_mem (mem_nodes_of_child hu (mem_nodes_self u))

end Tree

section
variable {c : Char} (hc : c.toNat < 0x20)
include hc

theorem Datum.lacks_texts {d : Datum} (h : ∀ s ∈ d.bareTexts, Text.Lacks c s) :
    Text.Lacks c (Span.texts d.spans) := by
  have hvisible : ∀ {s}, Text.Visible s → Text.Lacks c s := fun hs => hs.lacks hc
  induction d with
  | bool b =>
    show Text.Lacks c ((if b then "true" else "false") ++ "")
    cases b <;> exact hvisible (by decide)
  | int n =>
    show Text.Lacks c (toString n ++ "")
    exact hvisible (Text.visible_append.2 ⟨Text.visible_int n, by decide⟩)
  | float x =>
    show Text.Lacks c (x.write .standard ++ "")
    exact hvisible (Text.visible_append.2 ⟨x.visible_write _, by decide⟩)
  | text s =>
    show Text.Lacks c (Text.doubleQuoted s ++ "")
    exact hvisible (Text.visible_append.2 ⟨Text.visible_doubleQuoted s, by decide⟩)
  | atom name =>
    show Text.Lacks c ((if name = "nil" then "nil" else ":" ++ name) ++ "")
    have hname := h name (.head _)
    split
    · exact hvisible (by decide)
    · simp (disch := decide) only [Text.lacks_append, hname, hvisible, and_self]
  | pair first second ihf ihs =>
    obtain ⟨hfirst, hsecond⟩ := List.forall_mem_append.1 h
    simp (disch := decide) only [spans, Span.texts_cons, Span.texts_append, Span.texts_nil,
      Span.plain, Text.lacks_append, ihf hfirst, ihs hsecond, hvisible, and_self]

theorem Scope.lacks_texts (scope : Scope) : Text.Lacks c (Span.texts scope.spans) := by
  refine Text.Visible.lacks ?_ hc
  cases scope with
  | source => exact (by decide : Text.Visible "")
  | tag t =>
    show Text.Visible ("@" ++ toString t.number ++ "")
    simp only [Text.visible_append, Text.visible_nat]
    decide
  | pending p => cases p <;> decide

theorem lacks_nameSpans {ident : String} (h : Text.Lacks c ident) (scope : Scope) :
    Text.Lacks c (Span.texts (nameSpans ident scope)) :=
  Text.lacks_append.2 ⟨h, scope.lacks_texts hc⟩

namespace Tree

omit hc in
theorem visible_extras (t : Tree) : ∀ s ∈ t.extras, Text.Visible s := by
  have hfield : ∀ {a b : String}, Text.Visible a → Text.Visible b → Text.Visible (a ++ b) :=
    fun ha hb => Text.visible_append.2 ⟨ha, hb⟩
  rcases t with d | ⟨head, args, _⟩ | target | ⟨ident, scope⟩ | ⟨_ | _ | target, _⟩ | _
  case literal => exact List.forall_mem_singleton.2 (hfield (by decide) d.visible_inspect)
  case call =>
    have hargs : Text.Visible (tupleText (inspectList args)) := by
      rw [inspectList_eq]
      exact visible_tupleText (List.forall_mem_map.2 fun a _ => a.visible_inspect)
    exact List.forall_mem_cons.2 ⟨hfield (by decide) head.toValue.visible_inspect,
      List.forall_mem_singleton.2 (hfield (by decide) hargs)⟩
  case name =>
    exact List.forall_mem_cons.2 ⟨hfield (by decide) (Text.visible_quoted ident),
      List.forall_mem_singleton.2 (hfield (by decide) scope.visible_inspect)⟩
  case placeholder =>
    exact List.forall_mem_singleton.2 (hfield (by decide) (Text.visible_quoted target))
  case marker.unquote =>
    exact List.forall_mem_singleton.2 (hfield (by decide) (Text.visible_quoted target))
  all_goals exact List.forall_mem_nil _

theorem lacks_markerHead (t : Tree) : Text.Lacks c (Span.texts t.markerHead) := by
  refine Text.Visible.lacks ?_ hc
  have hextras := Text.visible_commas t.visible_extras
  show Text.Visible ("$" ++ (t.variety.label ++ Span.texts
    (if t.extras.isEmpty then [] else [.plain ("<" ++ Text.commas t.extras ++ ">")])))
  rw [Text.visible_append, Text.visible_append]
  refine ⟨by decide, t.variety.visible_label, ?_⟩
  split
  · decide
  · simp only [Span.texts_cons, Span.texts_nil, Span.plain, Text.visible_append, hextras]
    decide

omit hc in
theorem texts_spansList_cons (roleOf : String → Role) (t t' : Tree) (ts : List Tree) :
    Span.texts (spansList roleOf (t :: t' :: ts)) =
      Span.texts (t.spans roleOf) ++ (", " ++ Span.texts (spansList roleOf (t' :: ts))) :=
  Span.texts_append _ _

theorem lacks_spansList {roleOf : String → Role} : ∀ {ts : List Tree},
    (∀ t ∈ ts, Text.Lacks c (Span.texts (t.spans roleOf))) →
    Text.Lacks c (Span.texts (spansList roleOf ts))
  | [], _ => (by decide : Text.Visible "").lacks hc
  | [t], h => h t (.head _)
  | t :: t' :: ts, h => by
    have hrest : Text.Lacks c (Span.texts (spansList roleOf (t' :: ts))) :=
      lacks_spansList fun u hu => h u (.tail _ hu)
    rw [texts_spansList_cons, Text.lacks_append, Text.lacks_append]
    exact ⟨h t (.head _), Text.Visible.lacks (by decide) hc, hrest⟩

/-- A control character in the text of a tree on one line is one of a text that is shown as it
is. -/
theorem lacks_spans {roleOf : String → Role} {t : Tree} (h : t.Lacks c) :
    Text.Lacks c (Span.texts (t.spans roleOf)) := by
  have hvisible : ∀ {s}, Text.Visible s → Text.Lacks c s := fun hs => hs.lacks hc
  induction t using Tree.induct with
  | literal d => exact d.lacks_texts hc h.own
  | call op args notes ih =>
    have hop := h.own op (.head _)
    have hargs := lacks_spansList hc fun a ha => ih a ha (h.child ha)
    simp (disch := decide) only [spans, Span.texts_cons, Span.texts_append, Span.texts_nil,
      Span.plain, Span.of, Text.lacks_append, hop, hargs, hvisible, and_self]
  | apply f args notes ihf ih =>
    have hf := ihf (h.child (.head _))
    have hargs := lacks_spansList hc fun a ha => ih a ha (h.child (.tail _ ha))
    simp (disch := decide) only [spans, Span.texts_cons, Span.texts_append, Span.texts_nil,
      Span.plain, Text.lacks_append, hf, hargs, hvisible, and_self]
  | placeholder target =>
    have htarget := h.own target (.head _)
    simp (disch := decide) only [spans, Span.texts_cons, Span.texts_nil, Span.of,
      Text.lacks_append, htarget, hvisible, and_self]
  | name ident scope => exact lacks_nameSpans hc (h.own ident (.head _)) scope
  | bare kind => exact lacks_markerHead hc (.marker kind none)
  | marker kind body ih =>
    have hbody := ih (h.child (.head _))
    have hhead := lacks_markerHead hc (.marker kind (some body))
    simp (disch := decide) only [spans, Span.texts_cons, Span.texts_append, Span.texts_nil,
      Span.plain, Text.lacks_append, hhead, hbody, hvisible, and_self]
  | unhygienic ident =>
    have hident : Text.Lacks c ident := (h.child (.head _)).own ident (.head _)
    have hhead := lacks_markerHead hc (.unhygienic ident)
    have hname := lacks_nameSpans hc hident .source
    simp (disch := decide) only [spans, Span.texts_cons, Span.texts_append, Span.texts_nil,
      Span.plain, Text.lacks_append, hhead, hname, hvisible, and_self]

theorem lacks_notesSpans {style : OutlineStyle} {t : Tree}
    (h : style.showNotes = true → t.KeysLack c) :
    Text.Lacks c (Span.texts (notesSpans style t.notes)) := by
  have hvisible : ∀ {s}, Text.Visible s → Text.Lacks c s := fun hs => hs.lacks hc
  unfold notesSpans
  split
  · rename_i hshow
    rw [Bool.and_eq_true] at hshow
    simp (disch := decide) only [Span.texts_cons, Span.texts_nil, Span.plain, Span.of,
      Text.lacks_append, hvisible, and_true, true_and]
    refine Text.lacks_commas hc (List.forall_mem_map.2 ?_)
    rintro ⟨key, value⟩ hmem
    have hkey : Text.Lacks c key.display := by
      -- only a text is shown as it is
      cases key with
      | text s => exact h hshow.1 t (mem_nodes_self t) s value hmem
      | _ => exact hvisible (Value.visible_inspect _)
    have hvalue := hvisible value.visible_inspect
    simp (disch := decide) only [Text.lacks_append, hkey, hvalue, hvisible, and_self]
  · exact hvisible (by decide)

/-- The same of the label of a node in an outline, where the keys of notes may be shown too. -/
theorem lacks_label {style : OutlineStyle} {t : Tree} (h : t.Lacks c)
    (hkeys : style.showNotes = true → t.KeysLack c) :
    Text.Lacks c (Span.texts (t.label style)) := by
  have hnotes := lacks_notesSpans hc hkeys
  rcases t with _ | ⟨op | _, _, _⟩ | _ | _ | _ | _
  case call.symbol => exact Text.lacks_append.2 ⟨h.own op (.head _), hnotes⟩
  case call.tree =>
    exact Text.lacks_append.2 ⟨(by decide : Text.Visible "(call)").lacks hc, hnotes⟩
  case marker => exact lacks_markerHead hc _
  case unhygienic => exact lacks_markerHead hc _
  all_goals exact lacks_spans hc h

end Tree

end

end HygienicMacros
