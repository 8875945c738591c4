import HygienicMacros.Proofs.Drawing

/-! # Colours only decorate

A coloured text is the plain one with escape sequences put in, each of the form `ESC [ digits m`.
Taking all of them out again gives the plain text: no sequence is left over, and none reaches into
the text beside it, as long as the text itself has no escape character.

* `Text.uncolored`: a text without its escape sequences.
* `Value.IsStyle`: a style made of complete sequences, nested in any way.
* `Palette.Complete`: all styles and the reset are made of them. The standard palette of a console
  is complete if the texts of the console are (`Palette.complete_standard`).
* `Palette.paint_uncolored`: a painted text without its sequences is the plain text.
* `colors_decorate`: the same of trees on one line and as outlines.
-/

namespace HygienicMacros

/-! ## Escape sequences -/

namespace Text

/-- The character that begins an escape sequence. -/
def escapeChar : Char := Char.ofNat 27

/-- How long the escape sequence at the start of a text is; 0 if there is none. -/
def codeLength : List Char → Nat
  | c :: '[' :: cs =>
    let digits := cs.takeWhile Char.isDigit
    if c = escapeChar ∧ digits ≠ [] ∧ cs[digits.length]? = some 'm' then digits.length + 3 else 0
  | _ => 0

/-- A text without its escape sequences, after the first `n` characters. -/
def dropCodes : Nat → List Char → List Char
  | _, [] => []
  | n + 1, _ :: cs => dropCodes n cs
  | 0, c :: cs =>
    match codeLength (c :: cs) with
    | 0 => c :: dropCodes 0 cs
    | n + 1 => dropCodes n cs

/-- A text without its escape sequences, read from left to right. -/
def uncolored (s : String) : String := String.ofList (dropCodes 0 s.toList)

/-- Complete escape sequences, one after the other. -/
inductive Codes : List Char → Prop
  | nil : Codes []
  | cons {digits rest : List Char} (hne : digits ≠ []) (hdigits : ∀ d ∈ digits, d.isDigit = true)
      (hrest : Codes rest) : Codes (escapeChar :: '[' :: (digits ++ 'm' :: rest))

theorem Codes.append {a b : List Char} (ha : Codes a) (hb : Codes b) : Codes (a ++ b) := by
  induction ha with
  | nil => exact hb
  | cons hne hdigits _ ih =>
    rw [List.cons_append, List.cons_append, List.append_assoc, List.cons_append]
    exact .cons hne hdigits ih

theorem codes_escapeCode (n : Nat) : Codes (escapeCode n).toList := by
  have hcode : (escapeCode n).toList =
      escapeChar :: '[' :: (Nat.toDigits 10 n ++ 'm' :: []) := by
    simp [escapeCode, escapeChar]
  rw [hcode]
  refine .cons ?_ (fun d hd => Nat.isDigit_of_mem_toDigits (by decide) (by decide) hd) .nil
  exact Nat.toDigits_ne_nil

theorem dropCodes_eq_drop (n : Nat) (cs : List Char) :
    dropCodes n cs = dropCodes 0 (cs.drop n) := by
  induction n generalizing cs with
  | zero => rfl
  | succ n ih =>
    cases cs with
    | nil => rfl
    | cons c cs => exact ih cs

theorem codeLength_of_ne {c : Char} (h : c ≠ escapeChar) (cs : List Char) :
    codeLength (c :: cs) = 0 := by
  unfold codeLength
  split
  · rename_i heq
    obtain ⟨rfl, -⟩ := List.cons.inj heq
    exact if_neg fun hcode => h hcode.1
  · rfl

/-- Text without an escape character stays as it is, whatever follows it. -/
theorem dropCodes_append {cs : List Char} (h : escapeChar ∉ cs) (rest : List Char) :
    dropCodes 0 (cs ++ rest) = cs ++ dropCodes 0 rest := by
  induction cs with
  | nil => rfl
  | cons c cs ih =>
    rw [List.cons_append, dropCodes, codeLength_of_ne (List.ne_of_not_mem_cons h).symm]
    exact congrArg (c :: ·) (ih (List.not_mem_of_not_mem_cons h))

theorem codeLength_code {digits : List Char} (hne : digits ≠ [])
    (hdigits : ∀ d ∈ digits, d.isDigit = true) (rest : List Char) :
    codeLength (escapeChar :: '[' :: (digits ++ 'm' :: rest)) = digits.length + 3 := by
  have htake : (digits ++ 'm' :: rest).takeWhile Char.isDigit = digits := by
    rw [List.takeWhile_append_of_pos hdigits, List.takeWhile_cons_of_neg (by decide),
      List.append_nil]
  have hend : (digits ++ 'm' :: rest)[digits.length]? = some 'm' := by
    rw [List.getElem?_append_right (Nat.le_refl _), Nat.sub_self, List.getElem?_cons_zero]
  show (if escapeChar = escapeChar ∧ _ ∧ _ then _ else 0) = _
  rw [htake]
  exact if_pos ⟨rfl, hne, hend⟩

/-- Complete escape sequences are taken out, whatever follows them. -/
theorem Codes.dropCodes_append {cs : List Char} (h : Codes cs) (rest : List Char) :
    dropCodes 0 (cs ++ rest) = dropCodes 0 rest := by
  induction h with
  | nil => rfl
  | @cons digits codes hne hdigits _ ih =>
    rw [List.cons_append, List.cons_append, List.append_assoc, List.cons_append, dropCodes,
      codeLength_code hne hdigits]
    show dropCodes (digits.length + 2) ('[' :: (digits ++ 'm' :: (codes ++ rest))) = _
    rw [dropCodes_eq_drop, List.drop_succ_cons, List.drop_length_add_append, List.drop_succ_cons,
      List.drop_zero, ih]

theorem uncolored_append {a b : String} (h : Lacks escapeChar a) :
    uncolored (a ++ b) = a ++ uncolored b := by
  simp [uncolored, dropCodes_append h, String.ofList_append]

theorem uncolored_codes {a b : String} (h : Codes a.toList) :
    uncolored (a ++ b) = uncolored b := by
  rw [uncolored, String.toList_append, h.dropCodes_append, uncolored]

end Text

/-! ## Styles -/

/-- A style made of complete escape sequences: texts of them, and tuples and lists of styles. -/
inductive Value.IsStyle : Value → Prop
  | text {s : String} (h : Text.Codes s.toList) : IsStyle (.text s)
  | tuple {items : List Value} (h : ∀ v ∈ items, IsStyle v) : IsStyle (.tuple items)
  | list {items : List Value} (h : ∀ v ∈ items, IsStyle v) : IsStyle (.list items)

theorem Value.isStyle_code (n : Nat) : (Value.text (escapeCode n)).IsStyle :=
  .text (Text.codes_escapeCode n)

theorem joinTexts_codes {vs : List Value}
    (h : ∀ v ∈ vs, ∃ s, v = .text s ∧ Text.Codes s.toList) (index : Nat) :
    ∃ s, joinTexts index vs = .ok s ∧ Text.Codes s.toList := by
  induction vs generalizing index with
  | nil => exact ⟨"", rfl, .nil⟩
  | cons v vs ih =>
    obtain ⟨s, rfl, hs⟩ := h v (.head _)
    obtain ⟨rest, hrest, hcodes⟩ := ih (fun w hw => h w (.tail _ hw)) (index + 1)
    refine ⟨s ++ rest, ?_, ?_⟩
    · rw [joinTexts, hrest]
      rfl
    · rw [String.toList_append]
      exact hs.append hcodes

namespace Value

theorem joinedList_codes {vs : List Value}
    (h : ∀ v ∈ vs, ∃ s, v.joined = .ok (.text s) ∧ Text.Codes s.toList) :
    ∃ parts, joinedList vs = .ok parts ∧ ∀ v ∈ parts, ∃ s, v = .text s ∧ Text.Codes s.toList := by
  induction vs with
  | nil => exact ⟨[], by rw [joinedList], List.forall_mem_nil _⟩
  | cons v vs ih =>
    obtain ⟨s, hv, hs⟩ := h v (.head _)
    obtain ⟨parts, hvs, hparts⟩ := ih fun w hw => h w (.tail _ hw)
    refine ⟨.text s :: parts, ?_, List.forall_mem_cons.2 ⟨⟨s, rfl, hs⟩, hparts⟩⟩
    rw [joinedList, hv, hvs]
    rfl

theorem joinedSequence_codes {vs : List Value}
    (h : ∀ v ∈ vs, ∃ s, v.joined = .ok (.text s) ∧ Text.Codes s.toList) :
    ∃ s, joinedSequence vs = .ok (.text s) ∧ Text.Codes s.toList := by
  obtain ⟨parts, hvs, hparts⟩ := joinedList_codes h
  obtain ⟨s, hjoin, hs⟩ := joinTexts_codes hparts 0
  refine ⟨s, ?_, hs⟩
  rw [joinedSequence, hvs]
  exact congrArg (Except.map Value.text) hjoin

theorem IsStyle.joined {v : Value} (h : v.IsStyle) :
    ∃ s, v.joined = .ok (.text s) ∧ Text.Codes s.toList := by
  induction h with
  | text h => exact ⟨_, by simp [Value.joined], h⟩
  | tuple _ ih =>
    rw [Value.joined]
    exact joinedSequence_codes ih
  | list _ ih =>
    rw [Value.joined]
    exact joinedSequence_codes ih

/-- A text is put between complete escape sequences. -/
theorem IsStyle.colorize {v : Value} (h : v.IsStyle) {console : Console}
    (hreset : Text.Codes console.reset.toList) (text : String) :
    ∃ before, colorize console [v] text = .ok (before ++ text ++ console.reset) ∧
      Text.Codes before.toList := by
  obtain ⟨parts, hparts, hcodes⟩ := joinedList_codes (List.forall_mem_singleton.2 h.joined)
  obtain ⟨s, hjoin, hs⟩ := joinTexts_codes hcodes 0
  refine ⟨console.reset ++ s, ?_, ?_⟩
  · rw [HygienicMacros.colorize, setStyles, escapeOf, hparts]
    dsimp only
    rw [hjoin]
    rfl
  · rw [String.toList_append]
    exact hreset.append hs

end Value

/-! ## Palettes -/

/-- All texts that a console understands. -/
def Console.texts (console : Console) : List String :=
  [console.reset, console.bright, console.dim, console.normal, console.red, console.green,
    console.yellow, console.blue, console.magenta, console.cyan, console.lightBlue]

theorem Console.codes_numbered : ∀ s ∈ numbered.texts, Text.Codes s.toList := by
  simp [texts, numbered, Text.codes_escapeCode]

namespace Palette

/-- All styles and the reset are made of complete escape sequences. -/
structure Complete (p : Palette) : Prop where
  reset : Text.Codes p.console.reset.toList
  style : ∀ role, (p.style role).IsStyle

theorem complete_standard {console : Console}
    (h : ∀ s ∈ console.texts, Text.Codes s.toList) : (standard console).Complete := by
  have hone : ∀ s ∈ console.texts, (Value.text s).IsStyle := fun s hs => .text (h s hs)
  have hpair : ∀ a ∈ console.texts, ∀ b ∈ console.texts, (Value.tuple [.text a, .text b]).IsStyle :=
    fun a ha b hb => .tuple (List.forall_mem_cons.2
      ⟨hone a ha, List.forall_mem_singleton.2 (hone b hb)⟩)
  refine ⟨h _ (.head _), fun role => ?_⟩
  cases role
  case terminal | placeholder | heading | testHeading | testPass | testFail | testError =>
    exact hpair _ (by simp [Console.texts]) _ (by simp [Console.texts])
  all_goals exact hone _ (by simp [Console.texts])

/-- Setting a style keeps a palette complete, if the style is made of complete sequences. -/
theorem Complete.set {p : Palette} (h : p.Complete) {v : Value} (hv : v.IsStyle) (key : String) :
    (p.set key v).Complete := by
  unfold Palette.set
  split
  · refine ⟨h.reset, fun role => ?_⟩
    change (if role = _ then v else p.style role).IsStyle
    split
    · exact hv
    · exact h.style role
  · exact ⟨h.reset, h.style⟩

theorem paintSpan_uncolored {p : Palette} (h : p.Complete) {s : Span}
    (hs : Text.Lacks Text.escapeChar s.text) :
    ∃ text, p.paintSpan s = .ok text ∧
      ∀ rest, Text.uncolored (text ++ rest) = s.text ++ Text.uncolored rest := by
  rcases s with ⟨_ | role, text⟩
  · exact ⟨text, rfl, fun rest => Text.uncolored_append hs⟩
  · obtain ⟨before, hcolor, hbefore⟩ := (h.style role).colorize h.reset text
    refine ⟨_, hcolor, fun rest => ?_⟩
    rw [String.append_assoc, String.append_assoc, Text.uncolored_codes hbefore,
      Text.uncolored_append hs, Text.uncolored_codes h.reset]

/-- A painted text without its escape sequences is the plain text. -/
theorem paint_uncolored {p : Palette} (h : p.Complete) {spans : List Span}
    (hspans : ∀ s ∈ spans, Text.Lacks Text.escapeChar s.text) :
    ∃ text, p.paint spans = .ok text ∧ Text.uncolored text = Span.texts spans := by
  induction spans with
  | nil => exact ⟨"", rfl, rfl⟩
  | cons s spans ih =>
    obtain ⟨text, htext, hs⟩ := paintSpan_uncolored h (hspans s (.head _))
    obtain ⟨rest, hrest, ih⟩ := ih fun s' hs' => hspans s' (.tail _ hs')
    refine ⟨text ++ rest, ?_, ?_⟩
    · rw [paint, htext, hrest]
      rfl
    · rw [hs, ih, Span.texts_cons]

end Palette

/-- The same of two renderings that have the same text. -/
theorem Shade.text_uncolored {p : Palette} (h : p.Complete) {spans spans' : List Span}
    (hlacks : Text.Lacks Text.escapeChar (Span.texts spans))
    (hsame : Span.texts spans = Span.texts spans') :
    ∃ colored plain, (Shade.colored p).text spans = .ok colored ∧
      Shade.plain.text spans' = .ok plain ∧ Text.uncolored colored = plain := by
  obtain ⟨colored, hcolored, htexts⟩ := Palette.paint_uncolored h (Span.lacks_texts.1 hlacks)
  exact ⟨colored, _, hcolored, rfl, htexts.trans hsame⟩

/-! ## Trees -/

namespace Tree

theorem texts_spansList {roleOf roleOf' : String → Role} : ∀ {ts : List Tree},
    (∀ t ∈ ts, Span.texts (t.spans roleOf) = Span.texts (t.spans roleOf')) →
    Span.texts (spansList roleOf ts) = Span.texts (spansList roleOf' ts)
  | [], _ => rfl
  | [t], h => h t (.head _)
  | t :: t' :: ts, h => by
    have hrest : Span.texts (spansList roleOf (t' :: ts)) =
        Span.texts (spansList roleOf' (t' :: ts)) :=
      texts_spansList fun u hu => h u (.tail _ hu)
    rw [texts_spansList_cons, texts_spansList_cons, h t (.head _), hrest]

/-- The text of a tree on one line does not depend on the roles of operators. -/
theorem texts_spans (roleOf roleOf' : String → Role) (t : Tree) :
    Span.texts (t.spans roleOf) = Span.texts (t.spans roleOf') := by
  induction t using Tree.induct with
  | call op args notes ih => simp [spans, Span.of, texts_spansList ih]
  | apply f args notes ihf ih => simp [spans, ihf, texts_spansList ih]
  | marker kind body ih => simp [spans, ih]
  | _ => rfl

theorem labelText_roles (roleOf roleOf' : String → Role) (showNotes : Bool) (t : Tree) :
    t.labelText ⟨roleOf, showNotes⟩ = t.labelText ⟨roleOf', showNotes⟩ := by
  rcases t with _ | ⟨_ | _, _, _⟩ | _ | _ | _ | _ <;> rfl

/-- Neither does the text of an outline. -/
theorem texts_outlineSpans_roles (roleOf roleOf' : String → Role) (showNotes : Bool) (t : Tree) :
    Span.texts (t.outlineSpans ⟨roleOf, showNotes⟩) =
      Span.texts (t.outlineSpans ⟨roleOf', showNotes⟩) := by
  rw [texts_outlineSpans, texts_outlineSpans, funext (labelText_roles roleOf roleOf' showNotes)]

/-- A control character in an outline ends a line or is one of a text that is shown as it is. -/
theorem lacks_outlineSpans {c : Char} (hc : c.toNat < 0x20) (hline : c ≠ '\n')
    {style : OutlineStyle} {t : Tree} (h : t.Lacks c)
    (hkeys : style.showNotes = true → t.KeysLack c) :
    Text.Lacks c (Span.texts (t.outlineSpans style)) := by
  rw [texts_outlineSpans]
  intro hmem
  rcases Text.mem_intercalate hmem with hmem | ⟨row, hrow, hmem⟩
  · exact hline (List.mem_singleton.1 hmem)
  · obtain ⟨p, -, rfl⟩ := List.mem_map.1 hrow
    exact lacks_row hc h hkeys p hmem

end Tree

/-- Colours only decorate: without its escape sequences, a coloured tree is the plain one, on one
line and as an outline, whatever the registry says of its operators. -/
theorem colors_decorate (t : Tree) (ht : t.Lacks Text.escapeChar)
    (hkeys : t.KeysLack Text.escapeChar) (registry : Option Registry) (p : Palette)
    (hp : p.Complete) :
    (∃ colored plain, (Value.tree t).unparse (.colored p) registry = .ok colored ∧
      (Value.tree t).unparse .plain none = .ok plain ∧ Text.uncolored colored = plain) ∧
    ∀ showNotes, ∃ colored plain,
      (Value.tree t).dump (.colored p) showNotes registry = .ok colored ∧
      (Value.tree t).dump .plain showNotes none = .ok plain ∧ Text.uncolored colored = plain := by
  have hescape : Text.escapeChar.toNat < 0x20 := by decide
  constructor
  · exact Shade.text_uncolored hp (Tree.lacks_spans hescape ht) (t.texts_spans _ _)
  · intro showNotes
    have hlacks : Text.Lacks Text.escapeChar
        (Span.texts (t.outlineSpans ⟨roleIn registry, showNotes⟩)) :=
      Tree.lacks_outlineSpans hescape (by decide) ht fun _ => hkeys
    exact Shade.text_uncolored hp hlacks (t.texts_outlineSpans_roles _ _ showNotes)

/-- A palette with one nested style. -/
def nestedPalette : Palette :=
  (Palette.standard .numbered).set "MACRONAME"
    (.list [.tuple [.text (escapeCode 1), .tuple []], .text (escapeCode 35)])

/-- A macro call with a note, a tagged name, and a literal that looks like an escape sequence. -/
def lookalike : Tree :=
  .call (.symbol "with_x")
    [.literal (.text (String.ofList [Text.escapeChar, '[', '1', 'm'])),
     .name "y" (.tag ⟨3, Nat.succ_pos 2⟩)]
    [(.text "line", .int 7)]

theorem nestedPalette_complete : nestedPalette.Complete := by
  have hinner : (Value.tuple [.text (escapeCode 1), .tuple []]).IsStyle :=
    .tuple (List.forall_mem_cons.2 ⟨Value.isStyle_code 1, List.forall_mem_singleton.2
      (.tuple (List.forall_mem_nil _))⟩)
  exact (Palette.complete_standard Console.codes_numbered).set (.list (List.forall_mem_cons.2
    ⟨hinner, List.forall_mem_singleton.2 (Value.isStyle_code 35)⟩)) _

theorem colors_decorate_lookalike :
    lookalike.Lacks Text.escapeChar ∧ lookalike.KeysLack Text.escapeChar ∧
    (∃ colored, (Value.tree lookalike).unparse (.colored nestedPalette) (some Catalogue.binding) =
        .ok colored ∧ Text.uncolored colored = "with_x(\"\\u001b[1m\", y@3)") ∧
    ∃ colored, (Value.tree lookalike).dump (.colored nestedPalette) true (some Catalogue.binding) =
        .ok colored ∧
      Text.uncolored colored = "with_x  \x7bline=7\x7d\n├── \"\\u001b[1m\"\n└── y@3" := by
  have htexts : lookalike.Lacks Text.escapeChar := by
    unfold Tree.Lacks Text.Lacks
    decide
  have hkeys : lookalike.KeysLack Text.escapeChar := by
    have hline : Text.Lacks Text.escapeChar "line" := (by decide : Text.Visible "line").lacks
      (by decide)
    simp [Tree.KeysLack, lookalike, Tree.nodes, Tree.nodesList, Tree.notes, hline]
  obtain ⟨⟨colored, plain, hcolored, hplain, htext⟩, houtline⟩ := colors_decorate lookalike htexts
    hkeys (some Catalogue.binding) nestedPalette nestedPalette_complete
  obtain ⟨colored', plain', hcolored', hplain', htext'⟩ := houtline true
  refine ⟨htexts, hkeys, ⟨colored, hcolored, ?_⟩, colored', hcolored', ?_⟩
  · rw [htext, ← Except.ok.inj hplain]
    decide
  · rw [htext', ← Except.ok.inj hplain']
    decide

end HygienicMacros
