import HygienicMacros.Tree.Basic

/-! # Notes and fields

Notes and fields keep the order in which their keys were first given. Reading finds the value
under a key, and setting a key gives it a value in place, or at the end if the key is new. Fields
are read with `List.lookup`; the keys of notes may be values of any kind, of which only the texts
can be asked for.

* `Notes.find?`, `Notes.set`: the notes of a call, by keys that are texts.
* `Fields.set`: values by name.
-/

namespace HygienicMacros

/-! ## Entries by key -/

section
variable {α β γ : Type} [BEq α]

theorem lookup_map (f : β → γ) (entries : List (α × β)) (k : α) :
    (entries.map fun p => (p.1, f p.2)).lookup k = (entries.lookup k).map f := by
  induction entries with
  | nil => rfl
  | cons p entries ih =>
    rw [List.map_cons, List.lookup_cons, List.lookup_cons, ih]
    cases k == p.1 <;> rfl

variable [LawfulBEq α] {entries : List (α × β)} {k : α} {v : β}

theorem mem_of_lookup (h : entries.lookup k = some v) : (k, v) ∈ entries := by
  obtain ⟨before, rest, rfl, -⟩ := List.lookup_eq_some_iff.1 h
  exact List.mem_append_right _ (.head _)

theorem isSome_lookup : (entries.lookup k).isSome = true ↔ k ∈ entries.map (·.1) := by
  simp only [List.lookup_isSome_iff, List.mem_map, beq_iff_eq, @eq_comm α k]

/-- Where no key stands twice, an entry is what is found under its key. -/
theorem lookup_of_mem (hkeys : (entries.map (·.1)).Nodup) (h : (k, v) ∈ entries) :
    entries.lookup k = some v := by
  obtain ⟨before, rest, rfl⟩ := List.append_of_mem h
  refine List.lookup_eq_some_iff.2 ⟨before, rest, rfl, fun p hp => bne_iff_ne.2 fun hk => ?_⟩
  rw [List.map_append, List.map_cons, List.nodup_append] at hkeys
  exact hkeys.2.2 p.1 (List.mem_map_of_mem hp) k (.head _) hk.symm

end

/-! ## Notes and fields -/

/-- Whether a value is a given text. -/
def Value.isText (s : String) : Value → Bool
  | .text t => t == s
  | _ => false

namespace Notes

/-- The value under a key that is a text. -/
def find? (key : String) (notes : Notes) : Option Value :=
  (List.find? (·.1.isText key) notes).map (·.2)

theorem find?_nil (key : String) : find? key [] = none := rfl

theorem find?_cons (key : String) (k v : Value) (rest : Notes) :
    find? key ((k, v) :: rest) = if k.isText key then some v else find? key rest := by
  rw [find?, List.find?_cons]
  cases k.isText key <;> rfl

/-- The notes with `key` set to `value`. -/
def set (key : String) (value : Value) : Notes → Notes
  | [] => [(.text key, value)]
  | (k, v) :: rest => if k.isText key then (k, value) :: rest else (k, v) :: set key value rest

/-- The key under which hygiene keeps the scope of a call. -/
def scopeKey : String := "scope"

/-- The key of the source line. -/
def lineKey : String := "line"

/-- The hygiene scope noted for a call. -/
def scope? (notes : Notes) : Option Value := find? scopeKey notes

end Notes

namespace Fields

/-- The fields with `key` set to `value`. -/
def set (key : String) (value : Value) : Fields → Fields
  | [] => [(key, value)]
  | (k, v) :: rest => if k = key then (k, value) :: rest else (k, v) :: set key value rest

/-- The fields with values set in order. -/
def setAll (fields changes : Fields) : Fields :=
  changes.foldl (fun fields (k, v) => fields.set k v) fields

end Fields

end HygienicMacros
