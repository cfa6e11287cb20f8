import SchemaModels.Canonical.Basic

/-!
# The parts of a value

The parts of a value are the value itself, and the parts of its items or entries.

* `Json.induct`: induction on a value, with the items and the entries in one hypothesis each.
* `length_parts`: there are as many parts as the size says.
* `holdsObject`: whether an object is among the parts.
* `Json.Distinct`: no object among the parts repeats a key, which holds of whatever was put
  together key by key.
-/

namespace SchemaModels.Json

/-! ### Induction -/

section induct
variable {motive : Json → Prop} (null : motive .null) (bool : ∀ b, motive (.bool b))
  (number : ∀ n, motive (.number n)) (string : ∀ s, motive (.string s))
  (array : ∀ items, (∀ v ∈ items, motive v) → motive (.array items))
  (object : ∀ entries, (∀ e ∈ entries, motive e.2) → motive (.object entries))
include null bool number string array object

/-- Induction on a value: an array follows from its items, an object from the values of its
entries. -/
@[elab_as_elim]
theorem induct (v : Json) : motive v := by
  refine @Json.rec motive (fun items => ∀ v ∈ items, motive v)
    (fun entries => ∀ e ∈ entries, motive e.2) (fun e => motive e.2)
    null bool number string array object ?_ ?_ ?_ ?_ (fun _ _ h => h) v
  · exact fun _ h => absurd h List.not_mem_nil
  · exact fun _ _ h ih => List.forall_mem_cons.mpr ⟨h, ih⟩
  · exact fun _ h => absurd h List.not_mem_nil
  · exact fun _ _ h ih => List.forall_mem_cons.mpr ⟨h, ih⟩

end induct

/-! ### Sizes -/

theorem size_pos (v : Json) : 0 < v.size := by
  cases v <;> simp only [size] <;> omega

theorem size_lt_of_mem {items : List Json} {v : Json} (h : v ∈ items) :
    v.size < (array items).size := by
  have hle : v.size ≤ sizeItems items := by
    induction h with
    | head => rw [sizeItems]; omega
    | tail _ _ ih => rw [sizeItems]; omega
  rw [size]
  omega

theorem size_lt_of_entry {entries : Entries} {e : String × Json} (h : e ∈ entries) :
    e.2.size < (object entries).size := by
  have hle : e.2.size ≤ sizeEntries entries := by
    induction h with
    | head => rw [sizeEntries]; omega
    | tail _ _ ih => rw [sizeEntries]; omega
  rw [size]
  omega

/-! ### Parts -/

mutual

/-- A value, and the parts of its items or entries. -/
def parts : Json → List Json
  | .array items => .array items :: partsItems items
  | .object entries => .object entries :: partsEntries entries
  | .null => [.null]
  | .bool b => [.bool b]
  | .number n => [.number n]
  | .string s => [.string s]

def partsItems : List Json → List Json
  | [] => []
  | v :: rest => v.parts ++ partsItems rest

def partsEntries : Entries → List Json
  | [] => []
  | (_, v) :: rest => v.parts ++ partsEntries rest

end

theorem mem_parts_self (v : Json) : v ∈ v.parts := by
  cases v <;> simp [parts]

theorem mem_partsItems {items : List Json} {w : Json} :
    w ∈ partsItems items ↔ ∃ v ∈ items, w ∈ v.parts := by
  induction items with
  | nil => simp [partsItems]
  | cons v rest ih => simp [partsItems, ih]

theorem mem_partsEntries {entries : Entries} {w : Json} :
    w ∈ partsEntries entries ↔ ∃ e ∈ entries, w ∈ e.2.parts := by
  induction entries with
  | nil => simp [partsEntries]
  | cons e rest ih => simp [partsEntries, ih]

theorem mem_parts_array {items : List Json} {w : Json} :
    w ∈ (array items).parts ↔ w = array items ∨ ∃ v ∈ items, w ∈ v.parts := by
  rw [parts, List.mem_cons, mem_partsItems]

theorem mem_parts_object {entries : Entries} {w : Json} :
    w ∈ (object entries).parts ↔ w = object entries ∨ ∃ e ∈ entries, w ∈ e.2.parts := by
  rw [parts, List.mem_cons, mem_partsEntries]

theorem mem_parts_of_mem {items : List Json} {v : Json} (h : v ∈ items) :
    v ∈ (array items).parts :=
  mem_parts_array.mpr (.inr ⟨v, h, v.mem_parts_self⟩)

theorem mem_parts_of_entry {entries : Entries} {e : String × Json} (h : e ∈ entries) :
    e.2 ∈ (object entries).parts :=
  mem_parts_object.mpr (.inr ⟨e, h, e.2.mem_parts_self⟩)

/-- The parts of a part are parts. -/
theorem mem_parts_trans {u v w : Json} (h : w ∈ v.parts) : v ∈ u.parts → w ∈ u.parts := by
  induction u using induct with
  | array items ih =>
      intro hv
      rcases mem_parts_array.mp hv with rfl | ⟨x, hx, hv⟩
      · exact h
      · exact mem_parts_array.mpr (.inr ⟨x, hx, ih x hx hv⟩)
  | object entries ih =>
      intro hv
      rcases mem_parts_object.mp hv with rfl | ⟨e, he, hv⟩
      · exact h
      · exact mem_parts_object.mpr (.inr ⟨e, he, ih e he hv⟩)
  | _ =>
      intro hv
      obtain rfl := List.mem_singleton.mp hv
      exact h

mutual

/-- There are as many parts as the size says. -/
theorem length_parts : ∀ v : Json, v.parts.length = v.size
  | .array items => by
      rw [parts, size, List.length_cons, length_partsItems items, Nat.add_comm]
  | .object entries => by
      rw [parts, size, List.length_cons, length_partsEntries entries, Nat.add_comm]
  | .null => rfl
  | .bool _ => rfl
  | .number _ => rfl
  | .string _ => rfl

theorem length_partsItems : ∀ items : List Json, (partsItems items).length = sizeItems items
  | [] => rfl
  | v :: rest => by
      rw [partsItems, sizeItems, List.length_append, length_parts v, length_partsItems rest]

theorem length_partsEntries : ∀ entries : Entries,
    (partsEntries entries).length = sizeEntries entries
  | [] => rfl
  | (_, v) :: rest => by
      rw [partsEntries, sizeEntries, List.length_append, length_parts v, length_partsEntries rest]

end

/-! ### Objects -/

/-- Whether an object stands anywhere in a value. -/
def holdsObject (v : Json) : Bool := v.parts.any Json.isObject

theorem holdsObject_of_mem_parts {v w : Json} (hw : w ∈ v.parts)
    (h : w.holdsObject = true) : v.holdsObject = true := by
  obtain ⟨u, hu, hobj⟩ := List.any_eq_true.mp h
  exact List.any_eq_true.mpr ⟨u, mem_parts_trans hu hw, hobj⟩

/-! ### Keys -/

/-- The keys of an object. -/
def keys : Json → List String
  | .object entries => entries.map Prod.fst
  | _ => []

/-- No object in a value repeats a key. -/
def Distinct (v : Json) : Prop := ∀ w ∈ v.parts, w.keys.Nodup

instance (v : Json) : Decidable v.Distinct :=
  inferInstanceAs (Decidable (∀ w ∈ v.parts, w.keys.Nodup))

theorem Distinct.of_mem_parts {v w : Json} (h : v.Distinct) (hw : w ∈ v.parts) : w.Distinct :=
  fun u hu => h u (mem_parts_trans hu hw)

theorem Distinct.nodup {entries : Entries} (h : (object entries).Distinct) :
    (entries.map Prod.fst).Nodup :=
  h (object entries) (mem_parts_self _)

end SchemaModels.Json
