import SchemaModels.Spec.Binding

/-!
# The strings in a table

The strings that a schema holds: names, descriptions, the values of enums, the strings and keys in
literals, constants and defaults, patterns, discriminators, and what the root says of the top-level
type.

* `Json.strings`, `Spec.strings`, `Definition.strings`, `Table.strings`: the strings of each.
* `mem_strings_bindRecords`: binding records brings no strings in.
-/

namespace SchemaModels

mutual

/-- The strings in a value, keys among them. -/
def Json.strings : Json → List String
  | .null => []
  | .bool _ => []
  | .number _ => []
  | .string s => [s]
  | .array items => Json.stringsItems items
  | .object entries => Json.stringsEntries entries

def Json.stringsItems : List Json → List String
  | [] => []
  | v :: rest => v.strings ++ Json.stringsItems rest

def Json.stringsEntries : Entries → List String
  | [] => []
  | (k, v) :: rest => k :: v.strings ++ Json.stringsEntries rest

end

mutual

/-- The strings in a shape. -/
def Shape.strings : Shape → List String
  | .primitive _ => []
  | .literal values => Json.stringsItems values
  | .const value => value.strings
  | .array item => item.strings
  | .tuple items => Spec.stringsAll items
  | .map none => []
  | .map (some value) => value.strings
  | .reference name => [name]
  | .union members discriminator => Spec.stringsAll members ++ discriminator.toList
  | .any => []

/-- The strings in a specification. -/
def Spec.strings : Spec → List String
  | ⟨shape, bounds, default, _, description⟩ =>
      shape.strings ++ bounds.pattern.toList ++ (default.map Json.strings).getD [] ++
        description.toList

def Spec.stringsAll : List Spec → List String
  | [] => []
  | s :: rest => s.strings ++ Spec.stringsAll rest

end

/-- The strings in what a definition declares. -/
def Kind.strings : Kind → List String
  | .enum values => values
  | .object record => record.fields.flatMap fun f => f.1 :: f.2.strings
  | .union members discriminator => members ++ discriminator.toList
  | .typeAlias spec => spec.strings

/-- The strings in a definition. -/
def Definition.strings (d : Definition) : List String :=
  d.name :: d.description.toList ++ d.kind.strings

/-- The strings in the description of a top-level type. -/
def Root.strings (root : Root) : List String :=
  [root.name, root.metadataType, root.rootType] ++ root.description.toList ++ root.version.toList

/-- The strings in a table. -/
def Table.strings (t : Table) : List String :=
  t.root.strings ++ t.definitions.flatMap Definition.strings

/-! ### Binding records -/

namespace Table
variable {t : Table}

theorem name_mem_strings {d : Definition} (h : d ∈ t.definitions) : d.name ∈ t.strings :=
  List.mem_append_right _ (List.mem_flatMap.mpr ⟨d, h, List.mem_cons_self⟩)

/-- A field is bound to a definition of the table. -/
theorem mem_strings_bindField {s : Spec} {x : String} (h : x ∈ (t.bindField s).strings) :
    x ∈ s.strings ∨ x ∈ t.strings := by
  unfold bindField at h
  split at h
  · rename_i b hb
    obtain ⟨name, _, hname⟩ := Option.bind_eq_some_iff.mp hb
    obtain ⟨record, hrecord, rfl⟩ := Option.map_eq_some_iff.mp hname
    obtain ⟨items, _, hitems⟩ := Option.bind_eq_some_iff.mp hrecord
    obtain ⟨d, hd, rfl⟩ := Option.map_eq_some_iff.mp hitems
    obtain ⟨shape, bounds, default, nullable, description⟩ := s
    simp only [Spec.strings, Shape.strings, List.mem_append, List.mem_singleton] at h ⊢
    have := name_mem_strings (List.mem_of_find?_eq_some hd)
    grind
  · exact .inl h

theorem mem_strings_bindKind {d : Definition} {x : String} (h : x ∈ (t.bindKind d).strings) :
    x ∈ d.kind.strings ∨ x ∈ t.strings := by
  unfold bindKind at h
  split at h
  · rename_i record hk
    rw [hk]
    obtain ⟨f, hf, hx⟩ := List.mem_flatMap.mp h
    obtain ⟨g, hg, rfl⟩ := List.mem_map.mp hf
    rcases List.mem_cons.mp hx with rfl | hx
    · exact .inl (List.mem_flatMap.mpr ⟨g, hg, List.mem_cons_self⟩)
    · exact (mem_strings_bindField hx).imp_left fun hx =>
        List.mem_flatMap.mpr ⟨g, hg, List.mem_cons_of_mem _ hx⟩
  · exact .inl h

/-- Binding records brings no strings in. -/
theorem mem_strings_bindRecords {x : String} (h : x ∈ t.bindRecords.strings) : x ∈ t.strings := by
  rcases List.mem_append.mp h with h | h
  · exact List.mem_append_left _ h
  · obtain ⟨d', hd', hx⟩ := List.mem_flatMap.mp h
    obtain ⟨d, hd, rfl⟩ := List.mem_map.mp hd'
    have hmem : ∀ y ∈ d.strings, y ∈ t.strings := fun y hy =>
      List.mem_append_right _ (List.mem_flatMap.mpr ⟨d, hd, hy⟩)
    rcases List.mem_append.mp hx with hx | hx
    · exact hmem x (List.mem_append_left _ hx)
    · exact (mem_strings_bindKind hx).elim (fun hx => hmem x (List.mem_append_right _ hx)) id

end Table

end SchemaModels
