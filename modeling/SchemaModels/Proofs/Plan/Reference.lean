import Mathlib.Data.List.Nodup
import Mathlib.Logic.Relation
import SchemaModels.Plan.Basic
import SchemaModels.Proofs.Plan.Reach

/-!
# References

The references of a table by the names of its definitions, and the graph that the planner builds
of them, on the places of the definitions.

* `Table.Refers`, `Table.Reaches`: one definition refers to another one, and leads to it.
* `edge_iff`: an edge of the graph is a reference.
* `isComponents_blocks`: the blocks of a table are the components of its graph.
* `unresolved?_eq_none_iff`: every reference is to a definition.
-/

namespace SchemaModels

/-- Among items with different keys, what is found under a key is the item that has it. -/
theorem Keyed.find?_eq_some_iff {α κ : Type} [DecidableEq κ] {key : α → κ} {items : List α}
    (hn : (items.map key).Nodup) {k : κ} {a : α} :
    find? key k items = some a ↔ a ∈ items ∧ key a = k := by
  unfold find?
  constructor
  · intro h
    exact ⟨List.mem_of_find?_eq_some h, by simpa using List.find?_some h⟩
  · rintro ⟨ha, rfl⟩
    cases hf : items.find? fun b => key b = key a with
    | none => exact absurd (List.find?_eq_none.mp hf a ha) (by simp)
    | some b =>
        have hb := List.mem_of_find?_eq_some hf
        have hkey : key b = key a := by simpa using List.find?_some hf
        rw [List.inj_on_of_nodup_map hn hb ha hkey]

theorem Definition.mem_references {d : Definition} {r : String} :
    r ∈ d.references ↔ r ∈ d.mentions := List.mem_eraseDups

namespace Table
variable (t : Table)

/-! ### Definitions by name and by place -/

variable {t}

theorem mem_names {name : String} : name ∈ t.names ↔ ∃ d ∈ t.definitions, d.name = name :=
  List.mem_map

theorem get?_eq_some_iff {name : String} {d : Definition} :
    t.get? name = some d ↔ d ∈ t.definitions ∧ d.name = name :=
  Keyed.find?_eq_some_iff t.names_nodup

theorem contains_iff {name : String} : t.contains name = true ↔ name ∈ t.names := by
  rw [contains, Option.isSome_iff_exists, mem_names]
  simp only [get?_eq_some_iff]

theorem index?_eq_some_iff {name : String} {i : Nat} :
    t.index? name = some i ↔ ∃ d, t.definitions[i]? = some d ∧ d.name = name := by
  rw [index?, List.findIdx?_eq_some_iff_getElem]
  simp only [decide_eq_true_eq]
  constructor
  · rintro ⟨hi, hname, _⟩
    exact ⟨t.definitions[i], List.getElem?_eq_getElem hi, hname⟩
  · rintro ⟨d, hd, rfl⟩
    obtain ⟨hi, rfl⟩ := List.getElem?_eq_some_iff.mp hd
    refine ⟨hi, rfl, fun j hj => ?_⟩
    have hpw := List.pairwise_iff_getElem.mp (List.pairwise_map.mp t.names_nodup)
    exact hpw j i (hj.trans hi) hi hj

theorem exists_index? {name : String} (h : name ∈ t.names) :
    ∃ i d, t.index? name = some i ∧ t.definitions[i]? = some d ∧ d.name = name := by
  obtain ⟨d, hd, rfl⟩ := mem_names.mp h
  obtain ⟨i, hi, rfl⟩ := List.mem_iff_getElem.mp hd
  have hget := List.getElem?_eq_getElem hi
  exact ⟨i, t.definitions[i], index?_eq_some_iff.mpr ⟨_, hget, rfl⟩, hget, rfl⟩

/-! ### References -/

variable (t)

/-- The definition of one name mentions another name. -/
def Refers (a b : String) : Prop := ∃ d ∈ t.definitions, d.name = a ∧ b ∈ d.mentions

/-- One reference or more lead from one name to another. -/
def Reaches : String → String → Prop := Relation.TransGen t.Refers

/-- Every reference is to a definition. -/
def Resolved : Prop := ∀ d ∈ t.definitions, ∀ r ∈ d.mentions, r ∈ t.names

/-- The types of the root are definitions. -/
def RootResolved : Prop := t.root.metadataType ∈ t.names ∧ t.root.rootType ∈ t.names

theorem unresolved?_eq_none_iff : t.unresolved? = none ↔ t.Resolved := by
  simp only [unresolved?, List.findSome?_eq_none_iff, Option.map_eq_none_iff, List.find?_eq_none,
    Bool.not_eq_true', Bool.not_eq_false, contains_iff, Definition.mem_references, Resolved]

theorem unresolvedRoot?_eq_none_iff : t.unresolvedRoot? = none ↔ t.RootResolved := by
  simp [unresolvedRoot?, List.find?_eq_none, contains_iff, RootResolved]

/-! ### The graph of a table -/

theorem size_graph : t.graph.size = t.definitions.length := rfl

variable {t}

theorem next_graph {i : Nat} {d : Definition} (h : t.definitions[i]? = some d) :
    t.graph.next i = t.indices d.references := by
  simp [graph, edges, List.getD_eq_getElem?_getD, h]

theorem mem_indices {names : List String} {j : Nat} :
    j ∈ t.indices names ↔ ∃ d, t.definitions[j]? = some d ∧ d.name ∈ names := by
  simp only [indices, List.mem_filterMap, index?_eq_some_iff]
  constructor
  · rintro ⟨_, hr, d, hd, rfl⟩
    exact ⟨d, hd, hr⟩
  · rintro ⟨d, hd, hr⟩
    exact ⟨d.name, hr, d, hd, rfl⟩

/-- An edge leads from the place of a definition to the place of one that it mentions. -/
theorem edge_iff {i j : Nat} :
    t.graph.Edge i j ↔ ∃ d e, t.definitions[i]? = some d ∧ t.definitions[j]? = some e ∧
      e.name ∈ d.mentions := by
  simp only [Graph.Edge, size_graph]
  constructor
  · rintro ⟨hi, _, h⟩
    have hd := List.getElem?_eq_getElem hi
    rw [next_graph hd] at h
    obtain ⟨e, he, hr⟩ := mem_indices.mp h
    exact ⟨_, e, hd, he, Definition.mem_references.mp hr⟩
  · rintro ⟨d, e, hd, he, hr⟩
    obtain ⟨hi, _⟩ := List.getElem?_eq_some_iff.mp hd
    obtain ⟨hj, _⟩ := List.getElem?_eq_some_iff.mp he
    rw [next_graph hd]
    exact ⟨hi, hj, mem_indices.mpr ⟨e, he, Definition.mem_references.mpr hr⟩⟩

theorem proper_graph : t.graph.Proper := by
  intro i hi j hj
  rw [next_graph (List.getElem?_eq_getElem hi)] at hj
  obtain ⟨e, he, _⟩ := mem_indices.mp hj
  exact (List.getElem?_eq_some_iff.mp he).1

theorem edge_iff_refers {i j : Nat} {d e : Definition} (hd : t.definitions[i]? = some d)
    (he : t.definitions[j]? = some e) : t.graph.Edge i j ↔ t.Refers d.name e.name := by
  rw [edge_iff]
  constructor
  · rintro ⟨d', e', hd', he', hr⟩
    obtain rfl : d' = d := Option.some.inj (hd'.symm.trans hd)
    obtain rfl : e' = e := Option.some.inj (he'.symm.trans he)
    exact ⟨d', List.mem_of_getElem? hd, rfl, hr⟩
  · rintro ⟨d', hd', hname, hr⟩
    obtain rfl := List.inj_on_of_nodup_map t.names_nodup hd' (List.mem_of_getElem? hd) hname
    exact ⟨d', e, hd, he, hr⟩

/-- A walk in the graph is a chain of references. -/
theorem reaches_of_graph {i j : Nat} (h : t.graph.Reaches i j) :
    ∀ {d e : Definition}, t.definitions[i]? = some d → t.definitions[j]? = some e →
      t.Reaches d.name e.name := by
  induction h with
  | single hij => exact fun hd he => .single ((edge_iff_refers hd he).mp hij)
  | @tail k j _ hkj ih =>
      intro d e hd he
      obtain ⟨f, _, hf, _, _⟩ := edge_iff.mp hkj
      exact (ih hd hf).tail ((edge_iff_refers hf he).mp hkj)

/-- The blocks of a table are the components of its graph. -/
theorem isComponents_blocks : t.graph.IsComponents t.blocks := by
  apply t.graph.isComponents_components
  intro i hi j
  rw [t.graph.getD_reachTable hi]
  exact t.graph.mem_reach hi

/-- The keys of places are different. -/
theorem getD_keys_injective (order : SectionOrder) (sections : List (Section × Section)) (i j : Nat)
    (h : (keys order sections).getD i (0, i) = (keys order sections).getD j (0, j)) : i = j := by
  have hsnd : ∀ k, ((keys order sections).getD k (0, k)).2 = k := by
    intro k
    rw [keys, List.getD_eq_getElem?_getD, List.getElem?_mapIdx]
    cases sections[k]? <;> rfl
  rw [← hsnd i, h, hsnd]

end Table

end SchemaModels
