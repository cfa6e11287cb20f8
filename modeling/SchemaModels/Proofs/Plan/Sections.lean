import SchemaModels.Proofs.Plan.Forward

/-!
# Sections by reachability

The planner finds the section of a definition by its place in the table. The section depends only
on what the definition declares, on the unions that its references lead to, and on the unions that
it is a member of. A union that leads to no union is a leaf; the others are nested.

* `Table.sectionFor`: the section and the export group of a definition, said without places.
* `getD_allSections`: the planner gives every definition this section.
* `section_of_mem`: what stands in a plan has it.
* `sectioned_planWith`: the sections of a table and of its plans.
-/

namespace SchemaModels

namespace Table
variable (t : Table)

/-! ### Unions by name -/

/-- A name is that of a union. -/
def IsUnion (a : String) : Prop := ∃ d ∈ t.definitions, d.name = a ∧ d.isUnion = true

/-- References lead from a name to a union. -/
def ReachesUnion (a : String) : Prop := ∃ u, t.IsUnion u ∧ t.Reaches a u

/-- A union that leads to a union, which may be the same one. -/
def IsNested (u : String) : Prop := t.IsUnion u ∧ t.ReachesUnion u

/-- A name is that of a member of a union of a kind, or leads to such a union. -/
def Adjoins (kind : String → Prop) (a : String) : Prop :=
  ∃ u, kind u ∧ (t.Refers u a ∨ t.Reaches a u)

open scoped Classical in
/-- The section and the export group of a definition, by what it leads to. -/
noncomputable def sectionFor (d : Definition) : Section × Section :=
  if d.name = t.root.metadataType then (.schema, .schema)
  else
    match d.kind with
    | .enum _ => (.enums, .enums)
    | .union _ _ => (.unions, if t.ReachesUnion d.name then .components else .actions)
    | .object _ | .typeAlias _ =>
        let s : Section :=
          if t.Adjoins t.IsNested d.name then .components
          else if t.Adjoins t.IsUnion d.name then .actions
          else .props
        (s, s)

/-- No definition is exported with the unions, which is no group of the export list. -/
theorem sectionFor_snd_ne (d : Definition) : (t.sectionFor d).2 ≠ .unions := by
  unfold sectionFor
  cases d.kind <;> dsimp only <;> repeat' split
  all_goals simp

variable {t}

/-! ### Names and places -/

/-- A chain of references is a walk in the graph. -/
theorem graph_reaches {a b : String} (h : t.Reaches a b) : ∀ {i j : Nat} {d e : Definition},
    t.definitions[i]? = some d → t.definitions[j]? = some e → d.name = a → e.name = b →
      t.graph.Reaches i j := by
  induction h with
  | single hab =>
      rintro i j d e hd he rfl rfl
      exact .single ((edge_iff_refers hd he).mpr hab)
  | tail _ hcb ih =>
      rintro i j d e hd he hda rfl
      -- what refers to something is a definition, so the walk goes through its place
      obtain ⟨f, hf, hfc, _⟩ := id hcb
      obtain ⟨k, hk⟩ := List.mem_iff_getElem?.mp hf
      exact (ih hd hk hda hfc).tail ((edge_iff_refers hk he).mpr (hfc ▸ hcb))

theorem graph_reaches_iff {i j : Nat} {d e : Definition} (hd : t.definitions[i]? = some d)
    (he : t.definitions[j]? = some e) : t.graph.Reaches i j ↔ t.Reaches d.name e.name :=
  ⟨fun h => reaches_of_graph h hd he, fun h => graph_reaches h hd he rfl rfl⟩

/-- The table of nodes reached tells for every place where its references lead. -/
theorem mem_reachTable {i j : Nat} : j ∈ t.graph.reachTable.getD i [] ↔ t.graph.Reaches i j := by
  by_cases hi : i < t.graph.size
  · rw [t.graph.getD_reachTable hi]
    exact t.graph.mem_reach hi
  · have hnil : t.graph.reachTable.getD i [] = [] := by
      rw [List.getD_eq_getElem?_getD, List.getElem?_eq_none, Option.getD_none]
      simpa [Graph.reachTable, Graph.nodes] using hi
    rw [hnil]
    refine ⟨fun h => absurd h List.not_mem_nil, fun h => ?_⟩
    obtain ⟨_, hik, _⟩ := Relation.TransGen.head'_iff.mp h
    exact absurd hik.1 hi

/-- Without a place among those that it leads to, there are no cycles. -/
theorem not_reaches_self (h : ∀ i < t.definitions.length, i ∉ t.graph.reachTable.getD i [])
    (name : String) : ¬ t.Reaches name name := by
  intro hcycle
  obtain ⟨_, ⟨d, hd, hname, _⟩, _⟩ := Relation.TransGen.head'_iff.mp hcycle
  obtain ⟨i, hi⟩ := List.mem_iff_getElem?.mp hd
  exact h i (List.getElem?_eq_some_iff.mp hi).1
    (mem_reachTable.mpr (graph_reaches hcycle hi hi hname hname))

theorem isUnionAt_iff {i : Nat} :
    t.isUnionAt i = true ↔ ∃ d, t.definitions[i]? = some d ∧ d.isUnion = true := by
  rw [isUnionAt, Option.any_eq_true]

theorem isUnionAt_eq {i : Nat} {d : Definition} (hd : t.definitions[i]? = some d) :
    t.isUnionAt i = d.isUnion := by
  rw [isUnionAt, hd, Option.any_some]

theorem isUnion_iff {d : Definition} (hd : d ∈ t.definitions) :
    t.IsUnion d.name ↔ d.isUnion = true := by
  refine ⟨?_, fun h => ⟨d, hd, rfl, h⟩⟩
  rintro ⟨e, he, hname, h⟩
  rwa [List.inj_on_of_nodup_map t.names_nodup hd he hname.symm]

/-- A union leads to a union exactly when a member is one or leads to one. -/
theorem reachesUnion_iff {a : String} :
    t.ReachesUnion a ↔ ∃ m, t.Refers a m ∧ (t.IsUnion m ∨ t.ReachesUnion m) := by
  constructor
  · rintro ⟨u, hu, h⟩
    obtain ⟨m, ham, hmu⟩ := Relation.TransGen.head'_iff.mp h
    rcases Relation.reflTransGen_iff_eq_or_transGen.mp hmu with rfl | hmu
    · exact ⟨u, ham, .inl hu⟩
    · exact ⟨m, ham, .inr ⟨u, hu, hmu⟩⟩
  · rintro ⟨m, ham, hm | ⟨u, hu, hmu⟩⟩
    · exact ⟨m, hm, .single ham⟩
    · exact ⟨u, hu, .head ham hmu⟩

/-- A union, and what leads to one, is a definition. -/
theorem exists_definition_of_leads {a : String} (h : t.IsUnion a ∨ t.ReachesUnion a) :
    ∃ d ∈ t.definitions, d.name = a := by
  rcases h with ⟨d, hd, hname, _⟩ | ⟨u, _, hau⟩
  · exact ⟨d, hd, hname⟩
  · obtain ⟨_, ⟨d, hd, hname, _⟩, _⟩ := Relation.TransGen.head'_iff.mp hau
    exact ⟨d, hd, hname⟩

/-! ### What the planner finds -/

theorem exists_of_mem_membersAt {i j : Nat} (h : j ∈ t.membersAt i) :
    ∃ e, t.definitions[j]? = some e := by
  unfold membersAt at h
  split at h
  · obtain ⟨e, he, _⟩ := mem_indices.mp h
    exact ⟨e, he⟩
  · exact absurd h List.not_mem_nil

theorem mem_membersAt {i j : Nat} {d e : Definition} (hd : t.definitions[i]? = some d)
    (he : t.definitions[j]? = some e) :
    j ∈ t.membersAt i ↔ d.isUnion = true ∧ t.Refers d.name e.name := by
  have hrefers : t.Refers d.name e.name ↔ e.name ∈ d.mentions := by
    refine ⟨?_, fun h => ⟨d, List.mem_of_getElem? hd, rfl, h⟩⟩
    rintro ⟨d', hd', hname, h⟩
    rwa [List.inj_on_of_nodup_map t.names_nodup (List.mem_of_getElem? hd) hd' hname.symm]
  rw [hrefers, membersAt, hd, Option.map_some, Definition.isUnion, Definition.mentions]
  cases d.kind <;> simp [mem_indices, he]

/-- The members of the unions of a kind. -/
theorem mem_membersOf (kind : String → Prop) {j : Nat} {e : Definition}
    (he : t.definitions[j]? = some e) {unions : List Nat}
    (hkind : ∀ i d, t.definitions[i]? = some d → (i ∈ unions ↔ d.isUnion = true ∧ kind d.name)) :
    j ∈ t.membersOf unions ↔ ∃ u, t.IsUnion u ∧ kind u ∧ t.Refers u e.name := by
  rw [membersOf, List.mem_flatMap]
  constructor
  · rintro ⟨i, hi, hj⟩
    obtain ⟨d, hd⟩ : ∃ d, t.definitions[i]? = some d := by
      cases hd : t.definitions[i]? with
      | some d => exact ⟨d, rfl⟩
      | none => simp [membersAt, hd] at hj
    obtain ⟨hu, hde⟩ := (mem_membersAt hd he).mp hj
    exact ⟨d.name, ⟨d, List.mem_of_getElem? hd, rfl, hu⟩, ((hkind i d hd).mp hi).2, hde⟩
  · rintro ⟨_, ⟨d, hd, rfl, hu⟩, hdkind, hde⟩
    obtain ⟨i, hi⟩ := List.mem_iff_getElem?.mp hd
    exact ⟨i, (hkind i d hi).mpr ⟨hu, hdkind⟩, (mem_membersAt hi he).mpr ⟨hu, hde⟩⟩

section reached
variable {reached : Nat → List Nat} (hr : ∀ i j, j ∈ reached i ↔ t.graph.Reaches i j)
include hr

theorem mem_unionsFrom {i j : Nat} {d : Definition} (hd : t.definitions[i]? = some d) :
    j ∈ t.unionsFrom reached i ↔
      ∃ e, t.definitions[j]? = some e ∧ e.isUnion = true ∧ t.Reaches d.name e.name := by
  rw [unionsFrom, List.mem_filter, hr, isUnionAt_iff]
  constructor
  · rintro ⟨hij, e, he, hu⟩
    exact ⟨e, he, hu, (graph_reaches_iff hd he).mp hij⟩
  · rintro ⟨e, he, hu, hde⟩
    exact ⟨(graph_reaches_iff hd he).mpr hde, e, he, hu⟩

/-- A quality of the unions reached, by their names. -/
theorem exists_unionsFrom_iff (test : Nat → Prop) (kind : String → Prop) {i : Nat} {d : Definition}
    (hd : t.definitions[i]? = some d)
    (htest : ∀ j e, t.definitions[j]? = some e → e.isUnion = true → (test j ↔ kind e.name)) :
    (∃ j ∈ t.unionsFrom reached i, test j) ↔ ∃ u, t.IsUnion u ∧ kind u ∧ t.Reaches d.name u := by
  constructor
  · rintro ⟨j, hj, htest'⟩
    obtain ⟨e, he, hu, hde⟩ := (mem_unionsFrom hr hd).mp hj
    exact ⟨e.name, ⟨e, List.mem_of_getElem? he, rfl, hu⟩, (htest j e he hu).mp htest', hde⟩
  · rintro ⟨_, ⟨e, he, rfl, hu⟩, hkind, hde⟩
    obtain ⟨j, hj⟩ := List.mem_iff_getElem?.mp he
    exact ⟨j, (mem_unionsFrom hr hd).mpr ⟨e, hj, hu, hde⟩, (htest j e hj hu).mpr hkind⟩

theorem isEmpty_unionsFrom_iff {i : Nat} {d : Definition} (hd : t.definitions[i]? = some d) :
    (t.unionsFrom reached i).isEmpty = false ↔ t.ReachesUnion d.name := by
  have h := exists_unionsFrom_iff hr (fun _ => True) (fun _ => True) hd fun _ _ _ _ => Iff.rfl
  simp only [and_true, true_and] at h
  rw [List.isEmpty_eq_false_iff_exists_mem, h]
  rfl

theorem isLeafUnion_iff {i : Nat} {d : Definition} (hd : t.definitions[i]? = some d) :
    t.isLeafUnion reached i = true ↔ d.isUnion = true ∧ ¬ t.ReachesUnion d.name := by
  have hunion : t.isUnionAt i = true ↔ d.isUnion = true := isUnionAt_eq hd ▸ Iff.rfl
  rw [isLeafUnion, Bool.and_eq_true, hunion, List.all_eq_true]
  refine and_congr_right fun hu => ?_
  have hmember : ∀ {j : Nat} {e : Definition}, t.definitions[j]? = some e →
      ((!t.isUnionAt j && (t.unionsFrom reached j).isEmpty) = true ↔
        ¬ (t.IsUnion e.name ∨ t.ReachesUnion e.name)) := by
    intro j e he
    rw [isUnionAt_eq he, isUnion_iff (List.mem_of_getElem? he), ← isEmpty_unionsFrom_iff hr he]
    simp
  rw [reachesUnion_iff]
  constructor
  · rintro hall ⟨m, hdm, hm⟩
    obtain ⟨e, he, rfl⟩ := exists_definition_of_leads hm
    obtain ⟨j, hj⟩ := List.mem_iff_getElem?.mp he
    exact (hmember hj).mp (hall j ((mem_membersAt hd hj).mpr ⟨hu, hdm⟩)) hm
  · intro hnone j hj
    obtain ⟨e, he⟩ := exists_of_mem_membersAt hj
    exact (hmember he).mpr fun hm => hnone ⟨_, ((mem_membersAt hd he).mp hj).2, hm⟩

theorem mem_leaves {i : Nat} {d : Definition} (hd : t.definitions[i]? = some d) :
    i ∈ (t.unionSplit reached).1 ↔ d.isUnion = true ∧ ¬ t.ReachesUnion d.name := by
  have hlt := (List.getElem?_eq_some_iff.mp hd).1
  simp only [unionSplit, List.partition_eq_filter_filter, List.mem_filter, unionPlaces,
    List.mem_range, hlt, isUnionAt_eq hd, true_and, isLeafUnion_iff hr hd, and_self_left]

theorem mem_others {i : Nat} {d : Definition} (hd : t.definitions[i]? = some d) :
    i ∈ (t.unionSplit reached).2 ↔ d.isUnion = true ∧ t.ReachesUnion d.name := by
  have hlt := (List.getElem?_eq_some_iff.mp hd).1
  have hleaf := isLeafUnion_iff hr hd
  simp only [unionSplit, List.partition_eq_filter_filter, List.mem_filter, unionPlaces,
    List.mem_range, hlt, isUnionAt_eq hd, true_and, Function.comp_apply, Bool.not_eq_true']
  rw [← Bool.not_eq_true, hleaf]
  tauto

/-- The members of nested unions and what leads to nested unions. -/
theorem adjoins_isNested_iff {i : Nat} {d : Definition} (hd : t.definitions[i]? = some d) :
    ((t.membersOf (t.unionSplit reached).2).contains i ||
      (t.unionsFrom reached i).any (t.unionSplit reached).2.contains) = true ↔
        t.Adjoins t.IsNested d.name := by
  rw [Bool.or_eq_true, List.contains_iff_mem,
    mem_membersOf t.ReachesUnion hd fun _ _ => mem_others hr, List.any_eq_true]
  simp only [List.contains_iff_mem]
  rw [exists_unionsFrom_iff hr _ t.ReachesUnion hd fun j e he hu => by
    rw [mem_others hr he, and_iff_right hu]]
  simp only [Adjoins, IsNested, and_assoc, and_or_left, exists_or]

/-- The members of leaf unions and what leads to unions, apart from those of nested unions. -/
theorem adjoins_isUnion_iff {i : Nat} {d : Definition} (hd : t.definitions[i]? = some d)
    (hnested : ¬ t.Adjoins t.IsNested d.name) :
    ((t.membersOf (t.unionSplit reached).1).contains i ||
      !(t.unionsFrom reached i).isEmpty) = true ↔ t.Adjoins t.IsUnion d.name := by
  rw [Bool.or_eq_true, List.contains_iff_mem,
    mem_membersOf (fun u => ¬ t.ReachesUnion u) hd fun _ _ => mem_leaves hr,
    Bool.not_eq_true', isEmpty_unionsFrom_iff hr hd]
  simp only [Adjoins, and_or_left, exists_or, ReachesUnion]
  refine or_congr_left' fun _ => exists_congr fun u => ?_
  constructor
  · rintro ⟨hu, _, hud⟩
    exact ⟨hu, hud⟩
  · rintro ⟨hu, hud⟩
    exact ⟨hu, fun hleads => hnested ⟨u, ⟨hu, hleads⟩, .inl hud⟩, hud⟩

open scoped Classical in
/-- The planner gives a definition the section of what it leads to. -/
theorem getD_sections {i : Nat} {d : Definition} (hd : t.definitions[i]? = some d) :
    (t.sections reached).getD i (.props, .props) = t.sectionFor d := by
  have hnested := adjoins_isNested_iff hr hd
  have hsection : (if (t.membersOf (t.unionSplit reached).2).contains i ||
        (t.unionsFrom reached i).any (t.unionSplit reached).2.contains then Section.components
      else if (t.membersOf (t.unionSplit reached).1).contains i ||
        !(t.unionsFrom reached i).isEmpty then .actions
      else .props) =
      if t.Adjoins t.IsNested d.name then Section.components
      else if t.Adjoins t.IsUnion d.name then .actions
      else .props := by
    by_cases h : t.Adjoins t.IsNested d.name
    · rw [if_pos h, if_pos (hnested.mpr h)]
    · rw [if_neg h, if_neg (mt hnested.mp h)]
      exact if_congr (adjoins_isUnion_iff hr hd h) rfl rfl
  rw [List.getD_eq_getElem?_getD, sections, List.getElem?_mapIdx, hd, Option.map_some,
    Option.getD_some]
  unfold sectionFor
  refine if_congr Iff.rfl rfl ?_
  unfold sectionOf
  cases hk : d.kind with
  | enum => rfl
  | union =>
      have hu : d.isUnion = true := by rw [Definition.isUnion, hk]
      have hleaf : (t.unionSplit reached).1.contains i = true ↔ ¬ t.ReachesUnion d.name := by
        rw [List.contains_iff_mem, mem_leaves hr hd, and_iff_right hu]
      by_cases h : t.ReachesUnion d.name
      · simp only [if_pos h, if_neg (mt hleaf.mp (not_not_intro h))]
      · simp only [if_neg h, if_pos (hleaf.mpr h)]
  | object => simp only [hsection]
  | typeAlias => simp only [hsection]

end reached

/-! ### Plans -/

theorem getD_allSections {i : Nat} {d : Definition} (hd : t.definitions[i]? = some d) :
    t.allSections.getD i (.props, .props) = t.sectionFor d :=
  getD_sections (fun _ _ => mem_reachTable) hd

/-- What stands in a plan has the section and the dependencies of its definition. -/
theorem section_of_mem {blocks : List (List Nat)} {order : SectionOrder} {plan : Plan}
    (hb : t.graph.IsComponents blocks) (h : t.planWith blocks order = .ok plan) {p : Planned}
    (hp : p ∈ plan) : ∃ d, t.get? p.name = some d ∧ (p.category, p.exportGroup) = t.sectionFor d ∧
      p.dependencies = d.references := by
  obtain ⟨m, hm⟩ := List.mem_iff_getElem?.mp hp
  obtain ⟨_, _, _, hplan⟩ := exists_places hb h
  obtain ⟨i, d, _, hd, rfl, _⟩ := hplan m p hm
  exact ⟨d, get?_eq_some_iff.mpr ⟨List.mem_of_getElem? hd, rfl⟩, getD_allSections hd, rfl⟩

/-- A plan says of a name what its definition and its section say. -/
theorem exists_find {blocks : List (List Nat)} {order : SectionOrder} {plan : Plan}
    (hb : t.graph.IsComponents blocks) (hplan : t.planWith blocks order = .ok plan)
    {name : String} (hn : name ∈ t.names) :
    ∃ p d, plan.find name = some p ∧ t.get? name = some d ∧
      (p.category, p.exportGroup) = t.sectionFor d ∧ p.dependencies = d.references := by
  have hmem : name ∈ plan.map Planned.name := (perm_names_plan hb hplan).mem_iff.mpr hn
  obtain ⟨q, hq, hqn⟩ := List.mem_map.mp hmem
  obtain ⟨p, hp⟩ : ∃ p, plan.find name = some p := by
    rw [← Option.isSome_iff_exists, Plan.find, List.find?_isSome]
    exact ⟨q, hq, by simpa using hqn⟩
  have hpn : p.name = name := by simpa using List.find?_some hp
  obtain ⟨d, hd, hsection, hdep⟩ := section_of_mem hb hplan (List.mem_of_find?_eq_some hp)
  exact ⟨p, d, hp, hpn ▸ hd, hsection, hdep⟩

theorem allSections_eq_map : t.allSections = t.definitions.map t.sectionFor := by
  have hlength : t.allSections.length = (t.definitions.map t.sectionFor).length := by
    simp [allSections, sections]
  refine List.ext_getElem hlength fun i hi hlt => ?_
  rw [List.length_map] at hlt
  have hd := getD_allSections (List.getElem?_eq_getElem hlt)
  rw [List.getD_eq_getElem _ _ hi] at hd
  rw [hd, List.getElem_map]

/-- The planner finds the section and the export group of every definition by reachability, and a
plan gives each definition those. -/
theorem sectioned_planWith (t : Table) :
    t.allSections = t.definitions.map t.sectionFor ∧
      ∀ blocks order plan, t.graph.IsComponents blocks → t.planWith blocks order = .ok plan →
        ∀ d ∈ t.definitions, ∃ p, plan.find d.name = some p ∧
          (p.category, p.exportGroup) = t.sectionFor d := by
  refine ⟨allSections_eq_map, fun blocks order plan hb hplan d hd => ?_⟩
  have hname : d.name ∈ t.names := List.mem_map_of_mem hd
  obtain ⟨p, e, hp, he, hsection, _⟩ := exists_find hb hplan hname
  obtain rfl : e = d := Option.some.inj (he.symm.trans (get?_eq_some_iff.mpr ⟨hd, rfl⟩))
  exact ⟨p, hp, hsection⟩

/-- Components with a nested union, events with a leaf union, and what belongs to neither. -/
def widgets : Table where
  root := {}
  definitions :=
    [⟨"UIMetadata", none, .enum ["draft"]⟩,
     ⟨"UIComponent", none, .union ["Panel", "Label"] none⟩,
     ⟨"Panel", none, .object
       ((Record.empty.insert "onClose" { shape := .reference "Event" }).insert
         "children" { shape := .array { shape := .reference "UIComponent" } })⟩,
     ⟨"Label", none, .object (Record.empty.insert "style" { shape := .reference "Style" })⟩,
     ⟨"Event", none, .union ["Click"] none⟩,
     ⟨"Click", none, .object Record.empty⟩,
     ⟨"Events", none, .typeAlias { shape := .array { shape := .reference "Event" } }⟩,
     ⟨"Style", none, .object (Record.empty.insert "size" { shape := .reference "Size" })⟩,
     ⟨"Size", none, .enum ["small", "large"]⟩]
  names_nodup := by decide

theorem sectioned_planWith_widgets : ∃ plan, widgets.planWith widgets.blocks {} = .ok plan ∧
    plan.map (fun p => (p.name, p.category, p.exportGroup)) =
      [("Size", .enums, .enums), ("Click", .actions, .actions), ("Style", .props, .props),
       ("Event", .unions, .actions), ("Events", .actions, .actions),
       ("Label", .components, .components), ("Panel", .components, .components),
       ("UIComponent", .unions, .components), ("UIMetadata", .schema, .schema)] ∧
    ∀ d ∈ widgets.definitions, ∃ p, plan.find d.name = some p ∧
      (p.category, p.exportGroup) = widgets.sectionFor d :=
  have h : widgets.planWith widgets.blocks {} = .ok _ := rfl
  ⟨_, h, rfl, (sectioned_planWith widgets).2 _ _ _ isComponents_blocks h⟩

end Table

end SchemaModels
