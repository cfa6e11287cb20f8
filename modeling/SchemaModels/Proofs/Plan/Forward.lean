import SchemaModels.Proofs.Plan.Reference
import SchemaModels.Proofs.Plan.Sequence

/-!
# Forward references

A plan holds every definition once. A reference is forward exactly when what it names stands at
the same place of the plan or later, and that happens only on cycles, and only in records.

* `planWith_eq_ok_iff`: there is a plan when all references resolve and the places have an order.
* `mem_forwardRefs_iff`: the forward references of a definition by places in the plan.
* `reaches_of_mem_forwardRefs`, `forwardRefs_eq_nil`: what a forward reference tells.
* `ordered_planWith`: all of this for any list of the components of the references.
-/

namespace SchemaModels

/-- An item stands in the first part of a list when its place does. -/
theorem mem_take_iff_lt {xs : List Nat} (hn : xs.Nodup) {i m n : Nat} (h : xs[n]? = some i) :
    i ∈ xs.take m ↔ n < m := by
  obtain ⟨hlt, rfl⟩ := List.getElem?_eq_some_iff.mp h
  rw [List.mem_take_iff_getElem]
  constructor
  · rintro ⟨k, hk, he⟩
    have := (hn.getElem_inj_iff).mp he
    omega
  · intro hnm
    exact ⟨n, by omega, rfl⟩

namespace Plan

/-- The place of a definition in a plan. -/
def position (plan : Plan) (name : String) : Nat := (plan.map Planned.name).idxOf name

theorem position_eq {plan : Plan} (hn : (plan.map Planned.name).Nodup) {m : Nat} {p : Planned}
    (h : plan[m]? = some p) : plan.position p.name = m := by
  obtain ⟨hm, rfl⟩ := List.getElem?_eq_some_iff.mp h
  have hidx := hn.idxOf_getElem m (by simpa using hm)
  rwa [List.getElem_map] at hidx

end Plan

namespace Table
variable {t : Table}

/-! ### Planned definitions by place -/

section plannedAfter
variable {sections : List (Section × Section)}

theorem mem_forwardRefs_plannedAt {declared : List Nat} {i : Nat} {d : Definition} {r : String} :
    r ∈ (t.plannedAt sections declared i d).forwardRefs ↔
      r ∈ d.references ∧ ∃ j, t.index? r = some j ∧ j ∉ declared := by
  simp [plannedAt, Option.any_eq_true]

/-- What stands at a place of the plan. -/
theorem getElem?_plannedAfter : ∀ {declared places : List Nat} {m : Nat} {p : Planned},
    (∀ i ∈ places, i < t.definitions.length) →
    (t.plannedAfter sections declared places)[m]? = some p →
    ∃ i d, places[m]? = some i ∧ t.definitions[i]? = some d ∧
      p = t.plannedAt sections ((places.take m).reverse ++ declared) i d
  | _, [], _, _, _, h => by simp [plannedAfter] at h
  | declared, i :: places, m, p, hlt, h => by
      have hd := List.getElem?_eq_getElem (hlt i List.mem_cons_self)
      simp only [plannedAfter, hd] at h
      cases m with
      | zero =>
          rw [List.getElem?_cons_zero, Option.some.injEq] at h
          exact ⟨i, _, rfl, hd, by simpa using h.symm⟩
      | succ m =>
          rw [List.getElem?_cons_succ] at h
          obtain ⟨j, e, hj, he, rfl⟩ :=
            getElem?_plannedAfter (fun k hk => hlt k (List.mem_cons_of_mem i hk)) h
          exact ⟨j, e, hj, he, by simp⟩

theorem map_name_plannedAfter : ∀ {declared places : List Nat},
    (t.plannedAfter sections declared places).map Planned.name = t.namesAt places
  | _, [] => rfl
  | declared, i :: places => by
      have ih := @map_name_plannedAfter (i :: declared) places
      simp only [namesAt] at ih ⊢
      cases hd : t.definitions[i]? with
      | none => simp [plannedAfter, hd, ih]
      | some d => simp [plannedAfter, hd, ih, plannedAt]

end plannedAfter

theorem getD_names {i : Nat} {d : Definition} (h : t.definitions[i]? = some d) :
    t.names.getD i "" = d.name := by
  rw [names, List.getD_eq_getElem?_getD, List.getElem?_map, h]
  rfl

/-- Places of definitions are told by the names. -/
theorem getD_names_injective {i j : Nat} (hi : i < t.definitions.length)
    (hj : j < t.definitions.length) (h : t.names.getD i "" = t.names.getD j "") : i = j := by
  rw [← List.length_map Definition.name] at hi hj
  rw [names, List.getD_eq_getElem _ _ hi, List.getD_eq_getElem _ _ hj] at h
  exact t.names_nodup.getElem_inj_iff.mp h

theorem namesAt_eq_map {places : List Nat} (h : ∀ i ∈ places, i < t.definitions.length) :
    t.namesAt places = places.map fun i => t.names.getD i "" := by
  have hget : ∀ i ∈ places, (t.definitions[i]?).map Definition.name = some (t.names.getD i "") := by
    intro i hi
    have hd := List.getElem?_eq_getElem (h i hi)
    rw [getD_names hd, hd, Option.map_some]
  rw [namesAt, List.filterMap_congr hget, List.filterMap_eq_map']

theorem namesAt_range : t.namesAt (List.range t.definitions.length) = t.names := by
  rw [namesAt_eq_map fun i hi => List.mem_range.mp hi]
  refine List.ext_getElem (by simp [names]) fun i h _ => ?_
  simp only [List.length_map, List.length_range] at h
  rw [List.getElem_map, List.getElem_range, List.getD_eq_getElem]

/-! ### Plans by their places -/

section planWith
variable {blocks : List (List Nat)} {order : SectionOrder} {plan : Plan}

/-- There is a plan when all references resolve and the places have an order. -/
theorem planWith_eq_ok_iff :
    t.planWith blocks order = .ok plan ↔ t.Resolved ∧ t.RootResolved ∧
      ∃ ps, t.places t.allSections blocks order = .ok ps ∧
        t.plannedAfter t.allSections [] ps = plan := by
  rw [← unresolved?_eq_none_iff, ← unresolvedRoot?_eq_none_iff]
  simp only [planWith, planBlocks]
  cases t.unresolved? with
  | some u => simp
  | none =>
      cases t.unresolvedRoot? with
      | some u => simp
      | none =>
          cases t.places t.allSections blocks order <;>
            simp [bind, Except.bind, pure, Except.pure]

variable (hb : t.graph.IsComponents blocks)
include hb

/-- The places of an order are those of the definitions, each once. A place stands after those
that it refers to, but for records, which may refer to what they are linked to. -/
theorem places_ok {ps : List Nat} (h : t.places t.allSections blocks order = .ok ps) :
    ps.Perm (List.range t.definitions.length) ∧
      InTurn (fun before i => ∀ j, t.graph.Edge i j →
        j ∈ before ∨ t.isObjectAt i = true ∧ t.graph.Linked i j) [] ps :=
  sequence_ok hb proper_graph (getD_keys_injective order _) h

variable (h : t.planWith blocks order = .ok plan)
include h

/-- What stands at a place of a plan, by the order of the places. -/
theorem exists_places : ∃ ps : List Nat, ps.Nodup ∧ (∀ i, i ∈ ps ↔ i < t.definitions.length) ∧
    (∀ m p, plan[m]? = some p → ∃ i d, ps[m]? = some i ∧ t.definitions[i]? = some d ∧
      p = t.plannedAt t.allSections (ps.take m).reverse i d ∧
      ∀ j, t.graph.Edge i j →
        j ∈ ps.take m ∨ t.isObjectAt i = true ∧ t.graph.Linked i j) := by
  obtain ⟨_, _, ps, hps, rfl⟩ := planWith_eq_ok_iff.mp h
  obtain ⟨hperm, hin⟩ := places_ok hb hps
  have hmem : ∀ i, i ∈ ps ↔ i < t.definitions.length := fun i => by
    rw [hperm.mem_iff, List.mem_range]
  refine ⟨ps, hperm.nodup_iff.mpr List.nodup_range, hmem, fun m p hp => ?_⟩
  obtain ⟨i, d, hi, hd, rfl⟩ := getElem?_plannedAfter (fun i hi => (hmem i).mp hi) hp
  exact ⟨i, d, hi, hd, by simp, by simpa using hin.of_getElem? hi⟩

/-- Every definition is planned once. -/
theorem perm_names_plan : (plan.map Planned.name).Perm t.names := by
  obtain ⟨_, _, ps, hps, rfl⟩ := planWith_eq_ok_iff.mp h
  rw [map_name_plannedAfter, ← namesAt_range]
  exact (places_ok hb hps).1.filterMap _

/-- A planned definition has the dependencies of its definition. -/
theorem exists_definition {p : Planned} (hp : p ∈ plan) :
    ∃ d, t.get? p.name = some d ∧ p.dependencies = d.references := by
  obtain ⟨m, hm⟩ := List.mem_iff_getElem?.mp hp
  obtain ⟨_, _, _, hplan⟩ := exists_places hb h
  obtain ⟨i, d, _, hd, rfl, _⟩ := hplan m p hm
  exact ⟨d, get?_eq_some_iff.mpr ⟨List.mem_of_getElem? hd, rfl⟩, rfl⟩

theorem forwardRefs_subset {p : Planned} (hp : p ∈ plan) : p.forwardRefs ⊆ p.dependencies := by
  obtain ⟨m, hm⟩ := List.mem_iff_getElem?.mp hp
  obtain ⟨_, _, _, hplan⟩ := exists_places hb h
  obtain ⟨i, d, _, _, rfl, _⟩ := hplan m p hm
  exact fun r hr => (mem_forwardRefs_plannedAt.mp hr).1

/-- A dependency is a forward reference when it is planned at the same place or later. -/
theorem mem_forwardRefs_iff {m n : Nat} {a b : Planned} (ha : plan[m]? = some a)
    (hbn : plan[n]? = some b) : b.name ∈ a.forwardRefs ↔ b.name ∈ a.dependencies ∧ m ≤ n := by
  obtain ⟨ps, hn, _, hplan⟩ := exists_places hb h
  obtain ⟨i, d, _, _, rfl, _⟩ := hplan m a ha
  obtain ⟨j, e, hj, he, rfl, _⟩ := hplan n b hbn
  have hidx : t.index? e.name = some j := index?_eq_some_iff.mpr ⟨e, he, rfl⟩
  have htake := mem_take_iff_lt (m := m) hn hj
  rw [mem_forwardRefs_plannedAt]
  apply and_congr_right
  intro _
  show (∃ k, t.index? e.name = some k ∧ _) ↔ _
  simp only [hidx, Option.some.injEq, exists_eq_left', List.mem_reverse, htake, Nat.not_lt]

/-- The dependencies of a planned definition are planned. -/
theorem exists_planned_of_dependency {p : Planned} (hp : p ∈ plan) {r : String}
    (hr : r ∈ p.dependencies) : ∃ (n : Nat) (q : Planned), plan[n]? = some q ∧ q.name = r := by
  obtain ⟨hres, _, _⟩ := planWith_eq_ok_iff.mp h
  obtain ⟨d, hd, he⟩ := exists_definition hb h hp
  have hmem := hres d (get?_eq_some_iff.mp hd).1 r (Definition.mem_references.mp (he ▸ hr))
  obtain ⟨q, hq, rfl⟩ := List.mem_map.mp ((perm_names_plan hb h).mem_iff.mpr hmem)
  obtain ⟨n, hn⟩ := List.mem_iff_getElem?.mp hq
  exact ⟨n, q, hn, rfl⟩

/-- A forward reference stands in a record, and is linked to it in the graph. -/
theorem linked_of_mem_forwardRefs {p : Planned} (hp : p ∈ plan) {r : String}
    (hr : r ∈ p.forwardRefs) : ∃ i j d e, t.definitions[i]? = some d ∧ t.definitions[j]? = some e ∧
      d.name = p.name ∧ e.name = r ∧ t.isObjectAt i = true ∧ t.graph.Edge i j ∧
      t.graph.Linked i j := by
  obtain ⟨m, hm⟩ := List.mem_iff_getElem?.mp hp
  obtain ⟨ps, _, _, hplan⟩ := exists_places hb h
  obtain ⟨i, d, _, hd, rfl, hback⟩ := hplan m p hm
  obtain ⟨hdep, j, hj, hnot⟩ := mem_forwardRefs_plannedAt.mp hr
  obtain ⟨e, he, rfl⟩ := index?_eq_some_iff.mp hj
  have hedge : t.graph.Edge i j :=
    edge_iff.mpr ⟨d, e, hd, he, Definition.mem_references.mp hdep⟩
  rw [List.mem_reverse] at hnot
  obtain ⟨hobj, hlink⟩ := (hback j hedge).resolve_left hnot
  exact ⟨i, j, d, e, hd, he, rfl, rfl, hobj, hedge, hlink⟩

/-- What a forward reference names leads back to the definition. -/
theorem reaches_of_mem_forwardRefs {p : Planned} (hp : p ∈ plan) {r : String}
    (hr : r ∈ p.forwardRefs) : t.Reaches r p.name := by
  obtain ⟨i, j, d, e, hd, he, hdn, rfl, _, hedge, hlink⟩ := linked_of_mem_forwardRefs hb h hp hr
  rw [← hdn]
  rcases hlink.2 with rfl | ⟨_, hji⟩
  · exact reaches_of_graph (.single hedge) he hd
  · exact reaches_of_graph hji he hd

/-- Only records have forward references. -/
theorem forwardRefs_eq_nil {p : Planned} (hp : p ∈ plan) {d : Definition}
    (hd : t.get? p.name = some d) (hobj : d.isObject = false) : p.forwardRefs = [] := by
  rw [List.eq_nil_iff_forall_not_mem]
  intro r hr
  obtain ⟨i, _, e, _, he, _, hen, _, hi, _⟩ := linked_of_mem_forwardRefs hb h hp hr
  obtain rfl : e = d := by
    have he' := get?_eq_some_iff.mpr ⟨List.mem_of_getElem? he, hen⟩
    exact Option.some.inj (he'.symm.trans hd)
  rw [isObjectAt, he, Option.any_some, hobj] at hi
  exact absurd hi Bool.false_ne_true

/-- A definition that is no record stands after what it refers to. -/
theorem exists_lt_of_mem_dependencies {m : Nat} {p : Planned} (hm : plan[m]? = some p)
    {d : Definition} (hd : t.get? p.name = some d) (hobj : d.isObject = false) {r : String}
    (hr : r ∈ p.dependencies) :
    ∃ (n : Nat) (q : Planned), n < m ∧ plan[n]? = some q ∧ q.name = r := by
  have hp : p ∈ plan := List.mem_of_getElem? hm
  obtain ⟨n, q, hn, rfl⟩ := exists_planned_of_dependency hb h hp hr
  refine ⟨n, q, Nat.lt_of_not_le fun hmn => ?_, hn, rfl⟩
  have hfwd := (mem_forwardRefs_iff hb h hm hn).mpr ⟨hr, hmn⟩
  rw [forwardRefs_eq_nil hb h hp hd hobj] at hfwd
  exact absurd hfwd List.not_mem_nil

theorem exists_lt_of_mem_mentions {m : Nat} {p : Planned} (hm : plan[m]? = some p) {d : Definition}
    (hd : t.get? p.name = some d) (hobj : d.isObject = false) {r : String} (hr : r ∈ d.mentions) :
    ∃ (n : Nat) (q : Planned), n < m ∧ plan[n]? = some q ∧ q.name = r := by
  obtain ⟨e, he, hdep⟩ := exists_definition hb h (List.mem_of_getElem? hm)
  obtain rfl : e = d := Option.some.inj (he.symm.trans hd)
  exact exists_lt_of_mem_dependencies hb h hm hd hobj
    (hdep ▸ Definition.mem_references.mpr hr)

end planWith

/-! ### What a plan guarantees -/

/-- An order of declarations for a table. -/
structure Ordered (t : Table) (plan : Plan) : Prop where
  /-- Every definition stands in the plan once. -/
  perm_names : (plan.map Planned.name).Perm t.names
  /-- The dependencies are the references of the definition. -/
  dependencies_eq : ∀ p ∈ plan, ∃ d, t.get? p.name = some d ∧ p.dependencies = d.references
  dependencies_subset : ∀ p ∈ plan, p.dependencies ⊆ t.names
  /-- The forward references are the dependencies at the same place or later. -/
  forwardRefs_subset : ∀ p ∈ plan, p.forwardRefs ⊆ p.dependencies
  mem_forwardRefs_iff : ∀ (m n : Nat) (a b : Planned), plan[m]? = some a → plan[n]? = some b →
    (b.name ∈ a.forwardRefs ↔ b.name ∈ a.dependencies ∧ m ≤ n)
  /-- A forward reference lies on a cycle. -/
  reaches : ∀ p ∈ plan, ∀ r ∈ p.forwardRefs, t.Reaches r p.name
  /-- A reference on no cycle is to a definition that stands before. -/
  lt_of_not_reaches : ∀ (m n : Nat) (a b : Planned), plan[m]? = some a → plan[n]? = some b →
    b.name ∈ a.dependencies → ¬ t.Reaches b.name a.name → n < m

/-- Whatever the order in which the components are listed, a plan orders the declarations. -/
theorem ordered_planWith {blocks : List (List Nat)} {order : SectionOrder} {plan : Plan}
    (hb : t.graph.IsComponents blocks) (h : t.planWith blocks order = .ok plan) :
    t.Ordered plan where
  perm_names := perm_names_plan hb h
  dependencies_eq p hp := exists_definition hb h hp
  dependencies_subset p hp r hr := by
    obtain ⟨n, q, hq, rfl⟩ := exists_planned_of_dependency hb h hp hr
    exact (perm_names_plan hb h).mem_iff.mp (List.mem_map_of_mem (List.mem_of_getElem? hq))
  forwardRefs_subset p hp := forwardRefs_subset hb h hp
  mem_forwardRefs_iff m n a b ha hbn := mem_forwardRefs_iff hb h ha hbn
  reaches p hp r hr := reaches_of_mem_forwardRefs hb h hp hr
  lt_of_not_reaches m n a b ha hbn hdep hnot := by
    by_contra hlt
    have hfwd := (mem_forwardRefs_iff hb h ha hbn).mpr ⟨hdep, Nat.le_of_not_lt hlt⟩
    exact hnot (reaches_of_mem_forwardRefs hb h (List.mem_of_getElem? ha) hfwd)

/-- Components that are cards or texts, where a card holds components. -/
def cards : Table where
  root := {}
  definitions :=
    [⟨"UIComponent", none, .union ["Card", "Text"] (some "type")⟩,
     ⟨"UIMetadata", none, .object (Record.empty.insert "version" { shape := .any })⟩,
     ⟨"Card", none, .object
       (Record.empty.insert "children" { shape := .array { shape := .reference "UIComponent" } })⟩,
     ⟨"Text", none, .object (Record.empty.insert "text" { shape := .primitive .string })⟩]
  names_nodup := by decide

theorem ordered_cards : ∃ plan, cards.planWith cards.blocks {} = .ok plan ∧
    plan.map (fun p => (p.name, p.forwardRefs)) =
      [("Text", []), ("Card", ["UIComponent"]), ("UIComponent", []), ("UIMetadata", [])] ∧
    cards.Ordered plan :=
  have h : cards.planWith cards.blocks {} = .ok _ := rfl
  ⟨_, h, rfl, ordered_planWith isComponents_blocks h⟩

end Table

end SchemaModels
