import SchemaModels.Proofs.Plan.Forward

/-!
# Cycles through unions and aliases

Unions and aliases are written as assignments, so that they have to follow what they refer to. A
table has a plan unless a reference is to no definition or unions and aliases refer to each other
in a cycle, and then the failure says which of the two.

* `eagerCycle_iff`: a cycle through unions and aliases is one in the graph through no record.
* `planWith_outcome`: when there is a plan, and which failure stands in its place.
-/

namespace SchemaModels

namespace Definition
variable (d : Definition)

/-- Whether a definition is a union or an alias. -/
def isEager : Bool := match d.kind with
  | .union _ _ => true
  | .typeAlias _ => true
  | _ => false

variable {d}

theorem isObject_eq_false_of_isEager (h : d.isEager = true) : d.isObject = false := by
  unfold isEager at h
  unfold isObject
  cases hk : d.kind <;> simp_all

/-- What refers to something is a record, a union or an alias. -/
theorem isEager_of_mem_mentions {r : String} (hr : r ∈ d.mentions) (h : d.isObject = false) :
    d.isEager = true := by
  unfold mentions at hr
  unfold isObject at h
  unfold isEager
  cases hk : d.kind <;> simp_all

end Definition

namespace Table

/-- A union or an alias of one name refers to a union or an alias of another name. -/
def RefersEagerly (t : Table) (a b : String) : Prop :=
  ∃ d ∈ t.definitions, ∃ e ∈ t.definitions, d.name = a ∧ e.name = b ∧
    d.isEager = true ∧ e.isEager = true ∧ b ∈ d.mentions

/-- Some cycle of references runs through unions and aliases only. -/
def EagerCycle (t : Table) : Prop := ∃ name, Relation.TransGen t.RefersEagerly name name

variable {t : Table}

/-! ### Cycles by places -/

theorem isObjectAt_eq {i : Nat} {d : Definition} (h : t.definitions[i]? = some d) :
    t.isObjectAt i = d.isObject := by
  rw [isObjectAt, h, Option.any_some]

/-- What a place that is no record refers from is a union or an alias. -/
theorem isEager_of_eager {i j : Nat} (h : t.Eager t.graph i j) :
    ∃ d, t.definitions[i]? = some d ∧ d.isEager = true := by
  obtain ⟨d, e, hd, _, hr⟩ := edge_iff.mp h.1
  refine ⟨d, hd, Definition.isEager_of_mem_mentions hr ?_⟩
  rw [← isObjectAt_eq hd]
  exact h.2.1

theorem refersEagerly_of_eager {i j : Nat} {d e : Definition} (h : t.Eager t.graph i j)
    (hd : t.definitions[i]? = some d) (he : t.definitions[j]? = some e) (hj : e.isEager = true) :
    t.RefersEagerly d.name e.name := by
  obtain ⟨d', e', hd', he', hr⟩ := edge_iff.mp h.1
  obtain rfl : d' = d := Option.some.inj (hd'.symm.trans hd)
  obtain rfl : e' = e := Option.some.inj (he'.symm.trans he)
  obtain ⟨d'', hd'', hi⟩ := isEager_of_eager h
  obtain rfl : d'' = d' := Option.some.inj (hd''.symm.trans hd)
  exact ⟨d'', List.mem_of_getElem? hd, e', List.mem_of_getElem? he, rfl, rfl, hi, hj, hr⟩

theorem eager_of_refersEagerly {a b : String} {i j : Nat} (h : t.RefersEagerly a b)
    (hi : t.index? a = some i) (hj : t.index? b = some j) : t.Eager t.graph i j := by
  obtain ⟨d, hd, e, he, rfl, rfl, hde, hee, hr⟩ := h
  obtain ⟨d', hd', hdn⟩ := index?_eq_some_iff.mp hi
  obtain ⟨e', he', hen⟩ := index?_eq_some_iff.mp hj
  obtain rfl : d' = d := List.inj_on_of_nodup_map t.names_nodup (List.mem_of_getElem? hd') hd hdn
  obtain rfl : e' = e := List.inj_on_of_nodup_map t.names_nodup (List.mem_of_getElem? he') he hen
  refine ⟨edge_iff.mpr ⟨d', e', hd', he', hr⟩, ?_, ?_⟩
  · rw [isObjectAt_eq hd']
    exact Definition.isObject_eq_false_of_isEager hde
  · rw [isObjectAt_eq he']
    exact Definition.isObject_eq_false_of_isEager hee

/-- A chain of unions and aliases as a walk in the graph. -/
theorem transGen_eager {a b : String} (h : Relation.TransGen t.RefersEagerly a b) :
    ∀ {i j : Nat}, t.index? a = some i → t.index? b = some j →
      Relation.TransGen (t.Eager t.graph) i j := by
  induction h with
  | single hab => exact fun hi hj => .single (eager_of_refersEagerly hab hi hj)
  | tail _ hcb ih =>
      intro i j hi hj
      obtain ⟨d, hd, _, _, hname, _⟩ := id hcb
      obtain ⟨k, _, hk, _⟩ := exists_index? (mem_names.mpr ⟨d, hd, hname⟩)
      exact (ih hi hk).tail (eager_of_refersEagerly hcb hk hj)

/-- A walk in the graph through no record as a chain of unions and aliases, if it does not end at
an enum. -/
theorem transGen_refersEagerly {i j : Nat} (h : Relation.TransGen (t.Eager t.graph) i j) :
    ∀ {d e : Definition}, t.definitions[i]? = some d → t.definitions[j]? = some e →
      e.isEager = true → Relation.TransGen t.RefersEagerly d.name e.name := by
  induction h with
  | single hij => exact fun hd he hj => .single (refersEagerly_of_eager hij hd he hj)
  | tail _ hkj ih =>
      intro d e hd he hj
      obtain ⟨f, hf, hk⟩ := isEager_of_eager hkj
      exact (ih hd hf hk).tail (refersEagerly_of_eager hkj hf he hj)

/-- A cycle through unions and aliases is a cycle of the graph through no record. -/
theorem eagerCycle_iff : t.EagerCycle ↔ ∃ i, Relation.TransGen (t.Eager t.graph) i i := by
  constructor
  · rintro ⟨name, h⟩
    obtain ⟨_, ⟨d, hd, _, _, hname, _⟩, _⟩ := Relation.TransGen.head'_iff.mp h
    obtain ⟨i, _, hi, _⟩ := exists_index? (mem_names.mpr ⟨d, hd, hname⟩)
    exact ⟨i, transGen_eager h hi hi⟩
  · rintro ⟨i, h⟩
    obtain ⟨_, hfirst, _⟩ := Relation.TransGen.head'_iff.mp h
    obtain ⟨d, hd, hi⟩ := isEager_of_eager hfirst
    exact ⟨d.name, transGen_refersEagerly h hd hd hi⟩

/-! ### Outcomes -/

section outcome
variable {blocks : List (List Nat)} {order : SectionOrder}

/-- A reference to no definition is reported before anything is ordered. -/
theorem exists_unresolved (blocks : List (List Nat)) (order : SectionOrder)
    (h : ¬ (t.Resolved ∧ t.RootResolved)) :
    ∃ name owner, t.planWith blocks order = .error (.unresolved name owner) := by
  rw [← unresolved?_eq_none_iff, ← unresolvedRoot?_eq_none_iff] at h
  unfold planWith
  cases hu : t.unresolved? with
  | some u => exact ⟨u.1, u.2, rfl⟩
  | none =>
      cases hr : t.unresolvedRoot? with
      | some name => exact ⟨name, t.root.name, rfl⟩
      | none => exact absurd ⟨hu, hr⟩ h

/-- When all references resolve, the plan is that of the blocks. -/
theorem planWith_of_resolved (h : t.Resolved) (hroot : t.RootResolved) :
    t.planWith blocks order = t.planBlocks blocks order := by
  rw [planWith, t.unresolved?_eq_none_iff.mpr h, t.unresolvedRoot?_eq_none_iff.mpr hroot]

theorem planBlocks_of_places {ps : List Nat} (h : t.places t.allSections blocks order = .ok ps) :
    t.planBlocks blocks order = .ok (t.plannedAfter t.allSections [] ps) := by
  simp only [planBlocks, h]
  rfl

theorem planBlocks_of_error {e : PlanError} (h : t.places t.allSections blocks order = .error e) :
    t.planBlocks blocks order = .error e := by
  simp only [planBlocks, h]
  rfl

variable (hb : t.graph.IsComponents blocks)
include hb

theorem not_eagerCycle_of_places {ps : List Nat}
    (h : t.places t.allSections blocks order = .ok ps) : ¬ t.EagerCycle := by
  rw [eagerCycle_iff]
  rintro ⟨i, hi⟩
  exact not_cyclic_of_sequence_ok hb proper_graph (getD_keys_injective order _) h i hi

theorem eagerCycle_of_error {e : PlanError} (h : t.places t.allSections blocks order = .error e) :
    (∃ cycle, e = .circular cycle) ∧ t.EagerCycle := by
  rw [eagerCycle_iff]
  exact sequence_error hb proper_graph (getD_keys_injective order _) h

/-- With all references resolved, there is a plan exactly without a cycle through unions and
aliases. -/
theorem planBlocks_outcome (order : SectionOrder) :
    ((∃ plan, t.planBlocks blocks order = .ok plan) ∧ ¬ t.EagerCycle) ∨
      ((∃ cycle, t.planBlocks blocks order = .error (.circular cycle)) ∧ t.EagerCycle) := by
  cases h : t.places t.allSections blocks order with
  | ok ps => exact .inl ⟨⟨_, planBlocks_of_places h⟩, not_eagerCycle_of_places hb h⟩
  | error e =>
      obtain ⟨⟨cycle, rfl⟩, hcycle⟩ := eagerCycle_of_error hb h
      exact .inr ⟨⟨cycle, planBlocks_of_error h⟩, hcycle⟩

theorem exists_planWith_iff (order : SectionOrder) :
    (∃ plan, t.planWith blocks order = .ok plan) ↔
      t.Resolved ∧ t.RootResolved ∧ ¬ t.EagerCycle := by
  by_cases h : t.Resolved ∧ t.RootResolved
  · rw [planWith_of_resolved h.1 h.2]
    rcases planBlocks_outcome hb order with ⟨⟨plan, hp⟩, hc⟩ | ⟨⟨cycle, hp⟩, hc⟩ <;>
      simp [hp, h, hc]
  · obtain ⟨name, owner, hp⟩ := exists_unresolved blocks order h
    rw [← and_assoc]
    simp [hp, h]

/-- A table has a plan when all references resolve, also those of the root, and no cycle runs
through unions and aliases only; otherwise the failure tells which of these is not so. No place
in the order is outside of the table. -/
theorem planWith_outcome (order : SectionOrder) :
    ((∃ plan, t.planWith blocks order = .ok plan) ↔
      t.Resolved ∧ t.RootResolved ∧ ¬ t.EagerCycle) ∧
    ((∃ name owner, t.planWith blocks order = .error (.unresolved name owner)) ↔
      ¬ (t.Resolved ∧ t.RootResolved)) ∧
    ((∃ cycle, t.planWith blocks order = .error (.circular cycle)) ↔
      t.Resolved ∧ t.RootResolved ∧ t.EagerCycle) ∧
    ∀ ps, t.places t.allSections blocks order = .ok ps → ∀ i ∈ ps, i < t.definitions.length := by
  have hplaces : ∀ ps, t.places t.allSections blocks order = .ok ps →
      ∀ i ∈ ps, i < t.definitions.length := fun ps hps i hi =>
    List.mem_range.mp ((places_ok hb hps).1.mem_iff.mp hi)
  by_cases h : t.Resolved ∧ t.RootResolved
  · rw [planWith_of_resolved h.1 h.2]
    rcases planBlocks_outcome hb order with ⟨⟨plan, hp⟩, hc⟩ | ⟨⟨cycle, hp⟩, hc⟩
    · refine ⟨?_, ?_, ?_, hplaces⟩ <;> simp [hp, h, hc]
    · refine ⟨?_, ?_, ?_, hplaces⟩ <;> simp [hp, h, hc]
  · obtain ⟨name, owner, hp⟩ := exists_unresolved blocks order h
    have h' : ∀ p, ¬ (t.Resolved ∧ t.RootResolved ∧ p) := fun p hp => h ⟨hp.1, hp.2.1⟩
    refine ⟨?_, ?_, ?_, hplaces⟩ <;> simp [hp, h, h']

end outcome

/-- Two aliases of each other, beside a metadata type and a root type. -/
def aliasLoop : Table where
  root := {}
  definitions :=
    [⟨"UIMetadata", none, .object Record.empty⟩,
     ⟨"UIComponent", none, .object Record.empty⟩,
     ⟨"Rows", none, .typeAlias { shape := .array { shape := .reference "Row" } }⟩,
     ⟨"Row", none, .typeAlias { shape := .tuple [{ shape := .reference "Rows" }] }⟩]
  names_nodup := by decide

theorem planWith_outcome_aliasLoop :
    aliasLoop.planWith aliasLoop.blocks {} = .error (.circular ["Rows", "Row", "Rows"]) ∧
      aliasLoop.Resolved ∧ aliasLoop.RootResolved ∧ aliasLoop.EagerCycle := by
  have h : aliasLoop.planWith aliasLoop.blocks {} =
      .error (.circular ["Rows", "Row", "Rows"]) := rfl
  exact ⟨h, (planWith_outcome isComponents_blocks {}).2.2.1.mp ⟨_, h⟩⟩

end Table

end SchemaModels
