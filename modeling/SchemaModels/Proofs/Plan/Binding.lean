import Mathlib.Data.List.Find
import SchemaModels.Proofs.Plan.Cycle
import SchemaModels.Proofs.Spec.Binding

/-!
# Plans of tables with bound records

Binding turns references to aliases into references to records. Cycles of references open and close
by that, and definitions go from one block to another. Whether there is a plan does not change: the
alias and the record are both definitions, so that what resolves is the same, and the cycles that
prevent a plan run through unions and aliases, which keep their references.

* `unresolved?_bindRecords`: the first reference to no definition is the same.
* `eagerCycle_bindRecords`: so are the cycles through unions and aliases.
* `PlanError.Alike`: failures of one kind.
* `planWith_bindRecords`: a table has a plan exactly when it has one with its records bound, and
  failures are alike.
-/

namespace SchemaModels

theorem findSome?_congr {α β : Type} {f g : α → Option β} :
    ∀ {items : List α}, (∀ a ∈ items, f a = g a) → items.findSome? f = items.findSome? g
  | [], _ => rfl
  | a :: rest, h => by
      rw [List.findSome?_cons, List.findSome?_cons, h a List.mem_cons_self,
        findSome?_congr fun b hb => h b (List.mem_cons_of_mem a hb)]

/-- Repetitions do not matter for what is found first. -/
theorem find?_eraseDups {α : Type} [BEq α] [LawfulBEq α] (p : α → Bool) (items : List α) :
    items.eraseDups.find? p = items.find? p := by
  cases items with
  | nil => rfl
  | cons a rest =>
      rw [List.eraseDups_cons, List.find?_cons, List.find?_cons]
      cases ha : p a with
      | true => rfl
      | false =>
          dsimp only
          rw [find?_eraseDups p (rest.filter fun b => !b == a), List.find?_filter]
          -- Only copies of `a` are erased, of which `p` is false.
          refine List.find?_congr fun b _ => ?_
          by_cases hb : b = a
          · simp [hb, ha]
          · simp [hb]
termination_by items.length
decreasing_by
  have hle := List.length_filter_le (fun b => !b == a) rest
  rw [List.length_cons]
  omega

namespace Table
variable {t : Table}

/-! ### References of bound tables -/

theorem contains_bindRecords (name : String) :
    t.bindRecords.contains name = t.contains name := by
  apply Bool.eq_iff_iff.mpr
  rw [contains_iff, contains_iff, bindRecords, names_mapKinds]

/-- Binding replaces the reference to a definition by the reference to a definition. -/
theorem find?_mentions_bindField (s : Spec) :
    (t.bindField s).mentions.find? (fun r => !t.contains r) =
      s.mentions.find? fun r => !t.contains r := by
  unfold bindField
  cases hb : t.binding? s with
  | none => rfl
  | some b =>
      obtain ⟨hshape, items, d, hlists, hfit, hname⟩ := binding?_eq_some_iff.mp hb
      obtain ⟨c, _, _, hget, _⟩ := hlists
      have halias : t.contains b.1 = true := by
        rw [contains, hget, Option.isSome_some]
      have hrecord : t.contains b.2 = true := by
        obtain ⟨_, before, after, hdefinitions, _⟩ := hfit
        refine contains_iff.mpr (mem_names.mpr ⟨d, ?_, hname⟩)
        rw [hdefinitions]
        exact List.mem_append_right _ List.mem_cons_self
      obtain ⟨shape, bounds, default, nullable, description⟩ := s
      obtain rfl : shape = .reference b.1 := hshape
      simp [Spec.mentions, Shape.mentions, halias, hrecord]

theorem find?_mentions_bindKind (d : Definition) :
    ({ d with kind := t.bindKind d } : Definition).mentions.find? (fun r => !t.contains r) =
      d.mentions.find? fun r => !t.contains r := by
  unfold Definition.mentions bindKind
  cases d.kind with
  | object record =>
      simp only [Record.mapFields, List.flatMap_map, List.find?_flatMap]
      exact findSome?_congr fun f _ => find?_mentions_bindField f.2
  | _ => rfl

/-- The first reference to no definition stands where it stood. -/
theorem unresolved?_bindRecords : t.bindRecords.unresolved? = t.unresolved? := by
  unfold unresolved?
  simp only [contains_bindRecords, Definition.references, find?_eraseDups]
  rw [bindRecords, mapKinds, List.findSome?_map]
  refine findSome?_congr fun d _ => ?_
  rw [Function.comp_apply, find?_mentions_bindKind]

theorem unresolvedRoot?_bindRecords : t.bindRecords.unresolvedRoot? = t.unresolvedRoot? := by
  unfold unresolvedRoot?
  simp only [contains_bindRecords]
  rfl

theorem resolved_bindRecords_iff : t.bindRecords.Resolved ↔ t.Resolved := by
  rw [← unresolved?_eq_none_iff, unresolved?_bindRecords, unresolved?_eq_none_iff]

theorem rootResolved_bindRecords_iff : t.bindRecords.RootResolved ↔ t.RootResolved := by
  rw [← unresolvedRoot?_eq_none_iff, unresolvedRoot?_bindRecords, unresolvedRoot?_eq_none_iff]

/-! ### Unions and aliases of bound tables -/

theorem isEager_bindKind (d : Definition) :
    ({ d with kind := t.bindKind d } : Definition).isEager = d.isEager := by
  unfold Definition.isEager bindKind
  cases d.kind <;> rfl

/-- Unions and aliases stay as they are. -/
theorem bindKind_of_isEager {d : Definition} (h : d.isEager = true) :
    { d with kind := t.bindKind d } = d := by
  obtain ⟨name, description, kind⟩ := d
  cases kind with
  | object record => cases h
  | _ => rfl

theorem mem_bindRecords_of_isEager {d : Definition} (h : d.isEager = true) :
    d ∈ t.bindRecords.definitions ↔ d ∈ t.definitions := by
  rw [bindRecords, mapKinds, List.mem_map]
  constructor
  · rintro ⟨c, hc, rfl⟩
    rw [isEager_bindKind] at h
    rwa [bindKind_of_isEager h]
  · exact fun hd => ⟨d, hd, bindKind_of_isEager h⟩

theorem refersEagerly_bindRecords {a b : String} :
    t.bindRecords.RefersEagerly a b ↔ t.RefersEagerly a b := by
  constructor
  · rintro ⟨d, hd, e, he, hda, heb, hde, hee, hr⟩
    exact ⟨d, (mem_bindRecords_of_isEager hde).mp hd, e, (mem_bindRecords_of_isEager hee).mp he,
      hda, heb, hde, hee, hr⟩
  · rintro ⟨d, hd, e, he, hda, heb, hde, hee, hr⟩
    exact ⟨d, (mem_bindRecords_of_isEager hde).mpr hd, e, (mem_bindRecords_of_isEager hee).mpr he,
      hda, heb, hde, hee, hr⟩

/-- The cycles through unions and aliases stay as they are. -/
theorem eagerCycle_bindRecords : t.bindRecords.EagerCycle ↔ t.EagerCycle := by
  have hrefers : t.bindRecords.RefersEagerly = t.RefersEagerly := by
    funext a b
    exact propext refersEagerly_bindRecords
  rw [EagerCycle, EagerCycle, hrefers]

end Table

/-! ### Plans of bound tables -/

/-- Two failures of one kind: the same reference is to no definition, or each is a cycle. -/
inductive PlanError.Alike : PlanError → PlanError → Prop where
  | unresolved (name referencedBy : String) :
      Alike (.unresolved name referencedBy) (.unresolved name referencedBy)
  | circular (cycle cycle' : List String) : Alike (.circular cycle) (.circular cycle')

namespace Table
variable {t : Table} {blocks blocks' : List (List Nat)}

/-- A reference to no definition is reported before and after binding, whatever the blocks. -/
theorem exists_unresolved_bindRecords (blocks blocks' : List (List Nat)) (order : SectionOrder)
    (h : ¬ (t.Resolved ∧ t.RootResolved)) : ∃ name owner,
      t.planWith blocks order = .error (.unresolved name owner) ∧
        t.bindRecords.planWith blocks' order = .error (.unresolved name owner) := by
  rw [← unresolved?_eq_none_iff, ← unresolvedRoot?_eq_none_iff] at h
  unfold planWith
  rw [unresolved?_bindRecords, unresolvedRoot?_bindRecords]
  cases hu : t.unresolved? with
  | some u => exact ⟨u.1, u.2, rfl, rfl⟩
  | none =>
      cases hr : t.unresolvedRoot? with
      | some name => exact ⟨name, t.root.name, rfl, rfl⟩
      | none => exact absurd ⟨hu, hr⟩ h

/-- A table has a plan exactly when it has one with its records bound, whatever the order of the
sections and the order in which blocks are listed. When there is none, the same reference is to no
definition or both failures are cycles, which may be different ones. -/
theorem planWith_bindRecords (hb : t.graph.IsComponents blocks)
    (hb' : t.bindRecords.graph.IsComponents blocks') (order : SectionOrder) :
    ((∃ plan, t.planWith blocks order = .ok plan) ↔
      ∃ plan, t.bindRecords.planWith blocks' order = .ok plan) ∧
    ∀ e e', t.planWith blocks order = .error e →
      t.bindRecords.planWith blocks' order = .error e' → e.Alike e' := by
  by_cases h : t.Resolved ∧ t.RootResolved
  · have h' : t.bindRecords.Resolved ∧ t.bindRecords.RootResolved :=
      ⟨resolved_bindRecords_iff.mpr h.1, rootResolved_bindRecords_iff.mpr h.2⟩
    rw [planWith_of_resolved h.1 h.2, planWith_of_resolved h'.1 h'.2]
    have hbound := planBlocks_outcome hb' order
    rw [eagerCycle_bindRecords] at hbound
    rcases planBlocks_outcome hb order with ⟨⟨plan, hp⟩, hc⟩ | ⟨⟨cycle, hp⟩, hc⟩
    · obtain ⟨plan', hp'⟩ := (hbound.resolve_right fun hcycle => hc hcycle.2).1
      rw [hp, hp']
      refine ⟨iff_of_true ⟨plan, rfl⟩ ⟨plan', rfl⟩, fun e e' he => ?_⟩
      cases he
    · obtain ⟨cycle', hp'⟩ := (hbound.resolve_left fun hplan => hplan.2 hc).1
      rw [hp, hp']
      refine ⟨by simp, fun e e' he he' => ?_⟩
      obtain rfl := Except.error.inj he
      obtain rfl := Except.error.inj he'
      exact .circular cycle cycle'
  · obtain ⟨name, owner, hp, hp'⟩ := exists_unresolved_bindRecords blocks blocks' order h
    rw [hp, hp']
    refine ⟨by simp, fun e e' he he' => ?_⟩
    obtain rfl := Except.error.inj he
    obtain rfl := Except.error.inj he'
    exact .unresolved name owner

/-- Nodes with pairs of a node and a value, given as tuples or as records. -/
def nodePairs : Table where
  root := { metadataType := "Node", rootType := "Node" }
  definitions :=
    let items : List Spec := [{ shape := .reference "Node" }, { shape := .any }]
    let pair : Record := ⟨[("node", { shape := .reference "Node" }), ("value", { shape := .any })],
      ["node", "value"], false, by decide⟩
    [⟨"Node", none, .object (Record.empty.insert "pairs" { shape := .reference "Pairs" })⟩,
      ⟨"Pairs", none, .typeAlias { shape := .array { shape := .tuple items } }⟩,
      ⟨"Pair", none, .object pair⟩]
  names_nodup := by decide

/-- Pairs in a list that a pair may hold, with a pair as root. -/
def pairLoop : Table :=
  { listedPairs with root := { metadataType := "Pair", rootType := "Pair" } }

/-- The cycle of nodes runs through the list of tuples, and after binding through the record. A list
of tuples that holds itself is a cycle before and after. -/
theorem planWith_bindRecords_nodePairs :
    (∃ plan plan', nodePairs.planWith nodePairs.blocks {} = .ok plan ∧
      plan.map (fun p => (p.name, p.forwardRefs)) =
        [("Node", ["Pairs"]), ("Pairs", []), ("Pair", [])] ∧
      nodePairs.bindRecords.planWith nodePairs.bindRecords.blocks {} = .ok plan' ∧
      plan'.map (fun p => (p.name, p.forwardRefs)) =
        [("Pair", ["Node"]), ("Node", []), ("Pairs", [])]) ∧
    ∃ e e', pairLoop.planWith pairLoop.blocks {} = .error e ∧
      pairLoop.bindRecords.planWith pairLoop.bindRecords.blocks {} = .error e' ∧ e.Alike e' := by
  have h : nodePairs.planWith nodePairs.blocks {} = .ok _ := rfl
  obtain ⟨plan', h'⟩ :=
    (planWith_bindRecords isComponents_blocks isComponents_blocks {}).1.mp ⟨_, h⟩
  refine ⟨⟨_, plan', h, rfl, h', ?_⟩, ?_⟩
  · obtain rfl := Except.ok.inj h'
    rfl
  · have hloop : pairLoop.planWith pairLoop.blocks {} = .error (.circular ["Pairs", "Pairs"]) := rfl
    have hbound : pairLoop.bindRecords.planWith pairLoop.bindRecords.blocks {} =
        .error (.circular ["Pairs", "Pairs"]) := rfl
    exact ⟨_, _, hloop, hbound,
      (planWith_bindRecords isComponents_blocks isComponents_blocks {}).2 _ _ hloop hbound⟩

end Table

end SchemaModels
