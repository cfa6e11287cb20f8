import SchemaModels.Proofs.Plan.Cycle
import SchemaModels.Proofs.Plan.Sections

/-!
# Plans of rearranged tables

Declaration order is where the planner starts from: places are numbered by it, and it breaks ties.
What is said of definitions by name does not depend on it, and that includes whether there is a
plan, and what a plan says of a definition apart from its place and its forward references.

* `Rearranged`: two tables with the same definitions and top-level type.
* `Rearranged.exists_plan_iff`: both have a plan, or neither.
* `Rearranged.section_eq`: the section and the export group of a definition are the same in both.
-/

namespace SchemaModels

/-- What two plans say of a name apart from its place: the section, the export group and the
dependencies. -/
def Plan.AgreeOn (plan plan' : Plan) (name : String) : Prop :=
  ∃ p p', plan.find name = some p ∧ plan'.find name = some p' ∧ p.category = p'.category ∧
    p.exportGroup = p'.exportGroup ∧ p.dependencies = p'.dependencies

namespace Table

/-- Two tables with the same definitions, in whatever order, and the same top-level type. -/
structure Rearranged (t t' : Table) : Prop where
  root_eq : t.root = t'.root
  perm : t.definitions.Perm t'.definitions

namespace Rearranged
variable {t t' : Table} (h : t.Rearranged t')
include h

/-! ### Definitions and references -/

theorem get?_eq (name : String) : t.get? name = t'.get? name := by
  refine Option.ext fun d => ?_
  rw [get?_eq_some_iff, get?_eq_some_iff, h.perm.mem_iff]

theorem mem_names_iff {name : String} : name ∈ t.names ↔ name ∈ t'.names :=
  (h.perm.map Definition.name).mem_iff

theorem refers_eq : t.Refers = t'.Refers := by
  funext a b
  simp only [Refers, h.perm.mem_iff]

theorem reaches_eq : t.Reaches = t'.Reaches := by
  unfold Reaches
  rw [h.refers_eq]

/-! ### Whether there is a plan -/

theorem resolved_iff : t.Resolved ↔ t'.Resolved := by
  simp only [Resolved, h.perm.mem_iff, h.mem_names_iff]

theorem rootResolved_iff : t.RootResolved ↔ t'.RootResolved := by
  simp only [RootResolved, h.root_eq, h.mem_names_iff]

theorem eagerCycle_iff : t.EagerCycle ↔ t'.EagerCycle := by
  have hrefers : t.RefersEagerly = t'.RefersEagerly := by
    funext a b
    simp only [RefersEagerly, h.perm.mem_iff]
  rw [EagerCycle, EagerCycle, hrefers]

/-- Both tables have a plan, or neither. -/
theorem exists_plan_iff {blocks blocks' : List (List Nat)} (hb : t.graph.IsComponents blocks)
    (hb' : t'.graph.IsComponents blocks') (order : SectionOrder) :
    (∃ plan, t.planWith blocks order = .ok plan) ↔
      ∃ plan, t'.planWith blocks' order = .ok plan := by
  rw [exists_planWith_iff hb order, exists_planWith_iff hb' order, h.resolved_iff,
    h.rootResolved_iff, h.eagerCycle_iff]

/-! ### What a plan says of a definition -/

theorem isUnion_eq : t.IsUnion = t'.IsUnion := by
  funext a
  simp only [IsUnion, h.perm.mem_iff]

theorem reachesUnion_eq : t.ReachesUnion = t'.ReachesUnion := by
  funext a
  simp only [ReachesUnion, h.isUnion_eq, h.reaches_eq]

theorem adjoins_eq : t.Adjoins = t'.Adjoins := by
  funext kind a
  simp only [Adjoins, h.refers_eq, h.reaches_eq]

theorem section_eq (d : Definition) : t.sectionFor d = t'.sectionFor d := by
  have hnested : t.IsNested = t'.IsNested := by
    funext u
    simp only [IsNested, h.isUnion_eq, h.reachesUnion_eq]
  unfold sectionFor
  rw [h.root_eq, h.reachesUnion_eq, h.adjoins_eq, hnested, h.isUnion_eq]

end Rearranged

/-- Plans of rearranged tables agree on every definition. -/
theorem Rearranged.agreeOn {t t' : Table} (h : t.Rearranged t') {blocks blocks' : List (List Nat)}
    (hb : t.graph.IsComponents blocks) (hb' : t'.graph.IsComponents blocks')
    {order : SectionOrder} {plan plan' : Plan} (hplan : t.planWith blocks order = .ok plan)
    (hplan' : t'.planWith blocks' order = .ok plan') {name : String} (hn : name ∈ t.names) :
    plan.AgreeOn plan' name := by
  obtain ⟨p, d, hp, hd, hsection, hdep⟩ := exists_find hb hplan hn
  obtain ⟨p', d', hp', hd', hsection', hdep'⟩ :=
    exists_find hb' hplan' (h.mem_names_iff.mp hn)
  obtain rfl : d = d' := by
    rw [h.get?_eq name, hd'] at hd
    exact (Option.some.inj hd).symm
  rw [h.section_eq d] at hsection
  obtain ⟨hcategory, hgroup⟩ := Prod.mk.inj (hsection.trans hsection'.symm)
  exact ⟨p, p', hp, hp', hcategory, hgroup, hdep.trans hdep'.symm⟩

end Table

end SchemaModels
