import SchemaModels.Proofs.Model.Declaration
import SchemaModels.Proofs.Unit.Blocks

/-!
# Rebuilding models

A model that refers to a later class is rebuilt when all classes exist. Only records refer to later
definitions, so that what is rebuilt is always a class, and one that is declared before.

* `Table.Backward`: definitions that are no records stand after what they refer to.
* `GeneratedUnit.RebuildsClasses`: the text of a unit of models, with the statements that rebuild
  classes.
* `backward_and_rebuildsClasses`: every plan is of the first kind, every unit of the second.
-/

namespace SchemaModels

namespace Table

/-- The forward references of a plan are those of records. Unions and aliases stand after what they
refer to. -/
structure Backward (t : Table) (plan : Plan) : Prop where
  isObject : ∀ p ∈ plan, p.forwardRefs ≠ [] → ∃ d, t.get? p.name = some d ∧ d.isObject = true
  forwardRefs_eq_nil : ∀ p ∈ plan, ∀ d, t.get? p.name = some d → d.isObject = false →
    p.forwardRefs = []
  union_after : ∀ (m : Nat) (p : Planned), plan[m]? = some p → ∀ d, t.get? p.name = some d →
    ∀ members discriminator, d.kind = .union members discriminator → ∀ r ∈ members,
      ∃ (n : Nat) (q : Planned), n < m ∧ plan[n]? = some q ∧ q.name = r
  typeAlias_after : ∀ (m : Nat) (p : Planned), plan[m]? = some p → ∀ d, t.get? p.name = some d →
    ∀ spec, d.kind = .typeAlias spec → ∀ r ∈ spec.mentions,
      ∃ (n : Nat) (q : Planned), n < m ∧ plan[n]? = some q ∧ q.name = r

section planWith
variable {t : Table} {blocks : List (List Nat)} {order : SectionOrder} {plan : Plan}
  (hb : t.graph.IsComponents blocks) (h : t.planWith blocks order = .ok plan)
include hb h

theorem backward : t.Backward plan where
  isObject p hp hne := by
    obtain ⟨d, hd, _⟩ := exists_definition hb h hp
    cases hobj : d.isObject with
    | true => exact ⟨d, hd, hobj⟩
    | false => exact absurd (Table.forwardRefs_eq_nil hb h hp hd hobj) hne
  forwardRefs_eq_nil p hp d hd hobj := Table.forwardRefs_eq_nil hb h hp hd hobj
  union_after m p hm d hd members discriminator hk r hr := by
    apply exists_lt_of_mem_mentions hb h hm hd
    · rw [Definition.isObject, hk]
    · rw [Definition.mentions, hk]
      exact hr
  typeAlias_after m p hm d hd spec hk r hr := by
    apply exists_lt_of_mem_mentions hb h hm hd
    · rw [Definition.isObject, hk]
    · rw [Definition.mentions, hk]
      exact hr

end planWith

end Table

/-! ### What is rebuilt -/

namespace GeneratedUnit

/-- The statements that rebuild the classes of a plan that refer to later ones, a line each. -/
def rebuildText (plan : Plan) : String :=
  String.intercalate "\n" (plan.forwardReferencing.map fun p => p.name ++ ".model_rebuild()")

/-- The text of a unit of models: the header and the definitions, the statements that rebuild
classes, if there are some, and the top-level type with the export list. Each of the statements
names a class whose code stands before them all. -/
structure RebuildsClasses (settings : Settings) (root : Root) (u : GeneratedUnit)
    (definitions : List Declaration) (top : Declaration) : Prop where
  declarations_eq : u.declarations = definitions ++ [top]
  content_eq : u.content = joinBlocks Model.backend.separator settings.lineEnding
    (leadingBlocks Model.backend (Model.backend.settle settings) root definitions top ++
      (if u.plan.forwardReferencing.isEmpty then []
      else [Model.banner "FORWARD REFERENCE RESOLUTION", rebuildText u.plan]) ++
      closingBlocks Model.backend (Model.backend.settle settings) definitions top)
  shows_rebuildText : u.plan.forwardReferencing ≠ [] → u.Shows settings (rebuildText u.plan)
  exists_class : ∀ p ∈ u.plan.forwardReferencing, ∃ d ∈ definitions, d.name = p.name ∧
    d.code ∈ leadingBlocks Model.backend (Model.backend.settle settings) root definitions top ∧
    u.Shows settings d.code ∧
    ∃ rest, d.code = "class " ++ p.name ++ "(BaseModel):" ++ "\n" ++ rest

theorem resolutionBlocks_model (plan : Plan) : resolutionBlocks Model.backend plan =
    if plan.forwardReferencing.isEmpty then []
    else [Model.banner "FORWARD REFERENCE RESOLUTION", rebuildText plan] := by
  unfold resolutionBlocks rebuildText
  cases hf : plan.forwardReferencing with
  | nil => simp [Model.backend, Model.resolution, hf]
  | cons p rest => simp [Model.backend, Model.resolution, hf]

section ofTable
variable {settings : Settings} {t : Table} {u : GeneratedUnit}
  (h : ofTable Model.backend settings t = .ok u)
include h

/-- The code of a planned definition with forward references is a class. -/
theorem exists_class {i : Nat} {p : Planned} (hp : u.plan[i]? = some p) (hne : p.forwardRefs ≠ []) :
    ∃ decl, u.declarations[i]? = some decl ∧ decl.name = p.name ∧
      ∃ rest, decl.code = "class " ++ p.name ++ "(BaseModel):" ++ "\n" ++ rest := by
  obtain ⟨d, decl, hd, hdecl, hcode⟩ := getElem?_declarations h hp
  obtain ⟨body, hbody, rfl⟩ := (Model.declaration_eq_ok_iff u.plan).mp hcode
  have hobj : d.isObject = true := by
    obtain ⟨d', hd', hobj⟩ := (Table.backward Table.isComponents_blocks
      (exists_declare h).1).isObject p (List.mem_of_getElem? hp) hne
    rwa [Option.some.inj (hd.symm.trans hd')]
  refine ⟨_, hdecl, rfl, ?_⟩
  rw [← (Table.get?_eq_some_iff.mp hd).2]
  exact Model.text_of_isObject hobj hbody _ _ _

theorem exists_rebuildsClasses : ∃ definitions top,
    u.RebuildsClasses settings t.root definitions top := by
  obtain ⟨definitions, top, hu, hc⟩ := exists_blocks h
  rw [resolutionBlocks_model] at hc
  refine ⟨definitions, top, hu, hc, fun hne => ?_, fun p hp => ?_⟩
  · refine shows_of_mem hc (List.mem_append_left _ (List.mem_append_right _ ?_))
    rw [if_neg (by simpa using hne)]
    exact List.mem_cons_of_mem _ (List.mem_singleton_self _)
  · obtain ⟨hplan, hne⟩ := List.mem_filter.mp hp
    obtain ⟨i, hi⟩ := List.mem_iff_getElem?.mp hplan
    obtain ⟨decl, hdecl, hname, hclass⟩ := exists_class h hi (by simpa using hne)
    -- the class is among the definitions, since the top-level type comes after the plan
    have hlt : i < definitions.length := by
      have hlen := length_declarations h
      have := (List.getElem?_eq_some_iff.mp hi).1
      rw [hu, List.length_append, List.length_singleton] at hlen
      omega
    have hshows := shows_code h (List.mem_of_getElem? hdecl)
    rw [hu, List.getElem?_append_left hlt] at hdecl
    have hmem := List.mem_of_getElem? hdecl
    have hcode := (sublist_sectionBlocks Model.backend.banner none definitions).subset
      (List.mem_map_of_mem hmem)
    exact ⟨decl, hmem, hname, List.mem_cons_of_mem _ hcode, hshows, hclass⟩

end ofTable

/-- Only records of a plan have forward references, and only classes that are declared before are
rebuilt in a unit of models. -/
theorem backward_and_rebuildsClasses :
    (∀ (t : Table) (blocks : List (List Nat)) (order : SectionOrder) (plan : Plan),
      t.graph.IsComponents blocks → t.planWith blocks order = .ok plan → t.Backward plan) ∧
    ∀ (settings : Settings) (t : Table) (u : GeneratedUnit),
      ofTable Model.backend settings t = .ok u →
        ∃ definitions top, u.RebuildsClasses settings t.root definitions top :=
  ⟨fun _ _ _ _ hb h => Table.backward hb h, fun _ _ _ h => exists_rebuildsClasses h⟩

theorem backward_and_rebuildsClasses_cards :
    (∃ plan, Table.cards.planWith Table.cards.blocks {} = .ok plan ∧ Table.cards.Backward plan) ∧
      ∃ u, ofTable Model.backend {} Table.cards = .ok u ∧
        u.plan.forwardReferencing.map Planned.name = ["Card"] ∧
        ∃ definitions top, u.RebuildsClasses {} Table.cards.root definitions top := by
  have hplan : Table.cards.planWith Table.cards.blocks {} = .ok _ := rfl
  have hunit : ofTable Model.backend {} Table.cards = .ok _ := rfl
  exact ⟨⟨_, hplan, backward_and_rebuildsClasses.1 _ _ _ _ Table.isComponents_blocks hplan⟩,
    _, hunit, rfl, backward_and_rebuildsClasses.2 _ _ _ hunit⟩

end GeneratedUnit

end SchemaModels
