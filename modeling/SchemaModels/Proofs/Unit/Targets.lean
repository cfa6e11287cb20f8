import SchemaModels.Proofs.Model.Declaration
import SchemaModels.Proofs.Unit.Declarations
import SchemaModels.Proofs.Validator.Declaration

/-!
# Units of different targets

The plan says of every declaration its name, its section, its export group and its references; a
target adds the code and the constructs. A validator is written whenever a model is: the only
definition without one is a union without members, which has no model either. Names of members or
of attributes that collide are errors of models alone.

* `map_outline`: what a plan says of the declarations of its unit, for either target.
* `ofTable_eq_ok`: there is a unit when there is a plan and all its declarations are written.
* `exists_zod_of_pydantic`: a table with a unit of models has a unit of validators, of one plan.
-/

namespace SchemaModels

/-! ### Outlines -/

/-- What a declaration says apart from its code. -/
def Declaration.outline (d : Declaration) : Planned :=
  { name := d.name
    category := d.category
    exportGroup := d.exportGroup
    dependencies := d.dependencies
    forwardRefs := d.forwardRefs }

/-- The outline of the top-level type. -/
def Root.outline (root : Root) : Planned :=
  { name := root.name
    category := .schema
    exportGroup := .schema
    dependencies := [root.metadataType, root.rootType]
    forwardRefs := [] }

namespace Target

variable {target : Target} {settings : Settings} {t : Table} {plan : Plan} {p : Planned}
  {d : Definition}

theorem outline_of_declaration {decl : Declaration}
    (h : target.backend.declaration settings t plan p d = .ok decl) : decl.outline = p := by
  cases target with
  | pydantic =>
      obtain ⟨_, _, rfl⟩ := (Model.declaration_eq_ok_iff plan).mp h
      rfl
  | zod =>
      obtain ⟨_, _, rfl⟩ := Validator.declaration_eq_ok_iff.mp h
      rfl

theorem outline_schemaType (target : Target) (settings : Settings) (t : Table) :
    (target.backend.schemaType settings t).outline = t.root.outline := by
  cases target <;> rfl

end Target

/-! ### Declarations that are written -/

/-- A definition has a validator unless it is a union without members. -/
theorem Validator.exists_ofDefinition {settings : Settings} {t : Table} {plan : Plan}
    {isForward : String → Bool} {d : Definition}
    (hd : ∀ discriminator, d.kind ≠ .union [] discriminator) :
    ∃ body, Body.ofDefinition settings t plan isForward d = .ok body := by
  unfold Body.ofDefinition
  cases hk : d.kind with
  | enum values => exact ⟨_, rfl⟩
  | object record => exact ⟨_, rfl⟩
  | union members discriminator =>
      rcases members with _ | ⟨first, _ | ⟨second, rest⟩⟩
      · exact absurd hk (hd discriminator)
      · exact ⟨_, rfl⟩
      · exact ⟨_, rfl⟩
  | typeAlias spec => exact ⟨_, rfl⟩

/-- A union without members has no model. -/
theorem Model.kind_ne_of_ofDefinition {settings : Settings} {t : Table} {isForward : String → Bool}
    {d : Definition} {body : Body} (h : Body.ofDefinition settings t isForward d = .ok body)
    (discriminator : Option String) : d.kind ≠ .union [] discriminator := by
  intro hk
  rcases ofDefinition_eq_ok h with ⟨_, _, hk', _⟩ | ⟨_, hk', _⟩ | ⟨members, _, hk', hne, _⟩ |
      ⟨_, hk', _⟩
  · cases hk.symm.trans hk'
  · cases hk.symm.trans hk'
  · obtain ⟨rfl, _⟩ := Kind.union.inj (hk.symm.trans hk')
    exact hne rfl
  · cases hk.symm.trans hk'

/-- What is written as a model is written as a validator, whatever the settings of the two. -/
theorem Target.exists_validator {settings settings' : Settings} {t : Table} {plan : Plan}
    {p : Planned} {d : Definition} {decl : Declaration}
    (h : pydantic.backend.declaration settings t plan p d = .ok decl) :
    ∃ decl', zod.backend.declaration settings' t plan p d = .ok decl' := by
  obtain ⟨body, hbody, _⟩ := (Model.declaration_eq_ok_iff plan).mp h
  obtain ⟨body', hbody'⟩ := Validator.exists_ofDefinition (Model.kind_ne_of_ofDefinition hbody)
  exact ⟨_, Validator.declaration_eq_ok_iff.mpr ⟨body', hbody', rfl⟩⟩

namespace GeneratedUnit

/-- All declarations are written when each of them is. -/
theorem exists_declare_of_forall {backend : Backend} {settings : Settings} {t : Table} {plan : Plan}
    (h : ∀ p ∈ plan, ∀ d, t.get? p.name = some d →
      ∃ decl, backend.declaration settings t plan p d = .ok decl) :
    ∃ ds, declare backend settings t plan = .ok ds := by
  cases hds : declare backend settings t plan with
  | ok ds => exact ⟨ds, rfl⟩
  | error e =>
      obtain ⟨⟨p, d⟩, hpd, he⟩ := exists_error_of_mapM hds
      obtain ⟨q, hq, hqd⟩ := List.mem_filterMap.mp hpd
      obtain ⟨d', hd', hpair⟩ := Option.map_eq_some_iff.mp hqd
      obtain ⟨rfl, rfl⟩ := Prod.mk.inj hpair
      obtain ⟨decl, hdecl⟩ := h q hq d' hd'
      exact absurd (hdecl.symm.trans he) (by simp)

section ofTable
variable {backend : Backend} {settings : Settings} {t : Table}

/-- The unit of a table, by its plan and the declarations of it. -/
theorem ofTable_eq_ok {plan : Plan} {ds : List Declaration}
    (hplan : (t.bound settings).plan settings.sections = .ok plan)
    (hds : declare backend (backend.settle settings) (t.bound settings) plan = .ok ds) :
    ofTable backend settings t = .ok
      { content := joinBlocks backend.separator settings.lineEnding
          (blocks backend (backend.settle settings) (t.bound settings) plan ds
            (backend.schemaType (backend.settle settings) (t.bound settings)))
        declarations := ds ++ [backend.schemaType (backend.settle settings) (t.bound settings)]
        substitutions := if settings.bindingRecords then t.substitutions else []
        plan } := by
  have hsettled : (t.bound settings).plan (backend.settle settings).sections = .ok plan := hplan
  rw [ofTable_eq, ofBoundTable, hsettled]
  simp only [bind, Except.bind, hds, pure, Except.pure]
  rfl

/-- The substitutions of a unit are those of the table. -/
theorem substitutions_ofTable {u : GeneratedUnit} (h : ofTable backend settings t = .ok u) :
    u.substitutions = if settings.bindingRecords then t.substitutions else [] := by
  obtain ⟨hplan, ds, hds, _⟩ := exists_declare h
  rw [Except.ok.inj (h.symm.trans (ofTable_eq_ok hplan hds))]

end ofTable

section outline
variable {target : Target} {settings : Settings} {t : Table} {u : GeneratedUnit}
  (h : ofTable target.backend settings t = .ok u)
include h

/-- The plan says all of the declarations of a unit apart from their code, and the top-level type
stands after them. -/
theorem map_outline : u.declarations.map Declaration.outline = u.plan ++ [t.root.outline] := by
  obtain ⟨_, ds, hds, hu, _⟩ := exists_declare h
  have hplan : List.Forall₂ (fun p decl => decl.outline = p) u.plan ds :=
    (forall₂_declare h hds).imp fun _ _ ⟨_, _, hdecl⟩ => Target.outline_of_declaration hdecl
  rw [hu, List.map_append, List.map_singleton, Target.outline_schemaType, Table.root_bound]
  have hall : List.Forall₂ Eq (ds.map Declaration.outline) u.plan :=
    List.forall₂_map_left_iff.mpr hplan.flip
  rw [List.forall₂_eq_eq_eq] at hall
  rw [hall]

/-- The names of a unit are those of the table, and the name of the top-level type. -/
theorem perm_names_declarations :
    (u.declarations.map Declaration.name).Perm (t.names ++ [t.root.name]) := by
  have hnames : u.declarations.map Declaration.name =
      u.plan.map Planned.name ++ [t.root.name] := by
    have hmap := congrArg (List.map Planned.name) (map_outline h)
    rwa [List.map_map, List.map_append] at hmap
  rw [hnames, ← Table.names_bound t settings]
  exact (perm_names h).append_right _

end outline

/-- A table with a unit of models has a unit of validators. The two declare the same names in the
same order, and the plan says the same of them. -/
theorem exists_zod_of_pydantic {settings : Settings} {t : Table} {u : GeneratedUnit}
    (h : ofTable Target.pydantic.backend settings t = .ok u) :
    ∃ v, ofTable Target.zod.backend settings t = .ok v ∧ v.plan = u.plan ∧
      v.substitutions = u.substitutions ∧
      v.declarations.map Declaration.outline = u.declarations.map Declaration.outline := by
  obtain ⟨hplan, ds, hds, _⟩ := exists_declare h
  have hwritten : ∃ ds', declare Target.zod.backend (Target.zod.backend.settle settings)
      (t.bound settings) u.plan = .ok ds' := by
    refine exists_declare_of_forall fun p hp d hd => ?_
    obtain ⟨i, hi⟩ := List.mem_iff_getElem?.mp hp
    obtain ⟨d', decl, hd', _, hdecl⟩ := getElem?_declarations h hi
    obtain rfl : d' = d := Option.some.inj (hd'.symm.trans hd)
    exact Target.exists_validator hdecl
  obtain ⟨ds', hds'⟩ := hwritten
  have hv := ofTable_eq_ok hplan hds'
  refine ⟨_, hv, rfl, ?_, ?_⟩
  · rw [substitutions_ofTable h]
  · rw [map_outline hv, map_outline h]

theorem zod_of_pydantic_cards : ∃ u v,
    ofTable Target.pydantic.backend {} Table.cards = .ok u ∧
    ofTable Target.zod.backend {} Table.cards = .ok v ∧
    v.plan = u.plan ∧ v.substitutions = u.substitutions ∧
    v.declarations.map Declaration.outline = u.declarations.map Declaration.outline ∧
    u.declarations.map Declaration.name =
      ["Text", "Card", "UIComponent", "UIMetadata", "UISchema"] := by
  have h : ofTable Target.pydantic.backend {} Table.cards = .ok _ := rfl
  obtain ⟨v, hv, hplan, hsubstitutions, houtlines⟩ := exists_zod_of_pydantic h
  exact ⟨_, v, h, hv, hplan, hsubstitutions, houtlines, rfl⟩

end GeneratedUnit

end SchemaModels
