import SchemaModels.Proofs.Model.Bounds
import SchemaModels.Proofs.Unit.Models
import SchemaModels.Proofs.Unit.Tagged
import SchemaModels.Proofs.Validator.Bounds

/-!
# Bounds in units

The bounds that a table states are written in the declarations of its definitions: in a unit of
validators at every depth, in a unit of models only those of fields and aliases themselves.

* `GeneratedUnit.WritesBounds`: which bounds a declaration has, beside the one of a validator.
* `bounds_ofTable`: this is so for every definition of a table.
* `bounds_lost_tags`: a bound of the items of a list is written nowhere.
-/

namespace SchemaModels

namespace GeneratedUnit

/-- Which bounds are in the declaration of a definition. Those of its specifications themselves are
arguments. Those inside are not: it is also what is declared without them. The validator of the
definition has a check for each bound at any depth. -/
structure WritesBounds (u : GeneratedUnit) (settings : Settings) (t : Table) (i : Nat)
    (d : Definition) (body : Model.Body) : Prop where
  own : List.Forall₂ (fun s arguments => ∀ b ∈ s.ownBounds, b.argument ∈ arguments)
    d.properties body.arguments
  bare : d.bare.properties.map Spec.allBounds = d.properties.map Spec.ownBounds
  inside : ∀ p, u.plan[i]? = some p →
    Model.Body.ofDefinition (Target.pydantic.backend.settle settings) (t.bound settings)
      p.isForward d.bare = .ok body
  checks : ∀ v, ofTable Target.zod.backend settings t = .ok v →
    ∃ body', v.Declares settings t i d.name body' ∧
      body'.schemas.map Validator.SchemaExpr.checks =
        d.properties.map fun s => s.allBounds.map Bound.check

section ofTable
variable {settings : Settings} {t : Table} {u : GeneratedUnit}
  (h : ofTable Target.pydantic.backend settings t = .ok u)
include h

/-- The units of both targets have one plan. -/
theorem plan_eq_of_zod {v : GeneratedUnit} (hv : ofTable Target.zod.backend settings t = .ok v) :
    v.plan = u.plan :=
  Except.ok.inj ((exists_declare hv).1.symm.trans (exists_declare h).1)

/-- What a definition declares has the bounds that `WritesBounds` says. -/
theorem DeclaresModel.writesBounds {i : Nat} {d : Definition} {body : Model.Body}
    (hbody : u.DeclaresModel settings t i d body) : u.WritesBounds settings t i d body := by
  obtain ⟨p, decl, hp, hd, hof, -⟩ := hbody
  have hname : d.name = p.name := (Table.get?_eq_some_iff.mp hd).2
  refine ⟨Model.forall₂_arguments hof, ?_, fun q hq => ?_, fun v hv => ?_⟩
  · rw [Definition.properties_bare, List.map_map]
    exact List.map_congr_left fun s _ => s.allBounds_bare
  · obtain rfl : p = q := Option.some.inj (hp.symm.trans hq)
    rw [Model.ofDefinition_bare, hof]
  · have hpv : v.plan[i]? = some p := by rw [plan_eq_of_zod h hv, hp]
    obtain ⟨body', hdeclares⟩ := exists_declares hv hpv
    refine ⟨body', hname ▸ hdeclares, ?_⟩
    obtain ⟨_, d', _, _, _, hd', hof', -⟩ := hdeclares
    obtain rfl : d' = d := Option.some.inj (hd'.symm.trans hd)
    exact Validator.checks_ofDefinition hof'

/-- In a unit of models every definition is declared with the bounds of its fields or of its alias
as arguments, and without those inside them, while the validators of the same table check all. -/
theorem bounds_ofTable : ∀ d ∈ (t.bound settings).definitions, ∃ i body,
    u.DeclaresModel settings t i d body ∧ u.WritesBounds settings t i d body := by
  intro d hd
  obtain ⟨i, body, hdeclares⟩ := exists_declaresModel h hd
  exact ⟨i, body, hdeclares, hdeclares.writesBounds h⟩

end ofTable

end GeneratedUnit

/-- Rows have two tags at least, none of them empty. -/
def Table.tags : Table where
  root := { metadataType := "Row", rootType := "Row" }
  definitions :=
    let tag : Spec := { shape := .primitive .string, bounds := { minLength := some 1 } }
    let tags : Spec := { shape := .array tag, bounds := { minItems := some 2 } }
    [⟨"Row", none, .object ⟨[("tags", tags)], ["tags"], false, by decide⟩⟩]
  names_nodup := by decide

namespace GeneratedUnit

theorem bounds_ofTable_tags : ∃ u, ofTable Target.pydantic.backend {} Table.tags = .ok u ∧
    ∀ d ∈ (Table.tags.bound {}).definitions, ∃ i body,
      u.DeclaresModel {} Table.tags i d body ∧ u.WritesBounds {} Table.tags i d body := by
  have h : ofTable Target.pydantic.backend {} Table.tags = .ok _ := rfl
  exact ⟨_, h, bounds_ofTable h⟩

/-- The least length of a tag is not among the arguments, which have the least number of tags. -/
theorem bounds_lost_tags : ∃ u d body, ofTable Target.pydantic.backend {} Table.tags = .ok u ∧
    u.DeclaresModel {} Table.tags 0 d body ∧ body.arguments = [[.minLength 2]] ∧
      ∃ s ∈ d.properties, ∃ b ∈ s.allBounds,
        ∀ arguments ∈ body.arguments, b.argument ∉ arguments := by
  have h : ofTable Target.pydantic.backend {} Table.tags = .ok _ := rfl
  refine ⟨_, _, _, h, ⟨_, _, rfl, rfl, rfl, rfl, rfl, rfl⟩, rfl, _, List.mem_cons_self,
    .minLength 1, List.mem_cons_of_mem _ List.mem_cons_self, ?_⟩
  intro arguments harguments hmem
  have hwritten : arguments ∈ [[Model.Argument.minLength 2]] := harguments
  rw [List.mem_singleton.mp hwritten] at hmem
  have hsame : Model.Argument.minLength 1 = .minLength 2 := List.mem_singleton.mp hmem
  exact absurd (Model.Argument.minLength.inj hsame) (by decide)

end GeneratedUnit

end SchemaModels
