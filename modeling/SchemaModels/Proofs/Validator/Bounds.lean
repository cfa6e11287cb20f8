import SchemaModels.Proofs.Spec.Bounds
import SchemaModels.Proofs.Validator.Declaration

/-!
# Bounds in declarations of validators

The schema of a specification carries a check for each bound that applies, and so do the schemas
inside it.

* `SchemaExpr.checks`: the checks of a schema, at any depth.
* `checks_ofSpec`: they are those for the bounds of the specification, at any depth.
* `checks_ofDefinition`: the same for the specifications of a definition.
-/

namespace SchemaModels

/-- The check for a bound. -/
def Bound.check : Bound → Validator.Check
  | minLength n => .minCount n
  | maxLength n => .maxCount n
  | pattern source => .regex source
  | minimum n => .min n
  | maximum n => .max n
  | exclusiveMinimum n => .above n
  | exclusiveMaximum n => .below n
  | minItems n => .minCount n
  | maxItems n => .maxCount n

namespace Validator

namespace SchemaExpr

/-! ### The checks in a schema -/

mutual

/-- The checks in a schema, from the outside to the inside. -/
def checks : SchemaExpr → List Check
  | primitive _ => []
  | any => []
  | never => []
  | null => []
  | literal _ => []
  | enum _ => []
  | array item => item.checks
  | tuple items => checksAll items
  | record value => value.checks
  | name _ => []
  | lazyName _ => []
  | union members => checksAll members
  | tagged _ members => checksAll members
  | checked base own => own ++ base.checks
  | nullable base => base.checks

def checksAll : List SchemaExpr → List Check
  | [] => []
  | e :: rest => e.checks ++ checksAll rest

end

theorem checks_ofValue (value : Json) : (ofValue value).checks = [] := by
  cases value <;> rfl

theorem checksAll_ofValues (values : List Json) : checksAll (values.map ofValue) = [] := by
  induction values with
  | nil => rfl
  | cons value rest ih => rw [List.map_cons, checksAll, checks_ofValue, ih, List.append_nil]

theorem checks_ofValues (values : List Json) : (ofValues values).checks = [] := by
  unfold ofValues
  split
  · rfl
  · rfl
  · exact checks_ofValue _
  · exact checksAll_ofValues _

theorem checks_withChecks (base : SchemaExpr) (own : List Check) :
    (withChecks base own).checks = own ++ base.checks := by
  unfold withChecks
  split
  · rename_i h
    rw [List.isEmpty_iff.mp h, List.nil_append]
  · rfl

theorem checks_orNull (isNullable : Bool) (shape : Shape) (e : SchemaExpr) :
    (orNull isNullable shape e).checks = e.checks := by
  unfold orNull
  split <;> rfl

/-- The checks for the bounds that fit a shape are those for the bounds that apply to it. -/
theorem checksFor_eq (shape : Shape) (b : Bounds) :
    checksFor shape b = (b.applying shape).map Bound.check := by
  have one : ∀ {α : Type} (f : α → Bound) (o : Option α),
      ((o.map f).toList).map Bound.check = check (fun a => (f a).check) o := by
    intro α f o
    cases o <;> rfl
  unfold checksFor Bounds.applying
  split <;> simp only [List.map_append, List.map_nil, one] <;> rfl

section ofSpec
variable {isForward : String → Bool}

theorem checks_ofReference (n : String) : (ofReference isForward n).checks = [] := by
  unfold ofReference
  split <;> rfl

theorem checks_ofMembers (members : List Spec) (schemas : List SchemaExpr)
    (discriminator : Option String) :
    (ofMembers isForward members schemas discriminator).checks = checksAll schemas := by
  unfold ofMembers
  split
  · rfl
  · rw [checksAll, checksAll, List.append_nil]
  · split <;> rfl
  · rfl

mutual

theorem checks_ofShape : ∀ shape : Shape, (ofShape isForward shape).checks =
    (shape.specs.flatMap Spec.ownBounds).map Bound.check
  | .primitive _ => rfl
  | .literal values => checks_ofValues values
  | .const value => checks_ofValue value
  | .array item => checks_ofSpec item
  | .tuple items => checksAll_ofSpecs items
  | .map none => rfl
  | .map (some value) => checks_ofSpec value
  | .reference n => checks_ofReference n
  | .union members discriminator => by
      rw [ofShape, checks_ofMembers]
      exact checksAll_ofSpecs members
  | .any => rfl

/-- The checks in the schema of a specification are those for its bounds, at any depth. -/
theorem checks_ofSpec : ∀ s : Spec,
    (ofSpec isForward s).checks = s.allBounds.map Bound.check
  | ⟨shape, bounds, _, isNullable, _⟩ => by
      rw [ofSpec, checks_orNull, checks_withChecks, checksFor_eq, checks_ofShape shape,
        ← List.map_append]
      rfl

theorem checksAll_ofSpecs : ∀ specs : List Spec, checksAll (ofSpecs isForward specs) =
    ((Spec.specsAll specs).flatMap Spec.ownBounds).map Bound.check
  | [] => rfl
  | s :: rest => by
      rw [ofSpecs, checksAll, checks_ofSpec s, checksAll_ofSpecs rest, ← List.map_append,
        Spec.specsAll, List.flatMap_append]
      rfl

end

end ofSpec

end SchemaExpr

/-! ### The checks of a declaration -/

/-- The schemas in a declaration, for each field or for the alias. -/
def Body.schemas : Body → List SchemaExpr
  | object fields _ => fields.map Field.schema
  | typeAlias schema => [schema]
  | _ => []

/-- A declaration has the checks for the bounds of its specifications, at any depth. -/
theorem checks_ofDefinition {settings : Settings} {t : Table} {plan : Plan}
    {isForward : String → Bool} {d : Definition} {body : Body}
    (h : Body.ofDefinition settings t plan isForward d = .ok body) :
    body.schemas.map SchemaExpr.checks = d.properties.map fun s => s.allBounds.map Bound.check := by
  unfold Definition.properties
  unfold Body.ofDefinition at h
  cases hk : d.kind with
  | enum values =>
      rw [hk] at h
      obtain rfl := Except.ok.inj h
      rfl
  | object record =>
      rw [hk] at h
      obtain rfl := Except.ok.inj h
      simp only [Body.schemas, List.map_map]
      exact List.map_congr_left fun f _ => SchemaExpr.checks_ofSpec f.2
  | union members discriminator =>
      rw [hk] at h
      rcases members with _ | ⟨first, _ | ⟨second, rest⟩⟩
      · exact absurd h (by simp)
      · obtain rfl := Except.ok.inj h
        rfl
      · obtain rfl := Except.ok.inj h
        rfl
  | typeAlias spec =>
      rw [hk] at h
      obtain rfl := Except.ok.inj h
      exact congrArg (fun checks => [checks]) (SchemaExpr.checks_ofSpec spec)

end Validator

end SchemaModels
