import SchemaModels.Proofs.Model.Declaration
import SchemaModels.Proofs.Spec.Bounds

/-!
# Bounds in declarations of models

The bounds of a field or an alias are written as arguments of `Field`. Types have no arguments, so
that what is stated inside a specification is not written.

* `argument_mem_boundArguments`: each bound of a specification's own has its argument.
* `ofSpec_unbounded`: types do not depend on bounds.
* `ofDefinition_bare`: a declaration does not depend on the bounds inside its specifications.
* `forall₂_arguments`: the arguments of a declaration have the bounds of its specifications' own.
-/

namespace SchemaModels

/-- The argument of `Field` for a bound. -/
def Bound.argument : Bound → Model.Argument
  | minLength n => .minLength n
  | maxLength n => .maxLength n
  | pattern source => .pattern source
  | minimum n => .atLeast n
  | maximum n => .atMost n
  | exclusiveMinimum n => .above n
  | exclusiveMaximum n => .below n
  | minItems n => .minLength n
  | maxItems n => .maxLength n

namespace Model

/-! ### Arguments -/

section arguments
variable {s : Spec} {b : Bound}

/-- Each bound of a specification's own has its argument. -/
theorem argument_mem_boundArguments (h : b ∈ s.ownBounds) : b.argument ∈ boundArguments s := by
  unfold Spec.ownBounds Bounds.applying at h
  unfold boundArguments
  split at h
  case h_5 => exact absurd h List.not_mem_nil
  all_goals
    rename_i hs
    simp only [List.mem_append, Option.mem_toList, Option.map_eq_some_iff] at h
    simp only [hs, List.mem_append, mem_optionally]
  case h_1 =>
    rcases h with (⟨n, hn, rfl⟩ | ⟨n, hn, rfl⟩) | ⟨n, hn, rfl⟩ <;> simp [Bound.argument, hn]
  case h_2 =>
    rcases h with ((⟨n, hn, rfl⟩ | ⟨n, hn, rfl⟩) | ⟨n, hn, rfl⟩) | ⟨n, hn, rfl⟩ <;>
      simp [Bound.argument, hn]
  case h_3 =>
    rcases h with ((⟨n, hn, rfl⟩ | ⟨n, hn, rfl⟩) | ⟨n, hn, rfl⟩) | ⟨n, hn, rfl⟩ <;>
      simp [Bound.argument, hn]
  case h_4 => rcases h with ⟨n, hn, rfl⟩ | ⟨n, hn, rfl⟩ <;> simp [Bound.argument, hn]

/-- A field has the arguments for the bounds of its specification's own: none applies to a
constant. -/
theorem argument_mem_fieldArguments (a : Attribute) (h : b ∈ s.ownBounds) :
    b.argument ∈ fieldArguments a s := by
  unfold fieldArguments
  refine List.mem_append_left _ ?_
  split
  · rename_i hs
    rw [Spec.ownBounds, hs] at h
    exact absurd h List.not_mem_nil
  · exact argument_mem_boundArguments h

end arguments

/-! ### What the bounds inside do not change -/

section bare
variable (isForward : String → Bool)

mutual

theorem TypeExpr.ofShape_unbounded : ∀ shape : Shape,
    TypeExpr.ofShape isForward shape.unbounded = TypeExpr.ofShape isForward shape
  | .array item => congrArg TypeExpr.list (TypeExpr.ofSpec_unbounded item)
  | .tuple items => congrArg TypeExpr.tuple (TypeExpr.ofSpecs_unbounded items)
  | .map none => rfl
  | .map (some value) => congrArg TypeExpr.dict (TypeExpr.ofSpec_unbounded value)
  | .union members discriminator => by
      rw [Shape.unbounded, TypeExpr.ofShape, TypeExpr.ofShape, TypeExpr.ofSpecs_unbounded members]
  | .primitive _ => rfl
  | .literal _ => rfl
  | .const _ => rfl
  | .reference _ => rfl
  | .any => rfl

/-- The type of a specification does not depend on bounds. -/
theorem TypeExpr.ofSpec_unbounded : ∀ s : Spec,
    TypeExpr.ofSpec isForward s.unbounded = TypeExpr.ofSpec isForward s
  | ⟨shape, _, _, nullable, _⟩ =>
      congrArg (TypeExpr.orNone nullable) (TypeExpr.ofShape_unbounded shape)

theorem TypeExpr.ofSpecs_unbounded : ∀ ss : List Spec,
    TypeExpr.ofSpecs isForward (Spec.unboundedAll ss) = TypeExpr.ofSpecs isForward ss
  | [] => rfl
  | s :: rest => by
      rw [Spec.unboundedAll, TypeExpr.ofSpecs, TypeExpr.ofSpecs, TypeExpr.ofSpec_unbounded s,
        TypeExpr.ofSpecs_unbounded rest]

end

theorem TypeExpr.ofSpec_bare (s : Spec) :
    TypeExpr.ofSpec isForward s.bare = TypeExpr.ofSpec isForward s := by
  obtain ⟨shape, bounds, default, nullable, description⟩ := s
  exact congrArg (TypeExpr.orNone nullable) (TypeExpr.ofShape_unbounded isForward shape)

theorem boundArguments_bare (s : Spec) : boundArguments s.bare = boundArguments s := by
  obtain ⟨shape, bounds, default, nullable, description⟩ := s
  cases shape with
  | map value => cases value <;> rfl
  | _ => rfl

theorem fieldArguments_bare (a : Attribute) (s : Spec) :
    fieldArguments a s.bare = fieldArguments a s := by
  obtain ⟨shape, bounds, default, nullable, description⟩ := s
  cases shape with
  | map value => cases value <;> rfl
  | _ => rfl

theorem impliedDefault_bare (t : Table) (required : Bool) (s : Spec) :
    impliedDefault t required s.bare = impliedDefault t required s := by
  obtain ⟨shape, bounds, default, nullable, description⟩ := s
  cases default <;> cases shape with
  | map value => cases value <;> rfl
  | _ => rfl

theorem fieldOf_bare (t : Table) (record : Record) (f : String × Spec) :
    fieldOf isForward t record (f.1, f.2.bare) = fieldOf isForward t record f := by
  unfold fieldOf Field.ofSpec
  rw [TypeExpr.ofSpec_bare, impliedDefault_bare, fieldArguments_bare]

variable {isForward} {settings : Settings} {t : Table} {d : Definition} {body : Body}

/-- The declaration of a definition does not depend on the bounds inside its specifications. -/
theorem ofDefinition_bare :
    Body.ofDefinition settings t isForward d.bare = Body.ofDefinition settings t isForward d := by
  unfold Body.ofDefinition Definition.bare
  cases d.kind with
  | object record =>
      have hnames : (record.mapFields fun _ s => s.bare).fields.map Prod.fst =
          record.fields.map Prod.fst := by simp [Record.mapFields]
      dsimp only
      rw [hnames]
      cases has : attributes (record.fields.map Prod.fst) with
      | error c => rfl
      | ok as =>
          refine congrArg Except.ok ?_
          rw [ofRecord_eq has, ofRecord_eq (hnames ▸ has)]
          refine congrArg (Body.model _) ?_
          rw [Record.mapFields, List.map_map]
          exact List.map_congr_left fun f _ => fieldOf_bare isForward t record f
  | typeAlias spec =>
      dsimp only
      rw [TypeExpr.ofSpec_bare, boundArguments_bare]
  | _ => rfl

end bare

/-! ### The arguments of a declaration -/

/-- The arguments of `Field` in a declaration, for each field or for the alias. -/
def Body.arguments : Body → List (List Argument)
  | model _ fields => fields.map Field.arguments
  | typeAlias _ arguments => [arguments]
  | _ => []

/-- A declaration has the arguments for the bounds of its specifications' own. -/
theorem forall₂_arguments {settings : Settings} {t : Table} {isForward : String → Bool}
    {d : Definition} {body : Body} (h : Body.ofDefinition settings t isForward d = .ok body) :
    List.Forall₂ (fun s arguments => ∀ b ∈ s.ownBounds, b.argument ∈ arguments)
      d.properties body.arguments := by
  unfold Definition.properties
  rcases ofDefinition_eq_ok h with ⟨values, ms, hk, -, rfl⟩ | ⟨record, hk, rfl⟩ |
    ⟨members, discriminator, hk, -, rfl⟩ | ⟨spec, hk, rfl⟩
  · rw [hk]
    exact .nil
  · simp only [hk, Body.arguments, List.map_map, List.forall₂_map_left_iff,
      List.forall₂_map_right_iff, List.forall₂_same]
    exact fun f _ b hb => argument_mem_fieldArguments (Attribute.ofField f.1) hb
  · rw [hk]
    exact .nil
  · rw [hk]
    exact .cons (fun b hb => argument_mem_boundArguments hb) .nil

end Model

end SchemaModels
