import SchemaModels.Validator.SchemaExpr

/-!
# The names in schemas of validators

The schema of a specification names the definitions that the specification refers to, in the same
order, lazily where the definition comes later.

* `written`: the form of a name in code.
* `mentions_ofSpec`: the mentions of a schema are the references of its specification.
-/

namespace SchemaModels.Validator

open Text

/-- The form of a mention in code of validators. -/
def written (m : Mention) : String :=
  if m.deferred then "z.lazy(() => " ++ schemaName m.name ++ ")" else schemaName m.name

namespace SchemaExpr

/-! ### Mentions -/

theorem mentionsAll_eq_flatMap : ∀ schemas : List SchemaExpr,
    mentionsAll schemas = schemas.flatMap mentions
  | [] => rfl
  | e :: rest => by rw [mentionsAll, mentionsAll_eq_flatMap rest, List.flatMap_cons]

/-- Values name nothing. -/
theorem mentions_ofValue (value : Json) : (ofValue value).mentions = [] := by
  cases value <;> rfl

theorem mentions_ofValues (values : List Json) : (ofValues values).mentions = [] := by
  have hunion : mentionsAll (values.map ofValue) = [] := by
    rw [mentionsAll_eq_flatMap, List.flatMap_eq_nil_iff]
    intro e he
    obtain ⟨value, _, rfl⟩ := List.mem_map.mp he
    exact mentions_ofValue value
  unfold ofValues
  split
  · rfl
  · rfl
  · exact mentions_ofValue _
  · exact hunion

theorem mentions_withChecks (base : SchemaExpr) (checks : List Check) :
    (withChecks base checks).mentions = base.mentions := by
  unfold withChecks
  split <;> rfl

theorem mentions_orNull (isNullable : Bool) (shape : Shape) (e : SchemaExpr) :
    (orNull isNullable shape e).mentions = e.mentions := by
  unfold orNull
  split <;> rfl

section mentions
variable (isForward : String → Bool)

theorem mentions_ofMembers (members : List Spec) (schemas : List SchemaExpr)
    (discriminator : Option String) :
    (ofMembers isForward members schemas discriminator).mentions = mentionsAll schemas := by
  unfold ofMembers
  split
  · rfl
  · rw [mentionsAll, mentionsAll, List.append_nil]
  · split <;> rfl
  · rfl

/-- A name as it has to be written. -/
theorem mentions_ofReference (n : String) :
    (ofReference isForward n).mentions = [⟨n, isForward n⟩] := by
  unfold ofReference
  cases isForward n <;> rfl

mutual

theorem mentions_ofShape : ∀ shape : Shape, (ofShape isForward shape).mentions =
    shape.mentions.map fun n => ⟨n, isForward n⟩
  | .primitive _ => rfl
  | .literal values => mentions_ofValues values
  | .const value => mentions_ofValue value
  | .array item => mentions_ofSpec item
  | .tuple items => mentionsAll_ofSpecs items
  | .map none => rfl
  | .map (some value) => mentions_ofSpec value
  | .reference n => mentions_ofReference isForward n
  | .union members discriminator => by
      rw [ofShape, mentions_ofMembers]
      exact mentionsAll_ofSpecs members
  | .any => rfl

/-- The schema of a specification names what the specification refers to. -/
theorem mentions_ofSpec : ∀ s : Spec, (ofSpec isForward s).mentions =
    s.mentions.map fun n => ⟨n, isForward n⟩
  | ⟨shape, _, _, _, _⟩ => by
      rw [ofSpec, mentions_orNull, mentions_withChecks]
      exact mentions_ofShape shape

theorem mentionsAll_ofSpecs : ∀ specs : List Spec, mentionsAll (ofSpecs isForward specs) =
    (Spec.mentionsAll specs).map fun n => ⟨n, isForward n⟩
  | [] => rfl
  | s :: rest => by
      rw [ofSpecs, mentionsAll, mentions_ofSpec s, mentionsAll_ofSpecs rest, Spec.mentionsAll,
        List.map_append]

end

end mentions

end SchemaExpr

end SchemaModels.Validator
