import SchemaModels.Model.TypeExpr

/-!
# The names in type expressions of models

The type of a specification names the definitions that the specification refers to, in the same
order, in quotes where the definition comes later.

* `written`: the form of a name in code.
* `mentions_ofSpec`: the mentions of a type are the references of its specification.
-/

namespace SchemaModels.Model

/-- The form of a mention in code of models. -/
def written (m : Mention) : String := if m.deferred then "\"" ++ m.name ++ "\"" else m.name

open Text

namespace TypeExpr

/-! ### Mentions -/

section mentions

theorem mentionsAll_eq_flatMap : ∀ types : List TypeExpr,
    mentionsAll types = types.flatMap mentions
  | [] => rfl
  | t :: rest => by rw [mentionsAll, mentionsAll_eq_flatMap rest, List.flatMap_cons]

theorem mentions_toOptional (t : TypeExpr) : t.toOptional.mentions = t.mentions := by
  cases t <;> rfl

theorem mentions_orNone (nullable : Bool) (t : TypeExpr) :
    (orNone nullable t).mentions = t.mentions := by
  unfold orNone
  split
  · exact mentions_toOptional t
  · rfl

theorem mentions_ofMembers (members : List TypeExpr) (discriminator : Option String) :
    (ofMembers members discriminator).mentions = mentionsAll members := by
  unfold ofMembers
  split
  · rfl
  · rw [mentionsAll, mentionsAll, List.append_nil]
  · split <;> rfl
  · rfl

variable (isForward : String → Bool)

/-- A name as it has to be written. -/
theorem mentions_ofReference (n : String) :
    (ofReference isForward n).mentions = [⟨n, isForward n⟩] := by
  unfold ofReference
  cases isForward n <;> rfl

mutual

theorem mentions_ofShape : ∀ shape : Shape, (ofShape isForward shape).mentions =
    shape.mentions.map fun n => ⟨n, isForward n⟩
  | .primitive _ => rfl
  | .literal _ => rfl
  | .const _ => rfl
  | .array item => mentions_ofSpec item
  | .tuple items => mentionsAll_ofSpecs items
  | .map none => rfl
  | .map (some value) => mentions_ofSpec value
  | .reference n => mentions_ofReference isForward n
  | .union members discriminator => by
      rw [ofShape, mentions_ofMembers]
      exact mentionsAll_ofSpecs members
  | .any => rfl

/-- The type of a specification names what the specification refers to. -/
theorem mentions_ofSpec : ∀ s : Spec, (ofSpec isForward s).mentions =
    s.mentions.map fun n => ⟨n, isForward n⟩
  | ⟨shape, _, _, nullable, _⟩ => by
      rw [ofSpec, mentions_orNone]
      exact mentions_ofShape shape

theorem mentionsAll_ofSpecs : ∀ specs : List Spec, mentionsAll (ofSpecs isForward specs) =
    (Spec.mentionsAll specs).map fun n => ⟨n, isForward n⟩
  | [] => rfl
  | s :: rest => by
      rw [ofSpecs, mentionsAll, mentions_ofSpec s, mentionsAll_ofSpecs rest, Spec.mentionsAll,
        List.map_append]

end

end mentions

end TypeExpr

end SchemaModels.Model
