import SchemaModels.Text.Trim

/-!
# Enum members

The member that stands for a value of an enum: ASCII letters in capitals, digits, and an
underscore for any other character. Underscores at the ends are dropped, because names with outer
underscores are reserved in enum classes.

* `memberName`: the name of a value's member.
* `members`: the members of a list of values. A repeated value has one member; two different
  values with one name are a collision.
-/

namespace SchemaModels.Model

/-- Two source names with one target name. -/
structure Collision where
  target : String
  first : String
  second : String
  deriving DecidableEq

/-- The character that stands for a character of a value. -/
def memberChar (c : Char) : Char := if c.isAlphanum then c.toUpper else '_'

/-- A member name as characters. -/
def memberChars (value : List Char) : List Char :=
  match Text.trim (· == '_') (value.map memberChar) with
  | [] => ['E', 'M', 'P', 'T', 'Y']
  | c :: rest => if c.isDigit then '_' :: c :: rest else c :: rest

/-- The name of a value's member. -/
def memberName (value : String) : String := String.ofList (memberChars value.toList)

/-- The members of values, after some that are already there. -/
def membersAfter (seen : List (String × String)) :
    List String → Except Collision (List (String × String))
  | [] => .ok seen
  | value :: rest =>
      match seen.lookup (memberName value) with
      | some first =>
          if first = value then membersAfter seen rest
          else .error ⟨memberName value, first, value⟩
      | none => membersAfter (seen ++ [(memberName value, value)]) rest

/-- The members of a list of values: each name with its value. -/
def members (values : List String) : Except Collision (List (String × String)) :=
  membersAfter [] values

end SchemaModels.Model
