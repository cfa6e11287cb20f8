import SchemaModels.Json.Number
import SchemaModels.Keyed

/-!
# JSON values

A value is a tree whose objects keep the order of their entries.

* `Json.same`: equality of values. Objects are equal when they have equal values under the same
  keys, in any order.
* `Entries.put`: a repeated key keeps its first position and takes its last value.
-/

namespace SchemaModels

/-- A JSON value. -/
inductive Json where
  | null
  | bool (b : Bool)
  | number (n : Number)
  | string (s : String)
  | array (items : List Json)
  | object (entries : List (String × Json))

/-- The entries of an object, in order. -/
abbrev Entries := List (String × Json)

namespace Entries

/-- The value under a key. -/
def get? (entries : Entries) (key : String) : Option Json := entries.lookup key

/-- Set the value of a key: in its place if it is there, else at the end. -/
def put (entries : Entries) (key : String) (value : Json) : Entries :=
  Keyed.upsert Prod.fst (key, value) entries

end Entries

namespace Json

/-- The value under a key of an object. -/
def get? (v : Json) (key : String) : Option Json :=
  match v with
  | object entries => Entries.get? entries key
  | _ => none

def isNull : Json → Bool
  | null => true
  | _ => false

theorem isNull_iff {v : Json} : v.isNull = true ↔ v = null := by cases v <;> simp [isNull]

def isObject : Json → Bool
  | object _ => true
  | _ => false

def asString? : Json → Option String
  | string s => some s
  | _ => none

/-- A natural number within a word. -/
def asNat? : Json → Option Nat
  | number (.integer n) => if 0 ≤ n then some n.toNat else none
  | _ => none

def asNumber? : Json → Option Number
  | number n => some n
  | _ => none

/-! ### Equality -/

mutual

/-- Equality of values. -/
def same : Json → Json → Bool
  | null, null => true
  | bool a, bool b => a == b
  | number m, number n => m.same n
  | string s, string t => s == t
  | array xs, array ys => sameItems xs ys
  | object es, object fs => es.length == fs.length && sameEntries es fs
  | _, _ => false

/-- Equality of lists of values, place by place. -/
def sameItems : List Json → List Json → Bool
  | [], [] => true
  | x :: xs, y :: ys => same x y && sameItems xs ys
  | _, _ => false

/-- Whether each entry has an equal value under the same key of the other object. -/
def sameEntries : Entries → Entries → Bool
  | [], _ => true
  | (k, v) :: es, fs =>
      (match Entries.get? fs k with
        | some w => same v w
        | none => false) && sameEntries es fs

end

/-- Whether a list has an equal value. -/
def among (v : Json) (values : List Json) : Bool := values.any (same v)

end Json

end SchemaModels
