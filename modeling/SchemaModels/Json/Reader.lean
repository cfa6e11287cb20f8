import SchemaModels.Json.Basic

/-!
# Reading JSON text

The grammar is the strict one: no comments, no trailing commas, no leading zeros, no control
characters inside strings, and nothing but blanks after the value. Containers nest at most
`nestingLimit` deep. Each step gives the rest of the text after what it read.

* `Json.ofText?`: the value of a text, if it has one.
-/

namespace SchemaModels.Json

/-- The blanks between tokens. -/
def isSpace (c : Char) : Bool := c = ' ' || c = '\t' || c = '\n' || c = '\r'

def skipSpace (s : List Char) : List Char := s.dropWhile isSpace

/-! ### Numbers -/

/-- The value of a decimal digit. -/
def digit? (c : Char) : Option Nat :=
  if c.isDigit then some (c.toNat - '0'.toNat) else none

/-- The leading digits of a text. -/
def readDigits : List Char → List Nat × List Char
  | [] => ([], [])
  | c :: s =>
      match digit? c with
      | some d => let r := readDigits s; (d :: r.1, r.2)
      | none => ([], c :: s)

/-- The number that digits denote. -/
def ofDigits (ds : List Nat) : Nat := ds.foldl (fun n d => 10 * n + d) 0

/-- At least one digit. -/
def readDigits1 (s : List Char) : Option (List Nat × List Char) :=
  let r := readDigits s
  if r.1.isEmpty then none else some r

/-- The digits before the point: a zero alone, or digits without a leading zero. -/
def readWhole (s : List Char) : Option (List Nat × List Char) :=
  (readDigits1 s).bind fun r => if r.1.head? = some 0 ∧ 1 < r.1.length then none else some r

/-- A point and digits, if a point comes next. -/
def readFraction : List Char → Option (Option (List Nat) × List Char)
  | '.' :: s => (readDigits1 s).map fun r => (some r.1, r.2)
  | s => some (none, s)

/-- A sign, if one comes next. -/
def readSign : List Char → Bool × List Char
  | '+' :: s => (false, s)
  | '-' :: s => (true, s)
  | s => (false, s)

/-- An exponent, if one comes next. -/
def readExponent : List Char → Option (Option Int × List Char)
  | [] => some (none, [])
  | c :: s =>
      if c = 'e' ∨ c = 'E' then
        let sign := readSign s
        (readDigits1 sign.2).map fun r =>
          let n : Int := ofDigits r.1
          (some (if sign.1 then -n else n), r.2)
      else some (none, c :: s)

/-- A minus, if one comes next. -/
def readMinus : List Char → Bool × List Char
  | '-' :: s => (true, s)
  | s => (false, s)

def readNumber (s : List Char) : Option (Number × List Char) := do
  let (negative, s) := readMinus s
  let (whole, s) ← readWhole s
  let (fraction, s) ← readFraction s
  let (exponent, s) ← readExponent s
  let n ← Number.ofParts ⟨negative, whole, fraction, exponent⟩
  some (n, s)

/-! ### Strings -/

/-- The value of a hexadecimal digit. -/
def hexValue? (c : Char) : Option Nat :=
  if c.isDigit then some (c.toNat - '0'.toNat)
  else if 'a' ≤ c ∧ c ≤ 'f' then some (c.toNat - 'a'.toNat + 10)
  else if 'A' ≤ c ∧ c ≤ 'F' then some (c.toNat - 'A'.toNat + 10)
  else none

/-- Four hexadecimal digits. -/
def readUnit : List Char → Option (Nat × List Char)
  | a :: b :: c :: d :: s => do
      let a ← hexValue? a
      let b ← hexValue? b
      let c ← hexValue? c
      let d ← hexValue? d
      some (((a * 16 + b) * 16 + c) * 16 + d, s)
  | _ => none

def isLeading (u : Nat) : Bool := 0xD800 ≤ u && u < 0xDC00

def isTrailing (u : Nat) : Bool := 0xDC00 ≤ u && u < 0xE000

/-- The character of one unit or of a pair of surrogates. A surrogate alone is refused. -/
def readCodePoint (s : List Char) : Option (Char × List Char) := do
  let (u, s) ← readUnit s
  if isLeading u then
    match s with
    | '\\' :: 'u' :: s => do
        let (w, s) ← readUnit s
        if isTrailing w then some (Char.ofNat (0x10000 + (u - 0xD800) * 0x400 + (w - 0xDC00)), s)
        else none
    | _ => none
  else if isTrailing u then none
  else some (Char.ofNat u, s)

/-- The character that an escape stands for, after its backslash. -/
def readEscape : List Char → Option (Char × List Char)
  | '"' :: s => some ('"', s)
  | '\\' :: s => some ('\\', s)
  | '/' :: s => some ('/', s)
  | 'b' :: s => some (Char.ofNat 8, s)
  | 'f' :: s => some (Char.ofNat 12, s)
  | 'n' :: s => some ('\n', s)
  | 'r' :: s => some ('\r', s)
  | 't' :: s => some ('\t', s)
  | 'u' :: s => readCodePoint s
  | _ => none

/-- The characters up to the closing quote; the number of steps bounds them. -/
def readChars : Nat → List Char → Option (List Char × List Char)
  | 0, _ => none
  | _, [] => none
  | steps + 1, c :: s =>
      if c = '"' then some ([], s)
      else if c = '\\' then do
        let (d, s) ← readEscape s
        let (ds, s) ← readChars steps s
        some (d :: ds, s)
      else if c.toNat < 32 then none
      else do
        let (ds, s) ← readChars steps s
        some (c :: ds, s)

/-- A quoted string. -/
def readString : List Char → Option (String × List Char)
  | '"' :: s => (readChars s.length s).map fun r => (String.ofList r.1, r.2)
  | _ => none

/-! ### Values -/

/-- A given word. -/
def readWord (word : List Char) (value : Json) (s : List Char) : Option (Json × List Char) :=
  if word.isPrefixOf s then some (value, s.drop word.length) else none

/-- A comma, or the end of a container by its closing bracket. -/
def readSeparator (closing : Char) (s : List Char) : Option (Bool × List Char) :=
  match skipSpace s with
  | c :: s =>
      if c = ',' then some (true, skipSpace s)
      else if c = closing then some (false, s) else none
  | [] => none

section containers
variable (item : List Char → Option (Json × List Char))

/-- The items of an array that has at least one. -/
def readItems : Nat → List Char → Option (List Json × List Char)
  | 0, _ => none
  | steps + 1, s => do
      let (v, s) ← item s
      let (more, s) ← readSeparator ']' s
      if more then
        let (vs, s) ← readItems steps s
        some (v :: vs, s)
      else some ([v], s)

/-- An entry of an object. -/
def readEntry (s : List Char) : Option ((String × Json) × List Char) := do
  let (key, s) ← readString s
  match skipSpace s with
  | ':' :: s => do
      let (v, s) ← item (skipSpace s)
      some ((key, v), s)
  | _ => none

/-- The entries, as written, of an object that has at least one. -/
def readEntries : Nat → List Char → Option (Entries × List Char)
  | 0, _ => none
  | steps + 1, s => do
      let (e, s) ← readEntry item s
      let (more, s) ← readSeparator '}' s
      if more then
        let (es, s) ← readEntries steps s
        some (e :: es, s)
      else some ([e], s)

/-- An array, after its opening bracket. -/
def readArray (s : List Char) : Option (Json × List Char) :=
  match skipSpace s with
  | ']' :: s => some (array [], s)
  | s => (readItems item s.length s).map fun r => (array r.1, r.2)

/-- An object, after its opening bracket. -/
def readObject (s : List Char) : Option (Json × List Char) :=
  match skipSpace s with
  | '}' :: s => some (object [], s)
  | s => (readEntries item s.length s).map fun r =>
      (object (r.1.foldl (fun es e => Entries.put es e.1 e.2) []), r.2)

end containers

/-- A value whose containers nest at most `depth` deep. -/
def readValue (depth : Nat) (s : List Char) : Option (Json × List Char) :=
  match s with
  | [] => none
  | c :: rest =>
      if c = '"' then (readString s).map fun r => (string r.1, r.2)
      else if c = '[' then
        match depth with
        | 0 => none
        | depth + 1 => readArray (fun t => readValue depth t) rest
      else if c = '{' then
        match depth with
        | 0 => none
        | depth + 1 => readObject (fun t => readValue depth t) rest
      else if c = 'n' then readWord ['n', 'u', 'l', 'l'] null s
      else if c = 't' then readWord ['t', 'r', 'u', 'e'] (bool true) s
      else if c = 'f' then readWord ['f', 'a', 'l', 's', 'e'] (bool false) s
      else (readNumber s).map fun r => (number r.1, r.2)

/-- How deep containers nest at most. -/
def nestingLimit : Nat := 127

/-- The value of a text. -/
def ofChars? (s : List Char) : Option Json :=
  match readValue nestingLimit (skipSpace s) with
  | some (v, rest) => if (skipSpace rest).isEmpty then some v else none
  | none => none

/-- The value of a text. -/
def ofText? (s : String) : Option Json := ofChars? s.toList

end SchemaModels.Json
