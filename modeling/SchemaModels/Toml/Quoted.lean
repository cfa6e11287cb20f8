import SchemaModels.Json.Reader

/-!
# Quoted text in configurations

Text stands between double quotes, where a backslash escapes, or between single quotes, where
nothing does; three quotes of either kind enclose text that may go over lines. A line feed right
after the three quotes does not count, and a backslash at the end of a line takes the blanks and
line ends after it away. Each step gives the rest of the text after what it read.

* `readBasic`, `readLiteral`: text on one line.
* `readQuoted`: any quoted text.
-/

namespace SchemaModels.Toml

/-- The characters that text and comments hold as they are: all but the control characters, of which
only the tab is allowed. -/
def isPlain (c : Char) : Bool := c = '\t' || (32 ≤ c.toNat && c.toNat != 127)

/-- The blanks within a line. -/
def isInline (c : Char) : Bool := c = ' ' || c = '\t'

/-! ### Escapes -/

/-- A number of exactly some hexadecimal digits. -/
def readHex : Nat → List Char → Option (Nat × List Char)
  | 0, s => some (0, s)
  | _ + 1, [] => none
  | count + 1, c :: s => do
      let d ← Json.hexValue? c
      let (n, s) ← readHex count s
      some (d * Nat.pow 16 count + n, s)

/-- The character of a code point of some digits. A surrogate is none. -/
def readCodePoint (count : Nat) (s : List Char) : Option (Char × List Char) := do
  let (n, s) ← readHex count s
  if n.isValidChar then some (Char.ofNat n, s) else none

/-- The character that an escape stands for, after its backslash. -/
def readEscape : List Char → Option (Char × List Char)
  | 'b' :: s => some (Char.ofNat 8, s)
  | 't' :: s => some ('\t', s)
  | 'n' :: s => some ('\n', s)
  | 'f' :: s => some (Char.ofNat 12, s)
  | 'r' :: s => some ('\r', s)
  | 'e' :: s => some (Char.ofNat 27, s)
  | '"' :: s => some ('"', s)
  | '\\' :: s => some ('\\', s)
  | 'x' :: s => readCodePoint 2 s
  | 'u' :: s => readCodePoint 4 s
  | 'U' :: s => readCodePoint 8 s
  | _ => none

/-! ### Text on one line -/

/-- The characters up to the closing double quote; the number of steps bounds them. -/
def readBasicChars : Nat → List Char → Option (List Char × List Char)
  | 0, _ => none
  | _, [] => none
  | steps + 1, c :: s =>
      if c = '"' then some ([], s)
      else if c = '\\' then do
        let (d, s) ← readEscape s
        let (ds, s) ← readBasicChars steps s
        some (d :: ds, s)
      else if isPlain c then (readBasicChars steps s).map fun r => (c :: r.1, r.2)
      else none

/-- Text between double quotes, after the first. -/
def readBasic (s : List Char) : Option (List Char × List Char) := readBasicChars s.length s

/-- Text between single quotes, after the first. -/
def readLiteral : List Char → Option (List Char × List Char)
  | [] => none
  | c :: s =>
      if c = '\'' then some ([], s)
      else if isPlain c then (readLiteral s).map fun r => (c :: r.1, r.2)
      else none

/-! ### Text over lines -/

/-- The text after a line feed that it begins with. -/
def dropLineFeed : List Char → List Char
  | '\n' :: s => s
  | '\r' :: '\n' :: s => s
  | s => s

/-- The rest of a text after the blanks and line ends it begins with, if a line ends among them. -/
def skipLineEnd (s : List Char) : Option (List Char) :=
  match s.dropWhile isInline with
  | '\n' :: s => some (s.dropWhile fun c => isInline c || c = '\n' || c = '\r')
  | '\r' :: '\n' :: s => some (s.dropWhile fun c => isInline c || c = '\n' || c = '\r')
  | _ => none

/-- The end of text in three quotes, which up to two of its own quotes may stand before. -/
def readClosing (quote : Char) (s : List Char) : Option (List Char × List Char) :=
  let quotes := s.takeWhile (· = quote)
  if 3 ≤ quotes.length then
    let own := min quotes.length 5 - 3
    some (List.replicate own quote, s.drop (own + 3))
  else none

/-- The characters up to three closing quotes; the number of steps bounds them. -/
def readLongChars (quote : Char) : Nat → List Char → Option (List Char × List Char)
  | 0, _ => none
  | _, [] => none
  | steps + 1, c :: s =>
      match readClosing quote (c :: s) with
      | some r => some r
      | none =>
          if c = '\\' ∧ quote = '"' then
            match skipLineEnd s with
            | some s => readLongChars quote steps s
            | none => do
                let (d, s) ← readEscape s
                let (ds, s) ← readLongChars quote steps s
                some (d :: ds, s)
          else if isPlain c || c = '\n' || (c = '\r' && s.head? = some '\n') then
            (readLongChars quote steps s).map fun r => (c :: r.1, r.2)
          else none

/-- Text between three quotes, after the first three. -/
def readLong (quote : Char) (s : List Char) : Option (List Char × List Char) :=
  let s := dropLineFeed s
  readLongChars quote s.length s

/-- Quoted text. -/
def readQuoted : List Char → Option (List Char × List Char)
  | '"' :: '"' :: '"' :: s => readLong '"' s
  | '\'' :: '\'' :: '\'' :: s => readLong '\'' s
  | '"' :: s => readBasic s
  | '\'' :: s => readLiteral s
  | _ => none

end SchemaModels.Toml
