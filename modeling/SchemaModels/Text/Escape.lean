/-!
# Text between double quotes

The escapes that both targets share inside double quotes: a backslash, a quote, a line feed, a
carriage return and a tab are written with a backslash; every other character stands for itself.
-/

namespace SchemaModels.Text

/-- A character between double quotes. -/
def escapeChar (c : Char) : List Char :=
  if c = '\\' then ['\\', '\\']
  else if c = '"' then ['\\', '"']
  else if c = '\n' then ['\\', 'n']
  else if c = '\r' then ['\\', 'r']
  else if c = '\t' then ['\\', 't']
  else [c]

/-- A text between double quotes, without the quotes. -/
def escape (s : List Char) : List Char := s.flatMap escapeChar

theorem escape_append (s t : List Char) : escape (s ++ t) = escape s ++ escape t :=
  List.flatMap_append

/-- A text between double quotes, without the quotes. -/
def escaped (s : String) : String := String.ofList (escape s.toList)

/-- A text in double quotes. -/
def quoted (s : String) : String := "\"" ++ escaped s ++ "\""

end SchemaModels.Text
