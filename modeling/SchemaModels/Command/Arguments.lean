/-!
# Command line arguments

A program takes switches, settings with a value, and places. A switch or a setting has a long name
after two hyphens and may have a letter after one; letters may stand together, the last with its
value; a value follows its setting or an equals sign; two hyphens alone end the names. Nothing is
given twice. Asking for the version or for help ends the reading at once.

* `Grammar.parse`: what arguments give, or why reading them stops.
-/

namespace SchemaModels.Command

/-- A name that takes no value. -/
structure Switch where
  name : String
  letter : Option Char := none

/-- A name that takes a value. -/
structure Setting where
  name : String
  letter : Option Char := none
  accepts : String → Bool := fun _ => true

/-- What a program takes. -/
structure Grammar where
  switches : List Switch
  settings : List Setting
  /-- How many places there are at most. -/
  places : Nat

/-- What arguments give. -/
structure Arguments where
  switches : List String := []
  settings : List (String × String) := []
  places : List String := []

namespace Arguments

/-- Whether a switch is given. -/
def has (a : Arguments) (name : String) : Bool := a.switches.contains name

/-- The value of a setting. -/
def value? (a : Arguments) (name : String) : Option String := a.settings.lookup name

end Arguments

/-- Why the reading of arguments stops. -/
inductive Stop where
  | usage
  | version
  | help
  deriving DecidableEq

/-- Whether a text can stand for a file. -/
def isPlace (s : String) : Bool := !s.isEmpty

/-- What follows an argument: any other, or the value of a setting. -/
inductive Progress where
  | done (a : Arguments)
  | wants (s : Setting) (a : Arguments)

namespace Grammar
variable (g : Grammar)

/-! ### Giving -/

def giveSwitch (s : Switch) (a : Arguments) : Except Stop Arguments :=
  if a.has s.name then .error .usage else .ok { a with switches := a.switches ++ [s.name] }

def giveSetting (s : Setting) (value : String) (a : Arguments) : Except Stop Arguments :=
  if (a.value? s.name).isSome || !s.accepts value then .error .usage
  else .ok { a with settings := a.settings ++ [(s.name, value)] }

def givePlace (place : String) (a : Arguments) : Except Stop Arguments :=
  if a.places.length < g.places && isPlace place then .ok { a with places := a.places ++ [place] }
  else .error .usage

/-! ### Names and letters -/

/-- A long name with its value, if it has one. -/
def readLong (name : List Char) (value : Option (List Char)) (a : Arguments) :
    Except Stop Progress :=
  let name := String.ofList name
  match g.settings.find? (·.name == name), g.switches.find? (·.name == name), value with
  | some s, _, some value => (giveSetting s (String.ofList value) a).map .done
  | some s, _, none => .ok (.wants s a)
  | none, some s, none => (giveSwitch s a).map .done
  | none, none, none =>
      .error (if name = "version" then .version else if name = "help" then .help else .usage)
  | none, _, some _ => .error .usage

/-- Letters that stand together. -/
def readLetters : List Char → Arguments → Except Stop Progress
  | [], a => .ok (.done a)
  | c :: rest, a =>
      match g.settings.find? (·.letter == some c), g.switches.find? (·.letter == some c) with
      | some s, _ =>
          match rest with
          | [] => .ok (.wants s a)
          | '=' :: value => (giveSetting s (String.ofList value) a).map .done
          | value => (giveSetting s (String.ofList value) a).map .done
      | none, some s =>
          match giveSwitch s a with
          | .ok a => readLetters rest a
          | .error e => .error e
      | none, none => .error (if c = 'V' then .version else if c = 'h' then .help else .usage)

/-- Whether an argument is a name or letters, and neither a value nor a place. -/
def isNamed : List Char → Bool
  | '-' :: _ :: _ => true
  | _ => false

/-- A name or letters. -/
def readNamed (arg : List Char) (a : Arguments) : Except Stop Progress :=
  match arg with
  | '-' :: '-' :: s =>
      let name := s.takeWhile (· != '=')
      match s.drop name.length with
      | [] => g.readLong name none a
      | _ :: value => g.readLong name (some value) a
  | _ => g.readLetters (arg.drop 1) a

/-! ### Arguments -/

/-- What arguments give in addition. -/
def parseFrom : List String → Arguments → Except Stop Arguments
  | [], a => .ok a
  | arg :: rest, a =>
      if arg = "--" then rest.foldlM (fun a place => g.givePlace place a) a
      else if isNamed arg.toList then
        match g.readNamed arg.toList a, rest with
        | .error e, _ => .error e
        | .ok (.done a), rest => parseFrom rest a
        | .ok (.wants _ _), [] => .error .usage
        | .ok (.wants s a), value :: rest =>
            if isNamed value.toList then .error .usage
            else
              match giveSetting s value a with
              | .ok a => parseFrom rest a
              | .error e => .error e
      else
        match g.givePlace arg a with
        | .ok a => parseFrom rest a
        | .error e => .error e

/-- What arguments give. -/
def parse (args : List String) : Except Stop Arguments := g.parseFrom args {}

end Grammar

end SchemaModels.Command
