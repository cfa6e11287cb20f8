import SchemaModels.Proofs.Model.Declaration
import SchemaModels.Proofs.Model.Hint
import SchemaModels.Proofs.Model.PlainCode

/-!
# Code in pieces

The code of a declaration is cut into pieces, each of one role. A construct stands in it as a base
class, as what is called or in a type hint; what else is fixed has no capital, and so no construct
in it, and the rest are names, values and prose.

* `Piece`, `codeOf`, `uses`: the pieces, their text and the constructs in them.
* `Body.pieces`, `rootPieces`: the pieces of a declaration and of the top-level type.
* `Body.codeOf_pieces`, `codeOf_rootPieces`: together they are the code.
* `Body.mem_uses_pieces`: the constructs in them are those that the declaration records.
-/

namespace SchemaModels.Model

open Text

/-! ### Pieces -/

/-- A piece of code, by its role. -/
inductive Piece where
  /-- Keywords, punctuation and layout. -/
  | fixed (s : String)
  /-- A base class. -/
  | base (i : Import)
  /-- What is called. -/
  | callee (i : Import)
  | hint (h : Hint)
  /-- The name of a class, an attribute or a member, or of an assignment. -/
  | name (n : String)
  | quoted (s : String)
  | value (d : DefaultExpr)
  /-- A docstring or a comment. -/
  | prose (s : String)

namespace Piece

def text : Piece → String
  | fixed s => s
  | base i => i.name
  | callee i => i.name
  | hint h => h.text
  | name n => n
  | quoted s => Text.quoted s
  | value d => d.text
  | prose s => s

/-- The constructs in a piece. -/
def constructs : Piece → Imports
  | base i => [i]
  | callee i => [i]
  | hint h => h.constructs
  | _ => []

end Piece

/-- The text of pieces, one after the other. -/
def codeOf : List Piece → String
  | [] => ""
  | p :: rest => p.text ++ codeOf rest

theorem codeOf_append (ps qs : List Piece) : codeOf (ps ++ qs) = codeOf ps ++ codeOf qs := by
  induction ps with
  | nil => rw [List.nil_append, codeOf, String.empty_append]
  | cons p rest ih => rw [List.cons_append, codeOf, codeOf, ih, String.append_assoc]

/-- The constructs in pieces. -/
def uses (pieces : List Piece) : Imports := pieces.flatMap Piece.constructs

/-! ### Lines and blocks -/

/-- Groups of pieces with a separator between two. -/
def joined (separator : String) (groups : List (List Piece)) : List Piece :=
  List.intercalate [.fixed separator] groups

theorem codeOf_joined (separator : String) (groups : List (List Piece)) :
    codeOf (joined separator groups) = String.intercalate separator (groups.map codeOf) := by
  have hseparator : codeOf [.fixed separator] = separator := String.append_empty
  rw [joined, text_intercalate rfl codeOf_append, hseparator]

/-- The pieces of a class: its header and the blocks of its body. -/
def classPieces (indent : String) (header : List Piece) (blocks : List (List Piece)) :
    List Piece :=
  if blocks.isEmpty then header ++ [.fixed "\n", .fixed indent, .fixed "pass"]
  else header ++ .fixed "\n" :: joined "\n\n" blocks

theorem codeOf_classPieces (indent : String) (header : List Piece) (blocks : List (List Piece)) :
    codeOf (classPieces indent header blocks) =
      classText indent (codeOf header) (blocks.map codeOf) := by
  unfold classPieces classText
  rw [List.isEmpty_map]
  split
  · rw [codeOf_append]
    simp [codeOf, Piece.text, String.append_assoc]
  · rw [codeOf_append, codeOf, codeOf_joined, String.append_assoc]
    rfl

/-- The pieces of a block of lines, if it has a line. -/
def blockPieces (indent : String) (lines : List (List Piece)) : List (List Piece) :=
  if lines.isEmpty then [] else [joined "\n" (lines.map (.fixed indent :: ·))]

theorem map_codeOf_blockPieces (indent : String) (lines : List (List Piece)) :
    (blockPieces indent lines).map codeOf = blockOf indent (lines.map codeOf) := by
  unfold blockPieces blockOf
  rw [List.isEmpty_map]
  split
  · rfl
  · rw [List.map_singleton, codeOf_joined, List.map_map, List.map_map]
    rfl

/-! ### What is gathered from pieces -/

section gather
variable {β : Type} {gather : Piece → List β} (hgather : ∀ s, gather (.fixed s) = [])
include hgather

theorem flatMap_joined (separator : String) (groups : List (List Piece)) :
    (joined separator groups).flatMap gather = groups.flatMap fun ps => ps.flatMap gather := by
  refine flatMap_intercalate ?_ groups
  rw [List.flatMap_singleton, hgather]

/-- The header of a class and the blocks of its body have what is gathered from the class. -/
theorem flatMap_classPieces (indent : String) (header : List Piece) (blocks : List (List Piece)) :
    (classPieces indent header blocks).flatMap gather =
      header.flatMap gather ++ blocks.flatMap fun ps => ps.flatMap gather := by
  unfold classPieces
  split
  · rename_i hempty
    rw [List.isEmpty_iff.mp hempty, List.flatMap_append]
    simp only [List.flatMap_cons, List.flatMap_nil, hgather, List.append_nil]
  · rw [List.flatMap_append, List.flatMap_cons, hgather, List.nil_append,
      flatMap_joined hgather]

theorem flatMap_blockPieces (indent : String) (lines : List (List Piece)) :
    (blockPieces indent lines).flatMap (fun ps => ps.flatMap gather) =
      lines.flatMap fun ps => ps.flatMap gather := by
  unfold blockPieces
  split
  · rename_i hempty
    rw [List.isEmpty_iff.mp hempty]
  · rw [List.flatMap_singleton, flatMap_joined hgather, List.flatMap_map]
    simp only [List.flatMap_cons, hgather, List.nil_append]

end gather

theorem uses_joined (separator : String) (groups : List (List Piece)) :
    uses (joined separator groups) = groups.flatMap uses :=
  flatMap_joined (fun _ => rfl) separator groups

theorem uses_classPieces (indent : String) (header : List Piece) (blocks : List (List Piece)) :
    uses (classPieces indent header blocks) = uses header ++ blocks.flatMap uses :=
  flatMap_classPieces (fun _ => rfl) indent header blocks

theorem flatMap_uses_blockPieces (indent : String) (lines : List (List Piece)) :
    (blockPieces indent lines).flatMap uses = lines.flatMap uses :=
  flatMap_blockPieces (fun _ => rfl) indent lines

/-! ### Fields -/

/-- The pieces of the line of a field. -/
def Field.pieces (f : Field) : List Piece :=
  if f.arguments.isEmpty then
    [.name f.attr, .fixed ": ", .hint f.type.hint] ++
      (match f.default with
        | some d => [.fixed " = ", .value d]
        | none => [])
  else
    [.name f.attr, .fixed ": ", .hint (annotatedHint f.type
      (f.arguments.map Argument.text ++ optionally ("default=" ++ ·.text) f.default))]

theorem Field.codeOf_pieces (f : Field) : codeOf f.pieces = f.text := by
  unfold pieces text
  split
  · cases f.default <;> simp [codeOf, Piece.text, TypeExpr.text_hint, String.append_assoc]
  · simp [codeOf, Piece.text, text_annotatedHint, String.append_assoc]

/-- The hint of a type, with arguments if there are some, has the constructs of the type and those
of arguments. -/
theorem mem_constructs_argumentHint {i : Import} {type : TypeExpr} {arguments : List Argument}
    (texts : List String) :
    i ∈ (if arguments.isEmpty then type.hint else annotatedHint type texts).constructs ↔
      i ∈ type.imports ++ argumentImports arguments := by
  unfold argumentImports
  split
  · rw [TypeExpr.mem_constructs_hint, List.append_nil]
  · exact mem_constructs_annotatedHint

theorem Field.mem_uses_pieces {i : Import} {f : Field} : i ∈ uses f.pieces ↔ i ∈ f.imports := by
  rw [imports, ← mem_constructs_argumentHint (f.arguments.map Argument.text ++
    optionally ("default=" ++ ·.text) f.default)]
  unfold pieces
  split
  · cases f.default <;> simp [uses, Piece.constructs]
  · simp [uses, Piece.constructs]

/-! ### Bodies -/

/-- The pieces of a description above the body of a class. -/
def docPieces (indent : String) (description : Option String) : List (List Piece) :=
  optionally (fun text => [.prose (docstring indent text)]) description

/-- The pieces of the line that makes a model class refuse other fields. -/
def forbidPieces : List Piece :=
  [.fixed "model_config = ", .callee (pydantic "ConfigDict"), .fixed "(extra=", .quoted "forbid",
    .fixed ")"]

/-- The pieces of the header of a class, with what stands before its last base. -/
def headerPieces (name before : String) (last : Import) : List Piece :=
  [.fixed "class ", .name name, .fixed before, .base last, .fixed "):"]

/-- The pieces of the line of an enum's member. -/
def memberPieces (m : String × String) : List Piece := [.name m.1, .fixed " = ", .quoted m.2]

/-- The pieces of a union on several lines. -/
def spreadPieces (indent name : String) (members : List TypeExpr) : List (List Piece) :=
  [.name name, .fixed " = ", .hint (.construct (typing "Union")), .fixed "["] ::
    members.map (fun m => [.fixed indent, .hint m.hint, .fixed ","]) ++ [[.fixed "]"]]

/-- The pieces of the lines of a union. -/
def unionPieces (indent name : String) : List TypeExpr → List (List Piece)
  | [only] => [[.name name, .fixed " = ", .hint only.hint]]
  | members => spreadPieces indent name members

/-- The pieces of the comments above an assignment. -/
def commentPieces (description discriminator : Option String) : List (List Piece) :=
  (comments description discriminator).map fun comment => [.prose comment]

/-- The pieces of a declaration. -/
def Body.pieces (indent name : String) (description : Option String) : Body → List Piece
  | enum members =>
      classPieces indent (headerPieces name "(str, " enumClass)
        (docPieces indent description ++ blockPieces indent (members.map memberPieces))
  | model forbidsExtra fields =>
      classPieces indent (headerPieces name "(" (pydantic "BaseModel"))
        (docPieces indent description ++
          blockPieces indent (if forbidsExtra then [forbidPieces] else []) ++
          blockPieces indent (fields.map Field.pieces))
  | union discriminator members =>
      joined "\n" (commentPieces description discriminator ++ unionPieces indent name members)
  | typeAlias type arguments =>
      joined "\n" (commentPieces description none ++ [[.name name, .fixed " = ",
        .hint (if arguments.isEmpty then type.hint
          else annotatedHint type (arguments.map Argument.text))]])

section pieces
variable {indent name : String} {description : Option String}

theorem map_codeOf_docPieces :
    (docPieces indent description).map codeOf = optionally (docstring indent) description := by
  cases description with
  | none => rfl
  | some text => exact congrArg (fun s => [s]) String.append_empty

theorem codeOf_headerPieces (name before : String) (last : Import) :
    codeOf (headerPieces name before last) = "class " ++ name ++ before ++ last.name ++ "):" := by
  simp [headerPieces, codeOf, Piece.text, String.append_assoc]

theorem codeOf_modelHeader (name : String) :
    codeOf (headerPieces name "(" (pydantic "BaseModel")) = "class " ++ name ++ "(BaseModel):" := by
  simp [codeOf_headerPieces, pydantic, String.append_assoc]

theorem codeOf_memberPieces (m : String × String) :
    codeOf (memberPieces m) = m.1 ++ " = " ++ quoted m.2 := by
  simp [memberPieces, codeOf, Piece.text, String.append_assoc]

theorem codeOf_forbidPieces : codeOf forbidPieces = forbidLine := by
  decide

theorem map_codeOf_unionPieces : ∀ members : List TypeExpr,
    (unionPieces indent name members).map codeOf = unionLines indent name members
  | [only] => by
      simp [unionPieces, unionLines, codeOf, Piece.text, TypeExpr.text_hint, String.append_assoc]
  | [] => by
      simp [unionPieces, spreadPieces, unionLines, codeOf, Piece.text, Hint.text, typing,
        String.append_assoc]
  | first :: second :: rest => by
      simp [unionPieces, spreadPieces, unionLines, codeOf, Piece.text, Hint.text, typing,
        TypeExpr.text_hint, String.append_assoc]

theorem map_codeOf_commentPieces {discriminator : Option String} :
    (commentPieces description discriminator).map codeOf = comments description discriminator := by
  rw [commentPieces, List.map_map]
  exact List.map_id'' (fun comment => String.append_empty) _

/-- The pieces of a declaration are its code. -/
theorem Body.codeOf_pieces : ∀ body : Body,
    codeOf (body.pieces indent name description) = body.text indent name description
  | enum members => by
      have hheader : codeOf (headerPieces name "(str, " enumClass) =
          "class " ++ name ++ "(str, Enum):" := by
        simp [codeOf_headerPieces, enumClass, String.append_assoc]
      have hmembers : (members.map memberPieces).map codeOf =
          members.map fun m => m.1 ++ " = " ++ quoted m.2 := by
        rw [List.map_map]
        exact List.map_congr_left fun m _ => codeOf_memberPieces m
      rw [pieces, text, codeOf_classPieces, List.map_append, map_codeOf_docPieces,
        map_codeOf_blockPieces, hheader, hmembers]
  | model forbidsExtra fields => by
      have hheader := codeOf_modelHeader name
      have hforbid : (if forbidsExtra then [forbidPieces] else []).map codeOf =
          if forbidsExtra then [forbidLine] else [] := by
        cases forbidsExtra with
        | true => exact congrArg (fun s => [s]) codeOf_forbidPieces
        | false => rfl
      have hfields : (fields.map Field.pieces).map codeOf = fields.map Field.text := by
        rw [List.map_map]
        exact List.map_congr_left fun f _ => f.codeOf_pieces
      rw [pieces, text, codeOf_classPieces, List.map_append, List.map_append, map_codeOf_docPieces,
        map_codeOf_blockPieces, map_codeOf_blockPieces, hheader, hforbid, hfields]
  | union discriminator members => by
      rw [pieces, text, codeOf_joined, List.map_append, map_codeOf_commentPieces,
        map_codeOf_unionPieces]
  | typeAlias type arguments => by
      rw [pieces, text, codeOf_joined, List.map_append, map_codeOf_commentPieces,
        List.map_singleton]
      split <;> simp [codeOf, Piece.text, TypeExpr.text_hint, text_annotatedHint,
        String.append_assoc]

/-! ### The constructs in a body -/

theorem flatMap_uses_docPieces : (docPieces indent description).flatMap uses = [] := by
  cases description <;> rfl

theorem flatMap_uses_commentPieces {discriminator : Option String} :
    (commentPieces description discriminator).flatMap uses = [] := by
  rw [commentPieces, List.flatMap_map]
  exact List.flatMap_eq_nil_iff.mpr fun _ _ => rfl

/-- A union on several lines uses its own construct and those of its members. -/
theorem mem_uses_spreadPieces {i : Import} (members : List TypeExpr) :
    i ∈ (spreadPieces indent name members).flatMap uses ↔
      i ∈ typing "Union" :: TypeExpr.importsAll members := by
  have hmembers : (∃ m ∈ members, i ∈ m.hint.constructs) ↔ i ∈ TypeExpr.importsAll members := by
    rw [← TypeExpr.mem_constructs_hints, TypeExpr.hints_eq_map]
    simp only [List.mem_map, exists_exists_and_eq_and]
  have hunion : (Hint.construct (typing "Union")).constructs = [typing "Union"] := rfl
  simp only [spreadPieces, List.flatMap_append, List.flatMap_cons, List.flatMap_nil,
    List.flatMap_map, uses, Piece.constructs, hunion, List.mem_append, List.mem_cons,
    List.mem_flatMap, List.nil_append, List.append_nil, List.not_mem_nil, or_false, hmembers]

theorem mem_uses_unionPieces {i : Import} : ∀ members : List TypeExpr,
    i ∈ (unionPieces indent name members).flatMap uses ↔
      i ∈ (if members.length = 1 then [] else [typing "Union"]) ++ TypeExpr.importsAll members
  | [only] => by
      simp [unionPieces, uses, Piece.constructs, TypeExpr.mem_constructs_hint, TypeExpr.importsAll]
  | [] => mem_uses_spreadPieces []
  | first :: second :: rest => by
      have hlength : (first :: second :: rest).length ≠ 1 := by simp
      rw [if_neg hlength]
      exact mem_uses_spreadPieces (first :: second :: rest)

/-- The constructs in the pieces of a declaration are those that it records. -/
theorem Body.mem_uses_pieces {i : Import} : ∀ body : Body,
    i ∈ uses (body.pieces indent name description) ↔ i ∈ body.imports
  | enum members => by
      have hmembers : (members.map memberPieces).flatMap uses = [] := by
        rw [List.flatMap_map]
        exact List.flatMap_eq_nil_iff.mpr fun _ _ => rfl
      rw [pieces, imports, uses_classPieces, List.flatMap_append, flatMap_uses_docPieces,
        flatMap_uses_blockPieces, hmembers]
      rfl
  | model forbidsExtra fields => by
      have hforbid : (if forbidsExtra then [forbidPieces] else []).flatMap uses =
          if forbidsExtra then [pydantic "ConfigDict"] else [] := by
        cases forbidsExtra <;> rfl
      have hfields : i ∈ (fields.map Field.pieces).flatMap uses ↔
          i ∈ fields.flatMap Field.imports := by
        rw [List.flatMap_map]
        simp only [List.mem_flatMap, Field.mem_uses_pieces]
      rw [pieces, imports, uses_classPieces, List.flatMap_append, List.flatMap_append,
        flatMap_uses_docPieces, flatMap_uses_blockPieces, flatMap_uses_blockPieces, hforbid,
        List.nil_append]
      simp only [List.mem_append, List.mem_cons, hfields, or_assoc]
      exact or_congr_left List.mem_singleton
  | union discriminator members => by
      rw [pieces, imports, uses_joined, List.flatMap_append, flatMap_uses_commentPieces,
        List.nil_append, mem_uses_unionPieces]
  | typeAlias type arguments => by
      rw [pieces, imports, uses_joined, List.flatMap_append, flatMap_uses_commentPieces,
        List.nil_append, ← mem_constructs_argumentHint (arguments.map Argument.text)]
      simp [uses, Piece.constructs]

end pieces

/-! ### The top-level type -/

/-- The pieces of the arguments by which a model is written as JSON text. -/
def dumpPieces (t : Table) : List Piece :=
  let yes : Piece := .value (.literal (.bool true))
  if usesAliases t then [.fixed "indent=2, exclude_none=", yes, .fixed ", by_alias=", yes]
  else [.fixed "indent=2, exclude_none=", yes]

/-- The pieces of the method that writes a model as JSON text. -/
def toJsonPieces (indent : String) (t : Table) : List (List Piece) :=
  [[.fixed indent, .fixed "def to_json(self) -> str:"],
   [.fixed indent, .fixed indent,
    .prose "\"\"\"Serialize to JSON, omitting unset optional fields.\"\"\""],
   .fixed indent :: .fixed indent :: .fixed "return self.model_dump_json(" :: dumpPieces t ++
    [.fixed ")"]]

/-- The pieces of the line of a field of the top-level type. -/
def rootFieldPieces (label n : String) : List Piece := [.fixed label, .hint (.name n)]

/-- The pieces of the top-level type. -/
def rootPieces (settings : Settings) (t : Table) : List Piece :=
  let indent := indentOf settings
  let root := t.root
  classPieces indent (headerPieces root.name "(" (pydantic "BaseModel"))
    (docPieces indent (settings.described (some root.descriptionText)) ++
      blockPieces indent [rootFieldPieces "metadata: " root.metadataType,
        rootFieldPieces "root: " root.rootType] ++
      [joined "\n" (toJsonPieces indent t)])

theorem codeOf_dumpPieces (t : Table) : codeOf (dumpPieces t) = dumpArguments t := by
  unfold dumpPieces dumpArguments
  split <;> decide

theorem map_codeOf_toJsonPieces (indent : String) (t : Table) :
    (toJsonPieces indent t).map codeOf = toJsonLines indent t := by
  simp [toJsonPieces, toJsonLines, codeOf, codeOf_append, codeOf_dumpPieces, Piece.text,
    String.append_assoc]

/-- The pieces of the top-level type are its code. -/
theorem codeOf_rootPieces (settings : Settings) (t : Table) :
    codeOf (rootPieces settings t) = (schemaType settings t).code := by
  have hfield : ∀ label n, codeOf (rootFieldPieces label n) = label ++ n := by
    intro label n
    simp [rootFieldPieces, codeOf, Piece.text, Hint.text]
  rw [rootPieces, codeOf_classPieces, List.map_append, List.map_append, map_codeOf_docPieces,
    map_codeOf_blockPieces, List.map_singleton, codeOf_joined, map_codeOf_toJsonPieces,
    codeOf_modelHeader, List.map_cons, List.map_singleton, hfield, hfield]
  rfl

theorem uses_rootPieces (settings : Settings) (t : Table) :
    uses (rootPieces settings t) = (schemaType settings t).imports := by
  have hmethod : (toJsonPieces (indentOf settings) t).flatMap uses = [] := by
    unfold toJsonPieces dumpPieces
    split <;> rfl
  rw [rootPieces, uses_classPieces, List.flatMap_append, List.flatMap_append,
    flatMap_uses_docPieces, flatMap_uses_blockPieces, List.flatMap_singleton, uses_joined,
    hmethod]
  rfl

end SchemaModels.Model
