import SchemaModels.Proofs.Text.Lines
import SchemaModels.Proofs.Unit.Declarations

/-!
# The blocks of a unit

The text of a unit is its blocks, without the line feeds at their ends, in the configured line
ending. What resolves the references to later declarations stands between the code of the
definitions and that of the top-level type.

* `LineEnding.write`: a text in a line ending.
* `GeneratedUnit.Shows`: a block stands in the text of a unit. `shows_of_mem`: every block does.
* `leadingBlocks`, `closingBlocks`, `exists_blocks`: the blocks of a unit.
* `shows_code`: the code of every declaration stands in the text.
-/

namespace SchemaModels

open Text

/-! ### Line endings -/

namespace LineEnding
variable (ending : LineEnding)

/-- A text in a line ending. -/
def write : LineEnding → String → String
  | lf, s => s
  | crlf, s => String.ofList (s.toList.flatMap fun c => if c = '\n' then ['\r', '\n'] else [c])

/-- How a character is written. -/
def chars : LineEnding → Char → List Char
  | lf, c => [c]
  | crlf, c => if c = '\n' then ['\r', '\n'] else [c]

theorem toList_write (s : String) : (ending.write s).toList = s.toList.flatMap ending.chars := by
  cases ending with
  | lf => exact (List.flatMap_singleton' s.toList).symm
  | crlf => exact String.toList_ofList

end LineEnding

namespace GeneratedUnit

/-! ### Blocks in a text -/

theorem toList_trimBlock (block : String) :
    (trimBlock block).toList = dropTrailing (· == '\n') block.toList :=
  String.toList_ofList

theorem joinBlocks_eq_write (separator : String) (ending : LineEnding) (bs : List String) :
    joinBlocks separator ending bs = ending.write (joinBlocks separator .lf bs) := by
  cases ending <;> rfl

theorem isInfix_intercalate (separator : String) {block : String} {blocks : List String}
    (h : block ∈ blocks) : block.toList <:+: (String.intercalate separator blocks).toList := by
  obtain ⟨before, after, rfl⟩ := List.append_of_mem h
  rw [toList_intercalate_append _ (List.cons_ne_nil block after), toList_intercalate_cons]
  exact (List.prefix_append _ _).isInfix.trans (List.suffix_append _ _).isInfix

/-- Each block stands in what the blocks are joined to, without the line feeds at its end. -/
theorem isInfix_joinBlocks (separator : String) (ending : LineEnding) {block : String}
    {blocks : List String} (h : block ∈ blocks) :
    (ending.write (trimBlock block)).toList <:+: (joinBlocks separator ending blocks).toList := by
  rw [joinBlocks_eq_write, ending.toList_write, ending.toList_write]
  refine List.IsInfix.flatMap ?_ _
  by_cases hempty : trimBlock block = ""
  · rw [hempty]
    exact List.nil_infix
  · have hmem : trimBlock block ∈ (blocks.map trimBlock).filter fun b => !b.isEmpty :=
      List.mem_filter.mpr ⟨List.mem_map_of_mem h, by simpa using hempty⟩
    show _ <:+: (String.intercalate separator _ ++ "\n").toList
    rw [String.toList_append]
    exact (isInfix_intercalate separator hmem).trans (List.prefix_append _ _).isInfix

/-- A block stands in the text of a unit, without the line feeds at its end and in the line ending
of the unit. -/
def Shows (u : GeneratedUnit) (settings : Settings) (block : String) : Prop :=
  (settings.lineEnding.write (trimBlock block)).toList <:+: u.content.toList

variable {u : GeneratedUnit} {settings : Settings}

theorem shows_of_mem {separator block : String} {blocks : List String}
    (hcontent : u.content = joinBlocks separator settings.lineEnding blocks)
    (h : block ∈ blocks) : u.Shows settings block := by
  rw [Shows, hcontent]
  exact isInfix_joinBlocks separator settings.lineEnding h

/-! ### Blocks of a unit -/

/-- The blocks of a unit before what resolves references to later declarations: the header, and the
code of the definitions under the banners of their sections. -/
def leadingBlocks (backend : Backend) (settings : Settings) (root : Root)
    (definitions : List Declaration) (top : Declaration) : List String :=
  backend.preamble settings root ((definitions ++ [top]).flatMap Declaration.imports) ::
    sectionBlocks backend.banner none definitions

/-- What resolves the references of a plan to later definitions, under a banner. -/
def resolutionBlocks (backend : Backend) (plan : Plan) : List String :=
  match backend.resolution plan with
  | some code => [backend.banner "FORWARD REFERENCE RESOLUTION", code]
  | none => []

/-- The blocks of a unit after it: the code of the top-level type, under the banner of its section,
and the export list. -/
def closingBlocks (backend : Backend) (settings : Settings) (definitions : List Declaration)
    (top : Declaration) : List String :=
  sectionBlocks backend.banner (definitions.getLast?.map Declaration.category) [top] ++
    [backend.postamble settings ((definitions ++ [top]).map Declaration.export_)]

/-- The code of declarations stands in the blocks of their sections, in order. -/
theorem sublist_sectionBlocks (banner : String → String) : ∀ (current : Option Section)
    (ds : List Declaration), (ds.map Declaration.code).Sublist (sectionBlocks banner current ds)
  | _, [] => List.Sublist.slnil
  | current, d :: rest => by
      rw [List.map_cons, sectionBlocks]
      exact ((sublist_sectionBlocks banner _ rest).cons_cons d.code).trans
        (List.sublist_append_right _ _)

section ofTable
variable {backend : Backend} {t : Table} (h : ofTable backend settings t = .ok u)
include h

/-- The blocks of a unit. -/
theorem exists_blocks : ∃ definitions top, u.declarations = definitions ++ [top] ∧
    u.content = joinBlocks backend.separator settings.lineEnding
      (leadingBlocks backend (backend.settle settings) t.root definitions top ++
        resolutionBlocks backend u.plan ++
        closingBlocks backend (backend.settle settings) definitions top) := by
  obtain ⟨_, ds, _, hu, hc⟩ := exists_declare h
  refine ⟨ds, _, hu, hc.trans (congrArg _ ?_)⟩
  rw [blocks, t.root_bound settings, leadingBlocks, closingBlocks, resolutionBlocks]
  exact List.append_assoc _ _ _

/-- The text of a unit has the code of its declarations, in their order. -/
theorem exists_sublist_codes : ∃ blocks,
    u.content = joinBlocks backend.separator settings.lineEnding blocks ∧
      (u.declarations.map Declaration.code).Sublist blocks := by
  obtain ⟨definitions, top, hu, hc⟩ := exists_blocks h
  refine ⟨_, hc, ?_⟩
  rw [hu, List.map_append]
  refine List.Sublist.append ?_ ?_
  · exact ((sublist_sectionBlocks backend.banner none definitions).trans
      (List.sublist_cons_self _ _)).trans (List.sublist_append_left _ _)
  · exact (sublist_sectionBlocks backend.banner _ [top]).trans (List.sublist_append_left _ _)

/-- The code of every declaration stands in the text of a unit. -/
theorem shows_code {decl : Declaration} (hdecl : decl ∈ u.declarations) :
    u.Shows settings decl.code := by
  obtain ⟨blocks, hcontent, hsub⟩ := exists_sublist_codes h
  exact shows_of_mem hcontent (hsub.subset (List.mem_map_of_mem hdecl))

end ofTable

end GeneratedUnit

end SchemaModels
