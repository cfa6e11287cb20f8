import SchemaModels.Document.Basic
import SchemaModels.Proofs.Unit.Plain
import SchemaModels.Proofs.Unit.Targets

/-!
# The names of a unit of models

A unit of models binds the names that its header imports and the names that it declares. The names
of definitions are different, but nothing keeps them apart from the name of the top-level type and
from the imports: a class that takes such a name replaces what stood for it.

* `Model.importTable`: the import statements of a header, each with the names that it binds.
* `BindsOnce`: no name is declared twice, and none is declared and imported.
* `bindsOnce_iff`: a unit binds every name once exactly when the table's names are different from
  the top-level type's and all of them from the few names imported.
* `titled_binds_twice`: a document whose unit declares one name twice, and one whose unit declares a
  name that it imports.
-/

namespace SchemaModels

namespace Model

/-! ### Import statements -/

/-- A module and the names that are imported from it. -/
structure ImportStatement where
  source : String
  names : List String

/-- The text of an import statement. -/
def ImportStatement.text (s : ImportStatement) : String :=
  "from " ++ s.source ++ " import " ++ String.intercalate ", " s.names

/-- The import statements of a header for constructs. -/
def importTable (imports : Imports) : List ImportStatement :=
  (importOrder ++ imports.sources.filter fun m => !importOrder.contains m).filterMap fun m =>
    if (imports.names m).isEmpty then none else some ⟨m, imports.names m⟩

theorem importStatements_eq (imports : Imports) :
    importStatements imports = (importTable imports).map ImportStatement.text := by
  unfold importStatements importTable
  rw [List.map_filterMap]
  refine List.filterMap_congr fun m _ => ?_
  dsimp only
  split <;> rfl

/-- The import statements name the constructs, each from its module, and no others. -/
theorem exists_statement_iff {imports : Imports} {i : Import} :
    (∃ s ∈ importTable imports, s.source = i.source ∧ i.name ∈ s.names) ↔ i ∈ imports := by
  have hnames : ∀ m n, n ∈ imports.names m ↔ ∃ j ∈ imports, j.source = m ∧ j.name = n := by
    intro m n
    simp [Imports.names, Text.mem_sorted, and_assoc]
  simp only [importTable, List.mem_filterMap]
  constructor
  · rintro ⟨s, ⟨m, _, hs⟩, hsource, hn⟩
    split at hs
    · cases hs
    · obtain rfl := Option.some.inj hs
      obtain rfl : m = i.source := hsource
      obtain ⟨j, hj, hjm, hjn⟩ := (hnames _ _).mp hn
      obtain rfl : j = i := by
        cases j
        cases i
        exact congrArg₂ Import.mk hjm hjn
      exact hj
  · intro hi
    have hn : i.name ∈ imports.names i.source := (hnames _ _).mpr ⟨i, hi, rfl, rfl⟩
    refine ⟨⟨i.source, imports.names i.source⟩, ⟨i.source, ?_, ?_⟩, rfl, hn⟩
    · by_cases hfirst : importOrder.contains i.source = true
      · exact List.mem_append_left _ (List.contains_iff_mem.mp hfirst)
      · refine List.mem_append_right _ (List.mem_filter.mpr ⟨?_, by simpa using hfirst⟩)
        exact Text.mem_sorted.mpr (List.mem_map_of_mem hi)
    · rw [if_neg]
      intro hempty
      rw [List.isEmpty_iff.mp hempty] at hn
      exact absurd hn List.not_mem_nil

/-- The import statements bind the names of the constructs, and no others. -/
theorem exists_mem_importTable {imports : Imports} {n : String} :
    (∃ s ∈ importTable imports, n ∈ s.names) ↔ ∃ i ∈ imports, i.name = n := by
  constructor
  · rintro ⟨s, hs, hn⟩
    exact ⟨⟨s.source, n⟩, exists_statement_iff.mp ⟨s, hs, rfl, hn⟩, rfl⟩
  · rintro ⟨i, hi, rfl⟩
    obtain ⟨s, hs, -, hn⟩ := exists_statement_iff.mpr hi
    exact ⟨s, hs, hn⟩

/-- What stands above the import statements of a header: the docstring of the unit and its
version. -/
def aboveImports (settings : Settings) (root : Root) : String :=
  "\"\"\"\n" ++ (root.description.map headerDescription).getD "" ++
    String.intercalate "\n" generatedNotice ++ "\n\"\"\"\n\n" ++
    "__version__ = " ++ Text.quoted (settings.versionFor root) ++ "\n"

/-- A header ends with its import statements. -/
theorem preamble_eq (settings : Settings) (root : Root) {imports : Imports}
    (hne : importTable imports ≠ []) : preamble settings root imports =
      aboveImports settings root ++ "\n" ++
        String.intercalate "\n" ((importTable imports).map ImportStatement.text) ++ "\n" := by
  have hstatements : ¬ (importStatements imports).isEmpty = true := by
    rw [importStatements_eq, List.isEmpty_map]
    exact fun h => hne (List.isEmpty_iff.mp h)
  unfold preamble aboveImports
  rw [← importStatements_eq]
  simp only [if_neg hstatements]
  rw [← String.append_assoc, ← String.append_assoc]

end Model

namespace GeneratedUnit

/-! ### Bindings -/

/-- Each name is bound once, by a declaration or by an import statement. -/
structure BindsOnce (ds : List Declaration) (statements : List Model.ImportStatement) : Prop where
  nodup : (ds.map Declaration.name).Nodup
  not_imported : ∀ d ∈ ds, ∀ s ∈ statements, d.name ∉ s.names

/-- Declarations of different names and of one more bind every name once when that one is different
from the others and none of them is imported. -/
theorem bindsOnce_iff_of_perm {ds : List Declaration} {statements : List Model.ImportStatement}
    {names : List String} {last : String} (hn : names.Nodup)
    (hperm : (ds.map Declaration.name).Perm (names ++ [last])) :
    BindsOnce ds statements ↔
      last ∉ names ∧ ∀ n ∈ last :: names, ∀ s ∈ statements, n ∉ s.names := by
  have hnodup : (ds.map Declaration.name).Nodup ↔ last ∉ names := by
    rw [hperm.nodup_iff, List.nodup_append_comm, List.singleton_append, List.nodup_cons]
    exact and_iff_left hn
  have hmem : ∀ n, n ∈ ds.map Declaration.name ↔ n ∈ last :: names := by
    intro n
    rw [hperm.mem_iff, List.mem_append, List.mem_singleton, List.mem_cons, or_comm]
  rw [← hnodup]
  simp only [← hmem, List.forall_mem_map]
  exact ⟨fun h => ⟨h.nodup, h.not_imported⟩, fun h => ⟨h.1, h.2⟩⟩

/-- The import statements of a unit of models. -/
def importTable (u : GeneratedUnit) : List Model.ImportStatement :=
  Model.importTable (u.declarations.flatMap Declaration.imports)

/-- The header of a unit of models: the docstring and the version, and a line for each import
statement. -/
def header (u : GeneratedUnit) (settings : Settings) (root : Root) : String :=
  Model.aboveImports (Model.backend.settle settings) root ++ "\n" ++
    String.intercalate "\n" (u.importTable.map Model.ImportStatement.text) ++ "\n"

section ofTable
variable {settings : Settings} {t : Table} {u : GeneratedUnit}
  (h : ofTable Model.backend settings t = .ok u)
include h

/-- The constructs that a unit uses are among few. -/
theorem imports_subset {d : Declaration} (hd : d ∈ u.declarations) :
    d.imports ⊆ Model.allConstructs settings := by
  obtain ⟨_, ds, hds, hu, _⟩ := exists_declare h
  rw [hu] at hd
  rcases List.mem_append.mp hd with hd | hroot
  · obtain ⟨_, _, _, _, _, hbody, rfl⟩ := exists_body_of_mem h hds hd
    exact Model.imports_subset_allConstructs hbody
  · obtain rfl := List.mem_singleton.mp hroot
    refine List.cons_subset.mpr ⟨List.mem_append_right _ ?_, List.nil_subset _⟩
    decide

/-- Every unit imports the class of models, for its top-level type. -/
theorem exists_import_baseModel : ∃ s ∈ u.importTable, "BaseModel" ∈ s.names := by
  obtain ⟨_, ds, _, hu, _⟩ := exists_declare h
  refine Model.exists_mem_importTable.mpr ⟨Model.pydantic "BaseModel", ?_, rfl⟩
  rw [hu]
  exact List.mem_flatMap.mpr ⟨_, List.mem_append_right _ (List.mem_singleton_self _),
    List.mem_singleton_self _⟩

/-- The first block of a unit is its header. -/
theorem exists_rest_of_header : ∃ rest, u.content =
    joinBlocks Model.backend.separator settings.lineEnding (u.header settings t.root :: rest) := by
  obtain ⟨definitions, top, hu, hc⟩ := exists_blocks h
  obtain ⟨s, hs, _⟩ := exists_import_baseModel h
  have hheader : Model.backend.preamble (Model.backend.settle settings) t.root
      ((definitions ++ [top]).flatMap Declaration.imports) = u.header settings t.root := by
    rw [← hu]
    exact Model.preamble_eq (Model.backend.settle settings) t.root (List.ne_nil_of_mem hs)
  rw [leadingBlocks, hheader, List.cons_append, List.cons_append] at hc
  exact ⟨_, hc⟩

/-- The imports of a unit, as the first block of its text states them. -/
theorem exists_header : ∃ before rest, u.content =
    joinBlocks Model.backend.separator settings.lineEnding
      ((before ++ "\n" ++ String.intercalate "\n"
        (u.importTable.map Model.ImportStatement.text) ++ "\n") :: rest) :=
  ⟨_, exists_rest_of_header h⟩

/-- A unit binds every name once exactly when the names of the table and of the top-level type are
different from each other and from those imported. The header states the imports: the class of
models, and others of a few constructs. -/
theorem bindsOnce_iff :
    (BindsOnce u.declarations u.importTable ↔ t.root.name ∉ t.names ∧
      ∀ n ∈ t.root.name :: t.names, ∀ s ∈ u.importTable, n ∉ s.names) ∧
    (∃ before rest, u.content = joinBlocks Model.backend.separator settings.lineEnding
      ((before ++ "\n" ++ String.intercalate "\n"
        (u.importTable.map Model.ImportStatement.text) ++ "\n") :: rest)) ∧
    (∃ s ∈ u.importTable, "BaseModel" ∈ s.names) ∧
    ∀ s ∈ u.importTable, s.names ⊆ (Model.allConstructs settings).map Import.name := by
  refine ⟨?_, exists_header h, exists_import_baseModel h, fun s hs n hn => ?_⟩
  · have hunit : ofTable Target.pydantic.backend settings t = .ok u := h
    exact bindsOnce_iff_of_perm t.names_nodup (perm_names_declarations hunit)
  · obtain ⟨i, hi, rfl⟩ := Model.exists_mem_importTable.mp ⟨s, hs, hn⟩
    obtain ⟨d, hd, hid⟩ := List.mem_flatMap.mp hi
    exact List.mem_map_of_mem (imports_subset h hd hid)

end ofTable

theorem bindsOnce_cards : ∃ u, ofTable Model.backend {} Table.cards = .ok u ∧
    BindsOnce u.declarations u.importTable := by
  have h : ofTable Model.backend {} Table.cards = .ok _ := rfl
  refine ⟨_, h, (bindsOnce_iff h).1.mpr ⟨by decide, ?_⟩⟩
  decide

/-! ### Names that are bound twice -/

/-- A document with a title and one definition, a record without fields. -/
def titled (title name : String) : Json :=
  let reference : Json := .object [("$ref", .string ("#/$defs/" ++ name))]
  .object [("title", .string title),
    ("properties", .object [("metadata", reference), ("root", reference)]),
    ("$defs", .object [(name, .object [("type", .string "object")])])]

/-- The name of the top-level type may be that of a definition, and a definition may be named as a
class that the header imports. Both are identifiers, and the document has a unit. -/
theorem titled_binds_twice :
    (∃ t u, Document.ofJson {} (titled "Card" "Card") = .ok t ∧
      (∀ n ∈ t.names, Name.isIdentifier n = true) ∧ ofTable Model.backend {} t = .ok u ∧
      u.declarations.map Declaration.name = ["Card", "Card"] ∧
      ¬ BindsOnce u.declarations u.importTable) ∧
    ∃ t u, Document.ofJson {} (titled "Page" "BaseModel") = .ok t ∧
      (∀ n ∈ t.names, Name.isIdentifier n = true) ∧ ofTable Model.backend {} t = .ok u ∧
      u.declarations.map Declaration.name = ["BaseModel", "Page"] ∧
      ¬ BindsOnce u.declarations u.importTable := by
  constructor
  · have hload : Document.ofJson {} (titled "Card" "Card") = .ok _ := rfl
    refine ⟨_, _, hload, by decide, rfl, rfl, fun h => ?_⟩
    exact absurd h.nodup (by decide)
  · have hload : Document.ofJson {} (titled "Page" "BaseModel") = .ok _ := rfl
    refine ⟨_, _, hload, by decide, rfl, rfl, fun h => ?_⟩
    exact h.not_imported _ List.mem_cons_self _ List.mem_cons_self List.mem_cons_self

end GeneratedUnit

end SchemaModels
