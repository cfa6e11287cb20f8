import SchemaModels.Proofs.Model.Breaks
import SchemaModels.Proofs.Unit.Blocks
import SchemaModels.Proofs.Unit.Models
import SchemaModels.Proofs.Unit.Targets
import SchemaModels.Proofs.Validator.Breaks

/-!
# Breaks in the text of a unit

A unit copies the names and descriptions of its table and, depending on the target, the
discriminators of unions or the patterns of strings. Where these are clean, all of its blocks are,
and so is the text that they are put together to.

* `Target.copied`, `Table.copied`: the strings that a unit copies.
* `CleanDeclaration`, `clean_declaration`: the declarations of a unit.
* `clean_preamble`, `clean_postamble`: what stands around them.
* `clean_blocks`, `clean_blocks_ofTable`: the blocks of a unit.
-/

namespace SchemaModels

open Text

theorem clean_bannerOf {comment title : String} (hcomment : Clean comment.toList)
    (htitle : Clean title.toList) : Clean (bannerOf comment title).toList := by
  have hsigns : Clean (String.ofList (List.replicate bannerWidth '=')).toList := by
    rw [String.toList_ofList]
    exact clean_of_not_mem fun h => absurd (List.eq_of_mem_replicate h) (by decide)
  have hrule : Clean (comment ++ " " ++ String.ofList (List.replicate bannerWidth '=')).toList :=
    (hcomment.append_string (by decide)).append_string hsigns
  have hline : Clean (comment ++ " " ++ String.ofList (List.replicate bannerWidth '=') ++ "\n" ++
      comment ++ " ").toList :=
    ((hrule.append_string (by decide)).append_string hcomment).append_string (by decide)
  exact ((hline.append_string htitle).append_string (by decide)).append_string hrule

theorem clean_title (s : Section) : Clean s.title.toList := by
  cases s <;> decide

theorem clean_exportLines {heading entry : String → String} {exports : List Export}
    (hheading : ∀ g ∈ exportGroups, Clean (heading g.2).toList)
    (hentry : ∀ e ∈ exports, Clean (entry e.1).toList) :
    AllClean (exportLines heading entry exports) := by
  intro x hx
  rcases mem_exportLines hx with rfl | ⟨g, hg, rfl⟩ | ⟨e, he, rfl⟩
  · exact clean_nil
  · exact hheading g hg
  · exact hentry e he

theorem clean_headings : ∀ g ∈ exportGroups, Clean g.2.toList := by decide

theorem clean_notice : Clean (String.intercalate "\n" generatedNotice).toList := by decide +kernel

/-- The strings that are in the code of a root type as they are. -/
structure Root.IsClean (root : Root) (settings : Settings) : Prop where
  name : Clean root.name.toList
  docs : AllClean ((settings.described (some root.descriptionText)).toList.flatMap documentedOf)
  metadataType : Clean root.metadataType.toList
  rootType : Clean root.rootType.toList

/-! ### Models -/

namespace Model

theorem clean_schemaType {settings : Settings} {t : Table} (h : t.root.IsClean settings) :
    Clean (schemaType settings t).code.toList := by
  have hindent := clean_indentOf settings
  have hfields : AllClean ["metadata: " ++ t.root.metadataType, "root: " ++ t.root.rootType] :=
    .cons (Clean.append_string (by decide) h.metadataType)
      (.cons (Clean.append_string (by decide) h.rootType) .nil)
  have harguments : Clean (dumpArguments t).toList := by
    unfold dumpArguments
    split <;> decide
  have hdouble := hindent.append_string hindent
  have hlines : AllClean (toJsonLines (indentOf settings) t) :=
    .cons (hindent.append_string (by decide)) (.cons (hdouble.append_string (by decide))
      (.cons (((hdouble.append_string (by decide)).append_string harguments).append_string
        (by decide)) .nil))
  exact clean_classText hindent (h.name.enclose (by decide) (by decide))
    (AllClean.append (AllClean.append (clean_docstrings hindent h.docs)
      (clean_blockOf hindent hfields)) (.cons (clean_intercalate (by decide) hlines) .nil))

theorem clean_resolution {plan : Plan} (h : ∀ p ∈ plan, Clean p.name.toList) {code : String}
    (hcode : resolution plan = some code) : Clean code.toList := by
  unfold resolution at hcode
  dsimp only at hcode
  split at hcode
  · cases hcode
  · obtain rfl := Option.some.inj hcode
    refine clean_intercalate (by decide) (List.forall_mem_map.mpr fun p hp => ?_)
    exact (h p (List.mem_filter.mp hp).1).append_string (by decide)

theorem clean_importStatements {settings : Settings} {imports : Imports}
    (h : imports ⊆ allConstructs settings) : AllClean (importStatements imports) := by
  have horder : ∀ m ∈ importOrder, Clean m.toList := by decide
  have hconstructs : ∀ i ∈ allConstructs settings, Clean i.source.toList ∧ Clean i.name.toList := by
    unfold allConstructs
    cases settings.forbidExtra <;> decide
  intro x hx
  obtain ⟨source, hsource, hnames, rfl⟩ := exists_of_mem_importStatements hx
  have hclean : Clean source.toList := by
    rcases hsource with hm | ⟨i, hi, rfl⟩
    · exact horder source hm
    · exact (hconstructs i (h hi)).1
  have hall : AllClean (imports.names source) := by
    intro n hn
    obtain ⟨i, hi, rfl⟩ := hnames n hn
    exact (hconstructs i (h hi)).2
  exact (hclean.enclose (by decide) (by decide)).append_string
    (clean_intercalate (by decide) hall)

/-- What a header has before and after the description of the root. -/
def headerRest (settings : Settings) (root : Root) (imports : Imports) : String :=
  let statements := importStatements imports
  "\n\n" ++ "__version__ = " ++ quoted (settings.versionFor root) ++ "\n" ++
    (if statements.isEmpty then "" else "\n" ++ String.intercalate "\n" statements ++ "\n")

/-- The docstring of a header. -/
def headerDoc (root : Root) : String :=
  "\"\"\"\n" ++ (root.description.map headerDescription).getD "" ++
    String.intercalate "\n" generatedNotice ++ "\n\"\"\""

theorem preamble_eq_append (settings : Settings) (root : Root) (imports : Imports) :
    preamble settings root imports = headerDoc root ++ headerRest settings root imports := by
  unfold preamble headerDoc headerRest
  have hmarks : "\n\"\"\"\n\n" = "\n\"\"\"" ++ "\n\n" := rfl
  simp only [hmarks, String.append_assoc]

/-- The description of the root is in a header as it is, but for backslashes and quotes. -/
theorem clean_headerDoc_iff (root : Root) :
    Clean (headerDoc root).toList ↔ AllClean root.description.toList := by
  cases hd : root.description with
  | none =>
      refine iff_of_true ?_ .nil
      rw [headerDoc, hd]
      exact (Clean.append_string (by decide) clean_notice).append_string (by decide)
  | some text =>
      have htext : AllClean (some text).toList ↔ Clean (escapeDoc text.toList) :=
        List.forall_mem_singleton.trans (clean_escapeDoc_iff text.toList).symm
      rw [htext, headerDoc, hd]
      show Clean ("\"\"\"\n" ++ (String.ofList (escapeDoc text.toList) ++ "\n\n") ++
        String.intercalate "\n" generatedNotice ++ "\n\"\"\"").toList ↔ _
      constructor
      · intro h
        simp only [String.toList_append, String.toList_ofList, List.append_assoc] at h
        rw [← List.append_assoc, Clean, List.append_assoc] at h
        exact (Clean.of_append_feed h).of_append_right
      · intro h
        have hline : Clean (String.ofList (escapeDoc text.toList)).toList := by
          rwa [String.toList_ofList]
        have hempty : Clean "\n\n".toList := by decide
        have hdescription := hline.append_string hempty
        refine Clean.append_string ?_ (by decide)
        exact (Clean.append_string (by decide) hdescription).append_string clean_notice

theorem clean_preamble {settings : Settings} {root : Root} {imports : Imports}
    (himports : imports ⊆ allConstructs settings) (h : AllClean root.description.toList) :
    Clean (preamble settings root imports).toList := by
  have hfeed : Clean "\n".toList := by decide
  have hstatements := clean_intercalate hfeed (clean_importStatements himports)
  have hversion : Clean ("\n\n" ++ "__version__ = " ++ quoted (settings.versionFor root) ++
      "\n").toList :=
    (clean_quoted _).enclose (by decide) (by decide)
  rw [preamble_eq_append]
  refine ((clean_headerDoc_iff root).mpr h).append_string (hversion.append_string ?_)
  split
  · exact clean_nil
  · exact hstatements.enclose (by decide) (by decide)

theorem clean_postamble (settings : Settings) {exports : List Export}
    (h : ∀ e ∈ exports, Clean e.1.toList) : Clean (postamble settings exports).toList := by
  have hindent := clean_indentOf settings
  have hlines : AllClean (exportLines (indentOf settings ++ "# " ++ ·)
      (fun name => indentOf settings ++ "\"" ++ name ++ "\",") exports) := by
    refine clean_exportLines (fun g hg => ?_) fun e he => ?_
    · exact (hindent.append_string (by decide)).append_string (clean_headings g hg)
    · exact ((hindent.append_string (by decide)).append_string (h e he)).append_string (by decide)
  have hbanner : Clean (banner "PUBLIC API EXPORTS").toList :=
    clean_bannerOf (by decide) (by decide)
  unfold postamble
  dsimp only
  refine (hbanner.append_string (by decide)).append_string ?_
  split
  · decide
  · exact (clean_intercalate (by decide) hlines).enclose (by decide) (by decide)

end Model

/-! ### Validators -/

namespace Validator

theorem clean_serializeText {indent name : String} (hindent : Clean indent.toList)
    (hname : Clean name.toList) : Clean (serializeText indent name).toList := by
  unfold serializeText
  refine Clean.append_string (Clean.append_string ?_ hindent) (by decide +kernel)
  refine Clean.append_string (Clean.append_string ?_ hname) (by decide)
  exact hname.enclose (by decide) (by decide)

theorem clean_schemaType {settings : Settings} {t : Table} (h : t.root.IsClean settings) :
    Clean (schemaType settings t).code.toList := by
  have hindent := clean_indentOf settings
  have hfields : AllClean ["metadata: " ++ schemaName t.root.metadataType ++ ",",
      "root: " ++ schemaName t.root.rootType ++ ","] :=
    .cons ((clean_schemaName h.metadataType).enclose (by decide) (by decide))
      (.cons ((clean_schemaName h.rootType).enclose (by decide) (by decide)) .nil)
  have hopening : Clean "z.object(\x7b".toList := by decide
  have hclosing : Clean "\x7d)".toList := by decide
  have hblock := clean_exportBlock h.name (clean_linesBetween hopening hclosing hindent hfields)
    h.docs false
  refine ((hblock.append_string (by decide)).append_string ?_).append_string
    (clean_serializeText hindent h.name)
  split <;> decide

/-- The description of the root is followed by a line feed in the comment of a header. -/
theorem clean_headerText {root : Root}
    (h : AllClean (root.description.toList.flatMap fun text => linesOf (text ++ "\n"))) :
    AllClean (documentedOf ((root.description.map (· ++ "\n\n")).getD "" ++
      String.intercalate "\n" generatedNotice)) := by
  rw [allClean_documentedOf_iff]
  cases hd : root.description with
  | none => exact fun l hl => clean_of_mem_documented clean_notice hl
  | some text =>
      rw [hd, Option.toList_some, List.flatMap_singleton, allClean_linesOf_iff,
        String.toList_append] at h
      have hrest : Clean ("\n" ++ String.intercalate "\n" generatedNotice).toList :=
        Clean.append_string (by decide) clean_notice
      have htext : ((text ++ "\n\n") ++ String.intercalate "\n" generatedNotice).toList =
          text.toList ++ '\n' :: ("\n" ++ String.intercalate "\n" generatedNotice).toList := by
        simp
      show ∀ l ∈ documented ((text ++ "\n\n") ++ _).toList, Clean l
      rw [htext]
      refine clean_documented_of_lines ?_ ?_
      · rw [lines_append_break]
        exact List.forall_mem_append.mpr ⟨h, fun l hl => clean_of_mem_lines hrest hl⟩
      · rw [List.getLast?_append_of_ne_nil _ (List.cons_ne_nil _ _)]
        decide +kernel

theorem clean_preamble {settings : Settings} {root : Root} (imports : Imports)
    (h : AllClean (root.description.toList.flatMap fun text => linesOf (text ++ "\n"))) :
    Clean (preamble settings root imports).toList := by
  have hdoc := clean_jsdoc (clean_headerText h)
  exact ((hdoc.append_string (by decide +kernel)).append_string
    (clean_quoted (settings.versionFor root))).append_string (by decide)

theorem clean_postamble (settings : Settings) {exports : List Export}
    (h : ∀ e ∈ exports, Clean e.1.toList) : Clean (postamble settings exports).toList := by
  have hindent := clean_indentOf settings
  have hlines : AllClean (exportLines (indentOf settings ++ "// " ++ ·)
      (fun name => indentOf settings ++ schemaName name ++ ",") exports) := by
    refine clean_exportLines (fun g hg => ?_) fun e he => ?_
    · exact (hindent.append_string (by decide)).append_string (clean_headings g hg)
    · exact (hindent.append_string (clean_schemaName (h e he))).append_string (by decide)
  have hbanner : Clean (banner "SCHEMA REGISTRY").toList := clean_bannerOf (by decide) (by decide)
  unfold postamble
  dsimp only
  refine (hbanner.append_string (by decide)).append_string ?_
  split
  · decide
  · exact (clean_intercalate (by decide) hlines).enclose (by decide) (by decide)

end Validator

/-! ### What a unit copies -/

/-- The strings of a definition that are in its code as they are, apart from the names of other
definitions. -/
def Target.copied : Target → Settings → Definition → List String
  | pydantic => Model.copied
  | zod => Validator.copied

/-- The strings of a root type that are in the header of a unit as they are: its description, which
is a comment of several lines in a unit of validators. -/
def Target.copiedHeader : Target → Root → List String
  | pydantic, root => root.description.toList
  | zod, root => root.description.toList.flatMap fun text => linesOf (text ++ "\n")

/-- The strings of a table that are in a unit as they are. What the root and the definitions refer
to are the names of definitions. -/
def Table.copied (t : Table) (target : Target) (settings : Settings) : List String :=
  t.root.name :: target.copiedHeader t.root ++
    (settings.described (some t.root.descriptionText)).toList.flatMap documentedOf ++
    t.definitions.flatMap (target.copied settings)

section bound
variable {settings : Settings} {t : Table}

/-- A field that is declared as a list of records has no pattern, and had none. -/
theorem patterns_boundField (s : Spec) :
    (t.boundField settings s).allBounds.filterMap Bound.pattern? =
      s.allBounds.filterMap Bound.pattern? := by
  unfold Table.boundField
  split
  · unfold Table.bindField
    split
    · rename_i b hb
      obtain ⟨hshape, -⟩ := Table.binding?_eq_some_iff.mp hb
      obtain ⟨shape, bounds, default, nullable, description⟩ := s
      obtain rfl : shape = .reference b.1 := hshape
      show ((bounds.applying (.array ⟨.reference b.2, {}, none, false, none⟩)) ++ []).filterMap
        Bound.pattern? = []
      unfold Bounds.applying
      cases bounds.minItems <;> cases bounds.maxItems <;> rfl
    · rfl
  · rfl

/-- A definition that is declared copies the same strings as in the table. -/
theorem copied_boundKind (target : Target) (d : Definition) :
    target.copied settings { d with kind := t.boundKind settings d } =
      target.copied settings d := by
  obtain ⟨name, description, kind⟩ := d
  cases kind with
  | object record =>
      obtain ⟨record', hbound, -, hfields⟩ := t.boundKind_of_object settings
        (d := ⟨name, description, .object record⟩) rfl
      rw [hbound]
      cases target with
      | pydantic => rfl
      | zod =>
          have hpatterns : (⟨name, description, .object record'⟩ : Definition).patterns =
              (⟨name, description, .object record⟩ : Definition).patterns := by
            simp only [Definition.patterns, Definition.properties, hfields, List.map_map,
              List.flatMap_map, List.filterMap_flatMap]
            exact List.flatMap_congr fun f _ => patterns_boundField f.2
          exact congrArg (name :: (settings.described description).toList.flatMap documentedOf ++ ·)
            hpatterns
  | _ =>
      have hkind : ∀ kind, t.bindKind ⟨name, description, kind⟩ = kind →
          t.boundKind settings ⟨name, description, kind⟩ = kind := fun kind h => by
        unfold Table.boundKind
        split
        · exact h
        · rfl
      rw [hkind _ rfl]

/-- The strings that a declared definition copies are among those that the unit copies. -/
theorem allClean_copied {target : Target} (h : AllClean (t.copied target settings))
    {d : Definition} (hd : d ∈ (t.bound settings).definitions) :
    AllClean (target.copied settings d) := by
  have hget : (t.bound settings).get? d.name = some d := Table.get?_eq_some_iff.mpr ⟨hd, rfl⟩
  rw [Table.get?_bound] at hget
  obtain ⟨e, he, rfl⟩ := Option.map_eq_some_iff.mp hget
  rw [copied_boundKind]
  exact fun x hx => h x (List.mem_append_right _
    (List.mem_flatMap.mpr ⟨e, (Table.get?_eq_some_iff.mp he).1, hx⟩))

end bound

/-! ### Blocks -/

namespace GeneratedUnit

variable {target : Target} {settings : Settings}

/-- A declaration has a clean name and clean code, and uses what models use of other modules. -/
structure CleanDeclaration (settings : Settings) (d : Declaration) : Prop where
  name : Clean d.name.toList
  code : Clean d.code.toList
  imports : d.imports ⊆ Model.allConstructs settings

theorem clean_sectionBlocks (target : Target) : ∀ {current : Option Section}
    {ds : List Declaration}, (∀ d ∈ ds, CleanDeclaration settings d) →
      AllClean (sectionBlocks target.backend.banner current ds)
  | _, [], _ => .nil
  | current, d :: rest, h => by
      obtain ⟨hd, hrest⟩ := List.forall_mem_cons.mp h
      have hbanner : Clean (target.backend.banner d.category.title).toList := by
        cases target <;> exact clean_bannerOf (by decide) (clean_title d.category)
      rw [sectionBlocks]
      refine AllClean.append ?_ (.cons hd.code (clean_sectionBlocks target hrest))
      split
      · exact .nil
      · exact .cons hbanner .nil

theorem clean_resolutionBlocks {plan : Plan} (h : ∀ p ∈ plan, Clean p.name.toList) :
    AllClean (resolutionBlocks target.backend plan) := by
  unfold resolutionBlocks
  split
  · rename_i code hcode
    cases target with
    | pydantic =>
        exact .cons (clean_bannerOf (by decide) (by decide))
          (.cons (Model.clean_resolution h hcode) .nil)
    | zod => cases hcode
  · exact .nil

/-- The blocks of a unit are clean if its declarations are and what it copies of the root. -/
theorem clean_blocks {t : Table} {plan : Plan} {ds : List Declaration} {root : Declaration}
    (hheader : AllClean (target.copiedHeader t.root))
    (hplan : ∀ p ∈ plan, Clean p.name.toList) (hds : ∀ d ∈ ds, CleanDeclaration settings d)
    (hroot : CleanDeclaration settings root) :
    AllClean (blocks target.backend settings t plan ds root) := by
  have hall : ∀ d ∈ ds ++ [root], CleanDeclaration settings d :=
    List.forall_mem_append.mpr ⟨hds, List.forall_mem_singleton.mpr hroot⟩
  have himports : (ds ++ [root]).flatMap Declaration.imports ⊆ Model.allConstructs settings :=
    fun i hi => by
      obtain ⟨d, hd, hi⟩ := List.mem_flatMap.mp hi
      exact (hall d hd).imports hi
  have hexports : ∀ e ∈ (ds ++ [root]).map Declaration.export_, Clean e.1.toList :=
    List.forall_mem_map.mpr fun d hd => (hall d hd).name
  have hpreamble : Clean (target.backend.preamble settings t.root
      ((ds ++ [root]).flatMap Declaration.imports)).toList := by
    cases target with
    | pydantic => exact Model.clean_preamble himports hheader
    | zod => exact Validator.clean_preamble ((ds ++ [root]).flatMap Declaration.imports) hheader
  have hpostamble : Clean (target.backend.postamble settings
      ((ds ++ [root]).map Declaration.export_)).toList := by
    cases target with
    | pydantic => exact Model.clean_postamble settings hexports
    | zod => exact Validator.clean_postamble settings hexports
  exact .cons hpreamble (AllClean.append (AllClean.append (AllClean.append
    (clean_sectionBlocks target hds) (clean_resolutionBlocks hplan))
    (clean_sectionBlocks target (List.forall_mem_singleton.mpr hroot))) (.cons hpostamble .nil))

theorem clean_declaration {t : Table} {plan : Plan} {p : Planned} {d : Definition}
    {decl : Declaration} (hname : Clean p.name.toList) (h : AllClean (target.copied settings d))
    (hmentions : AllClean d.mentions)
    (hdecl : target.backend.declaration settings t plan p d = .ok decl) :
    CleanDeclaration settings decl := by
  have hcode : Clean decl.code.toList ∧ decl.imports ⊆ Model.allConstructs settings := by
    cases target with
    | pydantic => exact Model.clean_declaration plan h hmentions hdecl
    | zod =>
        refine ⟨Validator.clean_declaration h hmentions hdecl, ?_⟩
        obtain ⟨-, -, rfl⟩ := Validator.declaration_eq_ok_iff.mp hdecl
        exact List.nil_subset _
  obtain rfl := Target.outline_of_declaration hdecl
  exact ⟨hname, hcode.1, hcode.2⟩

theorem clean_schemaType (target : Target) {t : Table} (h : t.root.IsClean settings) :
    CleanDeclaration settings (target.backend.schemaType settings t) := by
  cases target with
  | pydantic =>
      refine ⟨h.name, Model.clean_schemaType h, ?_⟩
      show [Model.pydantic "BaseModel"] ⊆ Model.allConstructs settings
      exact List.Subset.trans (by decide) (List.subset_append_right _ Model.constructs)
  | zod => exact ⟨h.name, Validator.clean_schemaType h, List.nil_subset _⟩

section ofTable
variable {t : Table} {u : GeneratedUnit} (hcopied : AllClean (t.copied target settings))
include hcopied

theorem clean_names : AllClean (t.bound settings).names := by
  rw [t.names_bound settings]
  refine List.forall_mem_map.mpr fun d hd => hcopied d.name (List.mem_append_right _ ?_)
  refine List.mem_flatMap.mpr ⟨d, hd, ?_⟩
  cases target <;> exact List.mem_cons_self

/-- All that a table refers to are definitions, so the names of definitions and of the root, the
descriptions, and for each target some strings more are all that a unit copies. -/
theorem clean_blocks_ofTable (h : ofTable target.backend settings t = .ok u)
    {ds : List Declaration} (hds : declare target.backend (target.backend.settle settings)
      (t.bound settings) u.plan = .ok ds) :
    AllClean (blocks target.backend (target.backend.settle settings) (t.bound settings) u.plan ds
      (target.backend.schemaType (target.backend.settle settings) (t.bound settings))) := by
  obtain ⟨hresolved, ⟨hmetadata, hroot⟩, -⟩ := Table.planWith_eq_ok_iff.mp (exists_declare h).1
  have hnames := clean_names hcopied
  have hplanned : ∀ p ∈ u.plan, Clean p.name.toList := fun p hp =>
    hnames p.name ((perm_names h).subset (List.mem_map_of_mem hp))
  obtain ⟨hparts, -⟩ := List.forall_mem_append.mp hcopied
  obtain ⟨hhead, hdocs⟩ := List.forall_mem_append.mp hparts
  obtain ⟨hname, hheader⟩ := List.forall_mem_cons.mp hhead
  rw [← t.root_bound settings] at hname hheader hdocs
  refine clean_blocks hheader hplanned (fun decl hdecl => ?_)
    (clean_schemaType target ⟨hname, hdocs, hnames _ hmetadata, hnames _ hroot⟩)
  have hall := forall₂_declare h hds
  obtain ⟨i, hi, rfl⟩ := List.getElem_of_mem hdecl
  obtain ⟨d, hd, hcode⟩ := hall.get (hall.length_eq ▸ hi) hi
  obtain ⟨hmem, -⟩ := Table.get?_eq_some_iff.mp hd
  have hstrings : AllClean (target.copied (target.backend.settle settings) d) := by
    cases target <;> exact allClean_copied hcopied hmem
  exact clean_declaration (hplanned _ (List.getElem_mem _)) hstrings
    (fun n hn => hnames n (hresolved d hmem n hn)) hcode

end ofTable

end GeneratedUnit

end SchemaModels
