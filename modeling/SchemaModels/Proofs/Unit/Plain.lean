import SchemaModels.Proofs.Model.PlainCode
import SchemaModels.Proofs.Unit.Blocks

/-!
# Keywords in units of models

A unit of models whose models do not refuse other fields has no keyword of the repairs that is in
none of the strings of its table: its declarations have none, nor have the header, the banners, the
statements after the declarations and the export list.

* `plain_joinBlocks`: the text of plain blocks is plain.
* `plain_blocks`: the blocks of a unit of models.
* `repairText_ofTable`: repairs return such a unit as it is.
-/

namespace SchemaModels

open Text Repair

namespace Model

/-! ### The top-level type -/

theorem all_isInner_indentOf (settings : Settings) :
    (indentOf settings).toList.all isInner = true := by
  unfold indentOf
  cases settings.indent.getD .four <;> decide

theorem plain_described {settings : Settings} {description : Option String}
    (h : AllPlain description.toList) : AllPlain (settings.described description).toList := by
  unfold Settings.described
  split
  · exact h
  · exact List.forall_mem_nil _

theorem plain_descriptionText {root : Root} (h : AllPlain root.strings) :
    Plain root.descriptionText.toList := by
  unfold Root.descriptionText
  cases hd : root.description with
  | none =>
      show Plain defaultRootDescription.toList
      decide +kernel
  | some text => exact h text (by simp [Root.strings, hd])

theorem plain_toJsonLines {indent : String} (hindent : indent.toList.all isInner = true)
    (t : Table) : AllPlain (toJsonLines indent t) := by
  have harguments : Plain (dumpArguments t).toList := by
    unfold dumpArguments
    split <;> decide +kernel
  refine AllPlain.cons_iff.mpr ⟨(plain_prepend hindent).mpr (by decide +kernel),
    AllPlain.cons_iff.mpr ⟨?_, AllPlain.cons_iff.mpr ⟨?_, List.forall_mem_nil _⟩⟩⟩
  · rw [String.append_assoc, plain_prepend hindent, plain_prepend hindent]
    decide +kernel
  · rw [plain_append (by decide), String.append_assoc, String.append_assoc, plain_prepend hindent,
      plain_prepend hindent]
    exact (plain_prepend (by decide +kernel)).mpr harguments

theorem plain_schemaType_code (settings : Settings) {t : Table} (h : AllPlain t.root.strings) :
    Plain (schemaType settings t).code.toList := by
  have hindent := all_isInner_indentOf settings
  have hstring : ∀ x ∈ [t.root.name, t.root.metadataType, t.root.rootType], Plain x.toList :=
    fun x hx => h x (List.mem_append_left _ (List.mem_append_left _ hx))
  refine plain_classText hindent ((plain_enclose (by decide) (by decide +kernel)).mpr
    (hstring _ (by simp))) (AllPlain.append_iff.mpr ⟨AllPlain.append_iff.mpr ⟨?_, ?_⟩, ?_⟩)
  · refine plain_docstrings hindent (plain_described ?_)
    exact AllPlain.cons_iff.mpr ⟨plain_descriptionText h, List.forall_mem_nil _⟩
  · refine plain_blockOf hindent (AllPlain.cons_iff.mpr ⟨?_, AllPlain.cons_iff.mpr
      ⟨?_, List.forall_mem_nil _⟩⟩)
    · exact (plain_prepend (by decide +kernel)).mpr (hstring _ (by simp))
    · exact (plain_prepend (by decide)).mpr (hstring _ (by simp))
  · exact AllPlain.cons_iff.mpr
      ⟨plain_intercalate (by decide) (plain_toJsonLines hindent t), List.forall_mem_nil _⟩

/-! ### What stands around declarations -/

theorem plain_banner {title : String} (h : Plain title.toList) : Plain (banner title).toList := by
  have hrule : ("#" ++ " " ++ String.ofList (List.replicate bannerWidth '=')).toList.all isInner =
      true := by
    decide +kernel
  have hline : ("\n" ++ "#" ++ " ").toList.all isInner = true := by decide
  show Plain (("#" ++ " " ++ String.ofList (List.replicate bannerWidth '=')) ++ "\n" ++ "#" ++
    " " ++ title ++ "\n" ++ ("#" ++ " " ++ String.ofList (List.replicate bannerWidth '='))).toList
  rw [plain_join (by decide)]
  refine ⟨?_, plain_of_all hrule⟩
  rw [plain_join (by decide), plain_append (by decide), plain_append (by decide)]
  exact ⟨plain_of_all hrule, h⟩

theorem plain_title (s : Section) : Plain s.title.toList := by
  cases s <;> decide +kernel

theorem plain_resolution {plan : Plan} (h : ∀ p ∈ plan, Plain p.name.toList) {code : String}
    (hcode : resolution plan = some code) : Plain code.toList := by
  unfold resolution at hcode
  dsimp only at hcode
  split at hcode
  · cases hcode
  · obtain rfl := Option.some.inj hcode
    refine plain_intercalate (by decide) (List.forall_mem_map.mpr fun p hp => ?_)
    exact (plain_append (by decide +kernel)).mpr (h p (List.mem_filter.mp hp).1)

theorem plain_importStatements {imports : Imports} (h : imports ⊆ constructs) :
    AllPlain (importStatements imports) := by
  have horder : ∀ m ∈ importOrder, Plain m.toList := by decide +kernel
  have hconstructs : ∀ i ∈ constructs, Plain i.source.toList ∧ Plain i.name.toList := by
    decide +kernel
  intro x hx
  obtain ⟨source, hsource, hnames, rfl⟩ := exists_of_mem_importStatements hx
  have hplain : Plain source.toList := by
    rcases hsource with hm | ⟨i, hi, rfl⟩
    · exact horder source hm
    · exact (hconstructs i (h hi)).1
  have hall : AllPlain (imports.names source) := by
    intro n hn
    obtain ⟨i, hi, rfl⟩ := hnames n hn
    exact (hconstructs i (h hi)).2
  rw [plain_join (by decide +kernel), plain_prepend (by decide)]
  exact ⟨hplain, plain_intercalate (by decide) hall⟩

/-- The description in a header ends with a break. -/
theorem plain_headerDescription {root : Root} (h : AllPlain root.strings) {rest : String}
    (hrest : Plain rest.toList) :
    Plain ((root.description.map headerDescription).getD "" ++ rest).toList := by
  cases hd : root.description with
  | none => exact (plain_prepend rfl).mpr hrest
  | some text =>
      show Plain (String.ofList (escapeDoc text.toList) ++ "\n\n" ++ rest).toList
      rw [plain_join (by decide), String.toList_ofList]
      exact ⟨plain_escapeDoc (h text (by simp [Root.strings, hd])), hrest⟩

theorem plain_versionFor {settings : Settings} (hversion : AllPlain settings.version.toList)
    {root : Root} (h : AllPlain root.strings) : Plain (settings.versionFor root).toList := by
  unfold Settings.versionFor
  cases hs : settings.version with
  | some v => exact hversion v (by simp [hs])
  | none =>
      cases hr : root.version with
      | some v => exact h v (by simp [Root.strings, hr])
      | none =>
          show Plain Settings.defaultVersion.toList
          decide

theorem plain_preamble {settings : Settings} {root : Root}
    (hversion : AllPlain settings.version.toList) (h : AllPlain root.strings) {imports : Imports}
    (himports : imports ⊆ constructs) : Plain (preamble settings root imports).toList := by
  have hstatements := plain_importStatements himports
  have hnotice : (String.intercalate "\n" generatedNotice).toList.all isInner = true := by
    decide +kernel
  unfold preamble
  dsimp only
  simp only [String.append_assoc]
  rw [plain_prepend (by decide)]
  refine plain_headerDescription h ?_
  rw [plain_prepend hnotice, plain_prepend (by decide), plain_prepend (by decide +kernel),
    ← String.append_assoc, plain_join (by decide)]
  refine ⟨plain_quoted (plain_versionFor hversion h), ?_⟩
  split
  · exact plain_nil
  · rw [plain_prepend (by decide), plain_append (by decide)]
    exact plain_intercalate (by decide) hstatements

theorem plain_exportLines {heading entry : String → String} {exports : List Export}
    (hheading : ∀ g ∈ exportGroups, Plain (heading g.2).toList)
    (hentry : ∀ e ∈ exports, Plain (entry e.1).toList) :
    AllPlain (exportLines heading entry exports) := by
  intro x hx
  rcases mem_exportLines hx with rfl | ⟨g, hg, rfl⟩ | ⟨e, he, rfl⟩
  · exact plain_nil
  · exact hheading g hg
  · exact hentry e he

theorem plain_postamble (settings : Settings) {exports : List Export}
    (h : ∀ e ∈ exports, Plain e.1.toList) : Plain (postamble settings exports).toList := by
  have hindent := all_isInner_indentOf settings
  have hlines : AllPlain (exportLines (indentOf settings ++ "# " ++ ·)
      (fun name => indentOf settings ++ "\"" ++ name ++ "\",") exports) :=
    plain_exportLines (fun g hg => ?_) fun e he => ?_
  · refine (plain_join (by decide)).mpr ⟨plain_banner (by decide +kernel), ?_⟩
    split
    · decide +kernel
    · exact (plain_enclose (by decide +kernel) (by decide)).mpr
        (plain_intercalate (by decide) hlines)
  · have htitles : ∀ g ∈ exportGroups, Plain g.2.toList := by decide +kernel
    exact (plain_join (by decide)).mpr ⟨plain_of_all hindent, htitles g hg⟩
  · rw [plain_append (by decide), plain_join (by decide)]
    exact ⟨plain_of_all hindent, h e he⟩

end Model

/-! ### Blocks -/

namespace GeneratedUnit

/-- No keyword stands in a declaration, nor in what it uses of other modules. -/
structure PlainDeclaration (d : Declaration) : Prop where
  name : Plain d.name.toList
  code : Plain d.code.toList
  imports : d.imports ⊆ Model.constructs

theorem plain_sectionBlocks : ∀ {current : Option Section} {ds : List Declaration},
    (∀ d ∈ ds, PlainDeclaration d) → AllPlain (sectionBlocks Model.banner current ds)
  | _, [], _ => List.forall_mem_nil _
  | current, d :: rest, h => by
      obtain ⟨hd, hrest⟩ := List.forall_mem_cons.mp h
      rw [sectionBlocks]
      refine AllPlain.append_iff.mpr
        ⟨?_, AllPlain.cons_iff.mpr ⟨hd.code, plain_sectionBlocks hrest⟩⟩
      split
      · exact List.forall_mem_nil _
      · exact AllPlain.cons_iff.mpr
          ⟨Model.plain_banner (Model.plain_title d.category), List.forall_mem_nil _⟩

theorem plain_schemaType (settings : Settings) {t : Table} (h : AllPlain t.root.strings) :
    PlainDeclaration (Model.schemaType settings t) where
  name := h t.root.name List.mem_cons_self
  code := Model.plain_schemaType_code settings h
  imports := by
    show [Model.pydantic "BaseModel"] ⊆ Model.constructs
    decide

theorem plain_blocks {settings : Settings} {t : Table} {plan : Plan} {ds : List Declaration}
    {root : Declaration} (hversion : AllPlain settings.version.toList)
    (hstrings : AllPlain t.root.strings) (hplan : ∀ p ∈ plan, Plain p.name.toList)
    (hds : ∀ d ∈ ds, PlainDeclaration d) (hroot : PlainDeclaration root) :
    AllPlain (blocks Model.backend settings t plan ds root) := by
  have hall : ∀ d ∈ ds ++ [root], PlainDeclaration d := by
    intro d hd
    rcases List.mem_append.mp hd with hd | hd
    · exact hds d hd
    · exact List.mem_singleton.mp hd ▸ hroot
  have himports : (ds ++ [root]).flatMap Declaration.imports ⊆ Model.constructs := fun i hi => by
    obtain ⟨d, hd, hi⟩ := List.mem_flatMap.mp hi
    exact (hall d hd).imports hi
  have hexports : ∀ e ∈ (ds ++ [root]).map Declaration.export_, Plain e.1.toList :=
    List.forall_mem_map.mpr fun d hd => (hall d hd).name
  have hresolution : AllPlain (resolutionBlocks Model.backend plan) := by
    unfold resolutionBlocks
    split
    · rename_i code hcode
      exact AllPlain.cons_iff.mpr ⟨Model.plain_banner (by decide +kernel),
        AllPlain.cons_iff.mpr ⟨Model.plain_resolution hplan hcode, List.forall_mem_nil _⟩⟩
    · exact List.forall_mem_nil _
  refine AllPlain.cons_iff.mpr ⟨Model.plain_preamble hversion hstrings himports, ?_⟩
  refine AllPlain.append_iff.mpr ⟨AllPlain.append_iff.mpr ⟨AllPlain.append_iff.mpr
    ⟨plain_sectionBlocks hds, hresolution⟩, ?_⟩, ?_⟩
  · exact plain_sectionBlocks (List.forall_mem_singleton.mpr hroot)
  · exact AllPlain.cons_iff.mpr ⟨Model.plain_postamble settings hexports, List.forall_mem_nil _⟩

theorem plain_trimBlock {block : String} (h : Plain block.toList) :
    Plain (trimBlock block).toList := by
  rw [trimBlock, String.toList_ofList]
  exact h.of_isInfix (dropTrailing_isPrefix _ _).isInfix

/-- The text of plain blocks, in either line ending. -/
theorem plain_joinBlocks {separator : String} (hs : isBreaking separator.toList = true)
    (ending : LineEnding) {blocks : List String} (h : AllPlain blocks) :
    Plain (joinBlocks separator ending blocks).toList := by
  have hshown : AllPlain ((blocks.map trimBlock).filter fun b => !b.isEmpty) := by
    intro x hx
    obtain ⟨b, hb, rfl⟩ := List.mem_map.mp (List.mem_filter.mp hx).1
    exact plain_trimBlock (h b hb)
  have hcontent := (plain_append (b := "\n") (by decide)).mpr (plain_intercalate hs hshown)
  cases ending with
  | lf => exact hcontent
  | crlf =>
      show Plain (String.ofList _).toList
      rw [String.toList_ofList]
      refine (Edited.flatMap (fun c => ?_) _).plain hcontent
      split
      · exact .inr (by decide)
      · exact .inl rfl

/-- A declaration of a unit of models is that of a definition of the table. -/
theorem exists_body_of_mem {settings : Settings} {t : Table} {u : GeneratedUnit}
    (h : ofTable Model.backend settings t = .ok u) {ds : List Declaration}
    (hds : declare Model.backend (Model.backend.settle settings) (t.bound settings) u.plan = .ok ds)
    {decl : Declaration} (hdecl : decl ∈ ds) :
    ∃ p d body, d ∈ (t.bound settings).definitions ∧ p.name = d.name ∧
      Model.Body.ofDefinition (Model.backend.settle settings) (t.bound settings) p.isForward d =
        .ok body ∧
      decl = .ofPlanned p (body.text (Model.indentOf (Model.backend.settle settings)) d.name
        ((Model.backend.settle settings).described d.description)) body.imports := by
  have hall := forall₂_declare h hds
  obtain ⟨i, hi, rfl⟩ := List.getElem_of_mem hdecl
  obtain ⟨d, hd, hcode⟩ := hall.get (hall.length_eq ▸ hi) hi
  obtain ⟨body, hbody, hdecl⟩ := (Model.declaration_eq_ok_iff u.plan).mp hcode
  obtain ⟨hmem, hname⟩ := Table.get?_eq_some_iff.mp hd
  exact ⟨_, d, body, hmem, hname.symm, hbody, hdecl⟩

section ofTable
variable {settings : Settings} {t : Table} {u : GeneratedUnit}
  (hforbid : settings.forbidExtra = false)
  (hstrings : AllPlain (settings.version.toList ++ t.strings))
  (h : ofTable Model.backend settings t = .ok u)

include hstrings in
theorem plain_bound : AllPlain (t.bound settings).strings := by
  refine (AllPlain.append_iff.mp hstrings).2.of_subset fun s hs => ?_
  unfold Table.bound at hs
  split at hs
  · exact Table.mem_strings_bindRecords hs
  · exact hs

include hstrings in
theorem plain_definition {d : Definition} (hd : d ∈ (t.bound settings).definitions) :
    AllPlain d.strings := fun x hx =>
  (AllPlain.append_iff.mp (plain_bound hstrings)).2 x (List.mem_flatMap.mpr ⟨d, hd, hx⟩)

include hforbid hstrings h in
theorem plain_declare {ds : List Declaration}
    (hds : declare Model.backend (Model.backend.settle settings) (t.bound settings) u.plan = .ok ds)
    {decl : Declaration} (hdecl : decl ∈ ds) : PlainDeclaration decl := by
  obtain ⟨p, d, body, hd, hname, hbody, rfl⟩ := exists_body_of_mem h hds hdecl
  have hd := plain_definition hstrings hd
  obtain ⟨hplain, hrest⟩ := AllPlain.cons_iff.mp hd
  have hforbids : (Model.backend.settle settings).forbidExtra = false := hforbid
  refine ⟨?_, ?_, Model.imports_ofDefinition hforbids hbody⟩
  · show Plain p.name.toList
    rwa [hname]
  · exact Model.plain_ofDefinition hforbids hd hbody (Model.all_isInner_indentOf _)
      (Model.plain_described (AllPlain.append_iff.mp hrest).1)

include hstrings h in
theorem plain_planned {p : Planned} (hp : p ∈ u.plan) : Plain p.name.toList := by
  obtain ⟨d, hd, _⟩ := exists_get? h hp
  obtain ⟨hmem, hname⟩ := Table.get?_eq_some_iff.mp hd
  exact hname ▸ (AllPlain.cons_iff.mp (plain_definition hstrings hmem)).1

include hforbid hstrings h in
/-- No keyword stands in a unit of models that is in none of the strings of its table. -/
theorem plain_content : Plain u.content.toList := by
  obtain ⟨_, ds, hds, _, hcontent⟩ := exists_declare h
  have hroot := (AllPlain.append_iff.mp (plain_bound hstrings)).1
  rw [hcontent]
  have hversion : AllPlain (Model.backend.settle settings).version.toList :=
    (AllPlain.append_iff.mp hstrings).1
  exact plain_joinBlocks (by decide) settings.lineEnding
    (plain_blocks hversion hroot (fun p hp => plain_planned hstrings h hp)
      (fun decl hdecl => plain_declare hforbid hstrings h hds hdecl)
      (plain_schemaType (Model.backend.settle settings) hroot))

include hforbid hstrings h in
/-- A unit of models that do not refuse other fields is returned by every repair as it is, if no
string of its table has a keyword. -/
theorem repairText_ofTable {groups : List Group} (hg : ∀ g ∈ groups, g.members.isEmpty = false) :
    repairText groups u.content = .ok (u.content, ⟨0, [], groups.map Group.name, false⟩) := by
  rw [repairText, (plain_content hforbid hstrings h).repair_eq hg]
  show Except.ok (String.ofList u.content.toList, _) = _
  rw [String.ofList_toList]

end ofTable

theorem repairText_ofTable_cards :
    ∃ u, ofTable Model.backend {} Table.cards = .ok u ∧
      repairText Group.defaults u.content =
        .ok (u.content, ⟨0, [], ["EventAction", "Node"], false⟩) := by
  have hunit : ofTable Model.backend {} Table.cards = .ok _ := rfl
  have hstrings : AllPlain ((none : Option String).toList ++ Table.cards.strings) := by
    unfold AllPlain
    decide +kernel
  exact ⟨_, hunit, repairText_ofTable rfl hstrings hunit (by decide)⟩

end GeneratedUnit

end SchemaModels
