import SchemaModels.Proofs.Model.Member
import SchemaModels.Proofs.Model.Plain

/-!
# Keywords in declarations of models

The code of a declaration has no keyword that is in none of the strings of its definition, unless it
refuses other fields, and it uses few constructs of other modules.

* `plain_ofSpec`, `plain_boundArguments`, `plain_ofSpec_field`: types, arguments and fields.
* `plain_ofDefinition`: declarations.
* `imports_ofDefinition`: the constructs that a declaration uses.
* `exists_of_mem_importStatements`: the statements that import them.
-/

namespace SchemaModels.Model

open Text Repair

/-! ### Types -/

namespace TypeExpr

theorem plain_toOptional {t : TypeExpr} (h : Plain t.text.toList) :
    Plain t.toOptional.text.toList := by
  unfold toOptional
  split
  · exact h
  · exact h
  · show Plain ("Optional[" ++ t.text ++ "]").toList
    exact (plain_enclose (by decide +kernel) (by decide)).mpr h

theorem plain_orNone {nullable : Bool} {t : TypeExpr} (h : Plain t.text.toList) :
    Plain (orNone nullable t).text.toList := by
  unfold orNone
  split
  · exact plain_toOptional h
  · exact h

theorem plain_union {members : List TypeExpr} (h : AllPlain (texts members)) :
    Plain (union members).text.toList := by
  show Plain ("Union[" ++ String.intercalate ", " (texts members) ++ "]").toList
  rw [plain_enclose (by decide +kernel) (by decide)]
  exact plain_intercalate (by decide) h

theorem plain_tagged {members : List TypeExpr} {field : String} (h : AllPlain (texts members))
    (hf : Plain field.toList) : Plain (tagged members field).text.toList := by
  show Plain ("Annotated[Union[" ++ String.intercalate ", " (texts members) ++
    "], Field(discriminator=" ++ quoted field ++ ")]").toList
  rw [plain_append (by decide), plain_join (by decide +kernel), plain_prepend (by decide +kernel)]
  exact ⟨plain_intercalate (by decide) h, plain_quoted hf⟩

theorem plain_ofMembers {members : List TypeExpr} {discriminator : Option String}
    (h : AllPlain (texts members)) (hd : AllPlain discriminator.toList) :
    Plain (ofMembers members discriminator).text.toList := by
  unfold ofMembers
  split
  · exact plain_of_all (by decide)
  · exact h _ List.mem_cons_self
  · split
    · exact plain_tagged h (hd _ (List.mem_singleton_self _))
    · exact plain_union h
  · exact plain_union h

variable (isForward : String → Bool)

theorem plain_ofReference {n : String} (h : Plain n.toList) :
    Plain (ofReference isForward n).text.toList := by
  unfold ofReference
  split
  · show Plain ("\"" ++ n ++ "\"").toList
    exact (plain_enclose (by decide) (by decide)).mpr h
  · exact h

theorem plain_literal_type {values : List Json} (h : AllPlain (Json.stringsItems values)) :
    Plain (literal values).text.toList := by
  show Plain ("Literal[" ++ String.intercalate ", " (values.map Model.literal) ++ "]").toList
  rw [plain_enclose (by decide +kernel) (by decide), ← literals_eq_map]
  exact plain_intercalate (by decide) (plain_literals values h)

mutual

theorem plain_ofShape : ∀ shape : Shape, AllPlain shape.strings →
    Plain (ofShape isForward shape).text.toList
  | .primitive kind, _ => by
      show Plain (builtinName kind).toList
      cases kind <;> exact plain_of_all (by decide)
  | .literal values, h => plain_literal_type h
  | .const value, h => plain_literal_type (AllPlain.append_iff.mpr ⟨h, List.forall_mem_nil _⟩)
  | .array item, h => by
      show Plain ("List[" ++ (ofSpec isForward item).text ++ "]").toList
      exact (plain_enclose (by decide +kernel) (by decide)).mpr (plain_ofSpec item h)
  | .tuple items, h => by
      show Plain (if (ofSpecs isForward items).isEmpty then "Tuple[()]"
        else "Tuple[" ++ String.intercalate ", " (texts (ofSpecs isForward items)) ++ "]").toList
      split
      · exact plain_of_all (by decide +kernel)
      · rw [plain_enclose (by decide +kernel) (by decide)]
        exact plain_intercalate (by decide) (plain_ofSpecs items h)
  | .map none, _ => by
      show Plain (dict any).text.toList
      exact plain_of_all (by decide +kernel)
  | .map (some value), h => by
      show Plain ("Dict[str, " ++ (ofSpec isForward value).text ++ "]").toList
      exact (plain_enclose (by decide +kernel) (by decide)).mpr (plain_ofSpec value h)
  | .reference n, h => plain_ofReference isForward (h n (List.mem_singleton_self n))
  | .union members discriminator, h => by
      obtain ⟨hmembers, hd⟩ := AllPlain.append_iff.mp h
      exact plain_ofMembers (plain_ofSpecs members hmembers) hd
  | .any, _ => by
      show Plain any.text.toList
      exact plain_of_all (by decide)

/-- The type of a specification has the strings of the specification. -/
theorem plain_ofSpec : ∀ s : Spec, AllPlain s.strings →
    Plain (ofSpec isForward s).text.toList
  | ⟨shape, _, _, _, _⟩, h =>
      plain_orNone (plain_ofShape shape fun x hx => h x (by simp [Spec.strings, hx]))

theorem plain_ofSpecs : ∀ ss : List Spec, AllPlain (Spec.stringsAll ss) →
    AllPlain (texts (ofSpecs isForward ss))
  | [], h => h
  | s :: rest, h => by
      obtain ⟨hs, hrest⟩ := AllPlain.append_iff.mp h
      exact AllPlain.cons_iff.mpr ⟨plain_ofSpec s hs, plain_ofSpecs rest hrest⟩

end

end TypeExpr

/-! ### Fields -/

/-- Only the pattern among the bounds has a string. -/
theorem plain_boundArguments {s : Spec} (h : AllPlain s.bounds.pattern.toList) {a : Argument}
    (ha : a ∈ boundArguments s) : Plain a.text.toList := by
  unfold boundArguments at ha
  simp only [List.mem_append, mem_optionally] at ha
  rcases ha with (((((⟨n, _, rfl⟩ | ⟨n, _, rfl⟩) | ⟨n, _, rfl⟩) | ⟨n, _, rfl⟩) | ⟨n, _, rfl⟩) |
    ⟨n, _, rfl⟩) | ⟨source, hs, rfl⟩
  all_goals rw [Argument.text, plain_prepend (by decide +kernel)]
  · exact plain_countText n
  · exact plain_countText n
  · exact plain_numberText n
  · exact plain_numberText n
  · exact plain_numberText n
  · exact plain_numberText n
  · exact plain_pattern (h source (by rw [hs]; exact List.mem_singleton_self source))

theorem pattern_subset_strings (s : Spec) : ∀ x ∈ s.bounds.pattern.toList, x ∈ s.strings := by
  obtain ⟨shape, bounds, default, nullable, description⟩ := s
  intro x hx
  simp only [Spec.strings, List.mem_append]
  exact .inl (.inl (.inr hx))

theorem plain_statedDefault {t : Table} {s : Spec} {value : Json} (hs : AllPlain s.shape.strings)
    (hv : AllPlain value.strings) : Plain (statedDefault t s value).text.toList := by
  unfold statedDefault
  split
  · rename_i target v htarget
    split
    · rw [htarget] at hs
      rw [DefaultExpr.text, plain_join (by decide)]
      exact ⟨hs target (List.mem_singleton_self target), plain_memberName v⟩
    · exact plain_literal _ hv
  · exact plain_literal _ hv

theorem plain_impliedDefault {t : Table} {required : Bool} {s : Spec} (h : AllPlain s.strings)
    {d : DefaultExpr} (hd : impliedDefault t required s = some d) : Plain d.text.toList := by
  obtain ⟨shape, bounds, default, nullable, description⟩ := s
  simp only [Spec.strings, AllPlain.append_iff] at h
  obtain ⟨⟨⟨hshape, _⟩, hdefault⟩, _⟩ := h
  unfold impliedDefault at hd
  split at hd
  · rename_i value hvalue
    obtain rfl := Option.some.inj hd
    obtain rfl : default = some value := hvalue
    exact plain_statedDefault hshape hdefault
  · rename_i value _ hconst
    obtain rfl : shape = .const value := hconst
    split at hd
    · cases hd
    · obtain rfl := Option.some.inj hd
      exact plain_literal _ hshape
  · cases hd

theorem plain_annotated {type : TypeExpr} {arguments : List String}
    (ht : Plain type.text.toList) (ha : AllPlain arguments) :
    Plain (annotated type arguments).toList := by
  rw [annotated, plain_append (by decide), plain_join (by decide +kernel),
    plain_prepend (by decide +kernel)]
  exact ⟨ht, plain_intercalate (by decide) ha⟩

theorem plain_fieldText {f : Field} (hattr : Plain f.attr.toList) (htype : Plain f.type.text.toList)
    (ha : ∀ a ∈ f.arguments, Plain a.text.toList)
    (hd : ∀ d, f.default = some d → Plain d.text.toList) : Plain f.text.toList := by
  have hname : Plain (f.attr ++ ": " ++ f.type.text).toList :=
    (plain_join (by decide)).mpr ⟨hattr, htype⟩
  unfold Field.text
  split
  · cases hdefault : f.default with
    | none =>
        dsimp only
        rwa [String.append_empty]
    | some d =>
        dsimp only
        rw [← String.append_assoc, plain_join (by decide)]
        exact ⟨hname, hd d hdefault⟩
  · rw [plain_join (by decide)]
    refine ⟨hattr, plain_annotated htype (AllPlain.append_iff.mpr ⟨?_, ?_⟩)⟩
    · exact List.forall_mem_map.mpr ha
    · intro x hx
      obtain ⟨d, hdefault, rfl⟩ := mem_optionally.mp hx
      exact (plain_prepend (by decide +kernel)).mpr (hd d hdefault)

/-- The line of a field has the field's name, normalized, and the strings of its specification. -/
theorem plain_ofSpec_field {isForward : String → Bool} {t : Table} {name : String}
    (required : Bool) {s : Spec} (hname : Plain name.toList) (h : AllPlain s.strings) :
    Plain (Field.ofSpec isForward t (Attribute.ofField name) required s).text.toList := by
  have htype := TypeExpr.plain_ofSpec isForward s h
  refine plain_fieldText (plain_attributeName hname) ?_ (fun a ha => ?_) fun d hd => ?_
  · show Plain (if _ then TypeExpr.ofSpec isForward s
      else (TypeExpr.ofSpec isForward s).toOptional).text.toList
    split
    · exact htype
    · exact TypeExpr.plain_toOptional htype
  · rcases List.mem_append.mp ha with ha | ha
    · have hbounds : a ∈ boundArguments s := by
        split at ha
        · cases ha
        · exact ha
      exact plain_boundArguments (h.of_subset (pattern_subset_strings s)) hbounds
    · obtain ⟨n, hn, rfl⟩ := mem_optionally.mp ha
      have hn' : n = name := by
        simp only [Attribute.ofField] at hn
        split at hn
        · cases hn
        · exact (Option.some.inj hn).symm
      rw [Argument.text, plain_prepend (by decide +kernel)]
      exact plain_quoted (hn' ▸ hname)
  · rcases Option.or_eq_some_iff.mp hd with hd | ⟨_, hd⟩
    · exact plain_impliedDefault h hd
    · split at hd
      · cases hd
      · obtain rfl := Option.some.inj hd
        exact plain_of_all (by decide)

/-! ### Declarations -/

theorem plain_comments {description discriminator : Option String}
    (h : AllPlain description.toList) (hd : AllPlain discriminator.toList) :
    AllPlain (comments description discriminator) := by
  refine AllPlain.append_iff.mpr ⟨?_, fun x hx => ?_⟩
  · cases description with
    | none => exact List.forall_mem_nil _
    | some text =>
        refine List.forall_mem_map.mpr fun line hline => plain_commentLine ?_
        obtain ⟨l, hl, rfl⟩ := List.mem_map.mp hline
        rw [String.toList_ofList]
        exact (h text (List.mem_singleton_self text)).of_isInfix (isInfix_of_mem_lines hl)
  · obtain ⟨field, rfl, rfl⟩ := mem_optionally.mp hx
    exact (plain_enclose (by decide +kernel) (by decide)).mpr
      (hd field (List.mem_singleton_self field))

section text
variable {indent name : String} {description : Option String}
  (hindent : indent.toList.all isInner = true)
include hindent

theorem plain_classText {header : String} {blocks : List String} (hheader : Plain header.toList)
    (hblocks : AllPlain blocks) : Plain (classText indent header blocks).toList := by
  unfold classText
  split
  · rw [String.append_assoc, plain_join (by decide), plain_prepend hindent]
    exact ⟨hheader, plain_of_all (by decide)⟩
  · exact (plain_join (by decide)).mpr ⟨hheader, plain_intercalate (by decide) hblocks⟩

theorem plain_blockOf {lines : List String} (h : AllPlain lines) :
    AllPlain (blockOf indent lines) := by
  unfold blockOf
  split
  · exact List.forall_mem_nil _
  · refine AllPlain.cons_iff.mpr ⟨plain_intercalate (by decide) ?_, List.forall_mem_nil _⟩
    exact List.forall_mem_map.mpr fun line hline => (plain_prepend hindent).mpr (h line hline)

theorem plain_docstrings (h : AllPlain description.toList) :
    AllPlain (optionally (docstring indent) description) := by
  intro x hx
  obtain ⟨text, rfl, rfl⟩ := mem_optionally.mp hx
  exact plain_docstring hindent (h text (List.mem_singleton_self text))

theorem plain_unionLines (hname : Plain name.toList) {members : List TypeExpr}
    (h : ∀ m ∈ members, Plain m.text.toList) : AllPlain (unionLines indent name members) := by
  unfold unionLines
  split
  · refine AllPlain.cons_iff.mpr ⟨?_, List.forall_mem_nil _⟩
    exact (plain_join (by decide)).mpr ⟨hname, h _ List.mem_cons_self⟩
  · refine AllPlain.cons_iff.mpr ⟨(plain_append (by decide +kernel)).mpr hname,
      AllPlain.append_iff.mpr ⟨?_, AllPlain.cons_iff.mpr
        ⟨plain_of_all (by decide), List.forall_mem_nil _⟩⟩⟩
    exact List.forall_mem_map.mpr fun m hm => (plain_enclose hindent (by decide)).mpr (h m hm)

namespace Body
variable (hname : Plain name.toList) (hdoc : AllPlain description.toList)
include hname hdoc

theorem plain_enum {ms : List (String × String)}
    (h : ∀ m ∈ ms, Plain m.1.toList ∧ Plain m.2.toList) :
    Plain ((enum ms).text indent name description).toList := by
  refine plain_classText hindent ((plain_enclose (by decide +kernel) (by decide +kernel)).mpr hname)
    (AllPlain.append_iff.mpr ⟨plain_docstrings hindent hdoc, plain_blockOf hindent ?_⟩)
  exact List.forall_mem_map.mpr fun m hm =>
    (plain_join (by decide)).mpr ⟨(h m hm).1, plain_quoted (h m hm).2⟩

theorem plain_model {fields : List Field} (h : ∀ f ∈ fields, Plain f.text.toList) :
    Plain ((model false fields).text indent name description).toList :=
  plain_classText hindent ((plain_enclose (by decide +kernel) (by decide +kernel)).mpr hname)
    (AllPlain.append_iff.mpr ⟨AllPlain.append_iff.mpr
      ⟨plain_docstrings hindent hdoc, List.forall_mem_nil _⟩,
      plain_blockOf hindent (List.forall_mem_map.mpr h)⟩)

theorem plain_union {discriminator : Option String} {members : List TypeExpr}
    (hd : AllPlain discriminator.toList) (h : ∀ m ∈ members, Plain m.text.toList) :
    Plain ((union discriminator members).text indent name description).toList :=
  plain_intercalate (by decide)
    (AllPlain.append_iff.mpr ⟨plain_comments hdoc hd, plain_unionLines hindent hname h⟩)

omit hindent in
theorem plain_typeAlias {type : TypeExpr} {arguments : List Argument}
    (ht : Plain type.text.toList) (ha : ∀ a ∈ arguments, Plain a.text.toList) :
    Plain ((typeAlias type arguments).text indent name description).toList := by
  refine plain_intercalate (by decide) (AllPlain.append_iff.mpr
    ⟨plain_comments hdoc (List.forall_mem_nil _), AllPlain.cons_iff.mpr
      ⟨(plain_join (by decide)).mpr ⟨hname, ?_⟩, List.forall_mem_nil _⟩⟩)
  split
  · exact ht
  · exact plain_annotated ht (List.forall_mem_map.mpr ha)

end Body

end text

/-- The code of a definition has the strings of the definition, if it does not refuse other
fields. -/
theorem plain_ofDefinition {settings : Settings} (hforbid : settings.forbidExtra = false)
    {t : Table} {isForward : String → Bool} {d : Definition} (h : AllPlain d.strings) {body : Body}
    (hbody : Body.ofDefinition settings t isForward d = .ok body) {indent : String}
    (hindent : indent.toList.all isInner = true) {description : Option String}
    (hdoc : AllPlain description.toList) :
    Plain (body.text indent d.name description).toList := by
  obtain ⟨hname, hrest⟩ := AllPlain.cons_iff.mp h
  obtain ⟨_, hkind⟩ := AllPlain.append_iff.mp hrest
  rcases ofDefinition_eq_ok hbody with ⟨values, ms, hk, hms, rfl⟩ | ⟨record, hk, rfl⟩ |
    ⟨members, discriminator, hk, _, rfl⟩ | ⟨spec, hk, rfl⟩
  all_goals rw [hk] at hkind
  · refine Body.plain_enum hindent hname hdoc fun m hm => ?_
    rcases mem_membersAfter hms m hm with hseen | ⟨hm1, hm2⟩
    · cases hseen
    · exact ⟨hm1 ▸ plain_memberName m.2, hkind m.2 hm2⟩
  · rw [hforbid, Bool.false_and]
    refine Body.plain_model hindent hname hdoc (List.forall_mem_map.mpr fun f hf => ?_)
    have hfield : AllPlain (f.1 :: f.2.strings) := fun x hx =>
      hkind x (List.mem_flatMap.mpr ⟨f, hf, hx⟩)
    obtain ⟨hname, hspec⟩ := AllPlain.cons_iff.mp hfield
    exact plain_ofSpec_field _ hname hspec
  · obtain ⟨hmembers, hd⟩ := AllPlain.append_iff.mp hkind
    exact Body.plain_union hindent hname hdoc hd (List.forall_mem_map.mpr fun n hn =>
      TypeExpr.plain_ofReference isForward (hmembers n hn))
  · exact Body.plain_typeAlias hname hdoc (TypeExpr.plain_ofSpec isForward spec hkind)
      fun a ha => plain_boundArguments (hkind.of_subset (pattern_subset_strings spec)) ha

/-! ### Constructs -/

/-- The constructs that declarations use when no model refuses other fields. -/
def constructs : List Import :=
  ["Any", "List", "Dict", "Tuple", "Literal", "Optional", "Union", "Annotated"].map typing ++
    [pydantic "Field", pydantic "BaseModel", enumClass]

namespace TypeExpr

mutual

theorem imports_subset : ∀ t : TypeExpr, t.imports ⊆ constructs
  | builtin _ => List.nil_subset _
  | any => List.cons_subset.mpr ⟨by decide, List.nil_subset _⟩
  | list item => List.cons_subset.mpr ⟨by decide, imports_subset item⟩
  | dict value => List.cons_subset.mpr ⟨by decide, imports_subset value⟩
  | tuple items => List.cons_subset.mpr ⟨by decide, importsAll_subset items⟩
  | literal _ => List.cons_subset.mpr ⟨by decide, List.nil_subset _⟩
  | name _ => List.nil_subset _
  | quotedName _ => List.nil_subset _
  | optional inner => List.cons_subset.mpr ⟨by decide, imports_subset inner⟩
  | union members => List.cons_subset.mpr ⟨by decide, importsAll_subset members⟩
  | tagged members _ => List.cons_subset.mpr ⟨by decide, List.cons_subset.mpr
      ⟨by decide, List.cons_subset.mpr ⟨by decide, importsAll_subset members⟩⟩⟩

theorem importsAll_subset : ∀ ts : List TypeExpr, importsAll ts ⊆ constructs
  | [] => List.nil_subset _
  | t :: rest => List.append_subset.mpr ⟨imports_subset t, importsAll_subset rest⟩

end

end TypeExpr

theorem argumentImports_subset (arguments : List Argument) :
    argumentImports arguments ⊆ constructs := by
  unfold argumentImports
  split
  · exact List.nil_subset _
  · decide

/-- The constructs of declarations, with the one of a model that refuses other fields. -/
def allConstructs (settings : Settings) : List Import :=
  (if settings.forbidExtra then [pydantic "ConfigDict"] else []) ++ constructs

theorem imports_subset_allConstructs {settings : Settings} {t : Table} {isForward : String → Bool}
    {d : Definition} {body : Body} (hbody : Body.ofDefinition settings t isForward d = .ok body) :
    body.imports ⊆ allConstructs settings := by
  have hconstructs : constructs ⊆ allConstructs settings := List.subset_append_right _ _
  rcases ofDefinition_eq_ok hbody with ⟨_, _, _, _, rfl⟩ | ⟨record, _, rfl⟩ |
    ⟨members, discriminator, _, _, rfl⟩ | ⟨spec, _, rfl⟩
  · exact List.cons_subset.mpr ⟨hconstructs (by decide), List.nil_subset _⟩
  · refine List.append_subset.mpr
      ⟨List.cons_subset.mpr ⟨hconstructs (by decide), ?_⟩, fun i hi => ?_⟩
    · unfold allConstructs
      cases settings.forbidExtra
      · exact List.nil_subset _
      · cases record.strict
        · exact List.nil_subset _
        · exact List.subset_append_left _ _
    · obtain ⟨f, _, hi⟩ := List.mem_flatMap.mp hi
      exact hconstructs
        (List.append_subset.mpr ⟨f.type.imports_subset, argumentImports_subset f.arguments⟩ hi)
  · refine List.append_subset.mpr ⟨?_, List.Subset.trans (TypeExpr.importsAll_subset _) hconstructs⟩
    split
    · exact List.nil_subset _
    · exact List.cons_subset.mpr ⟨hconstructs (by decide), List.nil_subset _⟩
  · exact List.Subset.trans
      (List.append_subset.mpr ⟨TypeExpr.imports_subset _, argumentImports_subset _⟩) hconstructs

/-- An import statement names constructs, of a module that comes first or that one of them has. -/
theorem exists_of_mem_importStatements {imports : Imports} {x : String}
    (hx : x ∈ importStatements imports) :
    ∃ source, (source ∈ importOrder ∨ ∃ i ∈ imports, i.source = source) ∧
      (∀ n ∈ imports.names source, ∃ i ∈ imports, i.name = n) ∧
      x = "from " ++ source ++ " import " ++ String.intercalate ", " (imports.names source) := by
  obtain ⟨source, hsource, hx⟩ := List.mem_filterMap.mp hx
  refine ⟨source, ?_, fun n hn => ?_, ?_⟩
  · refine (List.mem_append.mp hsource).imp_right fun hm => ?_
    exact List.mem_map.mp (mem_sorted.mp (List.mem_filter.mp hm).1)
  · obtain ⟨i, hi, rfl⟩ := List.mem_map.mp (mem_sorted.mp hn)
    exact ⟨i, (List.mem_filter.mp hi).1, rfl⟩
  · dsimp only at hx
    split at hx
    · cases hx
    · exact (Option.some.inj hx).symm

theorem imports_ofDefinition {settings : Settings} (hforbid : settings.forbidExtra = false)
    {t : Table} {isForward : String → Bool} {d : Definition} {body : Body}
    (hbody : Body.ofDefinition settings t isForward d = .ok body) : body.imports ⊆ constructs := by
  have h := imports_subset_allConstructs hbody
  rwa [allConstructs, hforbid] at h

end SchemaModels.Model
