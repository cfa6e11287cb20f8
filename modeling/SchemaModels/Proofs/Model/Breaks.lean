import SchemaModels.Proofs.Model.Attribute
import SchemaModels.Proofs.Model.Declaration
import SchemaModels.Proofs.Model.LiteralValue
import SchemaModels.Proofs.Model.Member
import SchemaModels.Proofs.Model.MemberName
import SchemaModels.Proofs.Model.PlainCode
import SchemaModels.Proofs.Text.Breaks

/-!
# Breaks in the code of models

The code of a model copies names, descriptions and the discriminators of unions as they are. All
other strings are quoted or normalized, so no carriage return of theirs is in the code. Where what
is copied is clean, the code is.

* `clean_literal`, `clean_pattern`: values and regular expressions are clean as literals.
* `clean_documented_docContent`, `clean_docstring`: descriptions.
* `TypeExpr.clean_text`, `clean_ofSpec`: types and fields.
* `clean_ofDefinition`, `clean_declaration`: the code of a definition.
-/

namespace SchemaModels.Model

open Text

/-! ### Literals -/

theorem clean_literal (v : Json) : Clean (literal v).toList := by
  have hcomma : Clean ", ".toList := by decide
  induction v using Json.induct with
  | null => decide
  | bool b => cases b <;> decide
  | number n => exact clean_numberText n
  | string s => exact clean_quoted s
  | array items ih =>
      rw [literal, literals_eq_map]
      exact (clean_intercalate hcomma (List.forall_mem_map.mpr ih)).enclose (by decide) (by decide)
  | object entries ih =>
      rw [literal, literalEntries_eq_map]
      refine (clean_intercalate hcomma (List.forall_mem_map.mpr fun e he => ?_)).enclose
        (by decide) (by decide)
      exact ((clean_quoted e.1).append_string (by decide)).append_string (ih e he)

/-- A raw literal has no line feed, and a quote at its end. -/
theorem clean_pattern (source : String) : Clean (pattern source).toList := by
  cases h : needsEscapes source.toList with
  | true =>
      rw [pattern, if_pos h]
      exact clean_quoted source
  | false =>
      obtain ⟨-, hfeed, -⟩ := (needsEscapes_eq_false_iff _).mp h
      rw [toList_pattern_raw source h]
      refine clean_of_feed_not_mem (by simpa using hfeed) ?_
      rw [← List.cons_append, ← List.cons_append, List.getLast?_concat]
      decide

/-! ### Documentation -/

theorem sameBreaks_doubled (s : List Char) :
    SameBreaks s (s.flatMap fun c => if c = '\\' then ['\\', '\\'] else [c]) := by
  refine SameBreaks.flatMap (fun c => ?_) s
  split
  · rename_i hc
    rw [hc]
    exact .inr (by decide)
  · exact .inl rfl

theorem clean_escapeDoc_iff (s : List Char) : Clean (escapeDoc s) ↔ Clean s :=
  ((sameBreaks_doubled s).clean_iff.trans
    (SameBreaks.replaceAll (by decide) (by decide) _).clean_iff).symm

theorem sameBreaks_guardLast (s : List Char) : SameBreaks s (guardLast s) := by
  unfold guardLast
  split
  · rename_i hlast
    obtain ⟨a, rfl⟩ := List.getLast?_eq_some_iff.mp hlast
    rw [List.dropLast_concat]
    exact (SameBreaks.refl a).append (.of_isBreakless (by decide) (by decide))
  · exact .refl s

theorem clean_documented_docContent {description : String}
    (h : AllClean (documentedOf description)) :
    ∀ l ∈ documented (docContent description), Clean l := by
  refine (sameBreaks_guardLast _).clean_documented ?_
  refine (SameBreaks.replaceAll (by decide) (by decide) _).clean_documented ?_
  exact (sameBreaks_doubled _).clean_documented (allClean_documentedOf_iff.mp h)

section indent
variable {indent : String} (hindent : Clean indent.toList)
include hindent

/-- The lines of a description are lines of its docstring, if there are several. -/
theorem clean_docstring {description : String} (h : AllClean (documentedOf description)) :
    Clean (docstring indent description).toList := by
  have hcontent := clean_documented_docContent h
  have hopening : Clean (indent ++ "\"\"\"").toList := hindent.append_string (by decide)
  have hline : (lines (docContent description)).length ≤ 1 → Clean
      (indent ++ "\"\"\"" ++ String.ofList (docContent description) ++ "\"\"\"").toList := by
    intro hone
    rw [String.toList_append, String.toList_append, String.toList_ofList]
    exact clean_enclose_documented hcontent hone hopening (by decide) (by decide)
  unfold docstring
  dsimp only
  split
  · rename_i hnone
    exact hline (by simp [hnone])
  · rename_i hone
    exact hline (by simp [hone])
  · rename_i hne hmore
    rw [documented_eq_lines hne hmore] at hcontent
    refine clean_intercalate (by decide) (AllClean.append (.cons hopening ?_) (.cons hopening .nil))
    refine List.forall_mem_map.mpr fun l hl => ?_
    split
    · exact clean_nil
    · refine hindent.append_string ?_
      rw [String.toList_ofList]
      exact hcontent l hl

theorem clean_blockOf {lines : List String} (h : AllClean lines) :
    AllClean (blockOf indent lines) := by
  unfold blockOf
  split
  · exact .nil
  · refine .cons (clean_intercalate (by decide) ?_) .nil
    exact List.forall_mem_map.mpr fun line hline => hindent.append_string (h line hline)

theorem clean_classText {header : String} {blocks : List String} (hheader : Clean header.toList)
    (hblocks : AllClean blocks) : Clean (classText indent header blocks).toList := by
  unfold classText
  split
  · exact ((hheader.append_string (by decide)).append_string hindent).append_string (by decide)
  · exact (hheader.append_string (by decide)).append_string
      (clean_intercalate (by decide) hblocks)

end indent

theorem clean_commentLine {line : String} (h : Clean line.toList) :
    Clean (commentLine line).toList := by
  unfold commentLine
  split
  · decide
  · exact Clean.append_string (by decide) h

/-! ### Names -/

theorem clean_attributeName (field : String) : Clean (attributeName field).toList := by
  obtain ⟨c, rest, hname, halpha, hrest⟩ := (isPublic_iff.mp (isPublic_attributeName field)).1
  refine clean_of_not_mem fun h => ?_
  rw [hname] at h
  rcases List.mem_cons.mp h with rfl | h
  · exact absurd halpha (by decide)
  · have hword : ('\r'.isAlphanum || '\r' == '_') = true := hrest _ h
    exact absurd hword (by decide)

theorem clean_memberName (value : String) : Clean (memberName value).toList := by
  refine clean_of_not_mem fun h => ?_
  rw [toList_memberName] at h
  have hchar := (isMemberName_memberChars value.toList).chars '\r' h
  unfold IsMemberChar at hchar
  exact absurd hchar (by decide)

/-! ### Types -/

namespace TypeExpr

mutual

/-- A type copies the names that it mentions. -/
theorem clean_text : ∀ e : TypeExpr, (∀ m ∈ e.mentions, Clean m.name.toList) → Clean e.text.toList
  | builtin kind, _ => by
      show Clean (builtinName kind).toList
      cases kind <;> decide
  | any, _ => by
      show Clean "Any".toList
      decide
  | list item, h => by
      show Clean ("List[" ++ item.text ++ "]").toList
      exact (clean_text item h).enclose (by decide) (by decide)
  | dict value, h => by
      show Clean ("Dict[str, " ++ value.text ++ "]").toList
      exact (clean_text value h).enclose (by decide) (by decide)
  | tuple items, h => by
      show Clean (if items.isEmpty then "Tuple[()]"
        else "Tuple[" ++ String.intercalate ", " (texts items) ++ "]").toList
      split
      · decide
      · exact (clean_intercalate (by decide) (clean_texts items h)).enclose (by decide) (by decide)
  | literal values, _ => by
      show Clean ("Literal[" ++ String.intercalate ", " (values.map Model.literal) ++ "]").toList
      refine (clean_intercalate (by decide) ?_).enclose (by decide) (by decide)
      exact List.forall_mem_map.mpr fun v _ => clean_literal v
  | name n, h => h ⟨n, false⟩ (List.mem_singleton_self _)
  | quotedName n, h => by
      show Clean ("\"" ++ n ++ "\"").toList
      exact (h ⟨n, true⟩ (List.mem_singleton_self _)).enclose (by decide) (by decide)
  | optional inner, h => by
      show Clean ("Optional[" ++ inner.text ++ "]").toList
      exact (clean_text inner h).enclose (by decide) (by decide)
  | union members, h => by
      show Clean ("Union[" ++ String.intercalate ", " (texts members) ++ "]").toList
      exact (clean_intercalate (by decide) (clean_texts members h)).enclose (by decide) (by decide)
  | tagged members field, h => by
      show Clean ("Annotated[Union[" ++ String.intercalate ", " (texts members) ++
        "], Field(discriminator=" ++ quoted field ++ ")]").toList
      have hcomma : Clean ", ".toList := by decide
      have hopening : Clean "Annotated[Union[".toList := by decide
      have hbetween : Clean "], Field(discriminator=".toList := by decide
      have hmembers := clean_intercalate hcomma (clean_texts members h)
      exact ((hmembers.enclose hopening hbetween).append_string (clean_quoted field)).append_string
        (by decide)

theorem clean_texts : ∀ es : List TypeExpr, (∀ m ∈ mentionsAll es, Clean m.name.toList) →
    AllClean (texts es)
  | [], _ => .nil
  | e :: rest, h => by
      obtain ⟨he, hrest⟩ := List.forall_mem_append.mp h
      exact .cons (clean_text e he) (clean_texts rest hrest)

end

end TypeExpr

/-! ### Fields -/

theorem clean_argument (a : Argument) : Clean a.text.toList := by
  cases a with
  | minLength n => exact Clean.append_string (by decide) (clean_countText n)
  | maxLength n => exact Clean.append_string (by decide) (clean_countText n)
  | atLeast n => exact Clean.append_string (by decide) (clean_numberText n)
  | atMost n => exact Clean.append_string (by decide) (clean_numberText n)
  | above n => exact Clean.append_string (by decide) (clean_numberText n)
  | below n => exact Clean.append_string (by decide) (clean_numberText n)
  | pattern source => exact Clean.append_string (by decide) (clean_pattern source)
  | wireName name => exact Clean.append_string (by decide) (clean_quoted name)

theorem clean_annotated {type : TypeExpr} (arguments : List Argument) {more : List String}
    (htype : Clean type.text.toList) (hmore : AllClean more) :
    Clean (annotated type (arguments.map Argument.text ++ more)).toList := by
  have harguments : AllClean (arguments.map Argument.text ++ more) :=
    AllClean.append (List.forall_mem_map.mpr fun a _ => clean_argument a) hmore
  exact ((htype.enclose (by decide) (by decide)).append_string
    (clean_intercalate (by decide) harguments)).append_string (by decide)

/-- A default copies the name of an enum. -/
theorem clean_statedDefault {t : Table} {s : Spec} (h : ∀ n ∈ s.mentions, Clean n.toList)
    (value : Json) : Clean (statedDefault t s value).text.toList := by
  cases hd : statedDefault t s value with
  | literal v => exact clean_literal v
  | member enum name =>
      obtain ⟨hshape, v, -, -, -, -, -, -, rfl⟩ := statedDefault_eq_member_iff.mp hd
      have henum : Clean enum.toList := by
        obtain ⟨shape, bounds, default, nullable, description⟩ := s
        obtain rfl : shape = .reference enum := hshape
        exact h enum (List.mem_singleton_self enum)
      exact (henum.append_string (by decide)).append_string (clean_memberName v)

theorem clean_impliedDefault {t : Table} {required : Bool} {s : Spec}
    (h : ∀ n ∈ s.mentions, Clean n.toList) {d : DefaultExpr}
    (hd : impliedDefault t required s = some d) : Clean d.text.toList := by
  unfold impliedDefault at hd
  split at hd
  · obtain rfl := Option.some.inj hd
    exact clean_statedDefault h _
  · split at hd
    · cases hd
    · obtain rfl := Option.some.inj hd
      exact clean_literal _
  · cases hd

theorem clean_fieldText {f : Field} (hattr : Clean f.attr.toList) (htype : Clean f.type.text.toList)
    (hdefault : ∀ d, f.default = some d → Clean d.text.toList) : Clean f.text.toList := by
  have hline : Clean (f.attr ++ ": ").toList := hattr.append_string (by decide)
  have hstated : AllClean (optionally ("default=" ++ ·.text) f.default) := fun x hx => by
    obtain ⟨d, hd, rfl⟩ := mem_optionally.mp hx
    exact Clean.append_string (by decide) (hdefault d hd)
  unfold Field.text
  split
  · refine (hline.append_string htype).append_string ?_
    split
    · rename_i d hd
      exact Clean.append_string (by decide) (hdefault d hd)
    · exact clean_nil
  · exact hline.append_string (clean_annotated f.arguments htype hstated)

section definition
variable {settings : Settings} {t : Table} {isForward : String → Bool}

/-- The line of a field has names of definitions as they are, and none of other strings. -/
theorem clean_ofSpec (field : String) (required : Bool) {s : Spec}
    (h : ∀ n ∈ s.mentions, Clean n.toList) :
    Clean (Field.ofSpec isForward t (Attribute.ofField field) required s).text.toList := by
  refine clean_fieldText (clean_attributeName field) (TypeExpr.clean_text _ fun m hm => ?_)
    fun d hd => ?_
  · rw [mentions_ofSpec_type] at hm
    obtain ⟨n, hn, rfl⟩ := List.mem_map.mp hm
    exact h n hn
  · rcases Option.or_eq_some_iff.mp hd with hd | ⟨-, hd⟩
    · exact clean_impliedDefault h hd
    · split at hd
      · cases hd
      · obtain rfl := Option.some.inj hd
        exact clean_literal .null

/-! ### Declarations -/

section text
variable {indent name : String} {description : Option String}

/-- The lines of a description are comments. The discriminator of a union is in a comment as it
is. -/
theorem clean_comments {discriminator : Option String}
    (h : AllClean (description.toList.flatMap linesOf)) (hd : AllClean discriminator.toList) :
    AllClean (comments description discriminator) := by
  refine AllClean.append ?_ fun x hx => ?_
  · cases description with
    | none => exact .nil
    | some text =>
        rw [Option.toList_some, List.flatMap_singleton] at h
        exact List.forall_mem_map.mpr fun line hline => clean_commentLine (h line hline)
  · obtain ⟨field, rfl, rfl⟩ := mem_optionally.mp hx
    exact (hd field (List.mem_singleton_self field)).enclose (by decide) (by decide)

theorem clean_docstrings (hindent : Clean indent.toList)
    (h : AllClean (description.toList.flatMap documentedOf)) :
    AllClean (optionally (docstring indent) description) := fun x hx => by
  obtain ⟨text, rfl, rfl⟩ := mem_optionally.mp hx
  rw [Option.toList_some, List.flatMap_singleton] at h
  exact clean_docstring hindent h

theorem clean_unionLines (hindent : Clean indent.toList) (hname : Clean name.toList)
    {members : List TypeExpr} (h : ∀ m ∈ members, Clean m.text.toList) :
    AllClean (unionLines indent name members) := by
  unfold unionLines
  split
  · refine .cons ?_ .nil
    exact (hname.append_string (by decide)).append_string (h _ List.mem_cons_self)
  · refine AllClean.append (.cons (hname.append_string (by decide)) ?_) (.cons (by decide) .nil)
    exact List.forall_mem_map.mpr fun m hm => (h m hm).enclose hindent (by decide)

/-- The members of an enum are quoted after names of their own. -/
theorem clean_enum {values : List String} {ms : List (String × String)}
    (hms : members values = .ok ms) (hindent : Clean indent.toList) (hname : Clean name.toList)
    (hdoc : AllClean (description.toList.flatMap documentedOf)) :
    Clean ((Body.enum ms).text indent name description).toList := by
  refine clean_classText hindent (hname.enclose (by decide) (by decide))
    (AllClean.append (clean_docstrings hindent hdoc) (clean_blockOf hindent ?_))
  refine List.forall_mem_map.mpr fun m hm => ?_
  rcases mem_membersAfter hms m hm with hseen | ⟨hmember, -⟩
  · cases hseen
  · rw [hmember]
    exact ((clean_memberName m.2).append_string (by decide)).append_string (clean_quoted m.2)

theorem clean_model {forbidsExtra : Bool} {fields : List Field}
    (h : ∀ f ∈ fields, Clean f.text.toList) (hindent : Clean indent.toList)
    (hname : Clean name.toList) (hdoc : AllClean (description.toList.flatMap documentedOf)) :
    Clean ((Body.model forbidsExtra fields).text indent name description).toList := by
  have hforbid : AllClean (if forbidsExtra then [forbidLine] else []) := by
    cases forbidsExtra
    · exact .nil
    · exact .cons (by decide) .nil
  exact clean_classText hindent (hname.enclose (by decide) (by decide))
    (AllClean.append (AllClean.append (clean_docstrings hindent hdoc)
      (clean_blockOf hindent hforbid)) (clean_blockOf hindent (List.forall_mem_map.mpr h)))

theorem clean_typeAlias {type : TypeExpr} {arguments : List Argument}
    (h : Clean type.text.toList) (hname : Clean name.toList)
    (hdoc : AllClean (description.toList.flatMap linesOf)) :
    Clean ((Body.typeAlias type arguments).text indent name description).toList := by
  refine clean_intercalate (by decide) (AllClean.append (clean_comments hdoc .nil) (.cons ?_ .nil))
  refine (hname.append_string (by decide)).append_string ?_
  split
  · exact h
  · have hargs := clean_annotated arguments h .nil
    rwa [List.append_nil] at hargs

end text

/-- The strings that are in the model of a definition as they are, apart from the names of other
definitions. The description of a class is a docstring, that of an assignment is in comments. -/
def copied (settings : Settings) (d : Definition) : List String :=
  let description := (settings.described d.description).toList
  d.name :: match d.kind with
    | .union _ discriminator => description.flatMap linesOf ++ discriminator.toList
    | .typeAlias _ => description.flatMap linesOf
    | _ => description.flatMap documentedOf

/-- The declaration of a definition is clean if the strings and the names that it copies are. -/
theorem clean_ofDefinition {d : Definition} {body : Body} (h : AllClean (copied settings d))
    (hmentions : AllClean d.mentions)
    (hbody : Body.ofDefinition settings t isForward d = .ok body) {indent : String}
    (hindent : Clean indent.toList) :
    Clean (body.text indent d.name (settings.described d.description)).toList := by
  obtain ⟨hname, hkind⟩ := List.forall_mem_cons.mp h
  unfold Definition.mentions at hmentions
  rcases ofDefinition_eq_ok hbody with ⟨values, ms, hk, hms, rfl⟩ | ⟨record, hk, rfl⟩ |
    ⟨members, discriminator, hk, -, rfl⟩ | ⟨spec, hk, rfl⟩
  · rw [hk] at hkind
    exact clean_enum hms hindent hname hkind
  · rw [hk] at hmentions hkind
    refine clean_model (List.forall_mem_map.mpr fun f hf => ?_) hindent hname hkind
    exact clean_ofSpec f.1 _ fun n hn => hmentions n (List.mem_flatMap.mpr ⟨f, hf, hn⟩)
  · rw [hk] at hmentions hkind
    obtain ⟨hdoc, htag⟩ := List.forall_mem_append.mp hkind
    refine clean_intercalate (by decide) (AllClean.append (clean_comments hdoc htag)
      (clean_unionLines hindent hname (List.forall_mem_map.mpr fun n hn => ?_)))
    refine TypeExpr.clean_text _ fun m hm => ?_
    rw [TypeExpr.mentions_ofReference] at hm
    rw [List.mem_singleton.mp hm]
    exact hmentions n hn
  · rw [hk] at hmentions hkind
    refine clean_typeAlias (TypeExpr.clean_text _ fun m hm => ?_) hname hkind
    rw [TypeExpr.mentions_ofSpec] at hm
    obtain ⟨n, hn, rfl⟩ := List.mem_map.mp hm
    exact hmentions n hn

theorem clean_indentOf (settings : Settings) : Clean (indentOf settings).toList := by
  unfold indentOf
  cases settings.indent.getD .four <;> decide

/-- The code of a definition uses constructs of the other modules that models use. -/
theorem clean_declaration (plan : Plan) {p : Planned} {d : Definition} {decl : Declaration}
    (h : AllClean (copied settings d)) (hmentions : AllClean d.mentions)
    (hdecl : declaration settings t plan p d = .ok decl) :
    Clean decl.code.toList ∧ decl.imports ⊆ allConstructs settings := by
  obtain ⟨body, hbody, rfl⟩ := (declaration_eq_ok_iff plan).mp hdecl
  exact ⟨clean_ofDefinition h hmentions hbody (clean_indentOf settings),
    imports_subset_allConstructs hbody⟩

end definition

end SchemaModels.Model
