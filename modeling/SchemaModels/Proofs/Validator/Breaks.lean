import SchemaModels.Proofs.Json.Parts
import SchemaModels.Proofs.Text.Breaks
import SchemaModels.Proofs.Validator.Bounds
import SchemaModels.Proofs.Validator.Regex

/-!
# Breaks in the code of validators

The code of a validator copies names, descriptions and the patterns of strings as they are. All
other strings are quoted. Where what is copied is clean, the code is.

* `clean_compact`: JSON values are clean as they are printed.
* `clean_jsdoc`, `clean_check`: descriptions and patterns.
* `SchemaExpr.clean_text`, `clean_fieldText`: schemas and fields.
* `clean_ofDefinition`, `clean_declaration`: the schema and the code of a definition.
-/

namespace SchemaModels

/-- The pattern of a bound. -/
def Bound.pattern? : Bound → Option String
  | pattern source => some source
  | _ => none

/-- The patterns that apply in a definition, at any depth. -/
def Definition.patterns (d : Definition) : List String :=
  (d.properties.flatMap Spec.allBounds).filterMap Bound.pattern?

namespace Validator

open Text

/-! ### Values -/

theorem return_not_mem_escapeChar (c : Char) : '\r' ∉ Json.escapeChar c := by
  have hdigit : ∀ n < 16, '\r' ≠ Json.hexDigit n := by decide
  unfold Json.escapeChar
  -- the escapes of single characters
  iterate 7
    split
    · decide
  split
  · rename_i hcontrol
    have hhigh := hdigit (c.toNat / 16) (by omega)
    have hlow := hdigit (c.toNat % 16) (by omega)
    simp [hhigh, hlow]
  · simpa using Ne.symm ‹¬c = '\r'›

theorem clean_quote (s : String) : Clean (Json.quote s).toList := by
  refine clean_of_not_mem ?_
  have hescape : '\r' ∉ s.toList.flatMap Json.escapeChar := fun h => by
    obtain ⟨c, -, hc⟩ := List.mem_flatMap.mp h
    exact return_not_mem_escapeChar c hc
  simp [Json.quote, hescape]

theorem compactItems_eq_map (items : List Json) :
    Json.compactItems items = items.map Json.compact := by
  induction items with
  | nil => rfl
  | cons v rest ih => rw [Json.compactItems, ih, List.map_cons]

theorem compactEntries_eq_map (entries : Entries) :
    Json.compactEntries entries = entries.map fun e => Json.quote e.1 ++ ":" ++ e.2.compact := by
  induction entries with
  | nil => rfl
  | cons e rest ih => rw [Json.compactEntries, ih, List.map_cons]

theorem clean_compact (v : Json) : Clean v.compact.toList := by
  have hcomma : Clean ",".toList := by decide
  induction v using Json.induct with
  | null => decide
  | bool b => cases b <;> decide
  | number n => exact clean_numberText n
  | string s => exact clean_quote s
  | array items ih =>
      rw [Json.compact, compactItems_eq_map]
      exact (clean_intercalate hcomma (List.forall_mem_map.mpr ih)).enclose (by decide) (by decide)
  | object entries ih =>
      rw [Json.compact, compactEntries_eq_map]
      refine (clean_intercalate hcomma (List.forall_mem_map.mpr fun e he => ?_)).enclose
        (by decide) (by decide)
      exact ((clean_quote e.1).append_string (by decide)).append_string (ih e he)

/-! ### Descriptions and patterns -/

/-- The lines of a description are lines of its comment, if there are several. -/
theorem clean_jsdoc {description : String} (h : AllClean (documentedOf description)) :
    Clean (jsdoc description).toList := by
  have hcontent : ∀ l ∈ documented (guardComment description.toList), Clean l :=
    (SameBreaks.replaceAll (by decide) (by decide) _).clean_documented
      (allClean_documentedOf_iff.mp h)
  have hline : (lines (guardComment description.toList)).length ≤ 1 →
      Clean ("/** " ++ String.ofList (guardComment description.toList) ++ " */").toList := by
    intro hone
    have htext := String.toList_ofList (l := guardComment description.toList)
    rw [String.toList_append, String.toList_append, htext]
    exact clean_enclose_documented hcontent hone (by decide) (by decide) (by decide)
  unfold jsdoc
  dsimp only
  split
  · rename_i hnone
    exact hline (by simp [hnone])
  · rename_i hone
    exact hline (by simp [hone])
  · rename_i hne hmore
    rw [documented_eq_lines hne hmore] at hcontent
    refine clean_intercalate (by decide) (AllClean.append (.cons (by decide) ?_)
      (.cons (by decide) .nil))
    refine List.forall_mem_map.mpr fun l hl => ?_
    split
    · decide
    · refine Clean.append_string (by decide) ?_
      rw [String.toList_ofList]
      exact hcontent l hl

/-- Only slashes of a pattern are written in another way. -/
theorem clean_regexBody_iff (source : String) :
    Clean (regexBody source).toList ↔ Clean source.toList := by
  rw [toList_regexBody]
  refine (SameBreaks.flatMap (fun c => ?_) source.toList).clean_iff.symm
  unfold slashed
  split
  · rename_i hc
    rw [hc]
    exact .inr (by decide)
  · exact .inl rfl

theorem clean_check {c : Check} (h : ∀ source, c = .regex source → Clean source.toList) :
    Clean c.text.toList := by
  cases c with
  | regex source =>
      exact ((clean_regexBody_iff source).mpr (h source rfl)).enclose (by decide) (by decide)
  | minCount n => exact (clean_countText n).enclose (by decide) (by decide)
  | maxCount n => exact (clean_countText n).enclose (by decide) (by decide)
  | min n => exact (clean_numberText n).enclose (by decide) (by decide)
  | max n => exact (clean_numberText n).enclose (by decide) (by decide)
  | above n => exact (clean_numberText n).enclose (by decide) (by decide)
  | below n => exact (clean_numberText n).enclose (by decide) (by decide)

/-! ### Schemas -/

theorem clean_schemaName {n : String} (h : Clean n.toList) : Clean (schemaName n).toList :=
  h.append_string (by decide)

namespace SchemaExpr

mutual

/-- A schema copies the names that it mentions and the patterns of its checks. -/
theorem clean_text : ∀ e : SchemaExpr, (∀ m ∈ e.mentions, Clean m.name.toList) →
    (∀ c ∈ e.checks, Clean c.text.toList) → Clean e.text.toList
  | primitive kind, _, _ => by
      show Clean (primitiveText kind).toList
      cases kind <;> decide
  | any, _, _ => by
      show Clean "z.any()".toList
      decide
  | never, _, _ => by
      show Clean "z.never()".toList
      decide
  | null, _, _ => by
      show Clean "z.null()".toList
      decide
  | literal value, _, _ => by
      cases value with
      | string s => exact (clean_quoted s).enclose (by decide) (by decide)
      | _ => exact (clean_compact _).enclose (by decide) (by decide)
  | enum values, _, _ => by
      show Clean ("z.enum([" ++ String.intercalate ", " (values.map quoted) ++ "])").toList
      refine (clean_intercalate (by decide) ?_).enclose (by decide) (by decide)
      exact List.forall_mem_map.mpr fun v _ => clean_quoted v
  | array item, hm, hc => by
      show Clean ("z.array(" ++ item.text ++ ")").toList
      exact (clean_text item hm hc).enclose (by decide) (by decide)
  | tuple items, hm, hc => by
      show Clean ("z.tuple([" ++ String.intercalate ", " (texts items) ++ "])").toList
      exact (clean_intercalate (by decide) (clean_texts items hm hc)).enclose (by decide)
        (by decide)
  | record value, hm, hc => by
      show Clean ("z.record(z.string(), " ++ value.text ++ ")").toList
      exact (clean_text value hm hc).enclose (by decide) (by decide)
  | name n, hm, _ => clean_schemaName (hm ⟨n, false⟩ (List.mem_singleton_self _))
  | lazyName n, hm, _ => by
      show Clean ("z.lazy(() => " ++ schemaName n ++ ")").toList
      exact (clean_schemaName (hm ⟨n, true⟩ (List.mem_singleton_self _))).enclose (by decide)
        (by decide)
  | union members, hm, hc => by
      show Clean ("z.union([" ++ String.intercalate ", " (texts members) ++ "])").toList
      exact (clean_intercalate (by decide) (clean_texts members hm hc)).enclose (by decide)
        (by decide)
  | tagged field members, hm, hc => by
      show Clean ("z.discriminatedUnion(" ++ quoted field ++ ", [" ++
        String.intercalate ", " (texts members) ++ "])").toList
      exact (((clean_quoted field).enclose (by decide) (by decide)).append_string
        (clean_intercalate (by decide) (clean_texts members hm hc))).append_string (by decide)
  | checked base own, hm, hc => by
      obtain ⟨hown, hbase⟩ := List.forall_mem_append.mp hc
      show Clean (base.text ++ String.intercalate "" (own.map Check.text)).toList
      exact (clean_text base hm hbase).append_string
        (clean_intercalate (by decide) (List.forall_mem_map.mpr hown))
  | nullable base, hm, hc => by
      show Clean (base.text ++ ".nullable()").toList
      exact (clean_text base hm hc).append_string (by decide)

theorem clean_texts : ∀ es : List SchemaExpr, (∀ m ∈ mentionsAll es, Clean m.name.toList) →
    (∀ c ∈ checksAll es, Clean c.text.toList) → AllClean (texts es)
  | [], _, _ => .nil
  | e :: rest, hm, hc => by
      obtain ⟨hm, hmrest⟩ := List.forall_mem_append.mp hm
      obtain ⟨hc, hcrest⟩ := List.forall_mem_append.mp hc
      exact .cons (clean_text e hm hc) (clean_texts rest hmrest hcrest)

end

/-- A schema copies the names and the patterns of its specification. -/
theorem clean_ofSpec {isForward : String → Bool} {s : Spec} (hnames : AllClean s.mentions)
    (hpatterns : ∀ source ∈ s.allBounds.filterMap Bound.pattern?, Clean source.toList) :
    Clean (ofSpec isForward s).text.toList := by
  refine clean_text _ (fun m hm => ?_) fun c hc => ?_
  · rw [mentions_ofSpec] at hm
    obtain ⟨n, hn, rfl⟩ := List.mem_map.mp hm
    exact hnames n hn
  · rw [checks_ofSpec] at hc
    obtain ⟨b, hb, rfl⟩ := List.mem_map.mp hc
    refine clean_check fun source hsource => hpatterns source (List.mem_filterMap.mpr ⟨b, hb, ?_⟩)
    cases b <;> cases hsource
    rfl

theorem clean_ofReference {isForward : String → Bool} {n : String} (h : Clean n.toList) :
    Clean (ofReference isForward n).text.toList := by
  unfold ofReference
  split
  · exact (clean_schemaName h).enclose (by decide) (by decide)
  · exact clean_schemaName h

end SchemaExpr

/-! ### Fields -/

theorem clean_keyText (name : String) : Clean (keyText name).toList := by
  unfold keyText
  split
  · rename_i hkey
    unfold Name.isKey at hkey
    refine clean_of_not_mem fun h => ?_
    cases hname : name.toList with
    | nil => exact absurd (hname ▸ h) List.not_mem_nil
    | cons first rest =>
        rw [hname] at h hkey
        rw [Name.isWordOf, Bool.and_eq_true, List.all_eq_true] at hkey
        rcases List.mem_cons.mp h with rfl | h
        · exact absurd hkey.1 (by decide)
        · exact absurd (hkey.2 _ h) (by decide)
  · exact clean_quoted name

theorem clean_describeCall (description : Option String) :
    Clean ((description.map describeCall).getD "").toList := by
  cases description with
  | none => decide
  | some text => exact (clean_quoted text).enclose (by decide) (by decide)

theorem clean_presence (p : Presence) : Clean p.text.toList := by
  cases p with
  | defaulted value => exact (clean_compact value).enclose (by decide) (by decide)
  | _ => decide

theorem clean_fieldText {f : Field} (h : Clean f.schema.text.toList) : Clean f.text.toList :=
  (((((clean_keyText f.name).append_string (by decide)).append_string h).append_string
    (clean_presence f.presence)).append_string (clean_describeCall f.description)).append_string
      (by decide)

/-! ### Declarations -/

theorem clean_linesBetween {opening closing indent : String} {lines : List String}
    (hopening : Clean opening.toList) (hclosing : Clean closing.toList)
    (hindent : Clean indent.toList) (h : AllClean lines) :
    Clean (Body.linesBetween opening closing indent lines).toList := by
  have hlines : AllClean (lines.map (indent ++ ·)) :=
    List.forall_mem_map.mpr fun line hline => hindent.append_string (h line hline)
  exact (((hopening.append_string (by decide)).append_string
    (clean_intercalate (by decide) hlines)).append_string (by decide)).append_string hclosing

/-- The schema of a definition copies the names and the patterns of the definition. -/
theorem clean_ofDefinition {settings : Settings} {t : Table} {plan : Plan}
    {isForward : String → Bool} {d : Definition} {body : Body}
    (hmentions : AllClean d.mentions) (hpatterns : AllClean d.patterns)
    (hbody : Body.ofDefinition settings t plan isForward d = .ok body) {indent : String}
    (hindent : Clean indent.toList) : Clean (body.text indent).toList := by
  have hspec : ∀ s ∈ d.properties, AllClean s.mentions →
      Clean (SchemaExpr.ofSpec isForward s).text.toList := fun s hs hnames => by
    refine SchemaExpr.clean_ofSpec hnames fun source hsource => hpatterns source ?_
    rw [Definition.patterns, List.filterMap_flatMap]
    exact List.mem_flatMap.mpr ⟨s, hs, hsource⟩
  unfold Definition.properties at hspec
  unfold Definition.mentions at hmentions
  unfold Body.ofDefinition at hbody
  cases hk : d.kind with
  | enum values =>
      rw [hk] at hbody
      obtain rfl := Except.ok.inj hbody
      exact SchemaExpr.clean_text (.enum values.eraseDups) (List.forall_mem_nil _)
        (List.forall_mem_nil _)
  | object record =>
      rw [hk] at hbody hspec hmentions
      obtain rfl := Except.ok.inj hbody
      have hfields : AllClean ((record.fields.map fun f => Field.ofSpec settings t isForward f.1
          (record.isRequired f.1) f.2).map Field.text) := by
        rw [List.map_map]
        refine List.forall_mem_map.mpr fun f hf => clean_fieldText (hspec f.2
          (List.mem_map_of_mem hf) fun n hn => hmentions n (List.mem_flatMap.mpr ⟨f, hf, hn⟩))
      refine Clean.append_string ?_ ?_
      · split
        · decide
        · exact clean_linesBetween (by decide) (by decide) hindent hfields
      · split <;> decide
  | union members discriminator =>
      rw [hk] at hbody hmentions
      have hmembers : ∀ n ∈ members, Clean (SchemaExpr.ofReference isForward n).text.toList :=
        fun n hn => SchemaExpr.clean_ofReference (hmentions n hn)
      rcases members with _ | ⟨first, _ | ⟨second, rest⟩⟩
      · exact absurd hbody (by simp)
      · obtain rfl := Except.ok.inj hbody
        exact hmembers first List.mem_cons_self
      · obtain rfl := Except.ok.inj hbody
        have hlines : AllClean (((first :: second :: rest).map
            (SchemaExpr.ofReference isForward)).map fun m => m.text ++ ",") := by
          rw [List.map_map]
          exact List.forall_mem_map.mpr fun n hn => (hmembers n hn).append_string (by decide)
        refine clean_linesBetween ?_ (by decide) hindent hlines
        split
        · exact (clean_quoted _).enclose (by decide) (by decide)
        · decide
  | typeAlias spec =>
      rw [hk] at hbody hspec hmentions
      obtain rfl := Except.ok.inj hbody
      exact hspec spec (List.mem_singleton_self spec) hmentions

theorem clean_exportBlock {name schema : String} {description : Option String}
    (hname : Clean name.toList) (hschema : Clean schema.toList)
    (hdoc : AllClean (description.toList.flatMap documentedOf)) (annotate : Bool) :
    Clean (exportBlock name schema description annotate).toList := by
  have hcomment : Clean ((description.map fun text => jsdoc text ++ "\n").getD "").toList := by
    cases description with
    | none => decide
    | some text =>
        rw [Option.toList_some, List.flatMap_singleton] at hdoc
        exact (clean_jsdoc hdoc).append_string (by decide)
  have hannotation : Clean (if annotate then ": z.ZodTypeAny" else "").toList := by
    split <;> decide
  have hschemaName := clean_schemaName hname
  unfold exportBlock
  -- the pieces of the text, from the last to the first
  refine Clean.append_string (Clean.append_string ?_ hschemaName) (by decide)
  refine Clean.append_string (Clean.append_string (Clean.append_string ?_ (by decide)) hname)
    (by decide)
  refine Clean.append_string (Clean.append_string ?_ hschema) (by decide)
  refine Clean.append_string (Clean.append_string ?_ hannotation) (by decide)
  exact Clean.append_string (Clean.append_string hcomment (by decide)) hschemaName

/-- The strings that are in the validator of a definition as they are, apart from the names of other
definitions. -/
def copied (settings : Settings) (d : Definition) : List String :=
  d.name :: (settings.described d.description).toList.flatMap documentedOf ++ d.patterns

theorem clean_indentOf (settings : Settings) : Clean (indentOf settings).toList := by
  unfold indentOf
  cases settings.indent.getD .two <;> decide

/-- The code of a definition is clean if the strings and the names that it copies are. -/
theorem clean_declaration {settings : Settings} {t : Table} {plan : Plan} {p : Planned}
    {d : Definition} {decl : Declaration} (h : AllClean (copied settings d))
    (hmentions : AllClean d.mentions) (hdecl : declaration settings t plan p d = .ok decl) :
    Clean decl.code.toList := by
  obtain ⟨body, hbody, rfl⟩ := declaration_eq_ok_iff.mp hdecl
  obtain ⟨hnamed, hpatterns⟩ := List.forall_mem_append.mp h
  obtain ⟨hname, hdoc⟩ := List.forall_mem_cons.mp hnamed
  have hschema := clean_ofDefinition hmentions hpatterns hbody (clean_indentOf settings)
  exact clean_exportBlock hname (hschema.append_string (clean_describeCall _)) hdoc _

end Validator

end SchemaModels
