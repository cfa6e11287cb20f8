import SchemaModels.Proofs.Text.Parts
import SchemaModels.Proofs.Validator.SchemaExpr
import SchemaModels.Validator.Backend

/-!
# The code of validators

* `declaration_eq_ok_iff`: the declaration of a definition is its body, printed and exported.
* `mentions_ofDefinition`: a body names the definitions that its definition refers to.
* `holds_rootFields`: the names in the code of the top-level type.
-/

namespace SchemaModels.Validator

open Text

variable {settings : Settings} {t : Table} {plan : Plan} {isForward : String → Bool}
  {d : Definition}

/-- The schema of a body, with a description. -/
def describedText (settings : Settings) (d : Definition) (body : Body) : String :=
  body.text (indentOf settings) ++ ((settings.described d.description).map describeCall).getD ""

theorem declaration_eq_ok_iff {p : Planned} {decl : Declaration} :
    declaration settings t plan p d = .ok decl ↔
      ∃ body, Body.ofDefinition settings t plan p.isForward d = .ok body ∧
        decl = .ofPlanned p
          (exportBlock d.name (describedText settings d body) (settings.described d.description)
            (isRecursive plan d.name)) [] := by
  unfold declaration
  cases Body.ofDefinition settings t plan p.isForward d <;>
    simp [bind, Except.bind, pure, Except.pure, describedText, eq_comm]

/-! ### The names in a body -/

theorem mentionsAll_ofReferences : ∀ members : List String,
    SchemaExpr.mentionsAll (members.map (SchemaExpr.ofReference isForward)) =
      members.map fun n => ⟨n, isForward n⟩
  | [] => rfl
  | n :: rest => by
      rw [List.map_cons, SchemaExpr.mentionsAll, SchemaExpr.mentions_ofReference,
        mentionsAll_ofReferences rest]
      rfl

/-- The fields of a record name what the record refers to. -/
theorem mentions_fields (record : Record) : ∀ fields : List (String × Spec),
    (fields.map fun f => Field.ofSpec settings t isForward f.1 (record.isRequired f.1) f.2).flatMap
      (fun f => f.schema.mentions) =
      (fields.flatMap fun f => f.2.mentions).map fun n => ⟨n, isForward n⟩
  | [] => rfl
  | f :: fields => by
      rw [List.map_cons, List.flatMap_cons, List.flatMap_cons, List.map_append,
        mentions_fields record fields, ← SchemaExpr.mentions_ofSpec]
      rfl

/-- The body of a definition names what the definition refers to. -/
theorem mentions_ofDefinition {body : Body}
    (h : Body.ofDefinition settings t plan isForward d = .ok body) :
    body.mentions = d.mentions.map fun n => ⟨n, isForward n⟩ := by
  unfold Definition.mentions
  unfold Body.ofDefinition at h
  cases hk : d.kind with
  | enum values =>
      rw [hk] at h
      obtain rfl := Except.ok.inj h
      rfl
  | object record =>
      rw [hk] at h
      obtain rfl := Except.ok.inj h
      exact mentions_fields record record.fields
  | union members discriminator =>
      rw [hk] at h
      rcases members with _ | ⟨first, _ | ⟨second, rest⟩⟩
      · exact absurd h (by simp)
      · obtain rfl := Except.ok.inj h
        exact SchemaExpr.mentions_ofReference isForward first
      · obtain rfl := Except.ok.inj h
        exact mentionsAll_ofReferences (first :: second :: rest)
  | typeAlias spec =>
      rw [hk] at h
      obtain rfl := Except.ok.inj h
      exact SchemaExpr.mentions_ofSpec isForward spec

theorem holds_exportBlock (name schema : String) (description : Option String) (annotate : Bool) :
    Holds (exportBlock name schema description annotate) schema := by
  unfold exportBlock
  -- the constant's schema stands before six pieces of text and after one
  iterate 6 refine Holds.append_right ?_ _
  exact (Holds.refl schema).append_left _

/-! ### The top-level type -/

/-- The lines of the two fields of the top-level type, with the names of their schemas. -/
def rootFields (indent : String) (root : Root) : String :=
  indent ++ "metadata: " ++ written ⟨root.metadataType, false⟩ ++ "," ++ "\n" ++
    indent ++ "root: " ++ written ⟨root.rootType, false⟩ ++ ","

/-- The code of the top-level type has its two fields on lines of their own. -/
theorem holds_rootFields (settings : Settings) (t : Table) :
    Holds (schemaType settings t).code ("\n" ++ rootFields (indentOf settings) t.root ++ "\n") := by
  have hlines : Body.linesBetween "z.object(\x7b" "\x7d)" (indentOf settings)
      ["metadata: " ++ schemaName t.root.metadataType ++ ",",
        "root: " ++ schemaName t.root.rootType ++ ","] =
        "z.object(\x7b" ++ ("\n" ++ rootFields (indentOf settings) t.root ++ "\n") ++ "\x7d)" := by
    unfold Body.linesBetween
    rw [List.map_cons, List.map_cons, List.map_nil, String.intercalate_cons_cons,
      String.intercalate_singleton]
    simp only [rootFields, written, String.append_assoc, Bool.false_eq_true, if_false]
  simp only [schemaType, Declaration.ofRoot]
  iterate 3 refine Holds.append_right ?_ _
  obtain ⟨before, after, hcode⟩ := holds_exportBlock t.root.name
    (Body.linesBetween "z.object(\x7b" "\x7d)" (indentOf settings)
      ["metadata: " ++ schemaName t.root.metadataType ++ ",",
        "root: " ++ schemaName t.root.rootType ++ ","])
    (settings.described (some t.root.descriptionText)) false
  rw [hcode, hlines]
  exact ((((Holds.refl _).append_left _).append_right _).append_left before).append_right after

end SchemaModels.Validator
