import SchemaModels.Proofs.Model.Comments
import SchemaModels.Proofs.Plan.Binding
import SchemaModels.Proofs.Text.Trim
import SchemaModels.Proofs.Unit.Exports
import SchemaModels.Proofs.Unit.Mentions
import SchemaModels.Proofs.Unit.Models

/-!
# Comments of a unit

In the text of a unit of models the comments above a union or an alias are the rows before its
assignment. A description is cut into comments at its line feeds only, and a discriminator not at
all, so that code stands after a carriage return in a description and after any break in a
discriminator.

* `LineEnding.Continues`: what has to follow a break for a comment to go on.
* `Definition.KeepsComments`: the descriptions and discriminators that stay comments.
* `GeneratedUnit.comments_ofTable`: the rows of each union and each alias.
-/

namespace SchemaModels

open Text

/-! ### Line endings -/

namespace LineEnding
variable (ending : LineEnding)

theorem chars_of_ne {c : Char} (hc : c ≠ '\n') : ending.chars c = [c] := by
  cases ending with
  | lf => rfl
  | crlf => exact if_neg hc

theorem flatMap_chars_of_not_mem {s : List Char} (h : '\n' ∉ s) : s.flatMap ending.chars = s := by
  have hchars : s.flatMap ending.chars = s.flatMap ([·]) :=
    List.flatMap_congr fun c hc => ending.chars_of_ne fun heq => h (heq ▸ hc)
  rw [hchars, List.flatMap_singleton']

/-- A line feed at the end is written at the end. -/
theorem getLast?_flatMap_chars {s : List Char} (h : s = [] ∨ s.getLast? = some '\n') :
    s.flatMap ending.chars = [] ∨ (s.flatMap ending.chars).getLast? = some '\n' := by
  rcases h with rfl | h
  · exact .inl rfl
  · obtain ⟨s, rfl⟩ := List.getLast?_eq_some_iff.mp h
    right
    rw [List.flatMap_append, List.flatMap_singleton]
    cases ending with
    | lf => exact List.getLast?_concat
    | crlf =>
        rw [chars, if_pos rfl, List.getLast?_append_cons]
        rfl

/-- The number sign that has to follow a break for a comment to go on. A carriage return and a line
feed are one break, unless the line feed is written with a carriage return of its own. -/
def Continues : LineEnding → Char → Char → Prop
  | lf => FollowsBreak '#'
  | crlf => fun c d => c = '\n' ∨ c = '\r' → d = '#'

instance : DecidableRel ending.Continues := fun c d =>
  match ending with
  | lf => inferInstanceAs (Decidable (FollowsBreak '#' c d))
  | crlf => inferInstanceAs (Decidable (_ → _))

theorem continues_of_ne (c d : Char) (hfeed : c ≠ '\n') (hreturn : c ≠ '\r') :
    ending.Continues c d := by
  cases ending with
  | lf => exact ⟨fun h => absurd h hfeed, fun h => absurd h hreturn⟩
  | crlf => exact fun h => absurd h (not_or.mpr ⟨hfeed, hreturn⟩)

theorem continues_mark : ending.Continues '\n' '#' := by
  cases ending with
  | lf => exact ⟨fun _ => rfl, fun _ => .inl rfl⟩
  | crlf => exact fun _ => rfl

theorem isChain_chars_append (s : List Char) :
    (ending.chars '\n' ++ s).IsChain (FollowsBreak '#') ↔
      ('\n' :: s).IsChain (FollowsBreak '#') := by
  cases ending with
  | lf => exact Iff.rfl
  | crlf => exact List.isChain_cons_cons.trans (and_iff_right (followsBreak_return_feed '#'))

/-- What follows a character that is written. -/
theorem forall_head?_chars (c : Char) (s : List Char) :
    (∀ d ∈ (s.flatMap ending.chars).head?, FollowsBreak '#' c d) ↔
      ∀ d ∈ s.head?, ending.Continues c d := by
  cases s with
  | nil => simp
  | cons d s =>
      by_cases hd : d = '\n'
      · cases ending <;> simp [chars, Continues, FollowsBreak, hd]
      · rw [List.flatMap_cons, ending.chars_of_ne hd]
        cases ending <;> simp [Continues, FollowsBreak, hd, or_imp]

/-- A text goes on as comments when it is written exactly when it does so before. -/
theorem isChain_flatMap_chars (s : List Char) :
    (s.flatMap ending.chars).IsChain (FollowsBreak '#') ↔ s.IsChain ending.Continues := by
  induction s with
  | nil => exact ⟨fun _ => .nil, fun _ => .nil⟩
  | cons c s ih =>
      have hcons : (ending.chars c ++ s.flatMap ending.chars).IsChain (FollowsBreak '#') ↔
          (c :: s.flatMap ending.chars).IsChain (FollowsBreak '#') := by
        by_cases hc : c = '\n'
        · rw [hc]
          exact ending.isChain_chars_append _
        · rw [ending.chars_of_ne hc, List.singleton_append]
      rw [List.flatMap_cons, hcons, List.isChain_cons, List.isChain_cons, ih,
        ending.forall_head?_chars]

/-- All rows begin as comments when the text goes on so after each break and one before it. -/
theorem forall_rows_write_iff (s : String) :
    (∀ row ∈ rows (ending.write s).toList, row.head? = some '#') ↔
      ('\n' :: s.toList).IsChain ending.Continues := by
  rw [toList_write, forall_rows_iff (by decide) (by decide), ← isChain_flatMap_chars,
    List.flatMap_cons, isChain_chars_append]

end LineEnding

/-! ### Descriptions and discriminators -/

/-- The description and the discriminator of a definition go on as comments after each break. A line
of the description has a line feed after it, and the discriminator a quote. -/
def Definition.KeepsComments (settings : Settings) (d : Definition) : Prop :=
  (∀ text, settings.described d.description = some text → ∀ line ∈ lines text.toList,
      (line ++ ['\n']).IsChain settings.lineEnding.Continues) ∧
    ∀ members field, d.kind = .union members (some field) →
      (field.toList ++ ['"']).IsChain settings.lineEnding.Continues

namespace Model
variable {settings : Settings} {t : Table} {isForward : String → Bool} {d : Definition}
  {body : Body}

/-- Unions and aliases are declared by assignments, with the discriminator of the definition. -/
theorem isAssignment_of_isEager (h : Body.ofDefinition settings t isForward d = .ok body)
    (heager : d.isEager = true) :
    body.isAssignment = true ∧ ∀ field,
      body.discriminator? = some field ↔ ∃ members, d.kind = .union members (some field) := by
  unfold Definition.isEager at heager
  rcases ofDefinition_eq_ok h with ⟨_, _, hk, _, rfl⟩ | ⟨_, hk, rfl⟩ | ⟨members, tag, hk, _, rfl⟩ |
    ⟨spec, hk, rfl⟩ <;> rw [hk] at heager ⊢
  · cases heager
  · cases heager
  · exact ⟨rfl, fun field => by simp [Body.discriminator?]⟩
  · exact ⟨rfl, fun field => by simp [Body.discriminator?]⟩

end Model

namespace GeneratedUnit

/-! ### Assignments -/

/-- The declaration of a union or an alias as it stands in the text of a unit: what comes above the
assignment, and the assignment, which is that of the definition without its description and its
discriminator. The name begins a row. -/
structure Assigns (u : GeneratedUnit) (settings : Settings) (d : Definition) (body : Model.Body)
    (code above assignment : String) : Prop where
  code_eq : trimBlock code = above ++ assignment
  isInfix : (settings.lineEnding.write (trimBlock code)).toList <:+: u.content.toList
  assignment_eq : assignment = trimBlock (body.untagged.text
    (Model.indentOf (Target.pydantic.backend.settle settings)) d.name none)
  rows_eq : rows (settings.lineEnding.write (trimBlock code)).toList =
    rows (settings.lineEnding.write above).toList ++
      rows (settings.lineEnding.write assignment).toList
  begins : ∃ value rest, rows (settings.lineEnding.write assignment).toList =
    (d.name.toList ++ " = ".toList ++ value) :: rest

theorem not_mem_of_isIdentifier {name : String} (h : Name.isIdentifier name = true) {c : Char}
    (hc : c.isAlphanum = false ∧ c ≠ '_') : c ∉ name.toList := fun hmem => by
  simpa [hc] using Name.forall_of_isIdentifier h c hmem

/-- The name that is assigned and the sign after it stand at the beginning of a row. -/
theorem exists_rows_assignment {name : String} (hname : Name.isIdentifier name = true)
    (ending : LineEnding) (value : List Char) : ∃ row rest,
      rows ((name.toList ++ " = ".toList ++ value).flatMap ending.chars) =
        (name.toList ++ " = ".toList ++ row) :: rest := by
  have hfeed : '\n' ∉ name.toList ++ [' ', '='] := by
    simpa using not_mem_of_isIdentifier hname (by decide)
  have hreturn : '\r' ∉ name.toList ++ [' ', '='] := by
    simpa using not_mem_of_isIdentifier hname (by decide)
  have hsplit : ∀ z, name.toList ++ " = ".toList ++ z = name.toList ++ [' ', '='] ++ ' ' :: z := by
    simp
  obtain ⟨row, rest, hrows⟩ := exists_rows_eq_cons hfeed hreturn (c := ' ') (by decide) (by decide)
    (value.flatMap ending.chars)
  refine ⟨row, rest, ?_⟩
  rw [hsplit, hsplit, List.flatMap_append, ending.flatMap_chars_of_not_mem hfeed, List.flatMap_cons,
    ending.chars_of_ne (by decide), List.singleton_append]
  exact hrows

/-- The name and the sign after it are not cut from the end of an assignment. -/
theorem dropTrailing_assignment (a name value : List Char) :
    dropTrailing (· == '\n') (a ++ (name ++ " = ".toList ++ value)) =
      a ++ (name ++ " = ".toList ++ dropTrailing (· == '\n') value) := by
  have hlast : ∀ c ∈ (a ++ (name ++ " = ".toList)).getLast?, (c == '\n') = false := by
    intro c hc
    rw [List.getLast?_append_of_ne_nil _ (by simp),
      List.getLast?_append_of_ne_nil _ (by decide)] at hc
    obtain rfl : ' ' = c := Option.some.inj hc
    decide
  rw [← List.append_assoc, dropTrailing_append hlast, List.append_assoc]

/-- The code of an assignment, without the line feeds at its end. -/
theorem trimBlock_text {body : Model.Body} (hbody : body.isAssignment = true)
    (indent name : String) (description : Option String) :
    trimBlock (body.text indent name description) =
        String.ofList (Model.commentBlock (Model.comments description body.discriminator?)) ++
          trimBlock (body.untagged.text indent name none) ∧
      ∃ value, (trimBlock (body.untagged.text indent name none)).toList =
        name.toList ++ " = ".toList ++ value := by
  obtain ⟨value, hvalue⟩ := Model.exists_toList_untagged hbody indent name
  have huntagged : (trimBlock (body.untagged.text indent name none)).toList =
      name.toList ++ " = ".toList ++ dropTrailing (· == '\n') value := by
    rw [toList_trimBlock, hvalue]
    exact dropTrailing_assignment [] name.toList value
  refine ⟨String.toList_injective ?_, _, huntagged⟩
  rw [String.toList_append, String.toList_ofList, huntagged, toList_trimBlock,
    Model.toList_text_assignment hbody, hvalue]
  exact dropTrailing_assignment _ name.toList value

section ofTable
variable {settings : Settings} {t : Table} {u : GeneratedUnit}
  (h : ofTable Target.pydantic.backend settings t = .ok u)
include h

/-- The declaration of a union or an alias, whose name is an identifier, is its comments and its
assignment. -/
theorem assigns_of_isAssignment {i : Nat} {decl : Declaration} {d : Definition} {body : Model.Body}
    (hdecl : u.declarations[i]? = some decl) (hbody : body.isAssignment = true)
    (hname : Name.isIdentifier d.name = true) {description : Option String}
    (hcode : decl.code = body.text
      (Model.indentOf (Target.pydantic.backend.settle settings)) d.name description) :
    u.Assigns settings d body decl.code
      (String.ofList (Model.commentBlock (Model.comments description body.discriminator?)))
      (trimBlock (body.untagged.text
        (Model.indentOf (Target.pydantic.backend.settle settings)) d.name none)) := by
  have hinfix := shows_code h (List.mem_of_getElem? hdecl)
  obtain ⟨heq, value, hvalue⟩ := trimBlock_text hbody
    (Model.indentOf (Target.pydantic.backend.settle settings)) d.name description
  rw [← hcode] at heq
  refine ⟨heq, hinfix, rfl, ?_, ?_⟩
  · simp only [heq, LineEnding.toList_write, String.toList_append, String.toList_ofList,
      List.flatMap_append]
    exact rows_append (settings.lineEnding.getLast?_flatMap_chars
      (Model.getLast?_commentBlock _)) _
  · rw [settings.lineEnding.toList_write, hvalue]
    exact exists_rows_assignment hname settings.lineEnding value

/-- In a unit of models the rows above the assignment of a union or an alias, whose name is an
identifier, are comments exactly when its description and its discriminator keep comments. -/
theorem comments_ofTable : ∀ d ∈ t.definitions, d.isEager = true →
    Name.isIdentifier d.name = true → ∃ i decl body above assignment,
      u.declarations[i]? = some decl ∧ u.DeclaresModel settings t i d body ∧
        u.Assigns settings d body decl.code above assignment ∧
        ((∀ row ∈ rows (settings.lineEnding.write above).toList, row.head? = some '#') ↔
          d.KeepsComments settings) := by
  intro d hd heager hname
  have hbound : d ∈ (t.bound settings).definitions := by
    unfold Table.bound
    split
    · exact (Table.mem_bindRecords_of_isEager heager).mpr hd
    · exact hd
  obtain ⟨i, body, hdeclares⟩ := exists_declaresModel h hbound
  have ⟨p, decl, _, _, hof, hdecl, _, hcode⟩ := hdeclares
  obtain ⟨hbody, htag⟩ := Model.isAssignment_of_isEager hof heager
  have hassigns := assigns_of_isAssignment h hdecl hbody hname hcode
  refine ⟨i, decl, body, _, _, hdecl, hdeclares, hassigns, ?_⟩
  rw [settings.lineEnding.forall_rows_write_iff, String.toList_ofList,
    Model.isChain_commentBlock settings.lineEnding.continues_mark
      fun c hc => Model.head?_of_mem_comments hc,
    Model.forall_comments_iff settings.lineEnding.continues_of_ne]
  refine and_congr_right fun _ => ?_
  simp only [htag]
  exact ⟨fun hall members field hk => hall field ⟨members, hk⟩,
    fun hall field ⟨members, hk⟩ => hall members field hk⟩

end ofTable

end GeneratedUnit

/-- Codes with a description, and items that are told apart by a field. -/
def Table.codes (note tag : String) : Table where
  root := { metadataType := "Code", rootType := "Item" }
  definitions :=
    [⟨"Code", some note, .typeAlias { shape := .primitive .string }⟩,
     ⟨"Item", none, .union ["Code"] (some tag)⟩]
  names_nodup := show ["Code", "Item"].Nodup by decide

namespace GeneratedUnit

theorem comments_ofTable_codes : ∃ u d,
    ofTable Target.pydantic.backend {} (Table.codes "A code.\r\nTwo letters." "kind") = .ok u ∧
      d ∈ (Table.codes "A code.\r\nTwo letters." "kind").definitions ∧ d.isEager = true ∧
      Name.isIdentifier d.name = true ∧ d.description = some "A code.\r\nTwo letters." ∧
      ∃ i decl body above assignment, u.declarations[i]? = some decl ∧
        u.DeclaresModel {} (Table.codes "A code.\r\nTwo letters." "kind") i d body ∧
        u.Assigns {} d body decl.code above assignment ∧
        ∀ row ∈ rows (LineEnding.lf.write above).toList, row.head? = some '#' := by
  have h : ofTable Target.pydantic.backend {}
    (Table.codes "A code.\r\nTwo letters." "kind") = .ok _ := rfl
  obtain ⟨i, decl, body, above, assignment, hdecl, hdeclares, hassigns, hrows⟩ :=
    comments_ofTable h _ List.mem_cons_self rfl (by decide)
  refine ⟨_, _, h, List.mem_cons_self, rfl, by decide, rfl, i, decl, body, above, assignment, hdecl,
    hdeclares, hassigns, hrows.mpr ⟨?_, fun members field hk => nomatch hk⟩⟩
  intro text htext
  obtain rfl : "A code.\r\nTwo letters." = text := Option.some.inj htext
  decide

/-- Code after a carriage return in a description, or after a line feed in a discriminator, stands
on a row of its own before the assignment. -/
theorem comments_end_early : ∃ u code item,
    ofTable Target.pydantic.backend {}
      (Table.codes "A code.\rimport os" "kind\nimport os") = .ok u ∧
      u.declarations[0]? = some code ∧ u.declarations[1]? = some item ∧
      rows code.code.toList =
        ["# A code.".toList, "import os".toList, "Code = str".toList] ∧
      rows item.code.toList =
        ["# Discriminated by \"kind".toList, "import os\"".toList, "Item = Code".toList] := by
  exact ⟨_, _, _, rfl, rfl, rfl, by decide, by decide⟩

end GeneratedUnit

end SchemaModels
