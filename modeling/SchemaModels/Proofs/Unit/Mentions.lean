import SchemaModels.Proofs.Model.Tokens
import SchemaModels.Proofs.Unit.Blocks
import SchemaModels.Proofs.Validator.Tokens

/-!
# Mentions in units

The planner reads the references of a definition, and each target builds types of its own from it.
Both see the same names, and a name is written for later exactly where its declaration does not
stand before.

* `Target.exists_prints_of_declaration`: the types of a declaration name what its definition refers
  to.
* `Target.textOf_of_prints`, `Target.mentionsIn_of_prints`, `Target.told_of_prints`: the tokens of
  its code, which tell these names and their forms.
* `GeneratedUnit.MentionsInOrder`: what holds of the names in one declaration of a unit.
* `mentions_ofTable`: it holds of each declaration, and the top-level type comes last.
-/

namespace SchemaModels

/-! ### Declarations of a target -/

namespace Target

/-- The form of a mention in code of a target. -/
def written : Target → Mention → String
  | pydantic => Model.written
  | zod => Validator.written

/-- The lines of the two fields of the top-level type, with bare names. -/
def rootFields : Target → String → Root → String
  | pydantic => Model.rootFields
  | zod => Validator.rootFields

/-- What distinguishes the form of a name that is written for later. -/
def mark : Target → String
  | pydantic => "\""
  | zod => "lazy"

/-- A declaration is the body of a definition, printed, whose types name definitions. Its code
consists of the tokens of this body. -/
def Prints (target : Target) (settings : Settings) (t : Table) (plan : Plan) (p : Planned)
    (d : Definition) (decl : Declaration) (ms : List Mention) (tokens : List Token) : Prop :=
  match target with
  | pydantic => ∃ body, Model.Body.ofDefinition settings t p.isForward d = .ok body ∧
      decl.code =
        body.text (Model.indentOf settings) d.name (settings.described d.description) ∧
      ms = body.mentions ∧
      tokens = body.tokens (Model.indentOf settings) d.name (settings.described d.description)
  | zod => ∃ body, Validator.Body.ofDefinition settings t plan p.isForward d = .ok body ∧
      decl.code =
        Validator.exportBlock d.name (Validator.describedText settings d body)
          (settings.described d.description) (Validator.isRecursive plan d.name) ∧
      ms = body.mentions ∧ tokens = Validator.declarationTokens settings plan d body

variable {target : Target} {settings : Settings} {t : Table} {plan : Plan} {p : Planned}
  {d : Definition} {decl : Declaration}

theorem name_of_declaration (h : target.backend.declaration settings t plan p d = .ok decl) :
    decl.name = p.name := by
  cases target with
  | pydantic =>
      obtain ⟨_, _, rfl⟩ := (Model.declaration_eq_ok_iff plan).mp h
      rfl
  | zod =>
      obtain ⟨_, _, rfl⟩ := Validator.declaration_eq_ok_iff.mp h
      rfl

/-- The types of a declaration name what its definition refers to, for later where the planner
says so. -/
theorem exists_prints_of_declaration
    (h : target.backend.declaration settings t plan p d = .ok decl) :
    ∃ tokens, target.Prints settings t plan p d decl
      (d.mentions.map fun n => ⟨n, p.isForward n⟩) tokens := by
  cases target with
  | pydantic =>
      obtain ⟨body, hbody, rfl⟩ := (Model.declaration_eq_ok_iff plan).mp h
      exact ⟨_, body, hbody, rfl, (Model.mentions_ofDefinition hbody).symm, rfl⟩
  | zod =>
      obtain ⟨body, hbody, rfl⟩ := Validator.declaration_eq_ok_iff.mp h
      exact ⟨_, body, hbody, rfl, (Validator.mentions_ofDefinition hbody).symm, rfl⟩

section Prints
variable {ms : List Mention} {tokens : List Token}
  (h : target.Prints settings t plan p d decl ms tokens)
include h

/-- The tokens of a declaration are its code. -/
theorem textOf_of_prints : textOf target.written tokens = decl.code := by
  cases target with
  | pydantic =>
      obtain ⟨body, _, hcode, _, rfl⟩ := h
      exact body.textOf_tokens.trans hcode.symm
  | zod =>
      obtain ⟨body, _, hcode, _, rfl⟩ := h
      exact (Validator.textOf_declarationTokens settings plan d body).trans hcode.symm

/-- The names in the tokens of a declaration are those in its types. -/
theorem mentionsIn_of_prints : mentionsIn tokens = ms := by
  cases target with
  | pydantic =>
      obtain ⟨body, _, _, rfl, rfl⟩ := h
      exact body.mentionsIn_tokens
  | zod =>
      obtain ⟨body, _, _, rfl, rfl⟩ := h
      exact Validator.mentionsIn_declarationTokens settings plan d body

/-- A name is for later only where its own token says so. -/
theorem told_of_prints : Told target.mark tokens := by
  cases target with
  | pydantic =>
      obtain ⟨body, _, _, _, rfl⟩ := h
      exact (body.cut_pieces (Model.isFixed_indentOf settings)).told
  | zod =>
      obtain ⟨body, _, _, _, rfl⟩ := h
      exact Validator.told_declarationTokens settings plan d body

end Prints

theorem holds_rootFields (target : Target) (settings : Settings) (t : Table) :
    Holds (target.backend.schemaType (target.backend.settle settings) t).code
      ("\n" ++ target.rootFields (target.backend.indent settings) t.root ++ "\n") := by
  cases target with
  | pydantic => exact Model.holds_rootFields _ t
  | zod => exact Validator.holds_rootFields _ t

end Target

/-! ### Declarations of a unit -/

namespace GeneratedUnit

/-- The names in the types of a declaration: they are the dependencies of the definition that is
planned at its place, each has its declaration among those of the plan, and it is written bare when
that declaration stands before, else for later. The names are told from the rest of the code by the
tokens of which it consists. -/
structure MentionsInOrder (u : GeneratedUnit) (target : Target) (settings : Settings) (t : Table)
    (i : Nat) (p : Planned) (decl : Declaration) (ms : List Mention) (tokens : List Token) :
    Prop where
  name_eq : decl.name = p.name
  prints : ∃ d, (t.bound settings).get? p.name = some d ∧
    target.Prints (target.backend.settle settings) (t.bound settings) u.plan p d decl ms tokens
  textOf_eq : textOf target.written tokens = decl.code
  mentionsIn_eq : mentionsIn tokens = ms
  told : Told target.mark tokens
  shows : u.Shows settings decl.code
  mem_iff : ∀ n, n ∈ ms.map Mention.name ↔ n ∈ p.dependencies
  exists_declaration : ∀ m ∈ ms, ∃ (j : Nat) (e : Declaration), j < u.plan.length ∧
    u.declarations[j]? = some e ∧ e.name = m.name
  deferred_iff : ∀ m ∈ ms, ∀ (j : Nat) (e : Declaration), j < u.plan.length →
    u.declarations[j]? = some e → e.name = m.name → (m.deferred = false ↔ j < i)

section ofTable
variable {target : Target} {settings : Settings} {t : Table} {u : GeneratedUnit}
  (h : ofTable target.backend settings t = .ok u)
include h

/-- A declaration before the top-level type has the name that is planned at its place. -/
theorem exists_planned {j : Nat} {e : Declaration} (hj : j < u.plan.length)
    (he : u.declarations[j]? = some e) : ∃ q, u.plan[j]? = some q ∧ e.name = q.name := by
  have hq := List.getElem?_eq_getElem hj
  obtain ⟨d, decl, _, hdecl, hcode⟩ := getElem?_declarations h hq
  obtain rfl : decl = e := Option.some.inj (hdecl.symm.trans he)
  exact ⟨_, hq, Target.name_of_declaration hcode⟩

/-- What is planned is declared at the same place. -/
theorem exists_declaration_of_planned {j : Nat} {q : Planned} (hq : u.plan[j]? = some q) :
    ∃ (k : Nat) (e : Declaration), k < u.plan.length ∧ u.declarations[k]? = some e ∧
      e.name = q.name := by
  obtain ⟨_, e, _, he, hcode⟩ := getElem?_declarations h hq
  exact ⟨j, e, (List.getElem?_eq_some_iff.mp hq).1, he, Target.name_of_declaration hcode⟩

/-- The names in the types of a declaration. -/
theorem exists_mentionsInOrder {i : Nat} {p : Planned} (hp : u.plan[i]? = some p) :
    ∃ decl ms tokens, u.declarations[i]? = some decl ∧
      u.MentionsInOrder target settings t i p decl ms tokens := by
  have hb : (t.bound settings).graph.IsComponents (t.bound settings).blocks :=
    Table.isComponents_blocks
  have hplan := (exists_declare h).1
  have hmem : p ∈ u.plan := List.mem_of_getElem? hp
  obtain ⟨d, decl, hd, hdecl, hcode⟩ := getElem?_declarations h hp
  obtain ⟨d', hd', hdeps⟩ := exists_get? h hmem
  obtain rfl : d' = d := Option.some.inj (hd'.symm.trans hd)
  obtain ⟨tokens, hprints⟩ := Target.exists_prints_of_declaration hcode
  have hdep : ∀ n, n ∈ d'.mentions ↔ n ∈ p.dependencies := fun n => by
    rw [hdeps, Definition.mem_references]
  refine ⟨decl, _, tokens, hdecl, Target.name_of_declaration hcode, ⟨d', hd, hprints⟩,
    Target.textOf_of_prints hprints, Target.mentionsIn_of_prints hprints,
    Target.told_of_prints hprints, shows_code h (List.mem_of_getElem? hdecl), fun n => ?_,
    fun m hm => ?_, fun m hm j e hj he hname => ?_⟩
  · rw [List.map_map, ← hdep]
    simp
  · obtain ⟨n, hn, rfl⟩ := List.mem_map.mp hm
    obtain ⟨j, q, hq, rfl⟩ :=
      Table.exists_planned_of_dependency hb hplan hmem ((hdep n).mp hn)
    exact exists_declaration_of_planned h hq
  · obtain ⟨n, hn, rfl⟩ := List.mem_map.mp hm
    obtain ⟨q, hq, heq⟩ := exists_planned h hj he
    obtain rfl : q.name = n := heq.symm.trans hname
    have hforward := Table.mem_forwardRefs_iff hb hplan hp hq
    show p.forwardRefs.contains q.name = false ↔ j < i
    rw [← Bool.not_eq_true, List.contains_iff_mem, hforward, not_and, Nat.not_le]
    exact ⟨fun hlt => hlt ((hdep _).mp hn), fun hlt _ => hlt⟩

/-- The types of the root are declared among the definitions. -/
theorem exists_declaration_of_root {n : String}
    (hn : n = t.root.metadataType ∨ n = t.root.rootType) :
    ∃ (j : Nat) (e : Declaration), j < u.plan.length ∧ u.declarations[j]? = some e ∧
      e.name = n := by
  obtain ⟨_, hroot, _⟩ := Table.planWith_eq_ok_iff.mp (exists_declare h).1
  unfold Table.RootResolved at hroot
  rw [Table.root_bound] at hroot
  have hmem : n ∈ (t.bound settings).names := by
    rcases hn with rfl | rfl
    · exact hroot.1
    · exact hroot.2
  obtain ⟨q, hq, rfl⟩ := List.mem_map.mp ((perm_names h).mem_iff.mpr hmem)
  obtain ⟨j, hj⟩ := List.mem_iff_getElem?.mp hq
  exact exists_declaration_of_planned h hj

/-- In a unit of either target, the types of each declaration name the dependencies that were
planned, bare if and only if their declarations stand before. The top-level type comes last and
names the types of its two fields, which are declared, bare. The code of the declarations stands in
the text of the unit in this order. -/
theorem mentions_ofTable :
    (∀ (i : Nat) (p : Planned), u.plan[i]? = some p → ∃ decl ms tokens,
      u.declarations[i]? = some decl ∧ u.MentionsInOrder target settings t i p decl ms tokens) ∧
    (∃ root, u.declarations[u.plan.length]? = some root ∧
      u.declarations.length = u.plan.length + 1 ∧ u.Shows settings root.code ∧
      Holds root.code
        ("\n" ++ target.rootFields (target.backend.indent settings) t.root ++ "\n") ∧
      ∀ n, n = t.root.metadataType ∨ n = t.root.rootType → ∃ (j : Nat) (e : Declaration),
        j < u.plan.length ∧ u.declarations[j]? = some e ∧ e.name = n) ∧
    ∃ blocks, u.content = joinBlocks target.backend.separator settings.lineEnding blocks ∧
      (u.declarations.map Declaration.code).Sublist blocks := by
  refine ⟨fun i p hp => exists_mentionsInOrder h hp, ?_, exists_sublist_codes h⟩
  refine ⟨_, getElem?_root h, length_declarations h,
    shows_code h (List.mem_of_getElem? (getElem?_root h)), ?_,
    fun n hn => exists_declaration_of_root h hn⟩
  have hfields := target.holds_rootFields settings (t.bound settings)
  rw [Table.root_bound] at hfields
  exact hfields

end ofTable

theorem mentions_ofTable_cards : ∃ u p, ofTable Target.zod.backend {} Table.cards = .ok u ∧
    u.plan[1]? = some p ∧ p.name = "Card" ∧ p.forwardRefs = ["UIComponent"] ∧
    ∃ decl ms tokens, u.declarations[1]? = some decl ∧
      u.MentionsInOrder .zod {} Table.cards 1 p decl ms tokens := by
  have h : ofTable Target.zod.backend {} Table.cards = .ok _ := rfl
  exact ⟨_, _, h, rfl, rfl, rfl, (mentions_ofTable h).1 1 _ rfl⟩

end GeneratedUnit

end SchemaModels
