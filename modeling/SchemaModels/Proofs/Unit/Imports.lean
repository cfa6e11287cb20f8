import SchemaModels.Proofs.Model.Tokens
import SchemaModels.Proofs.Unit.Models
import SchemaModels.Proofs.Unit.Names

/-!
# The imports of a unit of models

A declaration records the constructs that its code uses while the code is put together, and the
header imports what is recorded. What is recorded is what is used: the code of every declaration is
cut into pieces, and the constructs in the pieces of all declarations are those that the header
imports.

* `WrittenIn`: the pieces of the code at a place of a unit.
* `exists_writtenIn`: every declaration is written in pieces, which have the constructs it records.
* `not_holds_of_lower`: no construct is hidden in a fixed piece.
* `imports_ofTable`: the header imports a construct exactly when some declaration uses it.
-/

namespace SchemaModels

namespace Model

/-- No construct is named in a fixed piece without capitals. -/
theorem not_holds_of_lower {settings : Settings} {s : String} {i : Import}
    (hs : (Piece.fixed s).isLower = true) (hi : i ∈ allConstructs settings) :
    ¬Holds s i.name := by
  have hcapital : ∃ c ∈ i.name.toList, c.isUpper = true := by
    have hall : ∀ forbidsExtra : Bool, ∀ j ∈ allConstructs { forbidExtra := forbidsExtra },
        j.name.toList.any Char.isUpper = true := by decide
    exact List.any_eq_true.mp (hall settings.forbidExtra i hi)
  rintro ⟨before, after, rfl⟩
  obtain ⟨c, hc, hupper⟩ := hcapital
  have hmem : c ∈ (before ++ i.name ++ after).toList := by simp [hc]
  have hlower := List.all_eq_true.mp hs c hmem
  rw [hupper] at hlower
  exact absurd hlower (by decide)

end Model

namespace GeneratedUnit

/-- A place of a unit is written in pieces: those of a body, or those of the top-level type after
all definitions. -/
def WrittenIn (u : GeneratedUnit) (settings : Settings) (t : Table) (k : Nat)
    (pieces : List Model.Piece) : Prop :=
  let settled := Model.backend.settle settings
  (∃ d body, u.DeclaresModel settings t k d body ∧
    pieces = body.pieces (Model.indentOf settled) d.name (settled.described d.description)) ∨
  (k = u.plan.length ∧ pieces = Model.rootPieces settled (t.bound settings))

section ofTable
variable {settings : Settings} {t : Table} {u : GeneratedUnit}
  (h : ofTable Model.backend settings t = .ok u)
include h

/-- The pieces at a place are the code of the declaration there, and have the constructs that it
records. -/
theorem declaration_of_writtenIn {k : Nat} {pieces : List Model.Piece}
    (hk : u.WrittenIn settings t k pieces) : ∃ decl, u.declarations[k]? = some decl ∧
      Model.codeOf pieces = decl.code ∧ Model.Cut pieces ∧
      ∀ i, i ∈ Model.uses pieces ↔ i ∈ decl.imports := by
  rcases hk with ⟨d, body, ⟨p, decl, hp, hd, hbody, hdecl, _, hcode⟩, rfl⟩ | ⟨rfl, rfl⟩
  · obtain ⟨d', decl', hd', hdecl', hok⟩ := getElem?_declarations h hp
    obtain rfl : d' = d := Option.some.inj (hd'.symm.trans hd)
    obtain rfl : decl' = decl := Option.some.inj (hdecl'.symm.trans hdecl)
    obtain ⟨body', hbody', himports⟩ := (Model.declaration_eq_ok_iff u.plan).mp hok
    obtain rfl : body' = body := Except.ok.inj (hbody'.symm.trans hbody)
    refine ⟨decl', hdecl, (Model.Body.codeOf_pieces body').trans hcode.symm,
      Model.Body.cut_pieces (Model.isFixed_indentOf _) body', fun i => ?_⟩
    rw [Model.Body.mem_uses_pieces, himports]
    rfl
  · refine ⟨_, getElem?_root h, Model.codeOf_rootPieces _ _, Model.cut_rootPieces _ _,
      fun i => ?_⟩
    rw [Model.uses_rootPieces]
    rfl

/-- Every declaration is written in pieces. -/
theorem exists_writtenIn {k : Nat} (hk : k < u.declarations.length) :
    ∃ pieces, u.WrittenIn settings t k pieces := by
  rw [length_declarations h] at hk
  rcases Nat.lt_succ_iff_lt_or_eq.mp hk with hlt | heq
  · obtain ⟨d, body, _, hdeclares⟩ :=
      exists_declaresModel_of_planned h (List.getElem?_eq_getElem hlt)
    exact ⟨_, .inl ⟨d, body, hdeclares, rfl⟩⟩
  · exact ⟨_, .inr ⟨heq, rfl⟩⟩

/-- The header, with which a unit begins, imports exactly the constructs that the declarations use,
each from its module. The code of every declaration stands in the unit and is cut into pieces in
which the constructs are told by their roles, and in the fixed ones no construct is named. -/
theorem imports_ofTable :
    ((∃ rest, u.content = joinBlocks Model.backend.separator settings.lineEnding
        (u.header settings t.root :: rest)) ∧
      u.Shows settings (u.header settings t.root)) ∧
    (∀ k decl, u.declarations[k]? = some decl → u.Shows settings decl.code ∧
      ∃ pieces, u.WrittenIn settings t k pieces ∧ Model.codeOf pieces = decl.code ∧
        ∀ s, .fixed s ∈ pieces → ∀ i ∈ Model.allConstructs settings, ¬Holds s i.name) ∧
    ∀ i, (∃ s ∈ u.importTable, s.source = i.source ∧ i.name ∈ s.names) ↔
      ∃ k pieces, u.WrittenIn settings t k pieces ∧ i ∈ Model.uses pieces := by
  obtain ⟨rest, hcontent⟩ := exists_rest_of_header h
  have hheader := shows_of_mem hcontent List.mem_cons_self
  refine ⟨⟨⟨rest, hcontent⟩, hheader⟩, fun k decl hk => ?_, fun i => ?_⟩
  · refine ⟨shows_code h (List.mem_of_getElem? hk), ?_⟩
    obtain ⟨pieces, hpieces⟩ := exists_writtenIn h (List.getElem?_eq_some_iff.mp hk).1
    obtain ⟨decl', hk', hcode, hcut, -⟩ := declaration_of_writtenIn h hpieces
    obtain rfl : decl' = decl := Option.some.inj (hk'.symm.trans hk)
    exact ⟨pieces, hpieces, hcode, fun s hs i hi => Model.not_holds_of_lower (hcut.lower _ hs) hi⟩
  rw [importTable, Model.exists_statement_iff, List.mem_flatMap]
  constructor
  · rintro ⟨decl, hdecl, hi⟩
    obtain ⟨k, hk⟩ := List.mem_iff_getElem?.mp hdecl
    obtain ⟨pieces, hpieces⟩ := exists_writtenIn h (List.getElem?_eq_some_iff.mp hk).1
    obtain ⟨decl', hk', -, -, huses⟩ := declaration_of_writtenIn h hpieces
    obtain rfl : decl' = decl := Option.some.inj (hk'.symm.trans hk)
    exact ⟨k, pieces, hpieces, (huses i).mpr hi⟩
  · rintro ⟨k, pieces, hpieces, hi⟩
    obtain ⟨decl, hk, -, -, huses⟩ := declaration_of_writtenIn h hpieces
    exact ⟨decl, List.mem_of_getElem? hk, (huses i).mp hi⟩

end ofTable

theorem imports_ofTable_cards : ∃ u, ofTable Model.backend {} Table.cards = .ok u ∧
    (∃ s ∈ u.importTable, s.source = "typing" ∧ "List" ∈ s.names) ∧
    ∃ k pieces, u.WrittenIn {} Table.cards k pieces ∧
      Model.typing "List" ∈ Model.uses pieces := by
  obtain ⟨u, h, himported⟩ : ∃ u, ofTable Model.backend {} Table.cards = .ok u ∧
      ∃ s ∈ u.importTable, s.source = "typing" ∧ "List" ∈ s.names := ⟨_, rfl, by decide⟩
  exact ⟨u, h, himported, ((imports_ofTable h).2.2 (Model.typing "List")).mp himported⟩

end GeneratedUnit

end SchemaModels
