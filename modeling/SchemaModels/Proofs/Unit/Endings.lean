import SchemaModels.Proofs.Text.Replace
import SchemaModels.Proofs.Unit.Breaks
import SchemaModels.Proofs.Unit.Comments

/-!
# Line endings of a unit

A unit is one text, whose line feeds are written in the configured line ending. A carriage return
before a line feed of the text stays there, so the unit keeps to its line ending exactly when the
text has none, in either line ending.

* `LineEnding.Uses`: a text keeps to a line ending.
* `LineEnding.uses_write_iff`: a text that is written keeps to its line ending exactly when no line
  feed follows a carriage return before.
* `replaceAll_write`: a text in CR LF gives the text back.
* `lineEndings_ofTable`: the units of a table in the two line endings.
-/

namespace SchemaModels

open Text

/-! ### Carriage returns before line feeds -/

namespace Text

theorem endRun_append_replicate (c : Char) (a : List Char) (n : Nat) :
    endRun c (a ++ List.replicate n c) = endRun c a + n := by
  have hrun : ∀ d ∈ List.replicate n c, (d == c) = true := fun d hd =>
    beq_iff_eq.mpr (List.eq_of_mem_replicate hd)
  rw [endRun, List.reverse_append, List.reverse_replicate, List.takeWhile_append_of_pos hrun,
    List.length_append, List.length_replicate, Nat.add_comm]
  rfl

theorem endRun_eq_zero_iff {c : Char} {a : List Char} :
    endRun c a = 0 ↔ a.getLast? ≠ some c := by
  rcases a.eq_nil_or_concat with rfl | ⟨a, d, rfl⟩
  · simp [endRun]
  · by_cases hd : d = c <;> simp [endRun, hd]

/-- No line feed follows a carriage return. -/
theorem isChain_apart_iff {s : List Char} : s.IsChain Apart ↔
    ∀ a b, s = a ++ '\n' :: b → endRun '\r' a = 0 := by
  simp only [endRun_eq_zero_iff]
  constructor
  · rintro h a b rfl
    exact (clean_iff.mp (Clean.of_append_feed h)).2
  · intro h
    induction s with
    | nil => exact .nil
    | cons c s ih =>
        refine List.isChain_cons.mpr ⟨fun d hd hreturn hfeed => ?_, ih fun a b hs hlast => ?_⟩
        · obtain ⟨s, rfl⟩ := List.head?_eq_some_iff.mp hd
          exact h [c] s (by rw [hfeed]; rfl) (by rw [hreturn]; rfl)
        · have hlast' : (c :: a).getLast? = some '\r' := by
            rw [List.getLast?_cons, hlast]
            rfl
          exact h (c :: a) b (by rw [hs]; rfl) hlast'

/-- A text up to a line feed is its first line, or goes on after the first line feed. -/
theorem eq_or_exists_of_append_feed {r s a b : List Char} (hr : '\n' ∉ r)
    (h : r ++ '\n' :: s = a ++ '\n' :: b) :
    a = r ∨ ∃ a', a = r ++ '\n' :: a' ∧ s = a' ++ '\n' :: b := by
  rcases List.append_eq_append_iff.mp h with ⟨x, rfl, hx⟩ | ⟨x, rfl, hx⟩
  · cases x with
    | nil => exact .inl (List.append_nil r)
    | cons d x =>
        obtain ⟨rfl, hs⟩ := List.cons.inj hx
        exact .inr ⟨x, rfl, hs⟩
  · cases x with
    | nil => exact .inl (List.append_nil a).symm
    | cons d x =>
        obtain ⟨rfl, -⟩ := List.cons.inj hx
        exact absurd (List.mem_append_right a List.mem_cons_self) hr

end Text

namespace LineEnding

/-- How many carriage returns stand before a line feed. -/
def returns : LineEnding → Nat
  | lf => 0
  | crlf => 1

/-- A text keeps to a line ending: none of its line feeds follows a carriage return, or each follows
exactly one. -/
def Uses (ending : LineEnding) (s : String) : Prop :=
  ∀ a b, s.toList = a ++ '\n' :: b → endRun '\r' a = ending.returns

variable (ending : LineEnding)

theorem chars_feed : ending.chars '\n' = List.replicate ending.returns '\r' ++ ['\n'] := by
  cases ending <;> rfl

/-- The last character of a text is the last one that is written. -/
theorem getLast?_flatMap (s : List Char) : (s.flatMap ending.chars).getLast? = s.getLast? := by
  rcases s.eq_nil_or_concat with rfl | ⟨s, c, rfl⟩
  · rfl
  · rw [List.concat_eq_append, List.flatMap_append, List.flatMap_singleton]
    by_cases hc : c = '\n'
    · rw [hc, chars_feed, ← List.append_assoc, List.getLast?_concat, List.getLast?_concat]
    · rw [ending.chars_of_ne hc, List.getLast?_concat, List.getLast?_concat]

/-- A line feed that is written is one of the text, and the carriage returns of the line ending are
before it. -/
theorem exists_of_flatMap_eq {b : List Char} : ∀ {s a : List Char},
    s.flatMap ending.chars = a ++ '\n' :: b → ∃ x y, s = x ++ '\n' :: y ∧
      a = x.flatMap ending.chars ++ List.replicate ending.returns '\r'
  | [], a, h => absurd h.symm (by simp)
  | c :: s, a, h => by
      rw [List.flatMap_cons] at h
      by_cases hc : c = '\n'
      · rw [hc, chars_feed, List.append_assoc] at h
        have hreturns : '\n' ∉ List.replicate ending.returns '\r' := fun hmem =>
          absurd (List.eq_of_mem_replicate hmem) (by decide)
        rcases eq_or_exists_of_append_feed hreturns h with rfl | ⟨a, rfl, hrest⟩
        · exact ⟨[], s, congrArg (· :: s) hc, rfl⟩
        · obtain ⟨x, y, rfl, rfl⟩ := exists_of_flatMap_eq hrest
          refine ⟨c :: x, y, rfl, ?_⟩
          rw [List.flatMap_cons, hc, chars_feed]
          simp
      · rw [ending.chars_of_ne hc, List.singleton_append] at h
        cases a with
        | nil => exact absurd (List.cons.inj h).1 hc
        | cons d a =>
            obtain ⟨rfl, hrest⟩ := List.cons.inj h
            obtain ⟨x, y, rfl, rfl⟩ := exists_of_flatMap_eq hrest
            exact ⟨c :: x, y, rfl, by rw [List.flatMap_cons, ending.chars_of_ne hc]; rfl⟩

/-- A text that is written keeps to the line ending when no line feed follows a carriage return. -/
theorem uses_write_iff (s : String) : ending.Uses (ending.write s) ↔ lf.Uses s := by
  have hrun : ∀ x : List Char,
      endRun '\r' (x.flatMap ending.chars ++ List.replicate ending.returns '\r') = ending.returns ↔
        endRun '\r' x = 0 := fun x => by
    rw [endRun_append_replicate, Nat.add_eq_right, endRun_eq_zero_iff, endRun_eq_zero_iff,
      getLast?_flatMap]
  unfold Uses
  rw [ending.toList_write]
  constructor
  · intro h a b hs
    refine (hrun a).mp (h _ (b.flatMap ending.chars) ?_)
    rw [hs, List.flatMap_append, List.flatMap_cons, chars_feed]
    simp
  · intro h a b hs
    obtain ⟨x, y, hxy, rfl⟩ := ending.exists_of_flatMap_eq hs
    exact (hrun x).mpr (h x y hxy)

theorem uses_lf_iff (s : String) : lf.Uses s ↔ s.toList.IsChain Apart := isChain_apart_iff.symm

/-- Each line feed of a text in CR LF follows a carriage return. -/
theorem getLast?_of_write_crlf {s : String} {a b : List Char}
    (h : (crlf.write s).toList = a ++ '\n' :: b) : a.getLast? = some '\r' := by
  rw [toList_write] at h
  obtain ⟨x, y, -, rfl⟩ := crlf.exists_of_flatMap_eq h
  exact List.getLast?_concat

/-- A carriage return of a text is not taken for that of a line ending. -/
theorem replaceAll_flatMap : ∀ s : List Char,
    replaceAll ['\r', '\n'] ['\n'] (s.flatMap crlf.chars) = s
  | [] => rfl
  | c :: s => by
      rw [List.flatMap_cons]
      by_cases hc : c = '\n'
      · rw [hc]
        refine (replaceAll_append_self (List.cons_ne_nil _ _) _ _).trans ?_
        rw [replaceAll_flatMap s]
        rfl
      · rw [crlf.chars_of_ne hc, List.singleton_append, replaceAll_cons_of_not,
          replaceAll_flatMap s]
        rintro ⟨rest, hrest⟩
        have hfeed : s.flatMap crlf.chars = '\n' :: rest := (List.cons.inj hrest).2.symm
        obtain ⟨x, y, -, hx⟩ := crlf.exists_of_flatMap_eq (a := []) hfeed
        simp [returns] at hx

theorem replaceAll_write (s : String) :
    replaceAll ['\r', '\n'] ['\n'] (crlf.write s).toList = s.toList := by
  rw [toList_write, replaceAll_flatMap]

end LineEnding

/-! ### Blocks -/

namespace GeneratedUnit

/-- The line feeds at the end of a block are cut, which leaves it clean. -/
theorem clean_trimBlock {block : String} (h : Clean block.toList) :
    Clean (trimBlock block).toList := by
  rw [toList_trimBlock]
  obtain ⟨b, hb, hfeeds⟩ := exists_eq_dropTrailing_append (p := (· == '\n')) block.toList
  cases b with
  | nil =>
      rw [List.append_nil] at hb
      exact hb ▸ h
  | cons c b =>
      obtain rfl : c = '\n' := beq_iff_eq.mp (hfeeds c List.mem_cons_self)
      rw [hb, Clean, List.append_assoc] at h
      exact Clean.of_append_feed h

/-- The text of clean blocks has no carriage return before a line feed. -/
theorem uses_joinBlocks {separator : String} (hseparator : Clean separator.toList)
    {bs : List String} (h : AllClean bs) : LineEnding.lf.Uses (joinBlocks separator .lf bs) := by
  have hshown : AllClean ((bs.map trimBlock).filter fun b => !b.isEmpty) := fun x hx => by
    obtain ⟨b, hb, rfl⟩ := List.mem_map.mp (List.mem_filter.mp hx).1
    exact clean_trimBlock (h b hb)
  rw [LineEnding.uses_lf_iff]
  show (String.intercalate separator _ ++ "\n").toList.IsChain Apart
  rw [String.toList_append]
  exact clean_intercalate hseparator hshown

/-! ### Units -/

section ofTable
variable {target : Target} {settings : Settings} {t : Table} {u : GeneratedUnit}

theorem declare_lineEnding (ending : LineEnding) (plan : Plan) :
    declare target.backend (target.backend.settle { settings with lineEnding := ending }) t plan =
      declare target.backend (target.backend.settle settings) t plan := by
  cases target <;> rfl

/-- The units of a table in the two line endings have the same blocks, the header among them. They
are clean if what a unit copies is. -/
theorem exists_joinBlocks (h : ofTable target.backend settings t = .ok u) : ∃ bs,
    (∀ ending, ofTable target.backend { settings with lineEnding := ending } t =
      .ok { u with content := joinBlocks target.backend.separator ending bs }) ∧
    (AllClean (t.copied target settings) → AllClean bs) ∧
    ∃ imports, target.backend.preamble (target.backend.settle settings) t.root imports ∈ bs := by
  obtain ⟨hplan, ds, hds, -⟩ := exists_declare h
  refine ⟨_, fun ending => ?_, fun hcopied => clean_blocks_ofTable hcopied h hds, ?_⟩
  · have hunit := Except.ok.inj (h.symm.trans (ofTable_eq_ok hplan hds))
    have hother : ofTable target.backend { settings with lineEnding := ending } t = .ok _ :=
      ofTable_eq_ok hplan ((declare_lineEnding ending u.plan).trans hds)
    rw [hother, hunit]
    cases target <;> rfl
  · rw [← t.root_bound settings]
    exact ⟨_, List.mem_cons_self⟩

/-- The docstring of a header stands in the text of a unit of models. -/
theorem isInfix_headerDoc {separator : String} {imports : Imports} {bs : List String}
    (h : Model.preamble settings t.root imports ∈ bs) :
    (Model.headerDoc t.root).toList <:+: (joinBlocks separator .lf bs).toList := by
  have hlast : (Model.headerDoc t.root).toList.getLast? = some '"' := by
    rw [Model.headerDoc, String.toList_append, List.getLast?_append]
    rfl
  have hblock := isInfix_joinBlocks separator .lf h
  refine List.IsInfix.trans ?_ hblock
  show _ <:+: (trimBlock _).toList
  rw [toList_trimBlock, Model.preamble_eq_append, String.toList_append, dropTrailing_append]
  · exact (List.prefix_append _ _).isInfix
  · intro c hc
    obtain rfl : '"' = c := Option.some.inj (hlast.symm.trans hc)
    decide

/-- The header of a unit of models keeps to the line ending only if the description of the root
does. -/
theorem allClean_description {separator : String} {imports : Imports} {bs : List String}
    (h : Model.preamble settings t.root imports ∈ bs)
    (huses : LineEnding.lf.Uses (joinBlocks separator .lf bs)) :
    AllClean t.root.description.toList := by
  have hlast : (Model.headerDoc t.root).toList.getLast? = some '"' := by
    rw [Model.headerDoc, String.toList_append, List.getLast?_append]
    rfl
  rw [LineEnding.uses_lf_iff] at huses
  refine (Model.clean_headerDoc_iff t.root).mp (clean_iff.mpr ⟨?_, ?_⟩)
  · exact huses.infix (isInfix_headerDoc h)
  · rw [hlast]
    decide

/-- The units of a table in the two line endings. -/
structure InBothEndings (target : Target) (settings : Settings) (t : Table)
    (lf crlf : GeneratedUnit) : Prop where
  lf_eq : ofTable target.backend { settings with lineEnding := .lf } t = .ok lf
  crlf_eq : ofTable target.backend { settings with lineEnding := .crlf } t = .ok crlf
  /-- Replacing CR LF by a line feed gives the one from the other. -/
  replaceAll_eq : replaceAll ['\r', '\n'] ['\n'] crlf.content.toList = lf.content.toList
  /-- Each line feed of the one in CR LF follows a carriage return. -/
  getLast?_eq : ∀ a b, crlf.content.toList = a ++ '\n' :: b → a.getLast? = some '\r'
  /-- The one keeps to its line ending exactly when the other does. -/
  uses_iff : LineEnding.crlf.Uses crlf.content ↔ LineEnding.lf.Uses lf.content
  /-- Both do if no string that they copy ends with a carriage return, or has one before a line
  feed. -/
  uses_of_clean : AllClean (t.copied target settings) → LineEnding.lf.Uses lf.content
  /-- In a unit of models they do only if this holds of the description of the root. -/
  clean_of_uses : target = .pydantic → LineEnding.lf.Uses lf.content →
    AllClean t.root.description.toList

/-- A unit keeps to the configured line ending throughout if no string that it copies has a carriage
return at the end or before a line feed. Such a carriage return is in the unit in either line
ending, and apart from it the two units differ in the line feeds alone. -/
theorem lineEndings_ofTable (h : ofTable target.backend settings t = .ok u) :
    ∃ lf crlf, InBothEndings target settings t lf crlf ∧
      (u = match settings.lineEnding with
        | .lf => lf
        | .crlf => crlf) ∧
      (AllClean (t.copied target settings) → settings.lineEnding.Uses u.content) := by
  obtain ⟨bs, hunits, hclean, imports, hpreamble⟩ := exists_joinBlocks h
  have hseparator : Clean target.backend.separator.toList := by
    cases target <;> decide
  have huses : AllClean (t.copied target settings) →
      LineEnding.lf.Uses (joinBlocks target.backend.separator .lf bs) := fun hcopied =>
    uses_joinBlocks hseparator (hclean hcopied)
  have hcrlf := joinBlocks_eq_write target.backend.separator .crlf bs
  have hu : u = { u with content := joinBlocks target.backend.separator settings.lineEnding bs } :=
    Except.ok.inj (h.symm.trans (hunits settings.lineEnding))
  refine ⟨_, _, ⟨hunits .lf, hunits .crlf, ?_, fun a b hab => ?_, ?_, huses, ?_⟩, ?_,
    fun hcopied => ?_⟩
  · exact hcrlf ▸ LineEnding.replaceAll_write _
  · exact LineEnding.getLast?_of_write_crlf (hcrlf ▸ hab)
  · exact hcrlf ▸ LineEnding.crlf.uses_write_iff _
  · rintro rfl hlf
    exact allClean_description hpreamble hlf
  · cases hending : settings.lineEnding <;> rw [hending] at hu <;> exact hu
  · rw [hu, joinBlocks_eq_write]
    exact (settings.lineEnding.uses_write_iff _).mpr (huses hcopied)

end ofTable

theorem lineEndings_ofTable_cards : ∃ u lf crlf,
    ofTable Target.zod.backend { lineEnding := .crlf } Table.cards = .ok u ∧
      InBothEndings .zod { lineEnding := .crlf } Table.cards lf crlf ∧ u = crlf ∧
      AllClean (Table.cards.copied .zod { lineEnding := .crlf }) ∧
      LineEnding.crlf.Uses u.content := by
  have hunit : ofTable Target.zod.backend { lineEnding := .crlf } Table.cards = .ok _ := rfl
  have hcopied : AllClean (Table.cards.copied .zod { lineEnding := .crlf }) := by
    unfold AllClean
    decide +kernel
  obtain ⟨lf, crlf, hboth, hu, huses⟩ := lineEndings_ofTable hunit
  exact ⟨_, lf, crlf, hunit, hboth, hu, hcopied, huses hcopied⟩

end GeneratedUnit

/-- Cards under a description of two lines, with CR LF between them. -/
def Table.announced : Table :=
  { Table.cards with root := { description := some "Components.\r\nFor screens." } }

namespace GeneratedUnit

/-- The carriage return stays in the docstring of the unit, in either line ending. -/
theorem announced_keeps_return : ∃ lf crlf,
    ofTable Target.pydantic.backend {} Table.announced = .ok lf ∧
      ofTable Target.pydantic.backend { lineEnding := .crlf } Table.announced = .ok crlf ∧
      ¬ LineEnding.lf.Uses lf.content ∧ ¬ LineEnding.crlf.Uses crlf.content := by
  have hunit : ofTable Target.pydantic.backend {} Table.announced = .ok _ := rfl
  obtain ⟨bs, hunits, -, imports, hpreamble⟩ := exists_joinBlocks hunit
  have hlf : ¬ LineEnding.lf.Uses (joinBlocks Target.pydantic.backend.separator .lf bs) := by
    intro huses
    have hdescription := allClean_description hpreamble huses _ (List.mem_singleton_self _)
    exact absurd hdescription (by decide)
  refine ⟨_, _, hunits .lf, hunits .crlf, hlf, fun huses => hlf ?_⟩
  rw [joinBlocks_eq_write] at huses
  exact (LineEnding.crlf.uses_write_iff _).mp huses

end GeneratedUnit

end SchemaModels
