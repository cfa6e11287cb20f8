import SchemaModels.Proofs.Command.Check
import SchemaModels.Proofs.Files.Reading

/-!
# Running once more

A write that succeeds leaves its unit in the output. Whatever is run after it with the same
arguments finds the unit there, as long as the schema reads as it did: it succeeds with the same
unit, and it leaves the files as they are, however often and in whatever order it is run.

* `InPlace`: a file system whose output holds the unit of its schema.
* `InPlace.perform_generate`, `InPlace.perform_generates`: one run and many runs on such a
  file system.
* `readText_of_write`: paths that a write of another path does not change.
* `generate_again`: what comes after a write.
-/

namespace SchemaModels

namespace FileSystem

variable {s s' : FileSystem} {path other content : String} {place : List String}

/-- A write does not change where a path that does not go up leads. -/
theorem Places.entered_eq (h : Places path content s s' place) (other : String) :
    s'.entered other = s.entered other := by
  unfold entered start
  rw [h.here_eq]

/-- A text in place changes nothing at a path that leads elsewhere. -/
theorem Places.readText_eq {text : String} {q : List String} (h : Places path content s s' place)
    (hread : s.readText other = .ok text) (hl : s.locate other = .ok q) (hq : q ≠ place) :
    s'.readText other = s.readText other := by
  obtain ⟨q', e, hl', he⟩ := exists_of_readText hread
  obtain rfl : q' = q := Except.ok.inj (hl'.symm.trans hl)
  have hkept : s'.tree.view? q' = some e := h.keeps q' hq e he
  have hl' : s'.locate other = .ok q' := by
    have hlocate := locate_of_keepsPaths h.keepsPaths hl
    unfold FileSystem.locate start at hlocate ⊢
    rw [h.here_eq]
    exact hlocate
  exact readText_congr hl hl' (hkept.trans he.symm)

end FileSystem

namespace Command

variable {s s' : FileSystem} {c : Configuration} {schema output : String} {unit : GeneratedUnit}
  {g : Generation}

/-! ### Units in place -/

/-- A file system whose output holds the unit of the schema in it. -/
structure InPlace (c : Configuration) (schema output : String) (unit : GeneratedUnit)
    (s : FileSystem) : Prop where
  fresh : freshUnit c schema s = .ok unit
  held : s.readText output = .ok unit.content

/-- What each kind of run tells of a unit that is in place. -/
def reportInPlace (output : String) (unit : GeneratedUnit) : GenerateMode → Option Delivery
  | .check => none
  | .preview => some (.preview output unit.content)
  | .write => some (.unchanged output)

namespace InPlace

/-- A run has the unit again, and leaves the files as they are. -/
theorem perform_generate (h : InPlace c schema output unit s) (mode : GenerateMode) :
    s.perform (generate c schema output mode).run =
      (.ok ⟨unit, reportInPlace output unit mode⟩, s) := by
  rw [Command.perform_generate, h.fresh]
  dsimp only
  cases mode with
  | check =>
      have hcompared : compared s output unit.content = .ok () :=
        compared_eq_ok_iff.mpr ⟨_, h.held, .refl _⟩
      rw [perform_conclude_check, hcompared]
      rfl
  | preview => exact perform_conclude_preview s output unit
  | write =>
      rw [perform_conclude_write, perform_deliver_of_eq h.held]
      rfl

/-- So do runs one after another, by induction on them: each one leaves the unit in
place. -/
theorem perform_generates (h : InPlace c schema output unit s) (modes : List GenerateMode) :
    s.perform (modes.mapM fun mode => (generate c schema output mode).run) =
      (modes.map fun mode => .ok ⟨unit, reportInPlace output unit mode⟩, s) := by
  induction modes with
  | nil => rfl
  | cons mode modes ih =>
      rw [List.mapM_cons, FileSystem.perform_bind, h.perform_generate mode]
      dsimp only
      rw [FileSystem.perform_bind, ih]
      rfl

end InPlace

/-! ### After a write -/

/-- A unit depends on the files by the text of its schema only. -/
theorem freshUnit_congr (h : s'.readText schema = s.readText schema) :
    freshUnit c schema s' = freshUnit c schema s := by
  unfold freshUnit
  rw [h]

/-- Where there is a unit, the schema was read. -/
theorem exists_text_of_freshUnit (h : freshUnit c schema s = .ok unit) :
    ∃ text, s.readText schema = .ok text := by
  unfold freshUnit at h
  split at h
  · cases h
  · split at h
    · cases h
    · exact ⟨_, ‹_›⟩

section write
variable (hwrite : s.perform (generate c schema output .write).run = (.ok g, s'))
include hwrite

/-- A write that succeeds has the unit of the schema, and leaves it in the output. -/
theorem freshUnit_and_readText_of_write :
    freshUnit c schema s = .ok g.unit ∧ s'.readText output = .ok g.unit.content := by
  have hleaves := leaves_generate s c schema output
  rw [hwrite] at hleaves
  cases hleaves with
  | unchanged hfresh htext => exact ⟨hfresh, htext⟩
  | written hfresh htext hplaces hread => exact ⟨hfresh, hread⟩

theorem inPlace_of_write (hschema : s'.readText schema = s.readText schema) :
    InPlace c schema output g.unit s' := by
  obtain ⟨hfresh, hheld⟩ := freshUnit_and_readText_of_write hwrite
  exact ⟨(freshUnit_congr hschema).trans hfresh, hheld⟩

/-- A write does not change what is read at its schema, where the two paths do not go up and enter
different names. -/
theorem readText_of_write (hup : ".." ∉ Path.names schema.toList)
    (hup' : ".." ∉ Path.names output.toList) (hne : s.entered schema ≠ s.entered output) :
    s'.readText schema = s.readText schema := by
  have hleaves := leaves_generate s c schema output
  rw [hwrite] at hleaves
  cases hleaves with
  | unchanged hfresh htext => rfl
  | @written unit s' place hfresh htext hplaces hread =>
      have hplace : place = s.entered output :=
        (FileSystem.eq_entered_of_locate hup' hplaces.locate).trans (hplaces.entered_eq output)
      obtain ⟨text, htext⟩ := exists_text_of_freshUnit hfresh
      obtain ⟨q, e, hl, he⟩ := FileSystem.exists_of_readText htext
      have hq : q = s.entered schema := FileSystem.eq_entered_of_locate hup hl
      apply hplaces.readText_eq htext hl
      rw [hq, hplace]
      exact hne

/-- After a write that succeeds, and that has not changed what is read at the schema, a check
succeeds, and another write finds nothing to do and leaves the files as they are. The same holds of
any runs after one another, of which each has the unit that was written. -/
theorem generate_again (hschema : s'.readText schema = s.readText schema) :
    s'.perform (generate c schema output .check).run = (.ok ⟨g.unit, none⟩, s') ∧
    s'.perform (generate c schema output .write).run =
      (.ok ⟨g.unit, some (.unchanged output)⟩, s') ∧
    ∀ modes : List GenerateMode,
      s'.perform (modes.mapM fun mode => (generate c schema output mode).run) =
        (modes.map fun mode => .ok ⟨g.unit, reportInPlace output g.unit mode⟩, s') := by
  have hplace : InPlace c schema output g.unit s' := inPlace_of_write hwrite hschema
  refine ⟨?_, ?_, ?_⟩
  · exact hplace.perform_generate .check
  · exact hplace.perform_generate .write
  · exact hplace.perform_generates

end write

/-- A first write of boxes, into directories that are made for it. -/
theorem generate_again_boxes : ∃ (g : Generation) (s' : FileSystem),
    (boxFiles "").perform (generate {} "ui.json" "/out/./py/ui.py" .write).run = (.ok g, s') ∧
      s'.readText "ui.json" = (boxFiles "").readText "ui.json" ∧
      s'.perform (generate {} "ui.json" "/out/./py/ui.py" .check).run = (.ok ⟨g.unit, none⟩, s') ∧
      s'.perform (generate {} "ui.json" "/out/./py/ui.py" .write).run =
        (.ok ⟨g.unit, some (.unchanged "/out/./py/ui.py")⟩, s') := by
  have hok : ((boxFiles "").perform
      (generate {} "ui.json" "/out/./py/ui.py" .write).run).1.isOk = true := by
    decide +kernel
  generalize hwrite : (boxFiles "").perform
    (generate {} "ui.json" "/out/./py/ui.py" .write).run = outcome at hok
  obtain ⟨result, s'⟩ := outcome
  cases result with
  | error e => cases hok
  | ok g =>
      have hschema : s'.readText "ui.json" = (boxFiles "").readText "ui.json" :=
        readText_of_write hwrite (by decide) (by decide) (by decide)
      obtain ⟨hcheck, hagain, _⟩ := generate_again hwrite hschema
      exact ⟨g, s', rfl, hschema, hcheck, hagain⟩

end Command

end SchemaModels
