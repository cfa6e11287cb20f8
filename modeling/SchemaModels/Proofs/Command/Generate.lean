import SchemaModels.Command.Fix
import SchemaModels.Command.Generate
import SchemaModels.Proofs.Command.Delivery

/-!
# What generating changes

A command that generates a unit reads its schema, and touches the files only when the unit is there
and is to be written. Then the outcomes are those of a delivery.

* `freshUnit`: the unit of a schema file, or the error that comes before any output.
* `perform_generate`: a run is that, and then what is done with the unit.
* `generate_on_files`: what each kind of run leaves of the files, whatever comes of it.
-/

namespace SchemaModels.Command

open FileSystem (perform_run_bind)

variable {s : FileSystem} {c : Configuration} {schema output : String}

/-! ### Units -/

/-- The unit of a schema file in a file system. -/
def freshUnit (c : Configuration) (schema : String) (s : FileSystem) :
    Except CommandError GeneratedUnit :=
  match c.settings with
  | .error fault => .error (.configuration fault)
  | .ok settings =>
      match s.readText schema with
      | .error fault => .error (.schemaUnreadable schema fault)
      | .ok text => unitOf c settings text

/-- What is done with a unit. -/
def conclude (output : String) (mode : GenerateMode) (unit : GeneratedUnit) :
    ExceptT CommandError (StateM FileSystem) Generation :=
  match mode with
  | .check => do
      checkOutput output unit.content
      return ⟨unit, none⟩
  | .preview => return ⟨unit, some (← deliver true output unit.content)⟩
  | .write => return ⟨unit, some (← deliver false output unit.content)⟩

theorem perform_settled {α ε : Type} (wrap : ε → CommandError) (result : Except ε α) :
    s.perform (settled wrap result).run = (result.mapError wrap, s) := by
  cases result <;> rfl

/-- A run has its unit first, from the files as they are, and then does something with it. -/
theorem perform_generate (s : FileSystem) (c : Configuration) (schema output : String)
    (mode : GenerateMode) : s.perform (generate c schema output mode).run =
      match freshUnit c schema s with
      | .error e => (.error e, s)
      | .ok unit => s.perform (conclude output mode unit).run := by
  unfold generate freshUnit
  rw [perform_run_bind, perform_settled]
  cases c.settings with
  | error fault => rfl
  | ok settings =>
      dsimp only [Except.mapError]
      rw [perform_run_bind, perform_orFail, FileSystem.perform_readText]
      cases s.readText schema with
      | error fault => rfl
      | ok text =>
          dsimp only
          rw [perform_run_bind, perform_settled]
          cases unitOf c settings text with
          | error e => rfl
          | ok unit => cases mode <;> rfl

/-- What comes of comparing a text with what a path holds. -/
def compared (s : FileSystem) (path content : String) : Except CommandError Unit :=
  if s.isPresent path then
    match s.readText path with
    | .error fault => .error (.outputUnreadable fault)
    | .ok existing => if agree existing content then .ok () else .error (.outputOutdated path)
  else .error (.outputMissing path)

/-- A comparison leaves the files as they are. -/
theorem perform_checkOutput (s : FileSystem) (path content : String) :
    s.perform (checkOutput path content).run = (compared s path content, s) := by
  unfold checkOutput compared
  rw [perform_run_bind, perform_isPresent]
  cases s.isPresent path with
  | false => rfl
  | true =>
      dsimp only
      rw [if_neg (by decide), if_pos rfl, perform_run_bind, perform_orFail,
        FileSystem.perform_readText]
      cases s.readText path with
      | error fault => rfl
      | ok existing =>
          dsimp only
          cases agree existing content <;> rfl

/-! ### What a run leaves -/

theorem perform_conclude_check (s : FileSystem) (output : String) (unit : GeneratedUnit) :
    s.perform (conclude output .check unit).run =
      ((compared s output unit.content).map fun _ => ⟨unit, none⟩, s) := by
  unfold conclude
  rw [perform_run_bind, perform_checkOutput]
  cases compared s output unit.content <;> rfl

theorem perform_conclude_preview (s : FileSystem) (output : String) (unit : GeneratedUnit) :
    s.perform (conclude output .preview unit).run =
      (.ok ⟨unit, some (.preview output unit.content)⟩, s) := rfl

theorem perform_conclude_write (s : FileSystem) (output : String) (unit : GeneratedUnit) :
    s.perform (conclude output .write unit).run =
      match s.perform (deliver false output unit.content).run with
      | (.ok delivery, s') => (.ok ⟨unit, some delivery⟩, s')
      | (.error e, s') => (.error e, s') := by
  unfold conclude
  rw [perform_run_bind]
  generalize s.perform (deliver false output unit.content).run = outcome
  obtain ⟨result, s'⟩ := outcome
  cases result <;> rfl

/-- A preview of a repair leaves the files as they are. -/
theorem perform_fix_preview (s : FileSystem) (c : Configuration) (input output : String) :
    (s.perform (fix c input output true).run).2 = s := by
  unfold fix
  rw [perform_run_bind, perform_settled]
  cases c.checkedGroups with
  | error fault => rfl
  | ok groups =>
      dsimp only [Except.mapError]
      rw [perform_run_bind, perform_orFail, FileSystem.perform_readText]
      cases s.readText input with
      | error fault => rfl
      | ok source =>
          dsimp only
          rw [perform_run_bind, perform_settled]
          cases Repair.repairText groups source <;> rfl

/-- What a run leaves that writes its unit. Without a unit the files are as they were. Else the
output holds the unit and the rest is as it was, or all that there was is spared. -/
inductive Leaves (fresh : Except CommandError GeneratedUnit) (output : String) (s : FileSystem) :
    Except CommandError Generation × FileSystem → Prop
  | failed {e : CommandError} (h : fresh = .error e) (he : ¬e.IsWriteFault) :
      Leaves fresh output s (.error e, s)
  | unchanged {unit : GeneratedUnit} (h : fresh = .ok unit)
      (htext : s.readText output = .ok unit.content) :
      Leaves fresh output s (.ok ⟨unit, some (.unchanged output)⟩, s)
  | written {unit : GeneratedUnit} {s' : FileSystem} {place : List String} (h : fresh = .ok unit)
      (htext : s.readText output ≠ .ok unit.content)
      (hplaces : s.Places output unit.content s' place)
      (hread : s'.readText output = .ok unit.content) :
      Leaves fresh output s
        (.ok ⟨unit, some (.written output unit.content.utf8ByteSize)⟩, s')
  | fault {unit : GeneratedUnit} {s' : FileSystem} {e : CommandError} (h : fresh = .ok unit)
      (htext : s.readText output ≠ .ok unit.content) (he : e.IsWriteFault)
      (hspares : s.Spares output s') :
      Leaves fresh output s (.error e, s')

theorem not_isWriteFault_of_freshUnit {e : CommandError} (h : freshUnit c schema s = .error e) :
    ¬e.IsWriteFault := by
  unfold freshUnit unitOf at h
  intro he
  split at h
  · cases h
    exact he
  · split at h
    · cases h
      exact he
    · split at h
      · cases h
        exact he
      · split at h
        · cases h
          exact he
        · cases h

theorem leaves_generate (s : FileSystem) (c : Configuration) (schema output : String) :
    Leaves (freshUnit c schema s) output s (s.perform (generate c schema output .write).run) := by
  rw [perform_generate]
  cases hfresh : freshUnit c schema s with
  | error e => exact .failed rfl (not_isWriteFault_of_freshUnit hfresh)
  | ok unit =>
      have hdelivers := delivers_deliver s output unit.content
      dsimp only
      rw [perform_conclude_write]
      generalize s.perform (deliver false output unit.content).run = outcome at hdelivers
      cases hdelivers with
      | unchanged htext => exact .unchanged rfl htext
      | written htext hplaces =>
          have hread := FileSystem.readText_eq_ok hplaces.locate hplaces.content
          exact .written rfl htext hplaces hread
      | fault htext he hspares => exact .fault rfl htext he hspares

/-- On every file system, comparing and previewing leave it as it is, whatever comes of them. A run
that is to write has one of the outcomes of `Leaves`: it changes nothing before the unit is there,
and then at most the output and the directories that it lies in. -/
theorem generate_on_files (s : FileSystem) (c : Configuration) (schema input output : String) :
    (s.perform (generate c schema output .check).run).2 = s ∧
    (s.perform (generate c schema output .preview).run).2 = s ∧
    (s.perform (fix c input output true).run).2 = s ∧
    Leaves (freshUnit c schema s) output s (s.perform (generate c schema output .write).run) := by
  refine ⟨?_, ?_, perform_fix_preview s c input output, leaves_generate s c schema output⟩
  · rw [perform_generate]
    cases freshUnit c schema s with
    | error e => rfl
    | ok unit =>
        dsimp only
        rw [perform_conclude_check]
  · rw [perform_generate]
    cases freshUnit c schema s with
    | error e => rfl
    | ok unit =>
        dsimp only
        rw [perform_conclude_preview]

/-! ### A working directory -/

/-- A schema of boxes. -/
def boxSchema : String :=
  "\x7b\"properties\": \x7b\"metadata\": \x7b\"$ref\": \"#/$defs/Box\"\x7d, " ++
  "\"root\": \x7b\"$ref\": \"#/$defs/Box\"\x7d\x7d, " ++
  "\"$defs\": \x7b\"Box\": \x7b\"type\": \"object\"\x7d\x7d\x7d"

/-- Work in a directory with the schema and with an output that holds a text. -/
def boxFiles (text : String) : FileSystem where
  tree := .directory [("home", .directory
    [("ui.json", .file boxSchema.toUTF8), ("ui.py", .file text.toUTF8)])]
  here := ["home"]

/-- A write of boxes to an absolute path, into directories that are made for it. -/
theorem generate_on_files_boxes : ∃ (g : Generation) (s' : FileSystem) (place : List String),
    (boxFiles "").perform (generate {} "ui.json" "/out/./py/ui.py" .write).run = (.ok g, s') ∧
      g.delivery = some (.written "/out/./py/ui.py" g.unit.content.utf8ByteSize) ∧
      (boxFiles "").Places "/out/./py/ui.py" g.unit.content s' place ∧
      s'.readText "/out/./py/ui.py" = .ok g.unit.content := by
  have hok : ((boxFiles "").perform
      (generate {} "ui.json" "/out/./py/ui.py" .write).run).1.isOk = true := by decide +kernel
  have hmissing : (boxFiles "").readText "/out/./py/ui.py" = .error .notFound := rfl
  obtain ⟨-, -, -, hleaves⟩ :=
    generate_on_files (boxFiles "") {} "ui.json" "ui.json" "/out/./py/ui.py"
  generalize (boxFiles "").perform (generate {} "ui.json" "/out/./py/ui.py" .write).run =
    outcome at hok hleaves
  cases hleaves with
  | failed => cases hok
  | unchanged _ htext => cases hmissing.symm.trans htext
  | written _ _ hplaces hread => exact ⟨_, _, _, rfl, rfl, hplaces, hread⟩
  | fault => cases hok

end SchemaModels.Command
