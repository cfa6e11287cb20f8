import SchemaModels.Proofs.Command.Generate
import SchemaModels.Proofs.Text.Trim

/-!
# Checks and writes

A check and a write compare the unit with the output by tests of their own. The one of a write is
equality; the one of a check does not look at the blanks that the texts end with, so that a check
may succeed where a write would replace the output.

* `agree_iff`: texts that a check takes for the same.
* `isUpToDate_iff`: when a check succeeds; `isUnchanged_iff`: when a write leaves the output alone.
* `upToDate_and_unchanged`: both, and what lies between them.
-/

namespace SchemaModels

/-- A text without its blanks at the end, and these. -/
theorem Text.exists_eq_trimEnd_append (s : List Char) :
    ∃ b, s = trimEnd s ++ b ∧ ∀ c ∈ b, isBlank c = true :=
  exists_eq_dropTrailing_append s

theorem Text.trimEnd_append {s b : List Char} (hb : ∀ c ∈ b, isBlank c = true) :
    trimEnd (s ++ b) = trimEnd s := by
  rw [trimEnd, trimEnd, dropTrailing, dropTrailing, List.reverse_append,
    List.dropWhile_append_of_pos fun c hc => hb c (List.mem_reverse.mp hc)]

namespace Command

/-- Texts that are the same up to the blanks that each of them ends with. -/
def SameButBlanks (s t : String) : Prop := ∃ text b b' : List Char,
  s.toList = text ++ b ∧ t.toList = text ++ b' ∧ (∀ c ∈ b, Text.isBlank c = true) ∧
    ∀ c ∈ b', Text.isBlank c = true

theorem agree_iff {s t : String} : agree s t = true ↔ SameButBlanks s t := by
  rw [agree, beq_iff_eq]
  constructor
  · intro h
    obtain ⟨b, hs, hb⟩ := Text.exists_eq_trimEnd_append s.toList
    obtain ⟨b', ht, hb'⟩ := Text.exists_eq_trimEnd_append t.toList
    exact ⟨_, b, b', hs, h ▸ ht, hb, hb'⟩
  · rintro ⟨text, b, b', hs, ht, hb, hb'⟩
    rw [hs, ht, Text.trimEnd_append hb, Text.trimEnd_append hb']

theorem SameButBlanks.refl (s : String) : SameButBlanks s s := agree_iff.mp (beq_self_eq_true _)

variable {s : FileSystem} {c : Configuration} {schema output : String} {unit : GeneratedUnit}

/-- A check on a file system succeeds. -/
def IsUpToDate (s : FileSystem) (c : Configuration) (schema output : String) : Prop :=
  ∃ g, (s.perform (generate c schema output .check).run).1 = .ok g

/-- A write on a file system reports that the output holds the unit already. -/
def IsUnchanged (s : FileSystem) (c : Configuration) (schema output : String) : Prop :=
  ∃ g, (s.perform (generate c schema output .write).run).1 = .ok g ∧
    g.delivery = some (.unchanged output)

theorem isPresent_of_readText {text : String} (h : s.readText output = .ok text) :
    s.isPresent output = true := by
  unfold FileSystem.readText FileSystem.node at h
  unfold FileSystem.isPresent
  cases hl : s.locate output with
  | error fault =>
      rw [hl] at h
      cases h
  | ok place => rfl

theorem compared_eq_ok_iff {content : String} : compared s output content = .ok () ↔
    ∃ existing, s.readText output = .ok existing ∧ SameButBlanks existing content := by
  unfold compared
  constructor
  · intro h
    split at h
    · split at h
      · cases h
      · rename_i existing hread
        split at h
        · rename_i hagree
          exact ⟨existing, hread, agree_iff.mp hagree⟩
        · cases h
    · cases h
  · rintro ⟨existing, hread, hsame⟩
    rw [if_pos (isPresent_of_readText hread), hread]
    dsimp only
    rw [if_pos (agree_iff.mpr hsame)]

section fresh
variable (hfresh : freshUnit c schema s = .ok unit)
include hfresh

/-- A check succeeds where the output holds the unit up to blanks at the end. -/
theorem isUpToDate_iff : IsUpToDate s c schema output ↔
    ∃ existing, s.readText output = .ok existing ∧ SameButBlanks existing unit.content := by
  rw [IsUpToDate, perform_generate, hfresh]
  dsimp only
  rw [perform_conclude_check, ← compared_eq_ok_iff]
  cases compared s output unit.content with
  | error e => simp [Except.map]
  | ok _ => simp [Except.map]

/-- A write leaves the output alone where it holds the unit. -/
theorem isUnchanged_iff :
    IsUnchanged s c schema output ↔ s.readText output = .ok unit.content := by
  have hleaves := leaves_generate s c schema output
  rw [hfresh] at hleaves
  unfold IsUnchanged
  generalize s.perform (generate c schema output .write).run = outcome at hleaves
  cases hleaves with
  | failed h he => cases h
  | unchanged h htext =>
      obtain rfl := Except.ok.inj h
      exact ⟨fun _ => htext, fun _ => ⟨_, rfl, rfl⟩⟩
  | written h htext hplaces hread =>
      obtain rfl := Except.ok.inj h
      refine ⟨?_, fun h => absurd h htext⟩
      rintro ⟨g, hg, hunchanged⟩
      obtain rfl := Except.ok.inj hg
      cases hunchanged
  | fault h htext he hspares =>
      obtain rfl := Except.ok.inj h
      refine ⟨?_, fun h => absurd h htext⟩
      rintro ⟨g, hg, _⟩
      cases hg

/-- Where there is a unit, a check succeeds if the output holds it up to blanks at the end, and a
write leaves the output alone if it holds the unit itself. So a check succeeds where a write would
change nothing, and besides exactly where the output differs from the unit in such blanks. -/
theorem upToDate_and_unchanged :
    (IsUpToDate s c schema output ↔
      ∃ existing, s.readText output = .ok existing ∧ SameButBlanks existing unit.content) ∧
    (IsUnchanged s c schema output ↔ s.readText output = .ok unit.content) ∧
    (IsUnchanged s c schema output → IsUpToDate s c schema output) ∧
    ((IsUpToDate s c schema output ∧ ¬IsUnchanged s c schema output) ↔
      ∃ existing, s.readText output = .ok existing ∧ existing ≠ unit.content ∧
        SameButBlanks existing unit.content) := by
  have hcheck : IsUpToDate s c schema output ↔ _ := isUpToDate_iff hfresh
  have hwrite : IsUnchanged s c schema output ↔ _ := isUnchanged_iff hfresh
  refine ⟨hcheck, hwrite, fun h => ?_, ?_⟩
  · exact hcheck.mpr ⟨unit.content, hwrite.mp h, .refl _⟩
  · rw [hcheck, hwrite]
    constructor
    · rintro ⟨⟨existing, hread, hsame⟩, hne⟩
      exact ⟨existing, hread, fun he => hne (he ▸ hread), hsame⟩
    · rintro ⟨existing, hread, hne, hsame⟩
      refine ⟨⟨existing, hread, hsame⟩, fun h => hne ?_⟩
      exact Except.ok.inj (hread.symm.trans h)

end fresh

/-! ### Boxes -/

theorem readText_boxFiles (text : String) : (boxFiles text).readText "ui.py" = .ok text ∧
    (boxFiles text).readText "/home/ui.py" = .ok text :=
  ⟨FileSystem.readText_eq_ok
      (show (boxFiles text).locate "ui.py" = .ok ["home", "ui.py"] from rfl) rfl,
    FileSystem.readText_eq_ok
      (show (boxFiles text).locate "/home/ui.py" = .ok ["home", "ui.py"] from rfl) rfl⟩

theorem exists_freshUnit_boxFiles : ∃ unit : GeneratedUnit, ∀ text,
    freshUnit {} "ui.json" (boxFiles text) = .ok unit := by
  have hread : ∀ text, (boxFiles text).readText "ui.json" = .ok boxSchema := fun text =>
    FileSystem.readText_eq_ok
      (show (boxFiles text).locate "ui.json" = .ok ["home", "ui.json"] from rfl) rfl
  have hok : (unitOf {} {} boxSchema).isOk = true := by decide +kernel
  cases hunit : unitOf {} {} boxSchema with
  | error e =>
      rw [hunit] at hok
      cases hok
  | ok unit =>
      refine ⟨unit, fun text => ?_⟩
      have hsettings : ({} : Configuration).settings = .ok {} := rfl
      unfold freshUnit
      rw [hsettings]
      dsimp only
      rw [hread]
      exact hunit

theorem upToDate_and_unchanged_boxes : ∃ unit : GeneratedUnit,
    freshUnit {} "ui.json" (boxFiles unit.content) = .ok unit ∧
      IsUnchanged (boxFiles unit.content) {} "ui.json" "/home/ui.py" ∧
      IsUpToDate (boxFiles unit.content) {} "ui.json" "/home/ui.py" := by
  obtain ⟨unit, hfresh⟩ := exists_freshUnit_boxFiles
  have hwrite : IsUnchanged (boxFiles unit.content) {} "ui.json" "/home/ui.py" ↔ _ :=
    (upToDate_and_unchanged (hfresh unit.content)).2.1
  have hunchanged := hwrite.mpr (readText_boxFiles unit.content).2
  exact ⟨unit, hfresh _, hunchanged,
    (upToDate_and_unchanged (hfresh unit.content)).2.2.1 hunchanged⟩

/-- With one more line feed at the end of the output a check still succeeds, and a write would
replace the output. -/
theorem upToDate_not_unchanged : ∃ unit : GeneratedUnit,
    freshUnit {} "ui.json" (boxFiles (unit.content ++ "\n")) = .ok unit ∧
      (boxFiles (unit.content ++ "\n")).readText "ui.py" ≠ .ok unit.content ∧
      IsUpToDate (boxFiles (unit.content ++ "\n")) {} "ui.json" "ui.py" ∧
      ¬IsUnchanged (boxFiles (unit.content ++ "\n")) {} "ui.json" "ui.py" := by
  obtain ⟨unit, hfresh⟩ := exists_freshUnit_boxFiles
  have hread := (readText_boxFiles (unit.content ++ "\n")).1
  have hne : (boxFiles (unit.content ++ "\n")).readText "ui.py" ≠ .ok unit.content := by
    rw [hread]
    intro he
    have hlist := congrArg String.toList (Except.ok.inj he)
    rw [String.toList_append] at hlist
    exact absurd hlist (by simp)
  refine ⟨unit, hfresh _, hne, ?_, ?_⟩
  · refine (isUpToDate_iff (hfresh _)).mpr ⟨_, hread, unit.content.toList, ['\n'], [], ?_⟩
    refine ⟨String.toList_append .., (List.append_nil _).symm, ?_, ?_⟩
    · simp only [List.mem_singleton, forall_eq]
      decide
    · exact fun c hc => absurd hc List.not_mem_nil
  · exact fun h => hne ((isUnchanged_iff (hfresh _)).mp h)

end Command

end SchemaModels
