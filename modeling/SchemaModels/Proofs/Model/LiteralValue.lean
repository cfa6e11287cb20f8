import SchemaModels.Proofs.Json.Keys
import SchemaModels.Proofs.Json.Numeral
import SchemaModels.Proofs.Model.StringLiteral
import SchemaModels.Proofs.Text.Lines
import SchemaModels.Proofs.Text.Replace

/-!
# Values as literals

A literal is read by its first character: a quote, a bracket, the letter of a word, or else a
numeral. A reader takes from a text what was written and leaves what follows, if that does not go on
as a numeral. So every value is read from its literal, with its keys in their order.

* `readLiteral`, `literalValue?`: the value that a literal denotes.
* `escape_eq_replaceEscaped`: escaping is five replacements in turn.
* `readSequence_intercalate`: what is read item by item.
* `readLiteral_literal`: the value of a literal at the start of a text.
* `literalValue?_literal`: the value of the literal of a value is the value.
-/

namespace SchemaModels.Model

open Text Json

/-! ### Reading -/

section sequence
variable {α : Type} (item : List Char → Option (α × List Char)) (closing : Char)

/-- At least one item, with commas between items, up to a closing bracket. -/
def readSequence : Nat → List Char → Option (List α × List Char)
  | 0, _ => none
  | steps + 1, s => do
      let (v, s) ← item s
      let (more, s) ← readSeparator closing s
      if more then
        let (vs, s) ← readSequence steps s
        some (v :: vs, s)
      else some ([v], s)

/-- The items of a container, after its opening bracket. -/
def readContainer (s : List Char) : Option (List α × List Char) :=
  match skipSpace s with
  | [] => none
  | c :: s =>
      if c = closing then some ([], s) else readSequence item closing (c :: s).length (c :: s)

end sequence

/-- A string, a colon and a value. -/
def readKeyed (value : List Char → Option (Json × List Char)) (s : List Char) :
    Option ((String × Json) × List Char) :=
  (stringLiteral? s).bind fun r =>
    match skipSpace r.2 with
    | ':' :: s => (value (skipSpace s)).map fun q => ((String.ofList r.1, q.1), q.2)
    | _ => none

/-- The value of the literal at the start of a text, and what stands after it. Literals nest less
than `depth` deep. A repeated key keeps its first position and takes its last value. -/
def readLiteral : Nat → List Char → Option (Json × List Char)
  | 0, _ => none
  | _ + 1, [] => none
  | depth + 1, c :: s =>
      if c = '"' then (stringLiteral? (c :: s)).map fun r => (.string (String.ofList r.1), r.2)
      else if c = '[' then
        (readContainer (readLiteral depth) ']' s).map fun r => (.array r.1, r.2)
      else if c = '\x7b' then
        (readContainer (readKeyed (readLiteral depth)) '\x7d' s).map fun r =>
          (.object (r.1.foldl (fun es e => Entries.put es e.1 e.2) []), r.2)
      else if c = 'N' then readWord ['N', 'o', 'n', 'e'] .null (c :: s)
      else if c = 'T' then readWord ['T', 'r', 'u', 'e'] (.bool true) (c :: s)
      else if c = 'F' then readWord ['F', 'a', 'l', 's', 'e'] (.bool false) (c :: s)
      else (Number.readNearest (c :: s)).map fun r => (.number r.1, r.2)

/-- The value that a literal denotes. -/
def literalValue? (s : String) : Option Json :=
  match readLiteral (s.toList.length + 1) s.toList with
  | some (v, []) => some v
  | _ => none

/-! ### Strings -/

/-- The replacements that escape a text, one after another. -/
def replaceEscaped (s : List Char) : List Char :=
  replaceAll ['\t'] ['\\', 't'] (replaceAll ['\r'] ['\\', 'r'] (replaceAll ['\n'] ['\\', 'n']
    (replaceAll ['"'] ['\\', '"'] (replaceAll ['\\'] ['\\', '\\'] s))))

/-- Escaping is five replacements in turn: no later one meets what an earlier one wrote. -/
theorem escape_eq_replaceEscaped (s : List Char) : escape s = replaceEscaped s := by
  have hescaped : ∀ c ∈ escapedChars, Text.escapeChar c = replaceEscaped [c] :=
    forall_escapedChars.mpr (by decide)
  have hchar : ∀ c, Text.escapeChar c = replaceEscaped [c] := fun c => by
    by_cases h : c ∈ escapedChars
    · exact hescaped c h
    · rw [escapeChar_of_not_mem h]
      simp only [escapedChars, List.mem_cons, List.not_mem_nil, or_false, not_or] at h
      simp only [replaceEscaped, replaceAll_singleton, List.flatMap_singleton, h, if_false]
  calc
    escape s = s.flatMap fun c => replaceEscaped [c] := List.flatMap_congr fun c _ => hchar c
    _ = replaceEscaped s := by
      simp only [replaceEscaped, replaceAll_singleton, List.flatMap_assoc, List.flatMap_singleton]

/-! ### Sequences -/

/-- A bracket that closes a container. -/
def IsClosing (closing : Char) : Prop := closing = ']' ∨ closing = '\x7d'

instance (closing : Char) : Decidable (IsClosing closing) :=
  inferInstanceAs (Decidable (closing = ']' ∨ closing = '\x7d'))

/-- A text that begins with something else than a blank or a closing bracket. -/
def Begins (s : List Char) : Prop := ∃ c t, s = c :: t ∧ isSpace c = false ∧ ¬IsClosing c

theorem IsClosing.isSpace_eq {closing : Char} (h : IsClosing closing) :
    isSpace closing = false := by
  rcases h with rfl | rfl <;> rfl

theorem skipSpace_cons {c : Char} (h : isSpace c = false) (s : List Char) :
    skipSpace (c :: s) = c :: s := by
  rw [skipSpace, List.dropWhile_cons_of_neg]
  rw [h]
  exact Bool.false_ne_true

theorem Begins.skipSpace_append {s : List Char} (h : Begins s) (rest : List Char) :
    skipSpace (s ++ rest) = s ++ rest := by
  obtain ⟨c, t, rfl, hc, -⟩ := h
  exact skipSpace_cons hc _

/-- What begins a text begins what the text begins. -/
theorem Begins.append {s : List Char} (h : Begins s) (rest : List Char) : Begins (s ++ rest) := by
  obtain ⟨c, t, rfl, hc⟩ := h
  exact ⟨c, t ++ rest, rfl, hc⟩

theorem Begins.length_pos {s : List Char} (h : Begins s) : 0 < s.length := by
  obtain ⟨c, t, rfl, -⟩ := h
  exact Nat.succ_pos _

section sequence
variable {α : Type} {item : List Char → Option (α × List Char)} {closing : Char}
  {text : α → String}

/-- Texts with commas between them. -/
theorem toList_intercalate_comma (v w : α) (vs : List α) :
    (String.intercalate ", " ((v :: w :: vs).map text)).toList =
      (text v).toList ++ ',' :: ' ' :: (String.intercalate ", " ((w :: vs).map text)).toList := by
  rw [List.map_cons, List.map_cons, String.intercalate_cons_cons, String.toList_append,
    String.toList_append, List.append_assoc]
  rfl

theorem begins_intercalate {v : α} (h : Begins (text v).toList) (vs : List α) :
    Begins (String.intercalate ", " ((v :: vs).map text)).toList := by
  rw [List.map_cons, toList_intercalate_cons]
  exact h.append _

/-- There are no more texts than characters. -/
theorem length_le_intercalate : ∀ {vs : List α}, (∀ v ∈ vs, Begins (text v).toList) →
    vs.length ≤ (String.intercalate ", " (vs.map text)).toList.length
  | [], _ => Nat.zero_le _
  | [v], h => by
      rw [List.map_singleton, String.intercalate_singleton]
      exact (h v List.mem_cons_self).length_pos
  | v :: w :: vs, h => by
      have ih := length_le_intercalate (List.forall_mem_cons.mp h).2
      rw [List.length_cons] at ih ⊢
      rw [toList_intercalate_comma, List.length_append, List.length_cons, List.length_cons,
        List.length_cons]
      omega

/-- No text is longer than all of them. -/
theorem length_le_of_mem_intercalate (text : α → String) {v : α} : ∀ {vs : List α}, v ∈ vs →
    (text v).toList.length ≤ (String.intercalate ", " (vs.map text)).toList.length
  | [w], h => by
      rw [List.mem_singleton.mp h, List.map_singleton, String.intercalate_singleton]
  | w :: u :: vs, h => by
      rw [toList_intercalate_comma, List.length_append, List.length_cons, List.length_cons]
      rcases List.mem_cons.mp h with rfl | h
      · omega
      · have := length_le_of_mem_intercalate text h
        omega

variable (hclosing : IsClosing closing)
include hclosing

theorem endsNumeral_closing (rest : List Char) : Number.EndsNumeral (closing :: rest) := by
  rintro c hc
  obtain rfl : closing = c := Option.some.inj hc
  rcases hclosing with rfl | rfl <;> decide

theorem readSeparator_closing (rest : List Char) :
    readSeparator closing (closing :: rest) = some (false, rest) := by
  rw [readSeparator, skipSpace_cons hclosing.isSpace_eq]
  rcases hclosing with rfl | rfl <;> rfl

/-- What is read item by item, if each item is. -/
theorem readSequence_intercalate (rest : List Char) : ∀ (steps : Nat) {v : α} {vs : List α},
    (∀ w ∈ v :: vs, Begins (text w).toList) →
    (∀ w ∈ v :: vs, ∀ s, Number.EndsNumeral s → item ((text w).toList ++ s) = some (w, s)) →
    vs.length < steps →
    readSequence item closing steps
      ((String.intercalate ", " ((v :: vs).map text)).toList ++ closing :: rest) =
        some (v :: vs, rest)
  | steps + 1, v, [], _, hitem, _ => by
      rw [List.map_singleton, String.intercalate_singleton, readSequence,
        hitem v List.mem_cons_self _ (endsNumeral_closing hclosing rest)]
      simp only [Option.bind_eq_bind, Option.bind_some]
      rw [readSeparator_closing hclosing]
      rfl
  | steps + 1, v, w :: vs, hbegins, hitem, hsteps => by
      obtain ⟨-, hbegins⟩ := List.forall_mem_cons.mp hbegins
      obtain ⟨hv, hitem⟩ := List.forall_mem_cons.mp hitem
      have ih := readSequence_intercalate rest steps hbegins hitem (Nat.lt_of_succ_lt_succ hsteps)
      have hmore := begins_intercalate (hbegins w List.mem_cons_self) vs
      have hcomma : ∀ s, Number.EndsNumeral (',' :: s) := fun s c hc => by
        obtain rfl : ',' = c := Option.some.inj hc
        decide
      have hseparator : ∀ s, readSeparator closing (',' :: ' ' :: s) = some (true, skipSpace s) :=
        fun _ => rfl
      rw [toList_intercalate_comma, List.append_assoc, readSequence, List.cons_append,
        List.cons_append, hv _ (hcomma _)]
      simp only [Option.bind_eq_bind, Option.bind_some]
      rw [hseparator, hmore.skipSpace_append]
      simp only [Option.bind_some, if_true]
      rw [ih]
      rfl

/-- The items of a container are read from between its brackets. -/
theorem readContainer_intercalate {vs : List α} (rest : List Char)
    (hbegins : ∀ v ∈ vs, Begins (text v).toList)
    (hitem : ∀ v ∈ vs, ∀ s, Number.EndsNumeral s → item ((text v).toList ++ s) = some (v, s)) :
    readContainer item closing
      ((String.intercalate ", " (vs.map text)).toList ++ closing :: rest) = some (vs, rest) := by
  unfold readContainer
  cases vs with
  | nil =>
      rw [List.map_nil, String.intercalate_nil, String.toList_empty, List.nil_append,
        skipSpace_cons hclosing.isSpace_eq]
      exact if_pos rfl
  | cons v vs =>
      have hread := fun steps => readSequence_intercalate hclosing rest steps hbegins hitem
      have hlength := length_le_intercalate hbegins
      have hfirst := begins_intercalate (hbegins v List.mem_cons_self) vs
      rw [hfirst.skipSpace_append]
      generalize (String.intercalate ", " ((v :: vs).map text)).toList = s at *
      obtain ⟨c, t, rfl, -, hc⟩ := hfirst
      rw [List.length_cons, List.length_cons] at hlength
      rw [List.cons_append] at hread ⊢
      refine (if_neg fun (h : c = closing) => hc (h ▸ hclosing)).trans (hread _ ?_)
      rw [List.length_cons, List.length_append]
      omega

end sequence

/-! ### Values -/

/-- The literal of a key and the literal of its value. -/
def entryLiteral (e : String × Json) : String := quoted e.1 ++ ": " ++ literal e.2

theorem literalEntries_eq_map (entries : Entries) :
    literalEntries entries = entries.map entryLiteral := by
  induction entries with
  | nil => rfl
  | cons e rest ih => rw [literalEntries, ih, List.map_cons, entryLiteral]

theorem toList_quoted (s : String) : (quoted s).toList = '"' :: (escape s.toList ++ ['"']) := by
  simp [quoted, escaped]

theorem toList_array (items : List Json) : (literal (.array items)).toList =
    '[' :: ((String.intercalate ", " (items.map literal)).toList ++ [']']) := by
  rw [literal, literals_eq_map]
  simp

theorem toList_object (entries : Entries) : (literal (.object entries)).toList =
    '\x7b' :: ((String.intercalate ", " (entries.map entryLiteral)).toList ++ ['\x7d']) := by
  rw [literal, literalEntries_eq_map]
  simp

theorem toList_entryLiteral (e : String × Json) : (entryLiteral e).toList =
    '"' :: (escape e.1.toList ++ '"' :: ':' :: ' ' :: (literal e.2).toList) := by
  rw [entryLiteral, String.toList_append, String.toList_append, toList_quoted]
  simp

/-- What a literal that is no number begins with, and what stands between literals. -/
def otherBeginnings : List Char :=
  ['"', '[', '\x7b', 'N', 'T', 'F', ' ', '\t', '\n', '\r', ']', '\x7d']

/-- Nothing else than a number begins as a number does. -/
theorem ne_of_begins_number {c : Char} (h : c = '-' ∨ c.isDigit = true) :
    ∀ d ∈ otherBeginnings, c ≠ d := by
  have hall : (otherBeginnings.all fun d => !d.isDigit) = true := by decide
  rintro d hd rfl
  rcases h with rfl | h
  · exact absurd hd (by decide)
  · have hdigit := List.all_eq_true.mp hall c hd
    rw [h] at hdigit
    exact absurd hdigit Bool.false_ne_true

theorem begins_literal (v : Json) : Begins (literal v).toList := by
  have hbegins : ∀ {c t}, isSpace c = false ∧ ¬IsClosing c → Begins (c :: t) :=
    fun h => ⟨_, _, rfl, h⟩
  cases v with
  | null => exact hbegins (by decide)
  | bool b => cases b <;> exact hbegins (by decide)
  | number n =>
      obtain ⟨c, s, hs, hc⟩ := n.exists_cons_text
      have hne := ne_of_begins_number hc
      rw [literal, String.toList_ofList, hs]
      simp only [otherBeginnings, List.forall_mem_cons] at hne
      exact hbegins (by simp [isSpace, IsClosing, hne])
  | string s =>
      rw [literal, toList_quoted]
      exact hbegins (by decide)
  | array items =>
      rw [toList_array]
      exact hbegins (by decide)
  | object entries =>
      rw [toList_object]
      exact hbegins (by decide)

theorem begins_entryLiteral (e : String × Json) : Begins (entryLiteral e).toList := by
  rw [toList_entryLiteral]
  exact ⟨'"', _, rfl, by decide⟩

theorem length_literal_le_entryLiteral (e : String × Json) :
    (literal e.2).toList.length ≤ (entryLiteral e).toList.length := by
  rw [entryLiteral, String.toList_append, List.length_append]
  omega

/-- A key and its value are read from their literals. -/
theorem readKeyed_entryLiteral {value : List Char → Option (Json × List Char)}
    {e : String × Json} {rest : List Char}
    (h : value ((literal e.2).toList ++ rest) = some (e.2, rest)) :
    readKeyed value ((entryLiteral e).toList ++ rest) = some (e, rest) := by
  have hspace : ∀ s, skipSpace (':' :: s) = ':' :: s := fun _ => rfl
  have hblank : ∀ s, skipSpace (' ' :: s) = skipSpace s := fun _ => rfl
  rw [toList_entryLiteral, readKeyed, List.cons_append, List.append_assoc, List.cons_append,
    List.cons_append, List.cons_append, stringLiteral?_escape, Option.bind_some, hspace]
  show (value (skipSpace (' ' :: _))).map _ = _
  rw [hblank, (begins_literal e.2).skipSpace_append, h, Option.map_some, String.ofList_toList]

/-- The value of a literal is read at the start of a text. -/
theorem readLiteral_literal {v : Json} (h : v.Distinct) : ∀ {depth : Nat} {rest : List Char},
    (literal v).toList.length ≤ depth → Number.EndsNumeral rest →
      readLiteral depth ((literal v).toList ++ rest) = some (v, rest) := by
  induction v using Json.induct with
  | null =>
      rintro (_ | depth) rest hdepth -
      · cases hdepth
      · rfl
  | bool b =>
      rintro (_ | depth) rest hdepth -
      · cases b <;> cases hdepth
      · cases b <;> rfl
  | number n =>
      rintro (_ | depth) rest hdepth hrest
      · exact absurd (begins_literal (.number n)).length_pos (Nat.not_lt.mpr hdepth)
      · obtain ⟨c, s, hs, hc⟩ := n.exists_cons_text
        have hread := n.readNearest_text hrest
        have hne := ne_of_begins_number hc
        simp only [otherBeginnings, List.forall_mem_cons] at hne
        rw [literal, String.toList_ofList]
        rw [hs, List.cons_append] at hread ⊢
        rw [readLiteral]
        simp only [hne, if_false]
        rw [hread, Option.map_some]
  | string s =>
      rintro (_ | depth) rest hdepth -
      · exact absurd (begins_literal (.string s)).length_pos (Nat.not_lt.mpr hdepth)
      · rw [literal, toList_quoted, List.cons_append, List.append_assoc, readLiteral, if_pos rfl,
          List.singleton_append, stringLiteral?_escape, Option.map_some, String.ofList_toList]
  | array items ih =>
      have hitems := distinct_array.mp h
      rintro (_ | depth) rest hdepth -
      · exact absurd (begins_literal (.array items)).length_pos (Nat.not_lt.mpr hdepth)
      · rw [toList_array] at hdepth ⊢
        have hread : readContainer (readLiteral depth) ']'
            ((String.intercalate ", " (items.map literal)).toList ++ ']' :: rest) =
              some (items, rest) := by
          refine readContainer_intercalate (.inl rfl) rest (fun v _ => begins_literal v) ?_
          intro v hv s hs
          have hlength := length_le_of_mem_intercalate literal hv
          rw [List.length_cons, List.length_append] at hdepth
          exact ih v hv (hitems v hv) (by omega) hs
        rw [List.cons_append, List.append_assoc, readLiteral, if_neg (by decide), if_pos rfl,
          List.singleton_append, hread, Option.map_some]
  | object entries ih =>
      obtain ⟨hkeys, hentries⟩ := distinct_object.mp h
      rintro (_ | depth) rest hdepth -
      · exact absurd (begins_literal (.object entries)).length_pos (Nat.not_lt.mpr hdepth)
      · rw [toList_object] at hdepth ⊢
        have hread : readContainer (readKeyed (readLiteral depth)) '\x7d'
            ((String.intercalate ", " (entries.map entryLiteral)).toList ++ '\x7d' :: rest) =
              some (entries, rest) := by
          refine readContainer_intercalate (.inr rfl) rest (fun e _ => begins_entryLiteral e) ?_
          intro e he s hs
          have hlength := length_le_of_mem_intercalate entryLiteral he
          have hvalue := length_literal_le_entryLiteral e
          rw [List.length_cons, List.length_append] at hdepth
          exact readKeyed_entryLiteral (ih e he (hentries e he) (by omega) hs)
        have hput : entries.foldl (fun es e => Entries.put es e.1 e.2) [] = [] ++ entries :=
          foldl_put_of_nodup hkeys
        rw [List.cons_append, List.append_assoc, readLiteral, if_neg (by decide),
          if_neg (by decide), if_pos rfl, List.singleton_append, hread, Option.map_some]
        dsimp only
        rw [hput, List.nil_append]

theorem literalValue?_of_distinct {v : Json} (h : v.Distinct) :
    literalValue? (literal v) = some v := by
  have hend : Number.EndsNumeral [] := fun _ hc => nomatch hc
  have hread := readLiteral_literal h (Nat.le_succ _) hend
  rw [List.append_nil] at hread
  rw [literalValue?, hread]

/-- A literal denotes the value it was written for, with the keys in their order. So different
values have different literals. -/
theorem literalValue?_literal {v w : Json} (hv : v.Distinct) (hw : w.Distinct) :
    literalValue? (literal v) = some v ∧ (v ≠ w → literal v ≠ literal w) := by
  refine ⟨literalValue?_of_distinct hv, fun hne heq => hne ?_⟩
  have hvalue := literalValue?_of_distinct hv
  rw [heq, literalValue?_of_distinct hw] at hvalue
  exact (Option.some.inj hvalue).symm

/-- An object whose strings hold quotes, brackets and separators. -/
def delimiters : Json :=
  .object [("]\"", .array [.string "\\\x7d, [", .null, .number (.integer (-7))]),
    (": ", .bool true)]

/-- The same entries in another order. -/
def delimitersTurned : Json :=
  .object [(": ", .bool true),
    ("]\"", .array [.string "\\\x7d, [", .null, .number (.integer (-7))])]

/-- Neither hides a delimiter, and the order of the keys is part of a literal. -/
theorem literalValue?_literal_delimiters :
    delimiters.Distinct ∧ delimitersTurned.Distinct ∧
      literalValue? (literal delimiters) = some delimiters ∧
        literal delimiters ≠ literal delimitersTurned := by
  have hv : delimiters.Distinct := by decide
  have hw : delimitersTurned.Distinct := by decide
  have hne : delimiters ≠ delimitersTurned := by simp [delimiters, delimitersTurned]
  obtain ⟨hvalue, hdiffer⟩ := literalValue?_literal hv hw
  exact ⟨hv, hw, hvalue, hdiffer hne⟩

end SchemaModels.Model
