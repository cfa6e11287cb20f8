import SchemaModels.Proofs.Model.Declaration
import SchemaModels.Proofs.Repair.Plain
import SchemaModels.Proofs.Spec.Strings

/-!
# Keywords in the code of models

The code of models is put together from the strings of a table, escaped or normalized, and from
texts in which no keyword of the repairs begins, with breaks between them. So a keyword that is in
none of the strings is not in the code, unless a model refuses other fields.

* `plain_quoted`, `plain_pattern`, `plain_docstring`, `plain_literal`: strings in code.
* `plain_attributeName`, `plain_memberName`, `all_isInner_text`: names and numbers.
-/

namespace SchemaModels.Model

open Text Repair

/-! ### Quoted texts -/

theorem plain_escape {s : List Char} (h : Plain s) : Plain (escape s) := by
  refine (Edited.flatMap (fun c => ?_) s).plain h
  unfold escapeChar
  by_cases hc : c ∈ ['\\', '"', '\n', '\r', '\t']
  · refine .inr ?_
    simp only [List.mem_cons, List.not_mem_nil, or_false] at hc
    rcases hc with rfl | rfl | rfl | rfl | rfl <;> decide
  · simp only [List.mem_cons, List.not_mem_nil, or_false, not_or] at hc
    simp only [hc, if_false, true_or]

theorem plain_quoted {s : String} (h : Plain s.toList) : Plain (quoted s).toList := by
  rw [quoted, plain_enclose (by decide) (by decide), escaped, String.toList_ofList]
  exact plain_escape h

theorem plain_pattern {s : String} (h : Plain s.toList) : Plain (pattern s).toList := by
  unfold pattern
  split
  · exact plain_quoted h
  · exact (plain_enclose (by decide) (by decide)).mpr h

/-! ### Documentation -/

theorem plain_escapeDoc {s : List Char} (h : Plain s) : Plain (escapeDoc s) := by
  refine (Edited.replaceAll (by decide) _).plain ((Edited.flatMap (fun c => ?_) s).plain h)
  split
  · exact .inr (by decide)
  · exact .inl rfl

theorem plain_docContent {description : String} (h : Plain description.toList) :
    Plain (docContent description) := by
  have hdoc := plain_escapeDoc h
  unfold docContent guardLast
  split
  · exact (plain_tail (by decide)).mpr (hdoc.of_isInfix (List.dropLast_prefix _).isInfix)
  · exact hdoc

section indent
variable {indent : String} (hindent : indent.toList.all isInner = true)
include hindent

theorem plain_docstring {description : String} (h : Plain description.toList) :
    Plain (docstring indent description).toList := by
  have hcontent := plain_docContent h
  have hopening : Plain (indent ++ "\"\"\"").toList :=
    (plain_prepend hindent).mpr (plain_of_all (by decide))
  have hone : Plain (indent ++ "\"\"\"" ++ String.ofList (docContent description) ++
      "\"\"\"").toList := by
    rw [plain_append (by decide), plain_join (by decide), String.toList_ofList]
    exact ⟨plain_of_all hindent, hcontent⟩
  unfold docstring
  dsimp only
  split
  · exact hone
  · exact hone
  · refine plain_intercalate (by decide) fun line hline => ?_
    rcases List.mem_append.mp hline with hline | hline
    · rcases List.mem_cons.mp hline with rfl | hline
      · exact hopening
      · obtain ⟨l, hl, rfl⟩ := List.mem_map.mp hline
        split
        · exact plain_nil
        · rw [plain_prepend hindent, String.toList_ofList]
          exact hcontent.of_isInfix (isInfix_of_mem_lines hl)
    · rw [List.mem_singleton.mp hline]
      exact hopening

end indent

theorem plain_commentLine {line : String} (h : Plain line.toList) :
    Plain (commentLine line).toList := by
  unfold commentLine
  split
  · exact plain_of_all (by decide)
  · exact (plain_prepend (by decide)).mpr h

/-! ### Numbers -/

theorem isInner_of_isDigit {c : Char} (h : c.isDigit = true) : isInner c = true := by
  refine isInner_iff.mpr ⟨?_, ?_⟩ <;> rintro rfl <;> exact absurd h (by decide)

theorem all_isInner_digitsOf (n : Nat) : (Number.digitsOf n).all isInner = true :=
  List.all_eq_true.mpr fun _ hc =>
    isInner_of_isDigit (Nat.isDigit_of_mem_toDigits (by decide) (by decide) hc)

theorem all_isInner_of_sublist {s t : List Char} (h : t.all isInner = true) (hs : s.Sublist t) :
    s.all isInner = true :=
  List.all_eq_true.mpr fun c hc => List.all_eq_true.mp h c (hs.subset hc)

section digits
variable {digits : List Char} (h : digits.all isInner = true)
include h

theorem all_isInner_plain (point : Int) : (Number.plain digits point).all isInner = true := by
  have hpoint : isInner '.' = true := by decide
  have hzero : isInner '0' = true := by decide
  have hzeros : ∀ n, (List.replicate n '0').all isInner = true := fun n =>
    List.all_eq_true.mpr fun c hc => List.eq_of_mem_replicate hc ▸ hzero
  unfold Number.plain
  dsimp only
  split
  · simp only [List.all_cons, List.all_append, hzero, hpoint, hzeros, h, Bool.and_true]
  · split
    · simp only [List.all_cons, List.all_append, List.all_nil, hzero, hpoint, hzeros, h,
        Bool.and_true]
    · simp only [List.all_cons, List.all_append, hpoint,
        all_isInner_of_sublist h (List.take_sublist _ _),
        all_isInner_of_sublist h (List.drop_sublist _ _), Bool.and_true]

theorem all_isInner_scientific (exponent : Int) :
    (Number.scientific digits exponent).all isInner = true := by
  have hdrop := all_isInner_of_sublist h (List.drop_sublist 1 digits)
  have hfraction : (if (digits.drop 1).isEmpty then [] else '.' :: digits.drop 1).all isInner =
      true := by
    split
    · rfl
    · rw [List.all_cons, hdrop]
      decide
  have hsign : isInner (if exponent < 0 then '-' else '+') = true := by
    split <;> decide
  have hletter : isInner 'e' = true := by decide
  unfold Number.scientific
  dsimp only
  simp only [List.all_cons, List.all_append, hfraction, hsign, hletter, all_isInner_digitsOf,
    all_isInner_of_sublist h (List.take_sublist _ _), Bool.and_true]

end digits

/-- No keyword begins in a number. -/
theorem all_isInner_text (n : Number) : n.text.all isInner = true := by
  have hminus : isInner '-' = true := by decide
  cases n with
  | integer n =>
      show (Number.integerText n).all isInner = true
      unfold Number.integerText
      split
      · rw [List.all_cons, hminus, all_isInner_digitsOf, Bool.true_and]
      · exact all_isInner_digitsOf _
  | real x =>
      show (Number.realText x).all isInner = true
      unfold Number.realText
      rw [List.all_append, Bool.and_eq_true]
      constructor
      · split <;> decide
      · split
        · decide
        · unfold Number.decimalText
          dsimp only
          split
          · exact all_isInner_plain (all_isInner_digitsOf _) _
          · exact all_isInner_scientific (all_isInner_digitsOf _) _

theorem plain_numberText (n : Number) : Plain (numberText n).toList := by
  rw [numberText, String.toList_ofList]
  exact plain_of_all (all_isInner_text n)

theorem plain_countText (n : Nat) : Plain (countText n).toList := by
  rw [countText, String.toList_ofList]
  exact plain_of_all (all_isInner_digitsOf n)

/-! ### Names -/

theorem plain_attributeName {field : String} (h : Plain field.toList) :
    Plain (attributeName field).toList := by
  have hmap : Plain (field.toList.map attributeChar) := by
    rw [List.map_eq_flatMap]
    refine (Edited.flatMap (fun c => ?_) _).plain h
    unfold attributeChar
    split
    · exact .inl rfl
    · exact .inr (by decide)
  have hstem := hmap.of_isInfix (List.dropWhile_suffix (· == '_')).isInfix
  have hchars : Plain (attributeChars field.toList) := by
    unfold attributeChars
    dsimp only
    split
    · exact plain_of_all (by decide)
    · split
      · exact (plain_lead (by decide)).mpr hstem
      · exact hstem
  unfold attributeName
  dsimp only
  split
  · rw [plain_append (by decide), String.toList_ofList]
    exact hchars
  · rwa [String.toList_ofList]

theorem toUpper_ne (c : Char) : c.toUpper ≠ 'o' := by
  unfold Char.toUpper
  split
  · rename_i h
    intro hc
    have hval := Char.ext_iff.mp hc
    have hle := UInt32.le_iff_toNat_le.mp h.2
    have hz : ('z'.val).toNat = 122 := by decide
    have hd : ('A'.val - 'a'.val).toNat = 4294967264 := by decide
    have ho : ('o'.val).toNat = 111 := by decide
    rw [← UInt32.toNat_inj, UInt32.toNat_add] at hval
    omega
  · rename_i h
    rintro rfl
    exact h (by decide)

/-- The names of members have no small letters. -/
theorem plain_memberName (value : String) : Plain (memberName value).toList := by
  have hmap : 'o' ∉ value.toList.map memberChar := by
    intro ho
    obtain ⟨c, _, hc⟩ := List.mem_map.mp ho
    unfold memberChar at hc
    split at hc
    · exact toUpper_ne c hc
    · exact absurd hc (by decide)
  have htrim : 'o' ∉ trim (· == '_') (value.toList.map memberChar) :=
    fun ho => hmap ((trim_isInfix _ _).subset ho)
  rw [memberName, String.toList_ofList, memberChars]
  split
  · exact plain_of_all (by decide)
  · rename_i c rest htext
    rw [htext] at htrim
    split
    · rw [plain_cons (by decide)]
      exact plain_of_not_mem htrim
    · exact plain_of_not_mem htrim

/-! ### Values -/

mutual

/-- The literal of a value has the strings of the value, in quotes. -/
theorem plain_literal : ∀ v : Json, AllPlain v.strings → Plain (literal v).toList
  | .null, _ => plain_of_all (by decide)
  | .bool b, _ => by cases b <;> exact plain_of_all (by decide)
  | .number n, _ => plain_numberText n
  | .string s, h => plain_quoted (h s (List.mem_singleton_self s))
  | .array items, h => by
      rw [literal, plain_enclose (by decide) (by decide)]
      exact plain_intercalate (by decide) (plain_literals items h)
  | .object entries, h => by
      rw [literal, plain_enclose (by decide) (by decide)]
      exact plain_intercalate (by decide) (plain_literalEntries entries h)

theorem plain_literals : ∀ items : List Json, AllPlain (Json.stringsItems items) →
    AllPlain (literals items)
  | [], h => h
  | v :: rest, h => by
      obtain ⟨hv, hrest⟩ := AllPlain.append_iff.mp h
      exact AllPlain.cons_iff.mpr ⟨plain_literal v hv, plain_literals rest hrest⟩

theorem plain_literalEntries : ∀ entries : Entries, AllPlain (Json.stringsEntries entries) →
    AllPlain (literalEntries entries)
  | [], h => h
  | (k, v) :: rest, h => by
      obtain ⟨hkv, hrest⟩ := AllPlain.append_iff.mp h
      obtain ⟨hk, hv⟩ := AllPlain.cons_iff.mp hkv
      exact AllPlain.cons_iff.mpr
        ⟨(plain_join (by decide)).mpr ⟨plain_quoted hk, plain_literal v hv⟩,
          plain_literalEntries rest hrest⟩

end

end SchemaModels.Model
