import SchemaModels.Proofs.Repair.Layouts
import SchemaModels.Proofs.Repair.Settled
import SchemaModels.Proofs.Text.Trim

/-!
# Import statements

A statement is its head with names up to the end of the line, or with names in brackets. When the
wrapper's name is dropped from it, the statement that is written reads as one of the other names.

* `findImport_eq_some_iff`, `readImport_eq_some_iff`: what a statement is.
* `findImport_keptText`, `listed_written`: what is written for a statement is one that lists the
  names that stay, in their order.
-/

namespace SchemaModels.Repair

open Text

/-! ### What a statement is -/

/-- The end of a text, or a line break. -/
def AtBreak (s : List Char) : Prop := s = [] ∨ ∃ t, s = '\n' :: t

theorem atLineEnd?_eq_some_iff {s rest : List Char} :
    atLineEnd? s = some rest ↔ AtBreak rest ∧ ∃ gap ∈ inlineGaps, s = gap ++ rest := by
  have hsplit := List.takeWhile_append_dropWhile (p := isInlineBlank) (l := s)
  have hrun : s.takeWhile isInlineBlank ∈ inlineGaps := fun c hc => List.mem_takeWhile_imp hc
  constructor
  · intro h
    unfold atLineEnd? at h
    dsimp only at h
    split at h
    · rename_i hd
      obtain rfl := Option.some.inj h
      change s.dropWhile isInlineBlank = [] at hd
      exact ⟨Or.inl rfl, _, hrun, by rw [hd] at hsplit; exact hsplit.symm⟩
    · rename_i c t hd
      split at h
      · rename_i hc
        obtain rfl := Option.some.inj h
        exact ⟨Or.inr ⟨t, by rw [hd, hc]⟩, _, hrun, hsplit.symm⟩
      · cases h
  · rintro ⟨hrest, gap, hgap, rfl⟩
    rw [atLineEnd?, List.dropWhile_append_of_pos (p := fun c => c = ' ' || c = '\t') hgap]
    rcases hrest with rfl | ⟨t, rfl⟩
    · rfl
    · rfl

theorem readImport_bracket_eq_some_iff {s rest : List Char} {i : ImportStatement} :
    readImport ('(' :: s) = some (i, rest) ↔ AtBreak rest ∧ i.bracketed = true ∧
      ')' ∉ i.names ∧ ∃ gap ∈ inlineGaps, s = i.names ++ ')' :: (gap ++ rest) := by
  unfold readImport
  split
  · rename_i u hu
    obtain rfl := (List.cons.inj hu).2
    constructor
    · intro h
      have hsplit := List.takeWhile_append_dropWhile (p := (· != ')')) (l := s)
      have hnames : ')' ∉ s.takeWhile (· != ')') := fun h => by
        simpa using List.mem_takeWhile_imp h
      split at h
      · cases h
      · rename_i c t ht
        obtain ⟨r, hr, he⟩ := Option.map_eq_some_iff.mp h
        obtain ⟨rfl, rfl⟩ := Prod.mk.inj he
        obtain ⟨hbreak, gap, hgap, rfl⟩ := atLineEnd?_eq_some_iff.mp hr
        have hc : c = ')' := by
          have := List.head?_dropWhile_not (· != ')') s
          rw [ht] at this
          simpa using this
        rw [ht, hc] at hsplit
        exact ⟨hbreak, rfl, hnames, gap, hgap, hsplit.symm⟩
    · rintro ⟨hbreak, hi, hmem, gap, hgap, rfl⟩
      have hne : ∀ c ∈ i.names, (c != ')') = true := fun c hc =>
        bne_iff_ne.mpr (ne_of_mem_of_not_mem hc hmem)
      rw [dropWhile_append_of_head hne (by simp), takeWhile_append_of_head hne (by simp)]
      simp only [atLineEnd?_eq_some_iff.mpr ⟨hbreak, gap, hgap, rfl⟩]
      rw [← hi]
      rfl
  · rename_i hs
    exact absurd rfl (hs s)

theorem readImport_plain_eq_some_iff {s rest : List Char} {i : ImportStatement}
    (hs : ∀ t, s ≠ '(' :: t) :
    readImport s = some (i, rest) ↔ AtBreak rest ∧ i.bracketed = false ∧
      '\n' ∉ i.names ∧ '(' ∉ i.names ∧ s = i.names ++ rest := by
  unfold readImport
  split
  · exact absurd rfl (hs _)
  · dsimp only
    set p := fun c => c != '\n' && c != '(' with hp
    have hsplit := List.takeWhile_append_dropWhile (p := p) (l := s)
    have hdrop : s.drop (s.takeWhile p).length = s.dropWhile p := by
      have : (s.takeWhile p ++ s.dropWhile p).drop (s.takeWhile p).length = _ := List.drop_left
      rwa [hsplit] at this
    constructor
    · intro h
      split at h
      · cases h
      · rename_i hno
        obtain ⟨rfl, rfl⟩ := Prod.mk.inj (Option.some.inj h)
        have hmem : ∀ c ∈ s.takeWhile p, c ≠ '\n' ∧ c ≠ '(' := fun c hc => by
          simpa [hp] using List.mem_takeWhile_imp hc
        have hhead := List.head?_dropWhile_not p s
        rw [hdrop] at hno ⊢
        refine ⟨?_, rfl, fun h => (hmem _ h).1 rfl, fun h => (hmem _ h).2 rfl, hsplit.symm⟩
        cases hd : s.dropWhile p with
        | nil => exact Or.inl rfl
        | cons c t =>
            rw [hd] at hhead hno
            have hc : c = '\n' ∨ c = '(' := by simpa [hp, or_iff_not_imp_left] using hhead
            rcases hc with rfl | rfl
            · exact Or.inr ⟨t, rfl⟩
            · exact absurd rfl (hno t)
    · rintro ⟨hbreak, hi, hn, hb, rfl⟩
      obtain ⟨bracketed, names⟩ := i
      obtain rfl : bracketed = false := hi
      have hne : ∀ c ∈ names, p c = true := fun c hc => by
        simp [hp, ne_of_mem_of_not_mem hc hn, ne_of_mem_of_not_mem hc hb]
      have hhead : ∀ c ∈ rest.head?, p c = false := by
        rcases hbreak with rfl | ⟨t, rfl⟩ <;> simp [hp]
      rw [takeWhile_append_of_head hne hhead, List.drop_left]
      rcases hbreak with rfl | ⟨t, rfl⟩ <;> rfl

/-- A text that has no bracket does not begin with one, nor does the break after it. -/
theorem append_ne_bracket {names rest : List Char} (hnames : '(' ∉ names) (hrest : AtBreak rest)
    (t : List Char) : names ++ rest ≠ '(' :: t := by
  intro h
  cases names with
  | nil =>
      rw [List.nil_append] at h
      rcases hrest with rfl | ⟨u, rfl⟩ <;> cases h
  | cons c names => exact hnames ((List.cons.inj h).1 ▸ List.mem_cons_self)

theorem readImport_eq_some_iff {s rest : List Char} {i : ImportStatement} :
    readImport s = some (i, rest) ↔ AtBreak rest ∧
      if i.bracketed then
        ')' ∉ i.names ∧ ∃ gap ∈ inlineGaps, s = '(' :: (i.names ++ ')' :: (gap ++ rest))
      else '\n' ∉ i.names ∧ '(' ∉ i.names ∧ s = i.names ++ rest := by
  constructor
  · intro h
    by_cases hs : ∃ t, s = '(' :: t
    · obtain ⟨t, rfl⟩ := hs
      obtain ⟨hbreak, hi, hmem, gap, hgap, rfl⟩ := readImport_bracket_eq_some_iff.mp h
      rw [if_pos hi]
      exact ⟨hbreak, hmem, gap, hgap, rfl⟩
    · obtain ⟨hbreak, hi, hnames⟩ := (readImport_plain_eq_some_iff (not_exists.mp hs)).mp h
      rw [hi, if_neg Bool.false_ne_true]
      exact ⟨hbreak, hnames⟩
  · rintro ⟨hbreak, h⟩
    split at h
    · rename_i hi
      obtain ⟨hmem, gap, hgap, rfl⟩ := h
      exact readImport_bracket_eq_some_iff.mpr ⟨hbreak, hi, hmem, gap, hgap, rfl⟩
    · rename_i hi
      obtain ⟨hn, hb, rfl⟩ := h
      have hs := append_ne_bracket hb hbreak
      exact (readImport_plain_eq_some_iff hs).mpr
        ⟨hbreak, Bool.eq_false_iff.mpr hi, hn, hb, rfl⟩

theorem findImport_eq_some_iff {lineStart : Bool} {s rest : List Char} {i : ImportStatement} :
    findImport lineStart s = some (i, rest) ↔
      lineStart = true ∧ ∃ t, s = importHead ++ t ∧ readImport t = some (i, rest) := by
  unfold findImport
  cases lineStart with
  | false => simp
  | true => simp [Option.bind_eq_some_iff, dropPrefix?_eq_some_iff]

theorem takes_findImport : Takes findImport := by
  intro lineStart s i rest h
  obtain ⟨x, hx⟩ := exists_of_findImport h
  refine ⟨importHead ++ (if i.bracketed then ['('] else []) ++ i.names ++ x, fun h => ?_, hx⟩
  rw [List.append_assoc, List.append_assoc] at h
  exact absurd (List.append_eq_nil_iff.mp h).1 (by decide)

/-! ### What a statement lists -/

/-- A name as a statement lists it: without blanks around it, not empty and without a comma. -/
structure IsListed (n : List Char) : Prop where
  trimmed : Trimmed isBlank n
  ne_nil : n ≠ []
  comma : ',' ∉ n

/-- The names in a text between commas. -/
def listedIn (s : List Char) : List (List Char) :=
  ((pieces ',' s).map trimBlank).filter fun n => !n.isEmpty

theorem isListed_of_mem {i : ImportStatement} {n : List Char} (h : n ∈ i.listed) : IsListed n := by
  obtain ⟨hmem, hne⟩ := List.mem_filter.mp h
  obtain ⟨p, hp, rfl⟩ := List.mem_map.mp hmem
  refine ⟨trimmed_trim p, fun hnil => ?_, fun hc => ?_⟩
  · rw [hnil] at hne
    cases hne
  · exact not_mem_of_mem_pieces hp ((trim_isInfix isBlank p).subset hc)

theorem not_mem_gap {gap : List Char} (hgap : gap ∈ gaps) : ',' ∉ gap :=
  not_mem_of_mem_gaps (by decide) hgap

theorem listedIn_gap {gap : List Char} (hgap : gap ∈ gaps) : listedIn gap = [] := by
  rw [listedIn, pieces_of_not_mem (not_mem_gap hgap), List.map_singleton, trimBlank,
    trim_of_forall hgap]
  rfl

theorem listedIn_single {gap n : List Char} (hgap : gap ∈ gaps) (hn : IsListed n) :
    listedIn (gap ++ n) = [n] := by
  have hcomma : ',' ∉ gap ++ n := by
    rw [List.mem_append, not_or]
    exact ⟨not_mem_gap hgap, hn.comma⟩
  rw [listedIn, pieces_of_not_mem hcomma, List.map_singleton, trimBlank,
    trim_append_left hgap hn.trimmed]
  exact List.filter_cons_of_pos (by simp [hn.ne_nil])

/-- A name after blanks, up to its comma, is listed before the names after the comma. -/
theorem listedIn_cons {gap n : List Char} (hgap : gap ∈ gaps) (hn : IsListed n) (s : List Char) :
    listedIn (gap ++ (n ++ ',' :: s)) = n :: listedIn s := by
  have hcomma : ',' ∉ gap ++ n := by
    rw [List.mem_append, not_or]
    exact ⟨not_mem_gap hgap, hn.comma⟩
  rw [← List.append_assoc, listedIn, pieces_append hcomma, List.map_cons,
    trimBlank, trim_append_left hgap hn.trimmed]
  exact List.filter_cons_of_pos (by simp [hn.ne_nil])

theorem listedIn_intercalate : ∀ {ns : List (List Char)} {gap : List Char}, gap ∈ gaps →
    (∀ n ∈ ns, IsListed n) → listedIn (gap ++ List.intercalate ", ".toList ns) = ns
  | [], gap, hgap, _ => by
      rw [List.intercalate_nil, List.append_nil]
      exact listedIn_gap hgap
  | [n], gap, hgap, h => by
      rw [List.intercalate_singleton]
      exact listedIn_single hgap (h n List.mem_cons_self)
  | n :: m :: ns, gap, hgap, h => by
      obtain ⟨hn, hrest⟩ := List.forall_mem_cons.mp h
      rw [List.intercalate_cons_cons, List.append_assoc]
      have hrec : listedIn ([' '] ++ List.intercalate ", ".toList (m :: ns)) = m :: ns :=
        listedIn_intercalate (by decide) hrest
      exact (listedIn_cons hgap hn _).trans (congrArg (n :: ·) hrec)

/-- Names on lines of their own, each with a comma. -/
def onLines (ns : List (List Char)) : List Char :=
  ns.flatMap fun n => "    ".toList ++ n ++ ",\n".toList

theorem onLines_cons (n : List Char) (ns : List (List Char)) :
    onLines (n :: ns) = "    ".toList ++ (n ++ ',' :: (['\n'] ++ onLines ns)) := by
  simp [onLines]

theorem listedIn_onLines : ∀ {ns : List (List Char)} {gap : List Char}, gap ∈ gaps →
    (∀ n ∈ ns, IsListed n) → listedIn (gap ++ onLines ns) = ns
  | [], gap, hgap, _ => by
      rw [onLines, List.flatMap_nil, List.append_nil]
      exact listedIn_gap hgap
  | n :: ns, gap, hgap, h => by
      obtain ⟨hn, hrest⟩ := List.forall_mem_cons.mp h
      have hindent : "    ".toList ∈ gaps := by decide
      have hgap' : gap ++ "    ".toList ∈ gaps := fun c hc =>
        (List.mem_append.mp hc).elim (hgap c) (hindent c)
      have hrec : listedIn (['\n'] ++ onLines ns) = ns := listedIn_onLines (by decide) hrest
      rw [onLines_cons, ← List.append_assoc gap, listedIn_cons hgap' hn, hrec]

theorem not_mem_onLines {d : Char} (hd : d ∉ [' ', ',', '\n']) {ns : List (List Char)}
    (h : ∀ n ∈ ns, d ∉ n) : d ∉ onLines ns := by
  simp only [onLines, List.mem_flatMap, not_exists, not_and]
  intro n hn
  have := h n hn
  simp_all

theorem not_mem_intercalate {d : Char} (hd : d ∉ [' ', ',']) : ∀ {ns : List (List Char)},
    (∀ n ∈ ns, d ∉ n) → d ∉ List.intercalate ", ".toList ns
  | [], _ => List.not_mem_nil
  | [n], h => by
      rw [List.intercalate_singleton]
      exact h n List.mem_cons_self
  | n :: m :: ns, h => by
      obtain ⟨hn, hrest⟩ := List.forall_mem_cons.mp h
      have := not_mem_intercalate hd hrest
      rw [List.intercalate_cons_cons]
      simp_all

namespace ImportStatement
variable (i : ImportStatement)

/-- The statement that is written for the names that stay. -/
def written : ImportStatement :=
  ⟨i.bracketed, if i.bracketed then ['\n'] ++ onLines i.kept
    else List.intercalate ", ".toList i.kept⟩

theorem listed_written : i.written.listed = i.kept := by
  have hkept : ∀ n ∈ i.kept, IsListed n := fun n hn => isListed_of_mem (List.mem_filter.mp hn).1
  show listedIn i.written.names = i.kept
  rw [written]
  split
  · exact listedIn_onLines (by decide) hkept
  · exact listedIn_intercalate nil_mem_gaps hkept

/-- What is written for a statement reads as that statement. -/
theorem findImport_keptText {lineStart : Bool} {s t : List Char}
    (hi : findImport lineStart s = some (i, t)) {rest : List Char} (hrest : AtBreak rest) :
    findImport true (i.keptText ++ rest) = some (i.written, rest) := by
  obtain ⟨-, u, -, hread⟩ := findImport_eq_some_iff.mp hi
  obtain ⟨-, hnames⟩ := readImport_eq_some_iff.mp hread
  have hkept : ∀ {d}, d ∉ i.names → ∀ n ∈ i.kept, d ∉ n := fun hd n hn hc =>
    hd ((isInfix_of_mem_listed (List.mem_filter.mp hn).1).subset hc)
  have hhead : ∃ u, i.keptText ++ rest = importHead ++ u ∧
      u = if i.bracketed then '(' :: (i.written.names ++ ')' :: rest)
        else i.written.names ++ rest := by
    refine ⟨_, ?_, rfl⟩
    rw [keptText, written]
    split
    · simp [onLines]
    · rw [List.append_assoc]
  obtain ⟨u, hu, rfl⟩ := hhead
  refine findImport_eq_some_iff.mpr ⟨rfl, _, hu, readImport_eq_some_iff.mpr ⟨hrest, ?_⟩⟩
  show if i.bracketed = true then _ else _
  split at hnames
  · rename_i hb
    rw [if_pos hb, if_pos hb]
    refine ⟨?_, [], fun c hc => absurd hc List.not_mem_nil, rfl⟩
    rw [written, if_pos hb, List.mem_append, not_or]
    exact ⟨by decide, not_mem_onLines (by decide) (hkept hnames.1)⟩
  · rename_i hb
    rw [if_neg hb, if_neg hb, written, if_neg hb]
    exact ⟨not_mem_intercalate (by decide) (hkept hnames.1),
      not_mem_intercalate (by decide) (hkept hnames.2.1), rfl⟩

end ImportStatement

end SchemaModels.Repair
