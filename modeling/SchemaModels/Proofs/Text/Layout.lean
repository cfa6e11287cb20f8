import Mathlib.Computability.Language
import SchemaModels.Proofs.Text.Pattern
import SchemaModels.Proofs.Text.Trim

/-!
# The texts that patterns recognize

The rests that a pattern leaves are those after the texts of a language, and languages in a row are
recognized by patterns in a row. Where a text can be read in one way only, patterns in a row take it
off and leave one rest.

* `Recognizes`: the language of a pattern. `recognizes_sequence`: patterns in a row.
* `Steps`: patterns that take a text off in one way, whatever follows them.
-/

namespace SchemaModels.Text

/-! ### Languages -/

/-- Runs of blanks, the empty one among them. -/
def gaps : Language Char := {s | ∀ c ∈ s, isBlank c = true}

/-- Runs of at least one blank. -/
def someGaps : Language Char := {s | s ≠ [] ∧ s ∈ gaps}

/-- One of some characters. -/
def anyOf (cs : List Char) : Language Char := {s | ∃ c ∈ cs, s = [c]}

/-- Blanks with a comma among them or without one. -/
def commas : Language Char := gaps * ({[',']} * gaps + 1)

/-- A quote, a text that does not have it, and the quote again. -/
def quotedBy (quote : Char) : Language Char := {s | ∃ x, quote ∉ x ∧ s = quote :: (x ++ [quote])}

/-- Texts in single or in double quotes. -/
def quotations : Language Char := quotedBy '\'' + quotedBy '"'

instance (s : List Char) : Decidable (s ∈ gaps) := List.decidableBAll (isBlank · = true) s

theorem mem_singleton_language {w s : List Char} : s ∈ ({w} : Language Char) ↔ s = w := Iff.rfl

theorem nil_mem_gaps : [] ∈ gaps := fun _ h => absurd h List.not_mem_nil

/-- The texts of a language before a word. -/
theorem mem_prod_word_iff {L : Language Char} {w x : List Char} :
    x ∈ [L, {w}].prod ↔ ∃ y ∈ L, x = y ++ w := by
  rw [List.prod_cons, List.prod_singleton, Language.mem_mul]
  constructor
  · rintro ⟨y, hy, z, hz, rfl⟩
    obtain rfl := mem_singleton_language.mp hz
    exact ⟨y, hy, rfl⟩
  · rintro ⟨y, hy, rfl⟩
    exact ⟨y, hy, w, rfl, rfl⟩

/-- A comma has blanks on both sides. -/
theorem mem_commas_iff {s : List Char} :
    s ∈ commas ↔ s ∈ gaps ∨ ∃ a ∈ gaps, ∃ b ∈ gaps, s = a ++ ',' :: b := by
  constructor
  · intro hs
    obtain ⟨a, ha, u, hu, rfl⟩ := Language.mem_mul.mp hs
    rcases (Language.mem_add _ _ _).mp hu with hu | hu
    · obtain ⟨v, hv, b, hb, rfl⟩ := Language.mem_mul.mp hu
      obtain rfl := mem_singleton_language.mp hv
      exact .inr ⟨a, ha, b, hb, rfl⟩
    · obtain rfl := (Language.mem_one u).mp hu
      rw [List.append_nil]
      exact .inl ha
  · rintro (hs | ⟨a, ha, b, hb, rfl⟩)
    · exact Language.mem_mul.mpr ⟨s, hs, [], .inr rfl, List.append_nil s⟩
    · exact Language.append_mem_mul ha (.inl (Language.append_mem_mul (a := [',']) rfl hb))

/-- Characters that stand in no text of some languages stand in no text of their product. -/
theorem not_mem_of_mem_prod {d : Char} : ∀ {Ls : List (Language Char)} {x : List Char},
    (∀ L ∈ Ls, ∀ y ∈ L, d ∉ y) → x ∈ Ls.prod → d ∉ x
  | [], x, _, hx => by
      rw [List.prod_nil, Language.mem_one] at hx
      exact hx ▸ List.not_mem_nil
  | L :: Ls, x, h, hx => by
      rw [List.prod_cons, Language.mem_mul] at hx
      obtain ⟨y, hy, z, hz, rfl⟩ := hx
      obtain ⟨hL, hLs⟩ := List.forall_mem_cons.mp h
      exact fun hd => (List.mem_append.mp hd).elim (hL y hy) (not_mem_of_mem_prod hLs hz)

theorem not_mem_of_mem_gaps {d : Char} (hd : isBlank d = false) {s : List Char} (hs : s ∈ gaps) :
    d ∉ s := by
  intro h
  rw [hs d h] at hd
  cases hd

namespace Pattern

/-! ### Recognized texts -/

/-- The rests of a pattern are those after the texts of a language. -/
def Recognizes (p : Pattern) (L : Language Char) : Prop :=
  ∀ s rest, rest ∈ p s ↔ ∃ x ∈ L, x ++ rest = s

theorem recognizes_word (w : List Char) : Recognizes (word w) {w} := by
  intro s rest
  rw [mem_word]
  exact ⟨fun h => ⟨w, rfl, h.symm⟩, fun ⟨x, hx, h⟩ => by rw [← h, mem_singleton_language.mp hx]⟩

theorem recognizes_blanks : Recognizes blanks gaps := by
  intro s rest
  induction s with
  | nil =>
      refine ⟨fun h => ⟨[], nil_mem_gaps, List.mem_singleton.mp h⟩, ?_⟩
      rintro ⟨x, -, h⟩
      exact List.mem_singleton.mpr (List.append_eq_nil_iff.mp h).2
  | cons c s ih =>
      constructor
      · intro h
        rw [blanks] at h
        split at h
        · rename_i hc
          rcases List.mem_append.mp h with h | h
          · obtain ⟨x, hx, rfl⟩ := ih.mp h
            exact ⟨c :: x, List.forall_mem_cons.mpr ⟨hc, hx⟩, rfl⟩
          · exact ⟨[], nil_mem_gaps, List.mem_singleton.mp h⟩
        · exact ⟨[], nil_mem_gaps, List.mem_singleton.mp h⟩
      · rintro ⟨x, hx, h⟩
        rw [blanks]
        cases x with
        | nil =>
            obtain rfl : rest = c :: s := h
            split <;> simp
        | cons d x =>
            obtain ⟨rfl, rfl⟩ := List.cons.inj h
            obtain ⟨hd, hx⟩ := List.forall_mem_cons.mp hx
            rw [if_pos hd]
            exact List.mem_append_left _ (ih.mpr ⟨x, hx, rfl⟩)

theorem recognizes_someBlanks : Recognizes someBlanks someGaps := by
  intro s rest
  cases s with
  | nil =>
      refine ⟨fun h => absurd h List.not_mem_nil, ?_⟩
      rintro ⟨x, ⟨hne, -⟩, h⟩
      exact absurd (List.append_eq_nil_iff.mp h).1 hne
  | cons c s =>
      rw [someBlanks]
      constructor
      · intro h
        split at h
        · rename_i hc
          obtain ⟨x, hx, rfl⟩ := (recognizes_blanks s rest).mp h
          exact ⟨c :: x, ⟨List.cons_ne_nil c x, List.forall_mem_cons.mpr ⟨hc, hx⟩⟩, rfl⟩
        · cases h
      · rintro ⟨x, ⟨hne, hx⟩, h⟩
        cases x with
        | nil => exact absurd rfl hne
        | cons d x =>
            obtain ⟨rfl, rfl⟩ := List.cons.inj h
            obtain ⟨hd, hx⟩ := List.forall_mem_cons.mp hx
            rw [if_pos hd]
            exact (recognizes_blanks _ rest).mpr ⟨x, hx, rfl⟩

theorem recognizes_oneOf (cs : List Char) : Recognizes (oneOf cs) (anyOf cs) := by
  intro s rest
  cases s with
  | nil =>
      refine ⟨fun h => absurd h List.not_mem_nil, ?_⟩
      rintro ⟨_, ⟨c, -, rfl⟩, h⟩
      exact absurd h (List.cons_ne_nil c rest)
  | cons c s =>
      rw [oneOf]
      constructor
      · intro h
        split at h
        · rename_i hc
          exact ⟨[c], ⟨c, List.contains_iff_mem.mp hc, rfl⟩, by rw [List.mem_singleton.mp h]; rfl⟩
        · cases h
      · rintro ⟨_, ⟨d, hd, rfl⟩, h⟩
        obtain ⟨rfl, rfl⟩ := List.cons.inj h
        rw [if_pos (List.contains_iff_mem.mpr hd)]
        exact List.mem_singleton.mpr rfl

namespace Recognizes
variable {p q : Pattern} {L M : Language Char}

theorem followedBy (hp : Recognizes p L) (hq : Recognizes q M) :
    Recognizes (Pattern.followedBy p q) (L * M) := by
  intro s rest
  rw [Pattern.followedBy, List.mem_flatMap]
  constructor
  · rintro ⟨t, ht, hrest⟩
    obtain ⟨x, hx, rfl⟩ := (hp s t).mp ht
    obtain ⟨y, hy, rfl⟩ := (hq t rest).mp hrest
    exact ⟨x ++ y, Language.append_mem_mul hx hy, List.append_assoc x y rest⟩
  · rintro ⟨_, hxy, rfl⟩
    obtain ⟨x, hx, y, hy, rfl⟩ := Language.mem_mul.mp hxy
    exact ⟨y ++ rest, (hp _ _).mpr ⟨x, hx, (List.append_assoc x y rest).symm⟩,
      (hq _ _).mpr ⟨y, hy, rfl⟩⟩

theorem optional (hp : Recognizes p L) : Recognizes (Pattern.optional p) (L + 1) := by
  intro s rest
  rw [Pattern.optional, List.mem_append, hp s rest]
  constructor
  · rintro (⟨x, hx, h⟩ | h)
    · exact ⟨x, Or.inl hx, h⟩
    · exact ⟨[], Or.inr rfl, List.mem_singleton.mp h⟩
  · rintro ⟨x, hx | hx, h⟩
    · exact Or.inl ⟨x, hx, h⟩
    · obtain rfl := (Language.mem_one x).mp hx
      exact Or.inr (List.mem_singleton.mpr h)

end Recognizes

theorem recognizes_optionalComma : Recognizes optionalComma commas :=
  recognizes_blanks.followedBy ((recognizes_word [',']).followedBy recognizes_blanks).optional

theorem recognizes_quotedBy (quote : Char) :
    Recognizes (Pattern.quotedBy quote) (Text.quotedBy quote) := by
  intro s rest
  cases s with
  | nil =>
      refine ⟨fun h => absurd h List.not_mem_nil, ?_⟩
      rintro ⟨_, ⟨x, -, rfl⟩, h⟩
      exact absurd h (List.cons_ne_nil _ _)
  | cons c s =>
      have hsplit := List.takeWhile_append_dropWhile (p := (· != quote)) (l := s)
      rw [Pattern.quotedBy]
      constructor
      · intro h
        split at h
        · rename_i hc
          subst hc
          split at h
          · cases h
          · rename_i d t hd
            have hquote : d = c := by
              have := List.head?_dropWhile_not (· != c) s
              rw [hd] at this
              simpa using this
            obtain rfl := List.mem_singleton.mp h
            refine ⟨_, ⟨s.takeWhile (· != c), fun hmem => ?_, rfl⟩, ?_⟩
            · simpa using List.mem_takeWhile_imp hmem
            · rw [hd, hquote] at hsplit
              rw [List.cons_append, List.append_assoc, List.singleton_append, hsplit]
        · cases h
      · rintro ⟨_, ⟨x, hx, rfl⟩, h⟩
        obtain ⟨rfl, hs⟩ := List.cons.inj h
        have hne : ∀ d ∈ x, (d != quote) = true := fun d hd =>
          bne_iff_ne.mpr (ne_of_mem_of_not_mem hd hx)
        have hdrop : s.dropWhile (· != quote) = quote :: rest := by
          rw [← hs, List.append_eq, List.append_assoc, List.dropWhile_append_of_pos hne]
          exact List.dropWhile_cons_of_neg (by simp)
        rw [if_pos rfl, hdrop]
        exact List.mem_singleton.mpr rfl

theorem recognizes_quotedText : Recognizes quotedText quotations := by
  intro s rest
  rw [quotedText, List.mem_append, recognizes_quotedBy, recognizes_quotedBy]
  constructor
  · rintro (⟨x, hx, h⟩ | ⟨x, hx, h⟩)
    · exact ⟨x, Or.inl hx, h⟩
    · exact ⟨x, Or.inr hx, h⟩
  · rintro ⟨x, hx | hx, h⟩
    · exact Or.inl ⟨x, hx, h⟩
    · exact Or.inr ⟨x, hx, h⟩

/-- Patterns in a row recognize the products of their languages. -/
theorem recognizes_sequence {ps : List Pattern} {Ls : List (Language Char)}
    (h : List.Forall₂ Recognizes ps Ls) : Recognizes (sequence ps) Ls.prod := by
  induction h with
  | nil =>
      intro s rest
      refine ⟨fun h => ⟨[], rfl, List.mem_singleton.mp h⟩, ?_⟩
      rintro ⟨x, hx, h⟩
      obtain rfl := (Language.mem_one x).mp hx
      exact List.mem_singleton.mpr h
  | cons hp _ ih =>
      rw [List.prod_cons]
      exact hp.followedBy ih

/-! ### Patterns in a row, step by step -/

section sequence
variable {p : Pattern} {ps qs : List Pattern} {s : List Char}

theorem sequence_append (ps qs : List Pattern) (s : List Char) :
    sequence (ps ++ qs) s = (sequence ps s).flatMap (sequence qs) := by
  induction ps generalizing s with
  | nil => exact (List.flatMap_singleton (sequence qs) s).symm
  | cons p ps ih =>
      show (p s).flatMap (sequence (ps ++ qs)) = ((p s).flatMap (sequence ps)).flatMap (sequence qs)
      rw [List.flatMap_assoc]
      exact congrArg (List.flatMap · (p s)) (funext ih)

theorem sequence_sequence_cons : sequence (sequence ps :: qs) s = sequence (ps ++ qs) s :=
  (sequence_append ps qs s).symm

theorem sequence_followedBy_cons {q : Pattern} :
    sequence (followedBy p q :: qs) s = sequence (p :: q :: qs) s := by
  show ((p s).flatMap q).flatMap (sequence qs) = (p s).flatMap fun t => (q t).flatMap (sequence qs)
  rw [List.flatMap_assoc]

theorem sequence_optional_cons :
    sequence (optional p :: qs) s = sequence (p :: qs) s ++ sequence qs s := by
  show (p s ++ [s]).flatMap (sequence qs) = _
  rw [List.flatMap_append, List.flatMap_singleton]
  rfl

theorem sequence_word_append (w t : List Char) :
    sequence (word w :: ps) (w ++ t) = sequence ps t := by
  show (dropPrefix? w (w ++ t)).toList.flatMap (sequence ps) = _
  rw [dropPrefix?_eq_some_iff.mpr rfl]
  exact List.flatMap_singleton (sequence ps) t

theorem sequence_word_of_not {w : List Char} (h : ¬w <+: s) : sequence (word w :: ps) s = [] := by
  show (dropPrefix? w s).toList.flatMap (sequence ps) = []
  rw [Option.eq_none_iff_forall_ne_some.mpr fun rest hr =>
    h ⟨rest, (dropPrefix?_eq_some_iff.mp hr).symm⟩]
  rfl

/-- A word does not begin with another character than its first one. -/
theorem sequence_word_cons_of_ne {w : List Char} {c : Char} (hw : w.head? ≠ some c) (hne : w ≠ []) :
    sequence (word w :: ps) (c :: s) = [] := by
  refine sequence_word_of_not fun h => ?_
  cases w with
  | nil => exact hne rfl
  | cons d w => exact hw (congrArg some (List.cons_prefix_cons.mp h).1)

theorem sequence_oneOf_cons {cs : List Char} {c : Char} (h : c ∈ cs) :
    sequence (oneOf cs :: ps) (c :: s) = sequence ps s := by
  show (if cs.contains c then [s] else []).flatMap (sequence ps) = _
  rw [if_pos (List.contains_iff_mem.mpr h)]
  exact List.flatMap_singleton (sequence ps) s

end sequence

/-- Patterns in a row that recognize no text which begins with a blank. -/
def Solid (ps : List Pattern) : Prop := ∀ c s, isBlank c = true → sequence ps (c :: s) = []

theorem solid_word {w : List Char} {c : Char} (hw : w.head? = some c) (hc : isBlank c = false)
    (ps : List Pattern) : Solid (word w :: ps) := by
  intro d s hd
  refine sequence_word_cons_of_ne ?_ ?_
  · rw [hw]
    rintro ⟨⟩
    rw [hd] at hc
    cases hc
  · rintro rfl
    cases hw

theorem solid_oneOf {cs : List Char} (hcs : ∀ c ∈ cs, isBlank c = false) (ps : List Pattern) :
    Solid (oneOf cs :: ps) := by
  intro d s hd
  show (if cs.contains d then [s] else []).flatMap (sequence ps) = []
  rw [if_neg fun h => Bool.false_ne_true ((hcs d (List.contains_iff_mem.mp h)).symm.trans hd)]
  rfl

theorem Solid.optional {p : Pattern} {ps : List Pattern} (hp : Solid (p :: ps)) (h : Solid ps) :
    Solid (Pattern.optional p :: ps) := by
  intro c s hc
  rw [sequence_optional_cons, hp c s hc, h c s hc, List.append_nil]

/-- Blanks are taken off as far as they go, if what follows them begins with none. -/
theorem sequence_blanks_append {ps : List Pattern} (h : Solid ps) {gap s : List Char}
    (hgap : gap ∈ gaps) (hs : ∀ c ∈ s.head?, isBlank c = false) :
    sequence (blanks :: ps) (gap ++ s) = sequence ps s := by
  induction gap with
  | nil =>
      show (blanks s).flatMap (sequence ps) = _
      cases s with
      | nil => exact List.flatMap_singleton (sequence ps) []
      | cons c s =>
          rw [blanks, if_neg (by rw [hs c rfl]; exact Bool.false_ne_true)]
          exact List.flatMap_singleton (sequence ps) (c :: s)
  | cons c gap ih =>
      obtain ⟨hc, hgap⟩ := List.forall_mem_cons.mp hgap
      show (blanks (c :: (gap ++ s))).flatMap (sequence ps) = _
      rw [blanks, if_pos hc, List.flatMap_append, List.flatMap_singleton, h c _ hc,
        List.append_nil]
      exact ih hgap

theorem sequence_someBlanks_append {ps : List Pattern} (h : Solid ps) {gap s : List Char}
    (hgap : gap ∈ someGaps) (hs : ∀ c ∈ s.head?, isBlank c = false) :
    sequence (someBlanks :: ps) (gap ++ s) = sequence ps s := by
  obtain ⟨hne, hgap⟩ := hgap
  cases gap with
  | nil => exact absurd rfl hne
  | cons c gap =>
      obtain ⟨hc, hgap⟩ := List.forall_mem_cons.mp hgap
      show (someBlanks (c :: (gap ++ s))).flatMap (sequence ps) = _
      rw [someBlanks, if_pos hc]
      exact sequence_blanks_append h hgap hs

/-- An optional comma after blanks: it is taken with the blanks after it, or what follows stands
there. -/
theorem sequence_optionalComma_append {ps : List Pattern} (h : Solid ps) {gap s : List Char}
    (hgap : gap ∈ gaps) (hs : ∀ c ∈ s.head?, isBlank c = false) :
    sequence (optionalComma :: ps) (gap ++ s) =
      sequence (word [','] :: blanks :: ps) s ++ sequence ps s := by
  have hcomma : Solid (followedBy (word [',']) blanks :: ps) := by
    intro c s hc
    rw [sequence_followedBy_cons]
    exact solid_word rfl (by decide) _ c s hc
  rw [optionalComma, sequence_followedBy_cons, sequence_blanks_append (hcomma.optional h) hgap hs,
    sequence_optional_cons, sequence_followedBy_cons]

/-! ### One way to read a text -/

/-- Patterns in a row take each text of some languages in a row off in one way, whatever patterns
follow them. -/
def Steps (ps : List Pattern) (Ls : List (Language Char)) : Prop :=
  ∀ qs, ∀ x ∈ Ls.prod, ∀ t, sequence (ps ++ qs) (x ++ t) = sequence qs t

theorem Steps.append {ps ps' : List Pattern} {Ls Ls' : List (Language Char)} (h : Steps ps Ls)
    (h' : Steps ps' Ls') : Steps (ps ++ ps') (Ls ++ Ls') := by
  intro qs x hx t
  rw [List.prod_append, Language.mem_mul] at hx
  obtain ⟨y, hy, z, hz, rfl⟩ := hx
  rw [List.append_assoc, List.append_assoc, h _ y hy, h' _ z hz]

theorem steps_word (w : List Char) : Steps [word w] [{w}] := by
  intro qs x hx t
  rw [List.prod_singleton, mem_singleton_language] at hx
  subst hx
  exact sequence_word_append x t

theorem steps_oneOf (cs : List Char) : Steps [oneOf cs] [anyOf cs] := by
  intro qs x hx t
  rw [List.prod_singleton] at hx
  obtain ⟨c, hc, rfl⟩ := hx
  exact sequence_oneOf_cons hc

section spaced
variable {w : List Char} {c : Char} (hw : w.head? = some c) (hc : isBlank c = false)
include hw hc

theorem isBlank_head?_append (t : List Char) : ∀ d ∈ (w ++ t).head?, isBlank d = false :=
  forall_mem_head? (by rw [List.head?_append, hw]; rfl) hc

theorem steps_blanks_word : Steps [blanks, word w] [gaps, {w}] := by
  intro qs x hx t
  obtain ⟨gap, hgap, rfl⟩ := mem_prod_word_iff.mp hx
  rw [List.append_assoc]
  exact (sequence_blanks_append (solid_word hw hc _) hgap (isBlank_head?_append hw hc t)).trans
    (sequence_word_append w t)

theorem steps_someBlanks_word : Steps [someBlanks, word w] [someGaps, {w}] := by
  intro qs x hx t
  obtain ⟨gap, hgap, rfl⟩ := mem_prod_word_iff.mp hx
  rw [List.append_assoc]
  exact (sequence_someBlanks_append (solid_word hw hc _) hgap (isBlank_head?_append hw hc t)).trans
    (sequence_word_append w t)

/-- A word after an optional comma, which the word does not begin with. -/
theorem steps_optionalComma_word (hcomma : c ≠ ',') :
    Steps [optionalComma, word w] [commas, {w}] := by
  intro qs x hx t
  obtain ⟨y, hy, rfl⟩ := mem_prod_word_iff.mp hx
  have hsolid : Solid (word w :: qs) := solid_word hw hc _
  have hhead := isBlank_head?_append hw hc t
  show sequence (optionalComma :: word w :: qs) _ = _
  rcases mem_commas_iff.mp hy with hgap | ⟨gap, hgap, gap', hgap', rfl⟩
  · have hno : sequence (word [','] :: blanks :: word w :: qs) (w ++ t) = [] := by
      cases w with
      | nil => cases hw
      | cons d w =>
          obtain rfl : d = c := Option.some.inj hw
          exact sequence_word_cons_of_ne (by simpa using hcomma.symm) (by simp)
    rw [List.append_assoc, sequence_optionalComma_append hsolid hgap hhead, sequence_word_append,
      hno, List.nil_append]
  · have hsplit : gap ++ ',' :: gap' ++ w ++ t = gap ++ ([','] ++ (gap' ++ (w ++ t))) := by simp
    rw [hsplit, sequence_optionalComma_append hsolid hgap (forall_mem_head? rfl (by decide)),
      sequence_word_append, sequence_blanks_append hsolid hgap' hhead, sequence_word_append,
      List.singleton_append, sequence_word_cons_of_ne (by simpa [hw] using hcomma)
        (by rintro rfl; cases hw), List.append_nil]

end spaced

/-- One of some characters after blanks. -/
theorem steps_blanks_oneOf {cs : List Char} (hcs : ∀ c ∈ cs, isBlank c = false) :
    Steps [blanks, oneOf cs] [gaps, anyOf cs] := by
  intro qs x hx t
  rw [List.prod_cons, List.prod_singleton, Language.mem_mul] at hx
  obtain ⟨gap, hgap, y, ⟨c, hc, rfl⟩, rfl⟩ := hx
  rw [List.append_assoc]
  have hhead : ∀ d ∈ ([c] ++ t).head?, isBlank d = false := forall_mem_head? rfl (hcs c hc)
  exact (sequence_blanks_append (solid_oneOf hcs _) hgap hhead).trans (sequence_oneOf_cons hc)

theorem quotedBy_cons_of_ne {quote c : Char} (h : c ≠ quote) (s : List Char) :
    Pattern.quotedBy quote (c :: s) = [] := by
  rw [Pattern.quotedBy, if_neg h]

theorem quotedBy_append {quote : Char} {x : List Char} (hx : x ∈ Text.quotedBy quote)
    (t : List Char) : Pattern.quotedBy quote (x ++ t) = [t] := by
  obtain ⟨y, hy, rfl⟩ := hx
  have hall : ∀ c ∈ y, (c != quote) = true := fun c hc =>
    bne_iff_ne.mpr (ne_of_mem_of_not_mem hc hy)
  have hdrop : (y ++ (quote :: t)).dropWhile (· != quote) = quote :: t :=
    dropWhile_append_of_head hall (by simp)
  rw [List.cons_append, List.append_assoc, List.singleton_append, Pattern.quotedBy, if_pos rfl,
    hdrop]

theorem quotedText_append {x : List Char} (hx : x ∈ quotations) (t : List Char) :
    quotedText (x ++ t) = [t] := by
  rw [quotedText]
  rcases (Language.mem_add _ _ _).mp hx with hx | hx
  · have hone := quotedBy_append hx t
    obtain ⟨y, -, rfl⟩ := hx
    have hnone : Pattern.quotedBy '"' ('\'' :: (y ++ ['\'']) ++ t) = [] :=
      quotedBy_cons_of_ne (by decide) _
    rw [hone, hnone, List.append_nil]
  · have hone := quotedBy_append hx t
    obtain ⟨y, -, rfl⟩ := hx
    have hnone : Pattern.quotedBy '\'' ('"' :: (y ++ ['"']) ++ t) = [] :=
      quotedBy_cons_of_ne (by decide) _
    rw [hone, hnone, List.nil_append]

/-- A text in quotes after blanks. -/
theorem steps_blanks_quotedText : Steps [blanks, quotedText] [gaps, quotations] := by
  intro qs x hx t
  rw [List.prod_cons, List.prod_singleton, Language.mem_mul] at hx
  obtain ⟨gap, hgap, y, hy, rfl⟩ := hx
  have hsolid : Solid (quotedText :: qs) := by
    intro c s hc
    have hne : ∀ q : Char, isBlank q = false → c ≠ q := by
      rintro q hq rfl
      rw [hc] at hq
      cases hq
    show (quotedText (c :: s)).flatMap (sequence qs) = []
    rw [quotedText, quotedBy_cons_of_ne (hne '\'' (by decide)),
      quotedBy_cons_of_ne (hne '"' (by decide))]
    rfl
  have hhead : ∀ c ∈ (y ++ t).head?, isBlank c = false := by
    rcases (Language.mem_add _ _ _).mp hy with ⟨z, -, rfl⟩ | ⟨z, -, rfl⟩
    · exact forall_mem_head? rfl (by decide)
    · exact forall_mem_head? rfl (by decide)
  rw [List.append_assoc]
  refine (sequence_blanks_append hsolid hgap hhead).trans ?_
  show (quotedText (y ++ t)).flatMap (sequence qs) = _
  rw [quotedText_append hy]
  exact List.flatMap_singleton (sequence qs) t

/-- Patterns that take a text off in one way leave the rest after it. -/
theorem Steps.rest_eq {ps : List Pattern} {Ls : List (Language Char)} (h : Steps ps Ls)
    {x : List Char} (hx : x ∈ Ls.prod) (t : List Char) : sequence ps (x ++ t) = [t] := by
  have := h [] x hx t
  rwa [List.append_nil] at this

end Pattern

end SchemaModels.Text
