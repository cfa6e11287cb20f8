import Mathlib.Data.List.Infix
import SchemaModels.Proofs.Text.Trim

/-!
# Texts with escapes

Between delimiters a backslash escapes the character after it. Such a text is read as symbols:
characters that stand for themselves, and escaped ones. It ends at the first place where the
characters of its delimiter stand in a row, none of them escaped.

* `symbols`: the symbols of a text, which make up the text again (`flatMap_source_symbols`).
* `IsFinished`: no backslash at the end of a text is left without a character to escape. What
  follows such a text is read on its own (`symbols_append`).
* `upTo?`: what stands before the first delimiter and after it (`upTo?_eq_some_iff`).
* `Avoids`: a text that can stand before a delimiter (`upTo?_of_avoids`).
-/

namespace SchemaModels.Text

/-- A character of a text that stands for itself, or one after a backslash. -/
inductive Symbol where
  | plain (c : Char)
  | escaped (c : Char)
  deriving DecidableEq

/-- The text of a symbol. -/
def Symbol.source : Symbol → List Char
  | plain c => [c]
  | escaped c => ['\\', c]

/-- The symbols of a text. A backslash at its end escapes nothing and is plain. -/
def symbols : List Char → List Symbol
  | [] => []
  | [c] => [.plain c]
  | c :: d :: s => if c = '\\' then .escaped d :: symbols s else .plain c :: symbols (d :: s)

theorem flatMap_source_symbols (s : List Char) : (symbols s).flatMap Symbol.source = s := by
  fun_induction symbols s with
  | case1 => rfl
  | case2 c => rfl
  | case3 d s ih => rw [List.flatMap_cons, ih]; rfl
  | case4 c d s hc ih => rw [List.flatMap_cons, ih]; rfl

theorem mem_of_plain_mem_symbols {s : List Char} {c : Char} (h : .plain c ∈ symbols s) :
    c ∈ s := by
  rw [← flatMap_source_symbols s]
  exact List.mem_flatMap_of_mem h (List.mem_singleton_self c)

/-- The symbols of a text end as the text does. -/
theorem getLast?_of_symbols {s : List Char} {c : Char}
    (h : (symbols s).getLast? = some (.plain c)) : s.getLast? = some c := by
  obtain ⟨xs, hxs⟩ := List.getLast?_eq_some_iff.mp h
  rw [← flatMap_source_symbols s, hxs, List.flatMap_append, List.flatMap_singleton]
  exact List.getLast?_concat

theorem symbols_cons {c : Char} (hc : c ≠ '\\') (s : List Char) :
    symbols (c :: s) = .plain c :: symbols s := by
  cases s with
  | nil => rfl
  | cons d s => rw [symbols, if_neg hc]

theorem symbols_backslash (c : Char) (s : List Char) :
    symbols ('\\' :: c :: s) = .escaped c :: symbols s := by
  rw [symbols, if_pos rfl]

/-! ### Finished texts -/

/-- A text does not end inside an escape. -/
def IsFinished (s : List Char) : Prop := .plain '\\' ∉ symbols s

instance (s : List Char) : Decidable (IsFinished s) :=
  inferInstanceAs (Decidable (.plain '\\' ∉ symbols s))

theorem isFinished_nil : IsFinished [] := List.not_mem_nil

theorem isFinished_cons {c : Char} (hc : c ≠ '\\') {s : List Char} :
    IsFinished (c :: s) ↔ IsFinished s := by
  rw [IsFinished, symbols_cons hc, List.mem_cons, not_or]
  exact and_iff_right fun h => hc (Symbol.plain.inj h).symm

theorem isFinished_backslash (c : Char) {s : List Char} :
    IsFinished ('\\' :: c :: s) ↔ IsFinished s := by
  rw [IsFinished, symbols_backslash, List.mem_cons, not_or]
  exact and_iff_right fun h => nomatch h

/-- What follows a finished text is read on its own. -/
theorem symbols_append {a : List Char} (ha : IsFinished a) (b : List Char) :
    symbols (a ++ b) = symbols a ++ symbols b := by
  fun_induction symbols a with
  | case1 => rfl
  | case2 c =>
      have hc : c ≠ '\\' := fun h => ha (by rw [h]; exact List.mem_singleton_self _)
      exact symbols_cons hc b
  | case3 d s ih =>
      rw [List.cons_append, List.cons_append, symbols_backslash,
        ih ((isFinished_backslash d).mp ha), List.cons_append]
  | case4 c d s hc ih =>
      rw [List.cons_append, symbols_cons hc, ih ((isFinished_cons hc).mp ha), List.cons_append]

theorem isFinished_append_iff {a b : List Char} (ha : IsFinished a) :
    IsFinished (a ++ b) ↔ IsFinished b := by
  rw [IsFinished, symbols_append ha, List.mem_append, not_or]
  exact and_iff_right ha

theorem IsFinished.append {a b : List Char} (ha : IsFinished a) (hb : IsFinished b) :
    IsFinished (a ++ b) :=
  (isFinished_append_iff ha).mpr hb

/-- A text is finished, or one backslash too long for that. -/
theorem isFinished_or_eq_concat (s : List Char) :
    IsFinished s ∨ ∃ a, IsFinished a ∧ s = a ++ ['\\'] := by
  fun_induction symbols s with
  | case1 => exact .inl isFinished_nil
  | case2 c =>
      by_cases hc : c = '\\'
      · exact .inr ⟨[], isFinished_nil, by rw [hc]; rfl⟩
      · exact .inl ((isFinished_cons hc).mpr isFinished_nil)
  | case3 d s ih =>
      refine ih.imp (isFinished_backslash d).mpr ?_
      rintro ⟨a, ha, rfl⟩
      exact ⟨'\\' :: d :: a, (isFinished_backslash d).mpr ha, rfl⟩
  | case4 c d s hc ih =>
      refine ih.imp (isFinished_cons hc).mpr ?_
      rintro ⟨a, ha, heq⟩
      exact ⟨c :: a, (isFinished_cons hc).mpr ha, congrArg (c :: ·) heq⟩

/-- Backslashes in a row escape each other. -/
theorem isFinished_replicate_iff : ∀ n, IsFinished (List.replicate n '\\') ↔ n % 2 = 0
  | 0 => by decide
  | 1 => by decide
  | n + 2 => by
      rw [List.replicate_succ, List.replicate_succ, isFinished_backslash,
        isFinished_replicate_iff n]
      omega

/-- A text is finished when it ends in an even number of backslashes. -/
theorem isFinished_iff_endRun (s : List Char) : IsFinished s ↔ endRun '\\' s % 2 = 0 := by
  obtain ⟨a, hlast, hs⟩ := exists_eq_append_replicate '\\' s
  have ha : IsFinished a := by
    rcases isFinished_or_eq_concat a with ha | ⟨b, -, rfl⟩
    · exact ha
    · exact absurd List.getLast?_concat hlast
  have hiff := isFinished_append_iff (b := List.replicate (endRun '\\' s) '\\') ha
  rw [← hs] at hiff
  exact hiff.trans (isFinished_replicate_iff _)

/-- A text is finished up to a character that no backslash in it escapes. -/
theorem isFinished_of_escaped_not_mem {c : Char} {a b : List Char}
    (h : .escaped c ∉ symbols (a ++ c :: b)) : IsFinished a := by
  rcases isFinished_or_eq_concat a with ha | ⟨a, ha, rfl⟩
  · exact ha
  · refine absurd ?_ h
    rw [List.append_assoc, symbols_append ha, List.singleton_append, symbols_backslash]
    exact List.mem_append_right _ List.mem_cons_self

/-- A text of finished parts is read part by part. -/
theorem symbols_flatMap {f : Char → List Char} (hf : ∀ c, IsFinished (f c)) (s : List Char) :
    symbols (s.flatMap f) = s.flatMap fun c => symbols (f c) := by
  induction s with
  | nil => rfl
  | cons c s ih => rw [List.flatMap_cons, List.flatMap_cons, symbols_append (hf c), ih]

/-! ### Delimiters -/

/-- The symbols up to the first occurrence of a delimiter, and those after it. -/
def upTo? (delimiter : List Symbol) : List Symbol → Option (List Symbol × List Symbol)
  | [] => none
  | x :: rest =>
      if delimiter <+: x :: rest then some ([], (x :: rest).drop delimiter.length)
      else (upTo? delimiter rest).map fun r => (x :: r.1, r.2)

/-- What is found is the first occurrence: none begins in what stands before. -/
theorem upTo?_eq_some_iff {delimiter : List Symbol} (hne : delimiter ≠ []) :
    ∀ {xs content rest : List Symbol}, upTo? delimiter xs = some (content, rest) ↔
      xs = content ++ (delimiter ++ rest) ∧
        ∀ u v, content = u ++ v → v ≠ [] → ¬delimiter <+: v ++ (delimiter ++ rest)
  | [], content, rest => by
      simp [upTo?, hne]
  | x :: xs, content, rest => by
      by_cases hp : delimiter <+: x :: xs
      · obtain ⟨t, ht⟩ := hp
        rw [upTo?, if_pos ⟨t, ht⟩, ← ht, List.drop_left, Option.some.injEq, Prod.mk.injEq]
        constructor
        · rintro ⟨rfl, rfl⟩
          exact ⟨rfl, fun u v h hv => absurd (List.append_eq_nil_iff.mp h.symm).2 hv⟩
        · rintro ⟨heq, hfirst⟩
          have hnil : content = [] := by
            by_contra hcontent
            exact hfirst [] content rfl hcontent (heq ▸ List.prefix_append delimiter t)
          rw [hnil, List.nil_append] at heq
          exact ⟨hnil.symm, List.append_cancel_left heq⟩
      · rw [upTo?, if_neg hp, Option.map_eq_some_iff]
        constructor
        · rintro ⟨⟨c, r⟩, hr, heq⟩
          obtain ⟨rfl, rfl⟩ := Prod.mk.inj heq
          obtain ⟨rfl, hfirst⟩ := (upTo?_eq_some_iff hne).mp hr
          refine ⟨rfl, fun u v huv hv => ?_⟩
          cases u with
          | nil =>
              obtain rfl : x :: c = v := huv
              exact hp
          | cons y u =>
              exact hfirst u v (List.cons.inj huv).2 hv
        · rintro ⟨heq, hfirst⟩
          cases content with
          | nil => exact absurd (heq ▸ List.prefix_append delimiter rest) hp
          | cons y content =>
              obtain ⟨rfl, rfl⟩ := List.cons.inj heq
              refine ⟨(content, rest), (upTo?_eq_some_iff hne).mpr ⟨rfl, fun u v huv hv => ?_⟩, rfl⟩
              exact hfirst (x :: u) v (congrArg (x :: ·) huv) hv

/-- A delimiter of one symbol. -/
theorem upTo?_singleton_iff {x : Symbol} {content rest : List Symbol} :
    upTo? [x] (content ++ x :: rest) = some (content, rest) ↔ x ∉ content := by
  rw [upTo?_eq_some_iff (List.cons_ne_nil x [])]
  constructor
  · rintro ⟨-, hfirst⟩ hmem
    obtain ⟨u, v, rfl⟩ := List.append_of_mem hmem
    exact hfirst u (x :: v) rfl (List.cons_ne_nil x v) ⟨v ++ ([x] ++ rest), rfl⟩
  · refine fun hx => ⟨rfl, ?_⟩
    rintro u v rfl hv hp
    obtain ⟨y, v, rfl⟩ := List.exists_cons_of_ne_nil hv
    obtain ⟨rfl, -⟩ := List.cons_prefix_cons.mp hp
    exact hx (List.mem_append_right u List.mem_cons_self)

/-! ### Texts before a delimiter -/

/-- What is in neither of two parts, nor has the item between them, is not in the whole. -/
theorem not_isInfix_append_cons {α : Type} {p a b : List α} {d : α} (hd : d ∉ p)
    (ha : ¬p <:+: a) (hb : ¬p <:+: b) : ¬p <:+: a ++ d :: b := by
  have hstart : ∀ {y}, y ≠ [] → y <+: d :: b → d ∈ y := fun {y} hy hp => by
    obtain ⟨e, y, rfl⟩ := List.exists_cons_of_ne_nil hy
    rw [(List.cons_prefix_cons.mp hp).1]
    exact List.mem_cons_self
  intro h
  rcases List.infix_append_iff.mp h with h | h | ⟨x, y, hxy, hx, hy⟩
  · exact ha h
  · rcases List.infix_cons_iff.mp h with h | h
    · exact hd (hstart (fun hnil => ha (hnil ▸ List.nil_infix)) h)
    · exact hb h
  · by_cases hnil : y = []
    · rw [hxy, hnil, List.append_nil] at ha
      exact ha hx.isInfix
    · exact hd (hxy ▸ List.mem_append_right x (hstart hnil hy))

/-- A text that can stand before a delimiter: it is finished and does not hold the delimiter. -/
structure Avoids (delimiter : List Symbol) (s : List Char) : Prop where
  isFinished : IsFinished s
  absent : ¬delimiter <:+: symbols s

section avoids
variable {delimiter : List Symbol}

theorem avoids_nil (hne : delimiter ≠ []) : Avoids delimiter [] :=
  ⟨isFinished_nil, fun h => hne (List.eq_nil_of_infix_nil h)⟩

/-- A character that is not in the delimiter keeps two texts apart. -/
theorem Avoids.append_cons {a b : List Char} {c : Char} (hc : c ≠ '\\')
    (hd : .plain c ∉ delimiter) (ha : Avoids delimiter a) (hb : Avoids delimiter b) :
    Avoids delimiter (a ++ c :: b) := by
  refine ⟨ha.isFinished.append ((isFinished_cons hc).mpr hb.isFinished), ?_⟩
  rw [symbols_append ha.isFinished, symbols_cons hc]
  exact not_isInfix_append_cons hd ha.absent hb.absent

/-- So does an escape. -/
theorem Avoids.append_escape {a b : List Char} {c : Char} (hd : .escaped c ∉ delimiter)
    (ha : Avoids delimiter a) (hb : Avoids delimiter b) :
    Avoids delimiter (a ++ '\\' :: c :: b) := by
  refine ⟨ha.isFinished.append ((isFinished_backslash c).mpr hb.isFinished), ?_⟩
  rw [symbols_append ha.isFinished, symbols_backslash]
  exact not_isInfix_append_cons hd ha.absent hb.absent

/-- Before a delimiter of equal symbols stands a text without it that does not end in one. -/
theorem upTo?_of_avoids {q : Symbol} (hne : delimiter ≠ []) (hall : ∀ x ∈ delimiter, x = q)
    {s : List Char} (hs : Avoids delimiter s) (hlast : (symbols s).getLast? ≠ some q)
    (rest : List Symbol) :
    upTo? delimiter (symbols s ++ (delimiter ++ rest)) = some (symbols s, rest) := by
  refine (upTo?_eq_some_iff hne).mpr ⟨rfl, fun u v huv hv hp => ?_⟩
  rcases List.prefix_or_prefix_of_prefix hp (List.prefix_append v _) with h | h
  · refine hs.absent (h.isInfix.trans ?_)
    rw [huv]
    exact (List.suffix_append u v).isInfix
  · -- A delimiter that ends behind the text has the last symbol of the text in it.
    refine hlast ?_
    rw [huv, List.getLast?_append_of_ne_nil u hv, List.getLast?_eq_some_getLast hv,
      hall _ (h.subset (List.getLast_mem hv))]

end avoids

end SchemaModels.Text
