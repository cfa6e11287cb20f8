import SchemaModels.Proofs.Text.Cut

/-!
# Cutting a text place by place

A finder that takes something off wherever it finds something cuts a text from left to right, and
where no span reaches over a place the parts before and after that place are cut on their own.

* `cutFrom`: the pieces of a text from some place on, with one equation for each way to go on.
* `cutFrom_append_of_none`: a text before which nothing is found is cut into characters.
* `cut_of_only`: a text in which something is found at one place.
* `exists_cutFrom_append`: a text is cut at a place that no span reaches over.
-/

namespace SchemaModels.Text

variable {α : Type} {find : Finder α}

/-- What stands after a part of a text that is not empty is shorter than the text. -/
theorem length_le_of_append_eq_cons {x rest s : List Char} {c : Char} (hx : x ≠ [])
    (h : x ++ rest = c :: s) : rest.length ≤ s.length := by
  have hlen := congrArg List.length h
  have hpos := List.length_pos_iff.mpr hx
  rw [List.length_append, List.length_cons] at hlen
  omega

/-- What a finder takes off is not empty. -/
def Takes (find : Finder α) : Prop :=
  ∀ lineStart s a rest, find lineStart s = some (a, rest) → ∃ x, x ≠ [] ∧ s = x ++ rest

/-- Whether a line starts after a text, if it is known whether one starts before it. -/
def startsAfter (lineStart : Bool) (u : List Char) : Bool :=
  match u.getLast? with
  | none => lineStart
  | some c => c = '\n'

theorem startsAfter_cons (lineStart : Bool) (c : Char) (u : List Char) :
    startsAfter lineStart (c :: u) = startsAfter (c = '\n') u := by
  cases u with
  | nil => rfl
  | cons d u => rw [startsAfter, List.getLast?_cons_cons]; rfl

theorem startsAfter_append (lineStart : Bool) (u v : List Char) :
    startsAfter lineStart (u ++ v) = startsAfter (startsAfter lineStart u) v := by
  induction u generalizing lineStart with
  | nil => rfl
  | cons c u ih => rw [List.cons_append, startsAfter_cons, ih, startsAfter_cons]

theorem startsAfter_of_not_mem {u : List Char} (hne : u ≠ []) (h : '\n' ∉ u) (lineStart : Bool) :
    startsAfter lineStart u = false := by
  rw [startsAfter, List.getLast?_eq_some_getLast hne]
  exact decide_eq_false fun hc => h (hc ▸ List.getLast_mem hne)

theorem startsAfter_concat (lineStart : Bool) (u : List Char) :
    startsAfter lineStart (u ++ ['\n']) = true := by
  rw [startsAfter, List.getLast?_concat]
  rfl

/-- The pieces of a text from some place on. -/
def cutFrom (find : Finder α) (lineStart : Bool) (s : List Char) : List (Piece α) :=
  cutWithin find s.length lineStart s

theorem cut_eq_cutFrom (s : List Char) : cut find s = cutFrom find true s := rfl

theorem cutFrom_nil (lineStart : Bool) : cutFrom find lineStart [] = [] := rfl

theorem cutFrom_cons_of_none {lineStart : Bool} {c : Char} {s : List Char}
    (h : find lineStart (c :: s) = none) :
    cutFrom find lineStart (c :: s) = .char c :: cutFrom find (c = '\n') s := by
  rw [cutFrom, List.length_cons, cutWithin, h, cutFrom]

theorem cutWithin_of_some {steps : Nat} {lineStart : Bool} {x rest : List Char} {a : α}
    (hx : x ≠ []) (h : find lineStart (x ++ rest) = some (a, rest)) :
    cutWithin find (steps + 1) lineStart (x ++ rest) =
      .span x a :: cutWithin find steps (x.getLast? = some '\n') rest := by
  cases x with
  | nil => exact absurd rfl hx
  | cons c x =>
      rw [List.cons_append] at h ⊢
      rw [cutWithin, h]
      dsimp only
      have htake : (c :: (x ++ rest)).take ((c :: (x ++ rest)).length - rest.length) = c :: x := by
        rw [← List.cons_append, List.length_append, Nat.add_sub_cancel, List.take_left]
      rw [htake, ← List.cons_append, List.drop_left]

/-- More steps than a text has characters make no difference. -/
theorem cutWithin_eq_cutFrom (hfind : Takes find) : ∀ {steps : Nat} {lineStart : Bool}
    {s : List Char}, s.length ≤ steps → cutWithin find steps lineStart s = cutFrom find lineStart s
  | steps, lineStart, [], _ => by cases steps <;> rfl
  | steps + 1, lineStart, c :: s, hlen => by
      have hs : s.length ≤ steps := Nat.le_of_succ_le_succ hlen
      cases hf : find lineStart (c :: s) with
      | none =>
          rw [cutFrom_cons_of_none hf, cutWithin, hf]
          exact congrArg _ (cutWithin_eq_cutFrom hfind hs)
      | some r =>
          obtain ⟨x, hx, hsplit⟩ := hfind lineStart (c :: s) r.1 r.2 hf
          have hshort : r.2.length ≤ s.length := length_le_of_append_eq_cons hx hsplit.symm
          rw [cutFrom, List.length_cons]
          rw [hsplit] at hf ⊢
          rw [cutWithin_of_some hx hf, cutWithin_of_some hx hf,
            cutWithin_eq_cutFrom hfind (Nat.le_trans hshort hs),
            cutWithin_eq_cutFrom hfind hshort]

theorem cutFrom_append_of_some (hfind : Takes find) {lineStart : Bool} {x rest : List Char} {a : α}
    (hx : x ≠ []) (h : find lineStart (x ++ rest) = some (a, rest)) :
    cutFrom find lineStart (x ++ rest) =
      .span x a :: cutFrom find (startsAfter lineStart x) rest := by
  obtain ⟨n, hn⟩ := Nat.exists_eq_succ_of_ne_zero (Nat.ne_of_gt (List.length_pos_iff.mpr hx))
  have hlen : (x ++ rest).length = (n + rest.length) + 1 := by
    rw [List.length_append, hn]
    omega
  have hstart : decide (x.getLast? = some '\n') = startsAfter lineStart x := by
    rw [startsAfter, List.getLast?_eq_some_getLast hx]
    simp
  rw [cutFrom, hlen, cutWithin_of_some hx h, hstart,
    cutWithin_eq_cutFrom hfind (Nat.le_add_left _ _)]

/-! ### Replacing -/

section replace
variable (replace : List Char → α → List Char)

theorem replaceSpans_append (ps qs : List (Piece α)) :
    replaceSpans replace (ps ++ qs) = replaceSpans replace ps ++ replaceSpans replace qs :=
  List.flatMap_append

theorem replaceSpans_map_char (s : List Char) :
    replaceSpans replace (s.map .char) = s := by
  simp [replaceSpans, List.flatMap_map]

theorem replaceSpans_span_cons (x : List Char) (a : α) (ps : List (Piece α)) :
    replaceSpans replace (.span x a :: ps) = replace x a ++ replaceSpans replace ps :=
  List.flatMap_cons

end replace

/-! ### Parts of a text -/

/-- Where nothing is found the pieces are characters. -/
theorem cutFrom_append_of_none {b : List Char} : ∀ {a : List Char} {lineStart : Bool},
    (∀ u v, a = u ++ v → v ≠ [] → find (startsAfter lineStart u) (v ++ b) = none) →
      cutFrom find lineStart (a ++ b) = a.map .char ++ cutFrom find (startsAfter lineStart a) b
  | [], _, _ => rfl
  | c :: a, lineStart, h => by
      have hc : find lineStart (c :: (a ++ b)) = none :=
        h [] (c :: a) rfl (List.cons_ne_nil c a)
      rw [List.cons_append, cutFrom_cons_of_none hc, startsAfter_cons, List.map_cons,
        List.cons_append, cutFrom_append_of_none fun u v ha hv => ?_]
      have := h (c :: u) v (congrArg (c :: ·) ha) hv
      rwa [startsAfter_cons] at this

/-- A text in which something is found at one place only. -/
theorem cut_of_only (hfind : Takes find) {before x after : List Char} {a : α} (hx : x ≠ [])
    (hfound : find (startsAfter true before) (x ++ after) = some (a, after))
    (hnone : ∀ u v lineStart, before ++ (x ++ after) = u ++ v → u ≠ before →
      find lineStart v = none) :
    cut find (before ++ (x ++ after)) = before.map .char ++ .span x a :: after.map .char := by
  have hbefore : ∀ u v, before = u ++ v → v ≠ [] →
      find (startsAfter true u) (v ++ (x ++ after)) = none := by
    rintro u v rfl hv
    exact hnone u _ _ (List.append_assoc _ _ _) fun h => hv (List.append_right_eq_self.mp h.symm)
  have hafter : ∀ lineStart u v, after = u ++ v → v ≠ [] →
      find (startsAfter lineStart u) (v ++ []) = none := by
    rintro lineStart u v rfl -
    refine hnone (before ++ (x ++ u)) _ _ (by simp) fun h => hx ?_
    exact (List.append_eq_nil_iff.mp (List.append_right_eq_self.mp h)).1
  have htail : cutFrom find (startsAfter (startsAfter true before) x) (after ++ []) = _ :=
    cutFrom_append_of_none (hafter _)
  rw [List.append_nil, cutFrom_nil, List.append_nil] at htail
  rw [cut_eq_cutFrom, cutFrom_append_of_none hbefore, cutFrom_append_of_some hfind hx hfound, htail]

/-- The part of a text before a place that no span reaches over is cut for itself, and so is the
part after it. -/
theorem exists_cutFrom_append (hfind : Takes find) {b : List Char} {a : List Char}
    {lineStart : Bool}
    (h : ∀ u v r x, a = u ++ v → v ≠ [] → find (startsAfter lineStart u) (v ++ b) = some (x, r) →
      b <:+ r) :
    ∃ ps, cutFrom find lineStart (a ++ b) = ps ++ cutFrom find (startsAfter lineStart a) b ∧
      ps.flatMap Piece.source = a := by
  match a with
  | [] => exact ⟨[], rfl, rfl⟩
  | c :: a =>
      cases hf : find lineStart (c :: (a ++ b)) with
      | none =>
          obtain ⟨ps, hps, hsource⟩ : ∃ ps, cutFrom find (c = '\n') (a ++ b) =
              ps ++ cutFrom find (startsAfter (c = '\n') a) b ∧ ps.flatMap Piece.source = a :=
            exists_cutFrom_append hfind fun u v r x ha hv hr =>
              h (c :: u) v r x (congrArg (c :: ·) ha) hv (by rwa [startsAfter_cons])
          refine ⟨.char c :: ps, ?_, congrArg (c :: ·) hsource⟩
          rw [List.cons_append, cutFrom_cons_of_none hf, startsAfter_cons, hps]
          rfl
      | some r =>
          obtain ⟨x, hx, hsplit⟩ := hfind _ _ _ _ hf
          obtain ⟨w, hw⟩ := h [] (c :: a) r.2 r.1 rfl (List.cons_ne_nil c a) hf
          have ha : c :: a = x ++ w := by
            rw [← List.cons_append, ← hw, ← List.append_assoc] at hsplit
            exact List.append_cancel_right hsplit
          have hlen : w.length ≤ a.length := length_le_of_append_eq_cons hx ha.symm
          obtain ⟨ps, hps, hsource⟩ : ∃ ps, cutFrom find (startsAfter lineStart x) (w ++ b) =
              ps ++ cutFrom find (startsAfter (startsAfter lineStart x) w) b ∧
                ps.flatMap Piece.source = w :=
            exists_cutFrom_append hfind fun u v r' y hu hv hr =>
              h (x ++ u) v r' y (by rw [ha, hu, List.append_assoc]) hv (by rwa [startsAfter_append])
          refine ⟨.span x r.1 :: ps, ?_, ?_⟩
          · rw [hsplit] at hf
            rw [List.cons_append, hsplit, cutFrom_append_of_some hfind hx hf, ← hw, hps, ha,
              startsAfter_append]
            rfl
          · rw [List.flatMap_cons, hsource, ha]
            rfl
termination_by a.length

/-- Nothing is found in a text when nothing is found at each of its places. -/
theorem absent_iff : ∀ {s : List Char} {lineStart : Bool},
    Absent find lineStart s ↔
      ∀ u v, s = u ++ v → v ≠ [] → find (startsAfter lineStart u) v = none
  | [], _ => by
      refine iff_of_true trivial fun u v h hv => absurd (List.append_eq_nil_iff.mp h.symm).2 hv
  | c :: s, lineStart => by
      constructor
      · rintro ⟨hc, hs⟩ u v h hv
        cases u with
        | nil =>
            obtain rfl : c :: s = v := h
            exact hc
        | cons d u =>
            obtain ⟨rfl, rfl⟩ := List.cons.inj h
            rw [startsAfter_cons]
            exact absent_iff.mp hs u v rfl hv
      · intro h
        refine ⟨h [] (c :: s) rfl (List.cons_ne_nil c s), absent_iff.mpr fun u v hs hv => ?_⟩
        have := h (c :: u) v (congrArg (c :: ·) hs) hv
        rwa [startsAfter_cons] at this

end SchemaModels.Text
