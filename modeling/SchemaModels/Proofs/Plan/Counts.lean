import Mathlib.Data.Finset.Card
import Mathlib.Data.List.Nodup
import SchemaModels.Plan.Condensation
import SchemaModels.Proofs.Plan.Turns

/-!
# Ordering by counts is greedy

The order by counts never looks for a free block: it keeps, for each block, the number of blocks
that it still waits for. That number is right at every turn, so a block is ready exactly when it
waits for none that is left, and the order is the greedy one.

* `WellCounted`: each count is the number of blocks waited for, and no block waits for itself.
* `Turn`: the counts and the ready blocks at a turn, by the blocks that are left.
* `Turn.step`, `order_eq`: a turn keeps the counts right, so the order by counts is greedy.
-/

namespace SchemaModels

theorem getD_modify {α : Type} (l : List α) (i j : Nat) (f : α → α) (d : α) :
    (l.modify i f).getD j d = if i = j ∧ j < l.length then f (l.getD j d) else l.getD j d := by
  rw [List.getD_eq_getElem?_getD, List.getD_eq_getElem?_getD, List.getElem?_modify]
  by_cases hj : j < l.length
  · by_cases h : i = j <;> simp [hj, h]
  · simp [hj]

namespace Condensation

/-! ### What waits for what -/

/-- The blocks of a set that a block waits for. -/
def waited (c : Condensation) (left : Finset Nat) (b : Nat) : Finset Nat :=
  left.filter fun t => b ∈ c.dependentsOf t

theorem mem_waited {c : Condensation} {left : Finset Nat} {b t : Nat} :
    t ∈ c.waited left b ↔ t ∈ left ∧ b ∈ c.dependentsOf t := Finset.mem_filter

/-- The counts of a number of blocks are right. -/
structure WellCounted (size : Nat) (c : Condensation) : Prop where
  length_dependents : c.dependents.length = size
  length_pending : c.pending.length = size
  nodup : ∀ t, (c.dependentsOf t).Nodup
  lt : ∀ t, ∀ b ∈ c.dependentsOf t, b < size
  not_self : ∀ t, t ∉ c.dependentsOf t
  pending : ∀ b, b < size → c.pending.getD b 0 = (c.waited (Finset.range size) b).card

theorem dependentsOf_empty (size t : Nat) : (empty size).dependentsOf t = [] := by
  simp only [dependentsOf, empty, List.getD_eq_getElem?_getD, List.getElem?_replicate]
  split <;> rfl

theorem wellCounted_empty (size : Nat) : WellCounted size (empty size) where
  length_dependents := List.length_replicate
  length_pending := List.length_replicate
  nodup t := by rw [dependentsOf_empty]; exact List.nodup_nil
  lt t b hb := by rw [dependentsOf_empty] at hb; exact absurd hb List.not_mem_nil
  not_self t := by rw [dependentsOf_empty]; exact List.not_mem_nil
  pending b hb := by
    have hw : (empty size).waited (Finset.range size) b = ∅ :=
      Finset.filter_eq_empty_iff.mpr fun t _ => by
        rw [dependentsOf_empty]; exact List.not_mem_nil
    rw [hw, Finset.card_empty]
    simp [empty, hb]

section wait
variable {size : Nat} {c : Condensation} {source target : Nat}

/-- After a wait is added, the dependents are those before and the new one. -/
theorem mem_dependentsOf_wait (ht : target < c.dependents.length) {b t : Nat} :
    b ∈ (c.wait source target).dependentsOf t ↔
      b ∈ c.dependentsOf t ∨ source ≠ target ∧ b = source ∧ t = target := by
  unfold wait
  split
  · rename_i h
    simp only [Bool.or_eq_true, decide_eq_true_eq, List.contains_iff_mem] at h
    constructor
    · exact .inl
    · rintro (hb | ⟨hne, rfl, rfl⟩)
      · exact hb
      · exact h.resolve_left hne
  · rename_i h
    simp only [Bool.or_eq_true, decide_eq_true_eq, List.contains_iff_mem, not_or] at h
    simp only [dependentsOf, getD_modify]
    by_cases he : target = t
    · subst he
      simp [ht, h.1, or_comm]
    · simp [he, Ne.symm he]

theorem wait_of_old (h : source = target ∨ source ∈ c.dependentsOf target) :
    c.wait source target = c := by
  simp [wait, h]

theorem wait_of_new (h : ¬ (source = target ∨ source ∈ c.dependentsOf target)) :
    c.wait source target =
      ⟨c.dependents.modify target (source :: ·), c.pending.modify source (· + 1)⟩ := by
  simp [wait, h]

/-- A new wait adds its target to what its source waits for. -/
theorem waited_wait (h : ¬ (source = target ∨ source ∈ c.dependentsOf target))
    (ht : target < c.dependents.length) {blocks : Finset Nat} (hb : target ∈ blocks) (b : Nat) :
    (c.wait source target).waited blocks b =
      if source = b then insert target (c.waited blocks b) else c.waited blocks b := by
  obtain ⟨hne, _⟩ := not_or.mp h
  ext t
  rw [mem_waited, mem_dependentsOf_wait ht]
  split
  · rename_i hsb
    subst hsb
    rw [Finset.mem_insert, mem_waited]
    constructor
    · rintro ⟨htb, hold | ⟨_, _, rfl⟩⟩
      · exact .inr ⟨htb, hold⟩
      · exact .inl rfl
    · rintro (rfl | ⟨htb, hold⟩)
      · exact ⟨hb, .inr ⟨hne, rfl, rfl⟩⟩
      · exact ⟨htb, .inl hold⟩
  · rename_i hsb
    rw [mem_waited]
    simp [Ne.symm hsb]

/-- Adding a wait keeps the counts right. -/
theorem WellCounted.wait (h : WellCounted size c) (hs : source < size) (ht : target < size) :
    WellCounted size (c.wait source target) := by
  have ht' : target < c.dependents.length := h.length_dependents ▸ ht
  by_cases hold : source = target ∨ source ∈ c.dependentsOf target
  · rw [wait_of_old hold]
    exact h
  · have hnew := (not_or.mp hold).2
    refine ⟨?_, ?_, ?_, ?_, ?_, ?_⟩
    · rw [wait_of_new hold, List.length_modify, h.length_dependents]
    · rw [wait_of_new hold, List.length_modify, h.length_pending]
    · intro t
      rw [wait_of_new hold]
      simp only [dependentsOf, getD_modify]
      split
      · rename_i hc
        exact List.nodup_cons.mpr ⟨hc.1 ▸ hnew, h.nodup t⟩
      · exact h.nodup t
    · intro t b hb
      rcases (mem_dependentsOf_wait ht').mp hb with hb | ⟨_, rfl, _⟩
      · exact h.lt t b hb
      · exact hs
    · intro t htt
      rcases (mem_dependentsOf_wait ht').mp htt with htt | ⟨hne, rfl, rfl⟩
      · exact h.not_self t htt
      · exact hne rfl
    · intro b hb
      rw [waited_wait hold ht' (Finset.mem_range.mpr ht), wait_of_new hold, getD_modify,
        h.length_pending, h.pending b hb]
      by_cases hsb : source = b
      · subst hsb
        have hnot : target ∉ c.waited (Finset.range size) source :=
          fun hm => hnew (mem_waited.mp hm).2
        rw [if_pos ⟨rfl, hs⟩, if_pos rfl, Finset.card_insert_of_notMem hnot]
      · rw [if_neg fun hc => hsb hc.1, if_neg hsb]

end wait

/-- Folding the edges adds exactly their waits. -/
theorem foldl_wait {size : Nat} : ∀ {edges : List (Nat × Nat)} {c : Condensation},
    (∀ e ∈ edges, e.1 < size ∧ e.2 < size) → WellCounted size c →
    WellCounted size (edges.foldl (fun c e => c.wait e.1 e.2) c) ∧
      ∀ b t, b ∈ (edges.foldl (fun c e => c.wait e.1 e.2) c).dependentsOf t ↔
        b ∈ c.dependentsOf t ∨ (b, t) ∈ edges ∧ b ≠ t
  | [], c, _, hc => ⟨hc, by simp⟩
  | (source, target) :: edges, c, he, hc => by
      obtain ⟨hs, ht⟩ := he (source, target) List.mem_cons_self
      obtain ⟨hw, hm⟩ := foldl_wait (fun e h => he e (List.mem_cons_of_mem _ h)) (hc.wait hs ht)
      refine ⟨hw, fun b t => ?_⟩
      rw [List.foldl_cons, hm, mem_dependentsOf_wait (hc.length_dependents ▸ ht), List.mem_cons,
        Prod.mk.injEq]
      constructor
      · rintro ((hb | ⟨hne, rfl, rfl⟩) | ⟨hb, hne⟩)
        · exact .inl hb
        · exact .inr ⟨.inl ⟨rfl, rfl⟩, hne⟩
        · exact .inr ⟨.inr hb, hne⟩
      · rintro (hb | ⟨⟨rfl, rfl⟩ | hb, hne⟩)
        · exact .inl (.inl hb)
        · exact .inl (.inr ⟨hne, rfl, rfl⟩)
        · exact .inr ⟨hb, hne⟩

section ofEdges
variable {size : Nat} {edges : List (Nat × Nat)} (he : ∀ e ∈ edges, e.1 < size ∧ e.2 < size)
include he

theorem wellCounted_ofEdges : WellCounted size (ofEdges size edges) :=
  (foldl_wait he (wellCounted_empty size)).1

/-- A block waits for another one exactly when an edge leads from the one to the other. -/
theorem mem_dependentsOf_ofEdges {b t : Nat} :
    b ∈ (ofEdges size edges).dependentsOf t ↔ (b, t) ∈ edges ∧ b ≠ t := by
  rw [ofEdges, (foldl_wait he (wellCounted_empty size)).2, dependentsOf_empty]
  simp

end ofEdges

/-! ### Releasing -/

theorem length_release : ∀ (pending bs : List Nat), (release pending bs).1.length = pending.length
  | _, [] => rfl
  | pending, b :: bs => by
      simp only [release]
      rw [length_release, List.length_modify]

/-- Releasing lowers the counts of the blocks released by one. -/
theorem getD_release : ∀ {bs pending : List Nat}, bs.Nodup → ∀ b, b < pending.length →
    (release pending bs).1.getD b 0 =
      if b ∈ bs then pending.getD b 0 - 1 else pending.getD b 0
  | [], _, _, _, _ => by simp [release]
  | a :: bs, pending, hn, b, hb => by
      obtain ⟨ha, hn⟩ := List.nodup_cons.mp hn
      simp only [release]
      rw [getD_release hn b (by rw [List.length_modify]; exact hb), getD_modify]
      by_cases hab : a = b
      · subst hab
        simp [ha, hb]
      · simp [hab, Ne.symm hab]

/-- The blocks that become ready are those whose count comes to zero. -/
theorem mem_release : ∀ {bs pending : List Nat}, bs.Nodup → (∀ b ∈ bs, b < pending.length) →
    ∀ b, b ∈ (release pending bs).2 ↔ b ∈ bs ∧ pending.getD b 0 - 1 = 0
  | [], _, _, _, b => by simp [release]
  | a :: bs, pending, hn, hlt, b => by
      obtain ⟨ha, hn⟩ := List.nodup_cons.mp hn
      have hlt' : ∀ b ∈ bs, b < (pending.modify a (· - 1)).length := fun b hb => by
        rw [List.length_modify]
        exact hlt b (List.mem_cons_of_mem a hb)
      have ih := mem_release hn hlt' b
      have hda : (pending.modify a (· - 1)).getD a 0 = pending.getD a 0 - 1 := by
        rw [getD_modify, if_pos ⟨rfl, hlt a List.mem_cons_self⟩]
      have hdb : b ∈ bs → (pending.modify a (· - 1)).getD b 0 = pending.getD b 0 := fun hb => by
        rw [getD_modify, if_neg]
        rintro ⟨rfl, _⟩
        exact ha hb
      simp only [release, hda]
      split
      · rename_i hz
        rw [List.mem_cons, List.mem_cons, ih]
        constructor
        · rintro (rfl | ⟨hb, hb0⟩)
          · exact ⟨.inl rfl, hz⟩
          · exact ⟨.inr hb, hdb hb ▸ hb0⟩
        · rintro ⟨rfl | hb, hb0⟩
          · exact .inl rfl
          · exact .inr ⟨hb, (hdb hb).symm ▸ hb0⟩
      · rename_i hz
        rw [List.mem_cons, ih]
        constructor
        · rintro ⟨hb, hb0⟩
          exact ⟨.inr hb, hdb hb ▸ hb0⟩
        · rintro ⟨rfl | hb, hb0⟩
          · exact absurd hb0 hz
          · exact ⟨hb, (hdb hb).symm ▸ hb0⟩

theorem release_sublist : ∀ (pending bs : List Nat), (release pending bs).2.Sublist bs
  | _, [] => List.Sublist.slnil
  | pending, b :: bs => by
      simp only [release]
      split
      · exact (release_sublist _ bs).cons_cons b
      · exact (release_sublist _ bs).cons b

/-! ### Turns -/

/-- Whether a block waits for none that is left. -/
def free (c : Condensation) (left : List Nat) (b : Nat) : Bool :=
  left.all fun t => !(c.dependentsOf t).contains b

theorem free_iff {c : Condensation} {left : List Nat} {b : Nat} :
    c.free left b = true ↔ c.waited left.toFinset b = ∅ := by
  simp [free, waited, Finset.filter_eq_empty_iff]

/-- The counts and the ready blocks at a turn, by the blocks that are left. -/
structure Turn (c : Condensation) (size : Nat) (left pending ready : List Nat) : Prop where
  nodup_left : left.Nodup
  left_lt : ∀ b ∈ left, b < size
  length : pending.length = size
  count : ∀ b, b < size → pending.getD b 0 = (c.waited left.toFinset b).card
  taken : ∀ b, b < size → b ∉ left → pending.getD b 0 = 0
  nodup_ready : ready.Nodup
  mem_ready : ∀ b, b ∈ ready ↔ b ∈ left ∧ pending.getD b 0 = 0

namespace Turn
variable {c : Condensation} {size : Nat} {left pending ready : List Nat}

/-- The ready blocks are the free ones among those left. -/
theorem mem_ready_iff_free (h : Turn c size left pending ready) (b : Nat) :
    b ∈ ready ↔ b ∈ left.filter (c.free left) := by
  rw [h.mem_ready, List.mem_filter, free_iff]
  apply and_congr_right
  intro hb
  rw [h.count b (h.left_lt b hb), Finset.card_eq_zero]

/-- A block that waits for one that is left has a count, and is left itself. -/
theorem pos_of_waits (h : Turn c size left pending ready) (hw : WellCounted size c) {t b : Nat}
    (ht : t ∈ left) (hb : b ∈ c.dependentsOf t) : 0 < pending.getD b 0 ∧ b ∈ left := by
  have hlt := hw.lt t b hb
  have hpos : 0 < pending.getD b 0 := by
    rw [h.count b hlt]
    exact Finset.card_pos.mpr ⟨t, mem_waited.mpr ⟨List.mem_toFinset.mpr ht, hb⟩⟩
  refine ⟨hpos, by_contra fun hn => ?_⟩
  have := h.taken b hlt hn
  omega

section step
variable (h : Turn c size left pending ready) (hw : WellCounted size c)
include h hw

/-- The counts after a block is taken. -/
theorem getD_release (a : Nat) {b : Nat} (hb : b < size) :
    (release pending (c.dependentsOf a)).1.getD b 0 =
      if b ∈ c.dependentsOf a then pending.getD b 0 - 1 else pending.getD b 0 :=
  Condensation.getD_release (hw.nodup a) b (h.length.symm ▸ hb)

omit hw in
/-- What a block waits for after another one is taken. -/
theorem waited_erase (a b : Nat) :
    c.waited (left.erase a).toFinset b = (c.waited left.toFinset b).erase a := by
  have hset : (left.erase a).toFinset = left.toFinset.erase a := by
    ext b
    rw [List.mem_toFinset, h.nodup_left.mem_erase_iff, Finset.mem_erase, List.mem_toFinset]
  rw [waited, hset, Finset.filter_erase]
  rfl

theorem count_step {a : Nat} (ha : a ∈ left) {b : Nat} (hb : b < size) :
    (release pending (c.dependentsOf a)).1.getD b 0 =
      (c.waited (left.erase a).toFinset b).card := by
  rw [h.getD_release hw a hb, h.waited_erase, h.count b hb]
  split
  · rename_i hba
    rw [Finset.card_erase_of_mem (mem_waited.mpr ⟨List.mem_toFinset.mpr ha, hba⟩)]
  · rename_i hba
    rw [Finset.erase_eq_of_notMem fun hm => hba (mem_waited.mp hm).2]

/-- The blocks that are ready after a ready one is taken. -/
theorem mem_ready_step {a : Nat} (ha : a ∈ left) (b : Nat) :
    b ∈ ready.erase a ++ (release pending (c.dependentsOf a)).2 ↔
      b ∈ left.erase a ∧ (release pending (c.dependentsOf a)).1.getD b 0 = 0 := by
  have hlt : ∀ b ∈ c.dependentsOf a, b < pending.length := fun b hb => h.length ▸ hw.lt a b hb
  rw [List.mem_append, h.nodup_ready.mem_erase_iff, h.mem_ready, mem_release (hw.nodup a) hlt,
    h.nodup_left.mem_erase_iff]
  constructor
  · rintro (⟨hne, hbl, hb0⟩ | ⟨hba, hb0⟩)
    · refine ⟨⟨hne, hbl⟩, ?_⟩
      rw [h.getD_release hw a (h.left_lt b hbl)]
      split <;> omega
    · have hbl := (h.pos_of_waits hw ha hba).2
      refine ⟨⟨fun e => hw.not_self a (e ▸ hba), hbl⟩, ?_⟩
      rw [h.getD_release hw a (hw.lt a b hba), if_pos hba]
      exact hb0
  · rintro ⟨⟨hne, hbl⟩, hb0⟩
    rw [h.getD_release hw a (h.left_lt b hbl)] at hb0
    by_cases hba : b ∈ c.dependentsOf a
    · rw [if_pos hba] at hb0
      exact .inr ⟨hba, hb0⟩
    · rw [if_neg hba] at hb0
      exact .inl ⟨hne, hbl, hb0⟩

/-- Taking a ready block and releasing those that wait for it keeps the counts right. -/
theorem step {a : Nat} (ha : a ∈ ready) :
    Turn c size (left.erase a) (release pending (c.dependentsOf a)).1
      (ready.erase a ++ (release pending (c.dependentsOf a)).2) := by
  obtain ⟨hal, ha0⟩ := (h.mem_ready a).mp ha
  refine ⟨h.nodup_left.erase a, ?_, ?_, fun b hb => h.count_step hw hal hb, ?_, ?_,
    h.mem_ready_step hw hal⟩
  · intro b hb
    exact h.left_lt b (List.mem_of_mem_erase hb)
  · rw [length_release, h.length]
  · intro b hb hbl
    rw [h.getD_release hw a hb]
    have hz : pending.getD b 0 = 0 := by
      by_cases hba : b = a
      · exact hba ▸ ha0
      · exact h.taken b hb fun hm => hbl (h.nodup_left.mem_erase_iff.mpr ⟨hba, hm⟩)
    split <;> omega
  · refine List.nodup_append.mpr
      ⟨h.nodup_ready.erase a, (hw.nodup a).sublist (release_sublist _ _), ?_⟩
    rintro b hb b' hb' rfl
    -- what waits for `a` has a count, so it was not ready before
    have hz := ((h.mem_ready b).mp (List.mem_of_mem_erase hb)).2
    have hpos := (h.pos_of_waits hw hal ((release_sublist _ _).subset hb')).1
    omega

end step

end Turn

/-! ### The order -/

/-- At the first turn all blocks are left. -/
theorem WellCounted.turn_start {size : Nat} {c : Condensation} (hw : WellCounted size c) :
    Turn c size (List.range size) c.pending
      ((List.range size).filter fun b => c.pending.getD b 0 = 0) where
  nodup_left := List.nodup_range
  left_lt b hb := List.mem_range.mp hb
  length := hw.length_pending
  count b hb := by
    have hr : (List.range size).toFinset = Finset.range size := by ext; simp
    rw [hw.pending b hb, hr]
  taken b hb hn := absurd (List.mem_range.mpr hb) hn
  nodup_ready := List.nodup_range.filter _
  mem_ready b := by simp

section order
variable {c : Condensation} {size : Nat} {key : Nat → Greedy.Key}
  (hkey : ∀ a < size, ∀ b < size, key a = key b → a = b)
include hkey

/-- From a turn on, the order by counts takes what the greedy order takes. -/
theorem orderWithin_eq (hw : WellCounted size c) : ∀ (turns : Nat) {left pending ready : List Nat},
    Turn c size left pending ready →
    c.orderWithin key turns pending ready = (Greedy.orderWithin key c.free turns left).1
  | 0, _, _, _, _ => rfl
  | turns + 1, left, pending, ready, h => by
      have hlt : ∀ b ∈ ready, b < size := fun b hb => h.left_lt b ((h.mem_ready b).mp hb).1
      have hleast : Greedy.least? key ready = Greedy.least? key (left.filter (c.free left)) :=
        Greedy.least?_congr key h.mem_ready_iff_free fun a ha b hb =>
          hkey a (hlt a ha) b (hlt b hb)
      simp only [orderWithin, Greedy.orderWithin, ← hleast]
      cases hl : Greedy.least? key ready with
      | none => rfl
      | some a =>
          have hstep := h.step hw (Greedy.mem_of_least? key hl)
          exact congrArg (a :: ·) (orderWithin_eq hw turns hstep)

/-- The order by counts is the greedy order. -/
theorem order_eq (hw : WellCounted size c) :
    c.order key = (Greedy.order key c.free (List.range size)).1 := by
  simp only [order, Greedy.order, hw.length_pending, List.length_range]
  exact orderWithin_eq hkey hw size hw.turn_start

end order

end Condensation

end SchemaModels
