import Mathlib.Data.Fintype.Card
import Mathlib.Data.List.GetD
import Mathlib.Data.List.Nodup
import Mathlib.Data.Set.Finite.Basic
import Mathlib.Order.WellFounded
import SchemaModels.Plan.Basic
import SchemaModels.Proofs.Plan.Counts
import SchemaModels.Proofs.Plan.Reach
import SchemaModels.Proofs.Results

/-!
# The order of places

The components of a graph wait for each other without a cycle, so the order by counts takes all of
them, each after those it waits for. Inside a component the records come first; a place of another
kind is taken when none that it refers to is left.

* `inTurn_blockNumbers`: a component is taken after those that its edges lead to.
* `placeOrder_ok`, `placeOrder_error`: the order inside a block, which fails only at a cycle that
  runs through no record.
* `sequence_ok`: an edge leads back in the order, or the two places are linked and the first of
  them is a record.
-/

namespace SchemaModels

/-- Without cycles some item of a list is related to none of the list. -/
theorem exists_sink {α : Type} {r : α → α → Prop} (hr : ∀ a, ¬ Relation.TransGen r a a)
    {left : List α} (hne : left ≠ []) : ∃ a ∈ left, ∀ b ∈ left, ¬ r a b := by
  obtain ⟨m, hm⟩ := List.exists_mem_of_ne_nil left hne
  have : Finite {a // a ∈ left} := left.finite_toSet.to_subtype
  let below : {a // a ∈ left} → {a // a ∈ left} → Prop := fun b a => Relation.TransGen r a.1 b.1
  have : IsTrans _ below := ⟨fun _ _ _ hab hbc => Relation.TransGen.trans hbc hab⟩
  have : Std.Irrefl below := ⟨fun a h => hr a.1 h⟩
  have hwf := Finite.wellFounded_of_trans_of_irrefl below
  obtain ⟨a, _, hmin⟩ := hwf.has_min Set.univ ⟨⟨m, hm⟩, trivial⟩
  exact ⟨a.1, a.2, fun b hb hab => hmin ⟨b, hb⟩ trivial (.single hab)⟩

/-- A relation that always leads back in a list has no cycle there. -/
theorem InTurn.idxOf_lt {r : Nat → Nat → Prop} {xs : List Nat} (hn : xs.Nodup)
    (h : InTurn (fun before i => ∀ j, r i j → j ∈ before) [] xs) {i j : Nat} (hi : i ∈ xs)
    (hij : r i j) : xs.idxOf j < xs.idxOf i := by
  have hlt := List.idxOf_lt_length_iff.mpr hi
  have hget : xs[xs.idxOf i]? = some i := by
    rw [List.getElem?_eq_getElem hlt, List.getElem_idxOf hlt]
  have hj := h.of_getElem? hget j hij
  rw [List.nil_append] at hj
  obtain ⟨k, hk, rfl⟩ := List.mem_take_iff_getElem.mp hj
  rw [hn.idxOf_getElem]
  omega

/-! ### Blocks -/

namespace Table

section blocks
variable {g : Graph} {blocks : List (List Nat)} (hb : g.IsComponents blocks)
include hb

theorem mem_block {b i : Nat} (h : i ∈ blocks.getD b []) :
    b < blocks.length ∧ blocks.getD b [] ∈ blocks ∧ i < g.size := by
  rw [List.getD_eq_getElem?_getD] at h ⊢
  cases hg : blocks[b]? with
  | none => rw [hg] at h; exact absurd h List.not_mem_nil
  | some B =>
      rw [hg] at h
      obtain ⟨hlt, rfl⟩ := List.getElem?_eq_some_iff.mp hg
      have hmem : blocks[b] ∈ blocks := List.getElem_mem hlt
      exact ⟨hlt, hmem, (hb.mem_flatten i).mp (List.mem_flatten.mpr ⟨_, hmem, h⟩)⟩

theorem mem_blockAt {i : Nat} (hi : i < g.size) : i ∈ blocks.getD (blockAt blocks i) [] := by
  obtain ⟨B, hB, hiB⟩ := List.mem_flatten.mp ((hb.mem_flatten i).mpr hi)
  have hlt : blockAt blocks i < blocks.length :=
    List.findIdx_lt_length_of_exists ⟨B, hB, List.contains_iff_mem.mpr hiB⟩
  have hget : blocks[blockAt blocks i].contains i = true := List.findIdx_getElem (w := hlt)
  rw [List.getD_eq_getElem _ _ hlt]
  exact List.contains_iff_mem.mp hget

/-- Two places share a block exactly when they are linked. -/
theorem linked_iff {b i : Nat} (h : i ∈ blocks.getD b []) (j : Nat) :
    j ∈ blocks.getD b [] ↔ g.Linked i j :=
  hb.linked _ (mem_block hb h).2.1 i h j

/-- A place is in one block only. -/
theorem blockAt_eq {b i : Nat} (h : i ∈ blocks.getD b []) : blockAt blocks i = b := by
  have hlt := (mem_block hb h).1
  have h' := mem_blockAt hb (mem_block hb h).2.2
  have hlt' := (mem_block hb h').1
  rw [List.getD_eq_getElem _ _ hlt] at h
  rw [List.getD_eq_getElem _ _ hlt'] at h'
  have hpw := List.pairwise_iff_getElem.mp (List.nodup_flatten.mp hb.nodup).2
  rcases Nat.lt_trichotomy (blockAt blocks i) b with hlt'' | he | hlt''
  · exact absurd h (hpw _ _ hlt' hlt hlt'' h')
  · exact he
  · exact absurd h' (hpw _ _ hlt hlt' hlt'' h)

theorem blockAt_eq_iff {i j : Nat} (hi : i < g.size) (hj : j < g.size) :
    blockAt blocks i = blockAt blocks j ↔ g.Linked i j := by
  rw [← linked_iff hb (mem_blockAt hb hi)]
  constructor
  · intro h
    exact h ▸ mem_blockAt hb hj
  · intro h
    exact (blockAt_eq hb h).symm

end blocks

/-! ### The order of blocks -/

theorem mem_blockEdges {g : Graph} {blocks : List (List Nat)} (hg : g.Proper) {b t : Nat} :
    (b, t) ∈ blockEdges g blocks ↔
      ∃ i j, g.Edge i j ∧ blockAt blocks i = b ∧ blockAt blocks j = t := by
  simp only [blockEdges, Graph.edges, Graph.nodes, List.mem_map, List.mem_flatMap, List.mem_range,
    Prod.mk.injEq]
  constructor
  · rintro ⟨_, ⟨i, hi, j, hj, rfl⟩, rfl, rfl⟩
    exact ⟨i, j, ⟨hi, hg i hi j hj, hj⟩, rfl, rfl⟩
  · rintro ⟨i, j, ⟨hi, _, hj⟩, rfl, rfl⟩
    exact ⟨(i, j), ⟨i, hi, j, hj, rfl⟩, rfl, rfl⟩

/-- The numbers of the blocks in their order. -/
def blockNumbers (g : Graph) (key : Nat → Greedy.Key) (blocks : List (List Nat)) : List Nat :=
  (Condensation.ofEdges blocks.length (blockEdges g blocks)).order
    fun b => blockKey key (blocks.getD b [])

section order
variable {g : Graph} {blocks : List (List Nat)} {key : Nat → Greedy.Key}
  (hb : g.IsComponents blocks) (hg : g.Proper) (hkey : ∀ i j, key i = key j → i = j)
include hb hg

theorem blockEdges_lt : ∀ e ∈ blockEdges g blocks, e.1 < blocks.length ∧ e.2 < blocks.length := by
  rintro ⟨b, t⟩ he
  obtain ⟨i, j, hij, rfl, rfl⟩ := (mem_blockEdges hg).mp he
  exact ⟨(mem_block hb (mem_blockAt hb hij.1)).1, (mem_block hb (mem_blockAt hb hij.2.1)).1⟩

/-- Blocks that follow each other by edges are reached from place to place. -/
theorem reaches_of_blockEdges {b t : Nat}
    (h : Relation.TransGen (fun b t => (b, t) ∈ blockEdges g blocks) b t) :
    ∀ i ∈ blocks.getD b [], ∀ j ∈ blocks.getD t [], g.Reaches i j := by
  have hstep : ∀ b t, (b, t) ∈ blockEdges g blocks →
      ∀ i ∈ blocks.getD b [], ∀ j ∈ blocks.getD t [], g.Reaches i j := by
    intro b t he i hi j hj
    obtain ⟨k, l, hkl, rfl, rfl⟩ := (mem_blockEdges hg).mp he
    have hik := ((linked_iff hb hi k).mp (mem_blockAt hb hkl.1)).2
    have hlj := ((linked_iff hb (mem_blockAt hb hkl.2.1) j).mp hj).2
    have hkj : g.Reaches k j := by
      rcases hlj with rfl | ⟨hlj, _⟩
      · exact .single hkl
      · exact .head hkl hlj
    rcases hik with rfl | ⟨hik, _⟩
    · exact hkj
    · exact hik.trans hkj
  induction h with
  | single he => exact hstep _ _ he
  | @tail c t _ he ih =>
      intro i hi j hj
      obtain ⟨k, l, hkl, rfl, rfl⟩ := (mem_blockEdges hg).mp he
      exact (ih i hi k (mem_blockAt hb hkl.1)).trans
        (hstep _ _ he k (mem_blockAt hb hkl.1) j hj)

/-- Blocks do not wait for each other in a cycle. -/
theorem not_cyclic_blockEdges (b : Nat) :
    ¬ Relation.TransGen (fun b t => (b, t) ∈ blockEdges g blocks ∧ b ≠ t) b b := by
  intro h
  obtain ⟨t, ⟨he, hne⟩, htb⟩ := Relation.TransGen.head'_iff.mp h
  obtain ⟨i, j, hij, rfl, rfl⟩ := (mem_blockEdges hg).mp he
  have hi := mem_blockAt hb hij.1
  have hj := mem_blockAt hb hij.2.1
  refine hne ((blockAt_eq_iff hb hij.1 hij.2.1).mpr ⟨hij.1, .inr ⟨.single hij, ?_⟩⟩)
  rcases Relation.reflTransGen_iff_eq_or_transGen.mp htb with heq | htb
  · exact absurd heq hne
  · exact reaches_of_blockEdges hb hg (Relation.TransGen.mono (fun _ _ h => h.1) _ _ htb) j hj i hi

omit hg in
variable (key) in
/-- The key of a block is the least key of its places. -/
theorem exists_blockKey {b : Nat} (hlt : b < blocks.length) :
    ∃ m ∈ blocks.getD b [], blockKey key (blocks.getD b []) = key m ∧
      ∀ i ∈ blocks.getD b [], Greedy.before (key i) (key m) = false := by
  have hne : blocks.getD b [] ≠ [] := by
    rw [List.getD_eq_getElem _ _ hlt]
    exact hb.ne_nil _ (List.getElem_mem hlt)
  cases hl : Greedy.least? key (blocks.getD b []) with
  | none => exact absurd ((Greedy.least?_eq_none_iff key).mp hl) hne
  | some m =>
      refine ⟨m, Greedy.mem_of_least? key hl, ?_, Greedy.not_before_least? key hl⟩
      simp only [blockKey, hl]
      rfl

omit hg in
include hkey in
/-- Different blocks have different keys. -/
theorem blockKey_injective {a b : Nat} (ha : a < blocks.length) (hlt : b < blocks.length)
    (h : blockKey key (blocks.getD a []) = blockKey key (blocks.getD b [])) : a = b := by
  obtain ⟨m, hm, hma, _⟩ := exists_blockKey key hb ha
  obtain ⟨m', hm', hmb, _⟩ := exists_blockKey key hb hlt
  have he : m = m' := hkey _ _ (hma.symm.trans (h.trans hmb))
  subst he
  exact (blockAt_eq hb hm).symm.trans (blockAt_eq hb hm')

/-- A block is free when the blocks that its edges lead to are taken. -/
theorem free_iff_blockEdges {taken : List Nat} {b : Nat} :
    (Condensation.ofEdges blocks.length (blockEdges g blocks)).free
        ((List.range blocks.length).diff taken) b = true ↔
      ∀ t, (b, t) ∈ blockEdges g blocks → b ≠ t → t ∈ taken := by
  have hlt := blockEdges_lt hb hg
  rw [Condensation.free, List.all_eq_true]
  simp only [List.nodup_range.mem_sdiff_iff, List.mem_range, Bool.not_eq_true', ← Bool.not_eq_true,
    List.contains_iff_mem, Condensation.mem_dependentsOf_ofEdges hlt]
  constructor
  · intro h t he hne
    by_contra hnot
    exact h t ⟨(hlt _ he).2, hnot⟩ ⟨he, hne⟩
  · rintro h t ⟨_, hnot⟩ ⟨he, hne⟩
    exact hnot (h t he hne)

include hkey

/-- The order of the blocks is greedy. -/
theorem blockNumbers_eq_greedy :
    blockNumbers g key blocks =
      (Greedy.order (fun b => blockKey key (blocks.getD b []))
        (Condensation.ofEdges blocks.length (blockEdges g blocks)).free
        (List.range blocks.length)).1 :=
  Condensation.order_eq (fun _ ha _ hlt => blockKey_injective hb hkey ha hlt)
    (Condensation.wellCounted_ofEdges (blockEdges_lt hb hg))

/-- All blocks are taken. -/
theorem perm_blockNumbers : (blockNumbers g key blocks).Perm (List.range blocks.length) := by
  rw [blockNumbers_eq_greedy hb hg hkey]
  set c := Condensation.ofEdges blocks.length (blockEdges g blocks)
  have hperm := Greedy.perm_order (fun b => blockKey key (blocks.getD b [])) c.free
    (List.range blocks.length)
  have hnil : (Greedy.order (fun b => blockKey key (blocks.getD b [])) c.free
      (List.range blocks.length)).2 = [] := by
    by_contra hne
    -- among the blocks left one waits for none of them, so that it would be free
    obtain ⟨a, ha, hsink⟩ := exists_sink (not_cyclic_blockEdges hb hg) hne
    have hfree := Greedy.left_not_free _ c.free ha
    refine Bool.eq_false_iff.mp hfree (List.all_eq_true.mpr fun t ht => ?_)
    rw [Bool.not_eq_true', ← Bool.not_eq_true, List.contains_iff_mem,
      Condensation.mem_dependentsOf_ofEdges (blockEdges_lt hb hg)]
    exact hsink t ht
  rw [hnil, List.append_nil] at hperm
  exact hperm

/-- A block is taken after those that its edges lead to. -/
theorem inTurn_blockNumbers :
    InTurn (fun taken b => ∀ t, (b, t) ∈ blockEdges g blocks → b ≠ t → t ∈ taken)
      [] (blockNumbers g key blocks) := by
  rw [blockNumbers_eq_greedy hb hg hkey]
  refine InTurn.mono ?_ (Greedy.inTurn_order _ _ _)
  intro taken b _ hl
  have hfree := Greedy.free_of_least? _ _ hl
  rw [List.nil_append] at hfree ⊢
  exact (free_iff_blockEdges hb hg).mp hfree

end order

/-! ### The order inside a block -/

/-- A reference between two places neither of which is a record. -/
def Eager (t : Table) (g : Graph) (i j : Nat) : Prop :=
  g.Edge i j ∧ t.isObjectAt i = false ∧ t.isObjectAt j = false

section places
variable {t : Table} {g : Graph} {key : Nat → Greedy.Key} {block : List Nat}

theorem perm_records : (Greedy.order key (fun _ _ => true) (block.filter t.isObjectAt)).1.Perm
    (block.filter t.isObjectAt) := by
  have hnil : (Greedy.order key (fun _ _ => true) (block.filter t.isObjectAt)).2 = [] :=
    List.eq_nil_iff_forall_not_mem.mpr fun a ha => by
      have := Greedy.left_not_free key (fun _ _ => true) ha
      simp at this
  have hperm := Greedy.perm_order key (fun _ _ => true) (block.filter t.isObjectAt)
  rwa [hnil, List.append_nil] at hperm

/-- In the order inside a block, what is no record stands after the places of the block that it
refers to. -/
theorem placeOrder_ok (hn : block.Nodup) {ps : List Nat} (h : t.placeOrder g key block = .ok ps) :
    ps.Perm block ∧
      InTurn (fun before i => t.isObjectAt i = false → ∀ j ∈ g.next i, j ∈ block → j ∈ before)
        [] ps := by
  simp only [placeOrder] at h
  split at h
  · rename_i hempty
    rw [Except.ok.injEq] at h
    subst h
    have hrec : (Greedy.order key (fun _ _ => true) (block.filter t.isObjectAt)).1.Perm
        (block.filter t.isObjectAt) := perm_records
    have hoth := Greedy.perm_order key (placeFree g) (block.filter fun i => !t.isObjectAt i)
    rw [List.isEmpty_iff.mp hempty, List.append_nil] at hoth
    refine ⟨(hrec.append hoth).trans (List.filter_append_perm _ _), ?_⟩
    refine InTurn.append_iff.mpr ⟨?_, ?_⟩
    · apply InTurn.of_forall_mem
      intro before i hi hobj
      have := (List.mem_filter.mp (hrec.mem_iff.mp hi)).2
      rw [hobj] at this
      exact absurd this Bool.false_ne_true
    · refine InTurn.mono ?_ (Greedy.inTurn_order key (placeFree g) _)
      intro pre i _ hl _ j hj hjb
      rw [List.nil_append] at hl
      have hfree := List.all_eq_true.mp (Greedy.free_of_least? _ _ hl) j hj
      rw [Bool.not_eq_true', ← Bool.not_eq_true, List.contains_iff_mem,
        (hn.filter _).mem_sdiff_iff, List.mem_filter] at hfree
      rw [List.nil_append, List.mem_append, hrec.mem_iff, List.mem_filter]
      by_cases hobj : t.isObjectAt j = true
      · exact .inl ⟨hjb, hobj⟩
      · refine .inr (by_contra fun hpre => hfree ⟨⟨hjb, ?_⟩, hpre⟩)
        rw [Bool.not_eq_true] at hobj
        rw [hobj]
        rfl
  · exact absurd h (by simp)

/-- The places of a block that are left when none of them is free. -/
def stuck (t : Table) (g : Graph) (key : Nat → Greedy.Key) (block : List Nat) : List Nat :=
  (Greedy.order key (placeFree g) (block.filter fun i => !t.isObjectAt i)).2

/-- What is left of a block are no records, and each refers to one that is left. -/
theorem mem_stuck {i : Nat} (h : i ∈ t.stuck g key block) :
    i ∈ block ∧ t.isObjectAt i = false ∧ placeFree g (t.stuck g key block) i = false := by
  have hmem := (Greedy.perm_order key (placeFree g) _).mem_iff.mp (List.mem_append_right _ h)
  rw [List.mem_filter, Bool.not_eq_true'] at hmem
  exact ⟨hmem.1, hmem.2, Greedy.left_not_free key _ h⟩

/-- There is no order inside a block when places of it are left. -/
theorem placeOrder_eq_error_iff {e : PlanError} : t.placeOrder g key block = .error e ↔
    t.stuck g key block ≠ [] ∧ e = .circular (t.namesAt (cycle g (t.stuck g key block))) := by
  simp only [placeOrder, stuck]
  split
  · rename_i hempty
    simp [List.isEmpty_iff.mp hempty]
  · rename_i hleft
    rw [List.isEmpty_iff] at hleft
    rw [Except.error.injEq, and_iff_right hleft, eq_comm]

theorem exists_next_of_not_placeFree {left : List Nat} {i : Nat} (h : placeFree g left i = false) :
    ∃ j ∈ g.next i, j ∈ left := by
  rw [placeFree, List.all_eq_false] at h
  obtain ⟨j, hj, hleft⟩ := h
  rw [Bool.not_eq_true, Bool.not_eq_false', List.contains_iff_mem] at hleft
  exact ⟨j, hj, hleft⟩

/-- There is no order inside a block only if some cycle runs through no record. -/
theorem placeOrder_error (hlt : ∀ i ∈ block, i < g.size) {e : PlanError}
    (h : t.placeOrder g key block = .error e) :
    (∃ c, e = .circular c) ∧ ∃ i, Relation.TransGen (t.Eager g) i i := by
  obtain ⟨hne, rfl⟩ := placeOrder_eq_error_iff.mp h
  refine ⟨⟨_, rfl⟩, by_contra fun hno => ?_⟩
  -- without a cycle some place of those left would refer to none of them
  obtain ⟨i, hi, hsink⟩ := exists_sink (fun i hi => hno ⟨i, hi⟩) hne
  obtain ⟨hib, hiobj, hnot⟩ := mem_stuck hi
  obtain ⟨j, hij, hj⟩ := exists_next_of_not_placeFree hnot
  obtain ⟨hjb, hjobj, _⟩ := mem_stuck hj
  exact hsink j hj ⟨⟨hlt i hib, hlt j hjb, hij⟩, hiobj, hjobj⟩

end places

/-! ### The order of all places -/

section sequence
variable {t : Table} {g : Graph} {blocks : List (List Nat)} {key : Nat → Greedy.Key}

/-- The places in order are those of the blocks in order. -/
theorem sequence_eq_ok_iff {ps : List Nat} : t.sequence g key blocks = .ok ps ↔
    ∃ groups, (blockOrder g key blocks).mapM (t.placeOrder g key) = .ok groups ∧
      groups.flatten = ps := by
  simp only [sequence]
  cases (blockOrder g key blocks).mapM (t.placeOrder g key) <;>
    simp [bind, Except.bind, pure, Except.pure]

variable (hb : g.IsComponents blocks) (hg : g.Proper) (hkey : ∀ i j, key i = key j → i = j)

include hb hg

/-- The places of a block in their turn, after the places of the blocks that its edges lead to. -/
theorem inTurn_block {b : Nat} {taken before ps : List Nat} (hbl : b < blocks.length)
    (hturn : ∀ t, (b, t) ∈ blockEdges g blocks → b ≠ t → t ∈ taken)
    (hbefore : ∀ j, j < g.size → blockAt blocks j ∈ taken → j ∈ before)
    (h : t.placeOrder g key (blocks.getD b []) = .ok ps) :
    ps.Perm (blocks.getD b []) ∧
      InTurn (fun before i => ∀ j, g.Edge i j →
        j ∈ before ∨ t.isObjectAt i = true ∧ g.Linked i j) before ps := by
  have hn : (blocks.getD b []).Nodup := by
    rw [List.getD_eq_getElem _ _ hbl]
    exact (List.nodup_flatten.mp hb.nodup).1 _ (List.getElem_mem hbl)
  obtain ⟨hperm, hin⟩ := placeOrder_ok hn h
  refine ⟨hperm, InTurn.mono ?_ hin⟩
  intro pre i hi hpre j hij
  rw [List.nil_append] at hpre
  have hib : i ∈ blocks.getD b [] := hperm.mem_iff.mp hi
  by_cases hjb : j ∈ blocks.getD b []
  · -- a reference inside the block
    by_cases hobj : t.isObjectAt i = true
    · exact .inr ⟨hobj, (linked_iff hb hib j).mp hjb⟩
    · rw [Bool.not_eq_true] at hobj
      exact .inl (List.mem_append_right before (hpre hobj j hij.2.2 hjb))
  · -- a reference to a block that was taken before
    have hne : b ≠ blockAt blocks j := fun e => hjb (e ▸ mem_blockAt hb hij.2.1)
    have hedge : (b, blockAt blocks j) ∈ blockEdges g blocks :=
      (mem_blockEdges hg).mpr ⟨i, j, hij, blockAt_eq hb hib, rfl⟩
    exact .inl (List.mem_append_left pre (hbefore j hij.2.1 (hturn _ hedge hne)))

/-- The places of blocks in their turn, after the places of the blocks taken before. -/
theorem inTurn_groups : ∀ {numbers taken before : List Nat} {groups : List (List Nat)},
    (∀ b ∈ numbers, b < blocks.length) →
    InTurn (fun taken b => ∀ t, (b, t) ∈ blockEdges g blocks → b ≠ t → t ∈ taken) taken numbers →
    (∀ j, j < g.size → blockAt blocks j ∈ taken → j ∈ before) →
    (numbers.map fun b => blocks.getD b []).mapM (t.placeOrder g key) = .ok groups →
    groups.flatten.Perm (numbers.map fun b => blocks.getD b []).flatten ∧
      InTurn (fun before i => ∀ j, g.Edge i j →
        j ∈ before ∨ t.isObjectAt i = true ∧ g.Linked i j) before groups.flatten
  | [], _, _, groups, _, _, _, h => by
      rw [List.map_nil, List.mapM_nil] at h
      obtain rfl : [] = groups := Except.ok.inj h
      exact ⟨List.Perm.refl _, trivial⟩
  | b :: numbers, taken, before, groups, hlt, hturn, hbefore, h => by
      rw [List.map_cons] at h
      obtain ⟨ps, rest, hps, hrest, rfl⟩ := mapM_cons_eq_ok.mp h
      obtain ⟨hperm, hin⟩ :=
        inTurn_block hb hg (hlt b List.mem_cons_self) hturn.1 hbefore hps
      have hnext : ∀ j, j < g.size → blockAt blocks j ∈ taken ++ [b] → j ∈ before ++ ps := by
        intro j hj hjt
        rw [List.mem_append, hperm.mem_iff]
        rcases List.mem_append.mp hjt with hjt | hjb
        · exact .inl (hbefore j hj hjt)
        · exact .inr (List.mem_singleton.mp hjb ▸ mem_blockAt hb hj)
      obtain ⟨hperm', hin'⟩ := inTurn_groups (fun b' h' => hlt b' (List.mem_cons_of_mem b h'))
        hturn.2 hnext hrest
      rw [List.map_cons, List.flatten_cons, List.flatten_cons]
      exact ⟨hperm.append hperm', InTurn.append_iff.mpr ⟨hin, hin'⟩⟩

include hkey

/-- Every block stands in the order of the blocks once. -/
theorem perm_blockOrder : (blockOrder g key blocks).Perm blocks := by
  have hperm := (perm_blockNumbers hb hg hkey).map fun b => blocks.getD b []
  have hall : (List.range blocks.length).map (fun b => blocks.getD b []) = blocks := by
    refine List.ext_getElem (by simp) fun b h _ => ?_
    simp only [List.length_map, List.length_range] at h
    rw [List.getElem_map, List.getElem_range, List.getD_eq_getElem _ _ h]
  rwa [hall] at hperm

/-- Every place stands in the order once. A place refers to places that stand before it, but for
records, which may refer to any place that they are linked to. -/
theorem sequence_ok {ps : List Nat} (h : t.sequence g key blocks = .ok ps) :
    ps.Perm (List.range g.size) ∧
      InTurn (fun before i => ∀ j, g.Edge i j →
        j ∈ before ∨ t.isObjectAt i = true ∧ g.Linked i j) [] ps := by
  obtain ⟨groups, hm, rfl⟩ := sequence_eq_ok_iff.mp h
  have hlt : ∀ b ∈ blockNumbers g key blocks, b < blocks.length := fun b hbn =>
    List.mem_range.mp ((perm_blockNumbers hb hg hkey).mem_iff.mp hbn)
  have hstart : ∀ j, j < g.size → blockAt blocks j ∈ ([] : List Nat) → j ∈ ([] : List Nat) :=
    fun j _ hj => absurd hj List.not_mem_nil
  obtain ⟨hperm, hin⟩ :=
    inTurn_groups hb hg hlt (inTurn_blockNumbers hb hg hkey) hstart hm
  have hall : blocks.flatten.Perm (List.range g.size) :=
    (List.perm_ext_iff_of_nodup hb.nodup List.nodup_range).mpr fun i => by
      rw [hb.mem_flatten, List.mem_range]
  exact ⟨(hperm.trans (perm_blockOrder hb hg hkey).flatten).trans hall, hin⟩

/-- There is no order only when there is none inside a block. -/
theorem exists_block_of_sequence {e : PlanError} (h : t.sequence g key blocks = .error e) :
    ∃ block ∈ blocks, t.placeOrder g key block = .error e := by
  simp only [sequence] at h
  cases hm : (blockOrder g key blocks).mapM (t.placeOrder g key) with
  | ok groups => rw [hm] at h; exact absurd h (by simp [bind, Except.bind, pure, Except.pure])
  | error e' =>
      rw [hm] at h
      obtain rfl : e' = e := Except.error.inj h
      obtain ⟨block, hblock, he⟩ := exists_error_of_mapM hm
      exact ⟨block, (perm_blockOrder hb hg hkey).mem_iff.mp hblock, he⟩

/-- There is no order only if some cycle runs through no record. -/
theorem sequence_error {e : PlanError} (h : t.sequence g key blocks = .error e) :
    (∃ c, e = .circular c) ∧ ∃ i, Relation.TransGen (t.Eager g) i i := by
  obtain ⟨block, hblock, he⟩ := exists_block_of_sequence hb hg hkey h
  refine placeOrder_error (fun i hi => ?_) he
  exact (hb.mem_flatten i).mp (List.mem_flatten.mpr ⟨block, hblock, hi⟩)

/-- An order leaves no cycle that runs through no record. -/
theorem not_cyclic_of_sequence_ok {ps : List Nat} (h : t.sequence g key blocks = .ok ps) (i : Nat) :
    ¬ Relation.TransGen (t.Eager g) i i := by
  obtain ⟨hperm, hin⟩ := sequence_ok hb hg hkey h
  have hback : InTurn (fun before i => ∀ j, t.Eager g i j → j ∈ before) [] ps := by
    refine InTurn.mono ?_ hin
    intro pre i _ hi j hij
    apply (hi j hij.1).resolve_right
    intro hobj
    rw [hij.2.1] at hobj
    exact absurd hobj.1 Bool.false_ne_true
  have hmem : ∀ i, i < g.size → i ∈ ps := fun i hi => hperm.mem_iff.mpr (List.mem_range.mpr hi)
  have hlt : ∀ i j, Relation.TransGen (t.Eager g) i j → ps.idxOf j < ps.idxOf i := by
    intro i j hij
    have hn : ps.Nodup := hperm.nodup_iff.mpr List.nodup_range
    induction hij with
    | single hij => exact InTurn.idxOf_lt hn hback (hmem _ hij.1.1) hij
    | tail _ hjk ih => exact (InTurn.idxOf_lt hn hback (hmem _ hjk.1.1) hjk).trans ih
  exact fun hi => Nat.lt_irrefl _ (hlt i i hi)

end sequence

end Table

end SchemaModels
