import Mathlib.Data.Finset.Card
import Mathlib.Data.List.Nodup
import Mathlib.Logic.Relation
import SchemaModels.Plan.Graph

/-!
# Reachability

A node reaches another one when one edge or more lead from it to the other. Growing a set of nodes
round by round adds a node a round until nothing is missing, so as many rounds as there are nodes
are enough.

* `mem_reach`: the nodes found by growth from the edges of a node are those that it reaches.
* `IsComponents`: blocks of nodes, each holding exactly the nodes that reach each other.
* `isComponents_components`: the classes computed from the nodes reached are such blocks.
-/

namespace SchemaModels.Graph
variable (g : Graph)

/-- An edge between two nodes. -/
def Edge (i j : Nat) : Prop := i < g.size ∧ j < g.size ∧ j ∈ g.next i

/-- What nodes lead to are nodes. -/
def Proper : Prop := ∀ i, i < g.size → ∀ j ∈ g.next i, j < g.size

/-- A walk of one edge or more. -/
def Reaches : Nat → Nat → Prop := Relation.TransGen g.Edge

variable {g}

theorem Reaches.lt_right {i j : Nat} (h : g.Reaches i j) : j < g.size := by
  obtain ⟨k, _, hk⟩ := Relation.TransGen.tail'_iff.mp h
  exact hk.2.1

variable (g)

/-! ### Growth -/

/-- No edge leads out of a set of nodes. -/
def Closed (seen : List Nat) : Prop := ∀ i ∈ seen, ∀ j, g.Edge i j → j ∈ seen

theorem lt_of_mem_grow {seen : List Nat} {j : Nat} (h : j ∈ g.grow seen) : j < g.size :=
  (g.mem_grow.mp h).1

theorem subset_grow {seen : List Nat} (hs : ∀ i ∈ seen, i < g.size) : seen ⊆ g.grow seen :=
  fun i hi => g.mem_grow.mpr ⟨hs i hi, .inl hi⟩

theorem mem_grow_of_edge {seen : List Nat} {i j : Nat} (hi : i ∈ seen) (h : g.Edge i j) :
    j ∈ g.grow seen :=
  g.mem_grow.mpr ⟨h.2.1, .inr ⟨i, hi, h.2.2⟩⟩

/-- Growth depends on the members of a set only. -/
theorem grow_congr {xs ys : List Nat} (h : ∀ i, i ∈ xs ↔ i ∈ ys) : g.grow xs = g.grow ys := by
  unfold grow
  apply List.filter_congr
  intro j _
  rw [Bool.eq_iff_iff]
  simp only [leadsTo, Bool.or_eq_true, List.contains_iff_mem, List.any_eq_true, h]

theorem closure_of_grow_eq {seen : List Nat} (h : g.grow seen = seen) :
    ∀ rounds, g.closure rounds seen = seen
  | 0 => rfl
  | rounds + 1 => by simp [closure, h]

theorem subset_closure : ∀ (rounds : Nat) (seen : List Nat), (∀ i ∈ seen, i < g.size) →
    seen ⊆ g.closure rounds seen
  | 0, _, _ => List.Subset.refl _
  | rounds + 1, seen, hs => by
      unfold closure
      by_cases h : g.grow seen = seen
      · simp [h]
      · simp only [if_neg h]
        have hlt : ∀ i ∈ g.grow seen, i < g.size := fun i hi => g.lt_of_mem_grow hi
        exact List.Subset.trans (g.subset_grow hs) (subset_closure rounds _ hlt)

/-- A set is closed after as many rounds as it lacks nodes. -/
theorem closed_closure : ∀ (rounds : Nat) (seen : List Nat), (∀ i ∈ seen, i < g.size) →
    g.size ≤ rounds + seen.toFinset.card → g.Closed (g.closure rounds seen)
  | 0, seen, hs, hcard => by
      have hsub : seen.toFinset ⊆ Finset.range g.size := fun i hi =>
        Finset.mem_range.mpr (hs i (List.mem_toFinset.mp hi))
      have hall : seen.toFinset = Finset.range g.size :=
        Finset.eq_of_subset_of_card_le hsub (by rw [Finset.card_range]; omega)
      intro i _ j hij
      exact List.mem_toFinset.mp (hall ▸ Finset.mem_range.mpr hij.2.1)
  | rounds + 1, seen, hs, hcard => by
      unfold closure
      by_cases h : g.grow seen = seen
      · simp only [if_pos h]
        exact fun i hi j hij => h ▸ g.mem_grow_of_edge hi hij
      · simp only [if_neg h]
        have hlt : ∀ i ∈ g.grow seen, i < g.size := fun i hi => g.lt_of_mem_grow hi
        have hsub : seen.toFinset ⊆ (g.grow seen).toFinset := by
          intro i hi
          rw [List.mem_toFinset] at hi ⊢
          exact g.subset_grow hs hi
        rcases hsub.eq_or_ssubset with he | hss
        · -- the round only put the nodes into order: the next one changes nothing
          have hmem : ∀ i, i ∈ g.grow seen ↔ i ∈ seen := fun i => by
            rw [← List.mem_toFinset, ← he, List.mem_toFinset]
          have hfix : g.grow (g.grow seen) = g.grow seen := g.grow_congr hmem
          rw [g.closure_of_grow_eq hfix]
          exact fun i hi j hij => g.mem_grow_of_edge ((hmem i).mp hi) hij
        · have := Finset.card_lt_card hss
          exact closed_closure rounds _ hlt (by omega)

/-- Growth finds nothing but what is reached. -/
theorem reaches_of_mem_closure : ∀ (rounds : Nat) (seen : List Nat), (∀ i ∈ seen, i < g.size) →
    ∀ j ∈ g.closure rounds seen, j ∈ seen ∨ ∃ i ∈ seen, g.Reaches i j
  | 0, _, _, _, hj => .inl hj
  | rounds + 1, seen, hs, j, hj => by
      unfold closure at hj
      by_cases h : g.grow seen = seen
      · simp only [if_pos h] at hj
        exact .inl hj
      · simp only [if_neg h] at hj
        have hstep : ∀ k ∈ g.grow seen, k ∈ seen ∨ ∃ i ∈ seen, g.Edge i k := by
          intro k hk
          obtain ⟨hlt, hk | ⟨i, hi, hik⟩⟩ := g.mem_grow.mp hk
          · exact .inl hk
          · exact .inr ⟨i, hi, hs i hi, hlt, hik⟩
        rcases reaches_of_mem_closure rounds _ (fun i hi => g.lt_of_mem_grow hi) j hj with
          hj | ⟨k, hk, hkj⟩
        · exact (hstep j hj).imp_right fun ⟨i, hi, hij⟩ => ⟨i, hi, .single hij⟩
        · rcases hstep k hk with hk | ⟨i, hi, hik⟩
          · exact .inr ⟨k, hk, hkj⟩
          · exact .inr ⟨i, hi, .head hik hkj⟩

/-- The nodes found from a node are those that it reaches. -/
theorem mem_reach {i j : Nat} (hi : i < g.size) : j ∈ g.reach i ↔ g.Reaches i j := by
  have hseen : ∀ k, k ∈ g.nodes.filter (fun k => (g.next i).contains k) ↔ g.Edge i k := fun k => by
    simp [nodes, Edge, hi]
  have hs : ∀ k ∈ g.nodes.filter (fun k => (g.next i).contains k), k < g.size := fun k hk =>
    ((hseen k).mp hk).2.1
  constructor
  · intro h
    rcases g.reaches_of_mem_closure _ _ hs j h with hj | ⟨k, hk, hkj⟩
    · exact .single ((hseen j).mp hj)
    · exact .head ((hseen k).mp hk) hkj
  · intro h
    induction h with
    | single hij => exact g.subset_closure _ _ hs ((hseen _).mpr hij)
    | tail _ hkj ih => exact g.closed_closure _ _ hs (by omega) _ ih _ hkj

theorem getD_reachTable {i : Nat} (hi : i < g.size) : g.reachTable.getD i [] = g.reach i := by
  simp [reachTable, nodes, List.getD_eq_getElem?_getD, hi]

/-! ### Components -/

/-- Two nodes of one component: the same, or each reaches the other. -/
def Linked (i j : Nat) : Prop := i < g.size ∧ (j = i ∨ g.Reaches i j ∧ g.Reaches j i)

/-- Blocks that hold every node once, each block exactly the nodes of one component. -/
structure IsComponents (blocks : List (List Nat)) : Prop where
  nodup : blocks.flatten.Nodup
  mem_flatten : ∀ i, i ∈ blocks.flatten ↔ i < g.size
  ne_nil : ∀ b ∈ blocks, b ≠ []
  linked : ∀ b ∈ blocks, ∀ i ∈ b, ∀ j, j ∈ b ↔ g.Linked i j

variable {g}

theorem Linked.lt_right {i j : Nat} (h : g.Linked i j) : j < g.size := by
  obtain ⟨hi, rfl | ⟨hij, _⟩⟩ := h
  · exact hi
  · exact hij.lt_right

theorem Linked.refl {i : Nat} (hi : i < g.size) : g.Linked i i := ⟨hi, .inl rfl⟩

theorem Linked.symm {i j : Nat} (h : g.Linked i j) : g.Linked j i := by
  refine ⟨h.lt_right, ?_⟩
  rcases h.2 with rfl | ⟨hij, hji⟩
  · exact .inl rfl
  · exact .inr ⟨hji, hij⟩

theorem Linked.trans {i j k : Nat} (h : g.Linked i j) (h' : g.Linked j k) : g.Linked i k := by
  refine ⟨h.1, ?_⟩
  rcases h.2 with rfl | ⟨hij, hji⟩
  · exact h'.2
  · rcases h'.2 with rfl | ⟨hjk, hkj⟩
    · exact .inr ⟨hij, hji⟩
    · exact .inr ⟨hij.trans hjk, hkj.trans hji⟩

variable (g)

section components
variable {reached : Nat → List Nat}

theorem mem_components {b : List Nat} :
    b ∈ g.components reached ↔
      ∃ i, i < g.size ∧ (g.component reached i).head? = some i ∧ g.component reached i = b := by
  simp [components, nodes, and_assoc]

variable (hr : ∀ i, i < g.size → ∀ j, j ∈ reached i ↔ g.Reaches i j)
include hr

theorem mem_component {i j : Nat} (hi : i < g.size) :
    j ∈ g.component reached i ↔ g.Linked i j := by
  simp only [component, nodes, List.mem_filter, List.mem_range, Bool.or_eq_true,
    decide_eq_true_eq, Bool.and_eq_true, List.contains_iff_mem]
  constructor
  · rintro ⟨hj, h | ⟨hij, hji⟩⟩
    · exact ⟨hi, .inl h⟩
    · exact ⟨hi, .inr ⟨(hr i hi j).mp hij, (hr j hj i).mp hji⟩⟩
  · intro h
    refine ⟨h.lt_right, ?_⟩
    rcases h.2 with he | ⟨hij, hji⟩
    · exact .inl he
    · exact .inr ⟨(hr i hi j).mpr hij, (hr j h.lt_right i).mpr hji⟩

/-- Linked nodes have one component, as a list. -/
theorem component_eq {i j : Nat} (h : g.Linked i j) :
    g.component reached i = g.component reached j := by
  have hmem : ∀ k, k ∈ g.component reached i ↔ k ∈ g.component reached j := fun k => by
    rw [g.mem_component hr h.1, g.mem_component hr h.lt_right]
    exact ⟨h.symm.trans, h.trans⟩
  apply List.filter_congr
  intro k hk
  have := hmem k
  simp only [component, List.mem_filter, hk, true_and] at this
  rwa [Bool.eq_iff_iff]

theorem isComponents_components : g.IsComponents (g.components reached) where
  nodup := by
    refine List.nodup_flatten.mpr ⟨fun b hb => ?_, ?_⟩
    · obtain ⟨i, _, _, rfl⟩ := g.mem_components.mp hb
      exact List.nodup_range.filter _
    · refine List.pairwise_map.mpr (List.Pairwise.imp_of_mem ?_ (List.nodup_range.filter _))
      intro i j hi hj hne k hki hkj
      simp only [List.mem_filter, nodes, List.mem_range, decide_eq_true_eq] at hi hj
      have hij : g.Linked i j :=
        ((g.mem_component hr hi.1).mp hki).trans ((g.mem_component hr hj.1).mp hkj).symm
      have he := hi.2
      rw [g.component_eq hr hij, hj.2] at he
      exact hne (Option.some.inj he).symm
  mem_flatten i := by
    rw [List.mem_flatten]
    constructor
    · rintro ⟨b, hb, hib⟩
      obtain ⟨k, hk, _, rfl⟩ := g.mem_components.mp hb
      exact ((g.mem_component hr hk).mp hib).lt_right
    · intro hi
      have hself : i ∈ g.component reached i := (g.mem_component hr hi).mpr (.refl hi)
      -- the head of the component of `i` stands for it
      cases hc : g.component reached i with
      | nil => rw [hc] at hself; exact absurd hself List.not_mem_nil
      | cons h rest =>
          have hh : g.Linked i h := (g.mem_component hr hi).mp (hc ▸ List.mem_cons_self)
          have he := g.component_eq hr hh
          refine ⟨g.component reached h, g.mem_components.mpr ⟨h, hh.lt_right, ?_, rfl⟩, ?_⟩
          · rw [← he, hc]; rfl
          · rw [← he]; exact hself
  ne_nil b hb := by
    obtain ⟨i, hi, _, rfl⟩ := g.mem_components.mp hb
    exact List.ne_nil_of_mem ((g.mem_component hr hi).mpr (.refl hi))
  linked b hb i hib j := by
    obtain ⟨k, hk, _, rfl⟩ := g.mem_components.mp hb
    have hki := (g.mem_component hr hk).mp hib
    rw [g.mem_component hr hk]
    exact ⟨hki.symm.trans, hki.trans⟩

end components

end SchemaModels.Graph
