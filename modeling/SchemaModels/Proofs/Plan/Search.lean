import Mathlib.Data.List.Chain
import SchemaModels.Proofs.Plan.Cycle

/-!
# The cycle that is reported

When the places left of a block all refer to places that are left, the planner walks from the
first of them along one reference at a time. The walk stays among the places left, so it has to
come to a place again, and from there on it is a cycle.

* `Table.Closes`: the search, without a bound on its steps and without an end other than a cycle.
* `closes_walk`: among places that all refer to places left, the search comes to its end.
* `Closes.isLoop`: what it ends with is a cycle among these places.
* `circular_planWith`: a cycle that the planner reports is one of unions and aliases.
-/

namespace SchemaModels

/-- A list that goes along a relation and ends where it starts, with no item twice in between. -/
structure IsLoop {α : Type} (r : α → α → Prop) (loop : List α) : Prop where
  closed : ∃ first others, loop = first :: (others ++ [first]) ∧ (first :: others).Nodup
  isChain : loop.IsChain r

/-- A loop under other names. -/
theorem IsLoop.map {α β : Type} {r : α → α → Prop} {r' : β → β → Prop} {f : α → β}
    {loop : List α} (h : IsLoop r loop) (hr : ∀ a ∈ loop, ∀ b ∈ loop, r a b → r' (f a) (f b))
    (hf : ∀ a ∈ loop, ∀ b ∈ loop, f a = f b → a = b) : IsLoop r' (loop.map f) := by
  obtain ⟨first, others, rfl, hn⟩ := h.closed
  have hsub : first :: others ⊆ first :: (others ++ [first]) :=
    List.cons_subset_cons first (List.subset_append_left others [first])
  constructor
  · refine ⟨f first, others.map f, by simp, ?_⟩
    rw [← List.map_cons]
    exact hn.map_on fun a ha b hb => hf a (hsub ha) b (hsub hb)
  · rw [List.isChain_map]
    exact h.isChain.imp_of_mem_imp fun a b ha hb hab => hr a ha b hb hab

namespace Table

/-! ### The search -/

section search
variable (g : Graph) (left : List Nat)

/-- The search at a place, after a path of places with the last one first, ends with a cycle. -/
inductive Closes : List Nat → Nat → List Nat → Prop
  | again {path : List Nat} {i : Nat} : i ∈ path →
      Closes path i (path.reverse.dropWhile (· ≠ i) ++ [i])
  | step {path : List Nat} {i j : Nat} {loop : List Nat} : i ∉ path →
      (g.next i).reverse.find? left.contains = some j → Closes (i :: path) j loop →
      Closes path i loop

variable {g left}

/-- The search has one end at most. -/
theorem Closes.unique {path : List Nat} {i : Nat} {loop loop' : List Nat}
    (h : Closes g left path i loop) (h' : Closes g left path i loop') : loop = loop' := by
  induction h with
  | again hi =>
      cases h' with
      | again => rfl
      | step hnot => exact absurd hi hnot
  | step hi hj _ ih =>
      cases h' with
      | again hmem => exact absurd hmem hi
      | step _ hj' hrest =>
          obtain rfl := Option.some.inj (hj.symm.trans hj')
          exact ih hrest

theorem exists_find?_of_not_placeFree {i : Nat} (h : placeFree g left i = false) :
    ∃ j, (g.next i).reverse.find? left.contains = some j ∧ j ∈ left := by
  obtain ⟨j, hij, hj⟩ := exists_next_of_not_placeFree h
  cases hfind : (g.next i).reverse.find? left.contains with
  | none =>
      have hnone := List.find?_eq_none.mp hfind j (List.mem_reverse.mpr hij)
      exact absurd (List.contains_iff_mem.mpr hj) hnone
  | some k => exact ⟨k, rfl, List.contains_iff_mem.mp (List.find?_some hfind)⟩

/-- Among places that all refer to places left, the search ends before there are more places on
its path than places left; so the bound on its steps plays no part. -/
theorem closes_walk (hstuck : ∀ i ∈ left, placeFree g left i = false) :
    ∀ {steps : Nat} {path : List Nat} {i : Nat}, path.Nodup → path ⊆ left → i ∈ left →
      left.length < steps + path.length → Closes g left path i (walk g left steps path i)
  | 0, path, i, hn, hsub, _, hlen => by
      have hle : path.length ≤ left.length := (hn.subperm hsub).length_le
      omega
  | steps + 1, path, i, hn, hsub, hi, hlen => by
      obtain ⟨j, hfind, hj⟩ := exists_find?_of_not_placeFree (hstuck i hi)
      simp only [walk, List.contains_iff_mem, hfind]
      split
      · rename_i hmem
        exact .again hmem
      · rename_i hmem
        refine .step hmem hfind (closes_walk hstuck ?_ ?_ hj ?_)
        · exact List.nodup_cons.mpr ⟨hmem, hn⟩
        · exact List.cons_subset.mpr ⟨hi, hsub⟩
        · rw [List.length_cons]
          omega

theorem exists_dropWhile_ne {xs : List Nat} {i : Nat} (h : i ∈ xs) :
    ∃ before after, xs = before ++ i :: after ∧ xs.dropWhile (· ≠ i) = i :: after := by
  obtain ⟨before, after, rfl, hnot⟩ := List.eq_append_cons_of_mem h
  refine ⟨before, after, rfl, ?_⟩
  have hbefore : ∀ a ∈ before, decide (a ≠ i) = true := by
    intro a ha
    rw [decide_eq_true_eq]
    rintro rfl
    exact hnot ha
  rw [List.dropWhile_append_of_pos hbefore, List.dropWhile_cons_of_neg (by simp)]

/-- What the search ends with is a cycle among the places left, if the path leads to where the
search stands. -/
theorem Closes.isLoop {path : List Nat} {i : Nat} {loop : List Nat}
    (h : Closes g left path i loop) (hn : path.Nodup) (hsub : path ⊆ left) (hi : i ∈ left)
    (hchain : (path.reverse ++ [i]).IsChain fun a b => b ∈ g.next a) :
    IsLoop (fun a b => b ∈ g.next a) loop ∧ loop ⊆ left := by
  induction h with
  | @again path i hmem =>
      -- the loop starts when the search stood at the place before
      obtain ⟨before, after, hpath, hdrop⟩ := exists_dropWhile_ne (List.mem_reverse.mpr hmem)
      have hrev := List.nodup_reverse.mpr hn
      rw [hpath] at hrev hchain
      rw [List.append_assoc] at hchain
      rw [hdrop]
      refine ⟨⟨⟨i, after, rfl, (List.nodup_append.mp hrev).2.1⟩, hchain.right_of_append⟩, ?_⟩
      intro a ha
      rcases List.mem_append.mp ha with ha | ha
      · have hmem' : a ∈ path.reverse := hpath ▸ List.mem_append_right before ha
        exact hsub (List.mem_reverse.mp hmem')
      · exact List.mem_singleton.mp ha ▸ hi
  | @step path i j loop hnot hfind _ ih =>
      refine ih ?_ ?_ ?_ ?_
      · exact List.nodup_cons.mpr ⟨hnot, hn⟩
      · exact List.cons_subset.mpr ⟨hi, hsub⟩
      · exact List.contains_iff_mem.mp (List.find?_some hfind)
      · have hij : j ∈ g.next i := List.mem_reverse.mp (List.mem_of_find?_eq_some hfind)
        rw [List.reverse_cons]
        refine hchain.append (List.isChain_singleton j) ?_
        simpa using hij

end search

/-! ### Blocks that get stuck -/

section stuck
variable {t : Table} {g : Graph} {key : Nat → Greedy.Key} {block : List Nat}

/-- From every place left of a block that gets stuck, the search ends with a loop of places left,
however many steps it has. -/
theorem exists_loop_of_mem_stuck {i : Nat} (hi : i ∈ t.stuck g key block) :
    ∃ loop, Closes g (t.stuck g key block) [] i loop ∧
      (∀ steps, (t.stuck g key block).length < steps →
        walk g (t.stuck g key block) steps [] i = loop) ∧
      IsLoop (fun a b => b ∈ g.next a) loop ∧ loop ⊆ t.stuck g key block := by
  have hcloses : ∀ steps, (t.stuck g key block).length < steps →
      Closes g (t.stuck g key block) [] i (walk g (t.stuck g key block) steps [] i) := by
    intro steps hlt
    exact closes_walk (fun j hj => (mem_stuck hj).2.2) List.nodup_nil (List.nil_subset _) hi hlt
  have hend := hcloses _ (Nat.lt_succ_self _)
  refine ⟨_, hend, fun steps hlt => (hcloses steps hlt).unique hend, ?_⟩
  exact hend.isLoop List.nodup_nil (List.nil_subset _) hi (List.isChain_singleton i)

/-- What is reported of a block that gets stuck is the loop from the first place left. -/
theorem exists_closes_of_placeOrder {e : PlanError} (h : t.placeOrder g key block = .error e) :
    ∃ i loop, (t.stuck g key block).head? = some i ∧ Closes g (t.stuck g key block) [] i loop ∧
      IsLoop (fun a b => b ∈ g.next a) loop ∧ loop ⊆ t.stuck g key block ∧
      e = .circular (t.namesAt loop) := by
  obtain ⟨hne, rfl⟩ := placeOrder_eq_error_iff.mp h
  obtain ⟨i, rest, hleft⟩ := List.exists_cons_of_ne_nil hne
  have hi : i ∈ t.stuck g key block := hleft ▸ List.mem_cons_self
  obtain ⟨loop, hcloses, hsteps, hloop, hsub⟩ := exists_loop_of_mem_stuck hi
  have hcycle : cycle g (t.stuck g key block) =
      walk g (t.stuck g key block) ((t.stuck g key block).length + 1) [] i := by
    rw [hleft, cycle]
  refine ⟨i, loop, hleft ▸ rfl, hcloses, hloop, hsub, ?_⟩
  rw [hcycle, hsteps _ (Nat.lt_succ_self _)]

/-- What is left of a block are unions and aliases. -/
theorem isEager_of_mem_stuck {i : Nat} (hlt : i < t.definitions.length)
    (h : i ∈ t.stuck t.graph key block) :
    ∃ d, t.definitions[i]? = some d ∧ d.isEager = true := by
  obtain ⟨_, hobj, hnot⟩ := mem_stuck h
  obtain ⟨j, hij, _⟩ := exists_next_of_not_placeFree hnot
  obtain ⟨d, e, hd, _, hr⟩ := edge_iff.mp ⟨hlt, proper_graph i hlt j hij, hij⟩
  refine ⟨d, hd, Definition.isEager_of_mem_mentions hr ?_⟩
  rw [← isObjectAt_eq hd]
  exact hobj

/-- A loop of places by the names of the definitions. -/
theorem isLoop_namesAt {loop : List Nat} (hlt : ∀ i ∈ loop, i < t.definitions.length)
    (h : IsLoop (fun a b => b ∈ t.graph.next a) loop) : IsLoop t.Refers (t.namesAt loop) := by
  rw [namesAt_eq_map hlt]
  refine h.map (fun i hi j hj hij => ?_) fun i hi j hj => getD_names_injective (hlt i hi) (hlt j hj)
  have hd := List.getElem?_eq_getElem (hlt i hi)
  have he := List.getElem?_eq_getElem (hlt j hj)
  rw [getD_names hd, getD_names he]
  exact (edge_iff_refers hd he).mp ⟨hlt i hi, hlt j hj, hij⟩

end stuck

/-! ### What is reported -/

section reported
variable {t : Table} {blocks : List (List Nat)} {order : SectionOrder} {cycle : List String}

/-- A cycle is reported when the places have no order. -/
theorem places_of_circular (h : t.planWith blocks order = .error (.circular cycle)) :
    t.places t.allSections blocks order = .error (.circular cycle) := by
  by_cases hres : t.Resolved ∧ t.RootResolved
  · rw [planWith_of_resolved hres.1 hres.2] at h
    cases hp : t.places t.allSections blocks order with
    | ok ps =>
        rw [planBlocks_of_places hp] at h
        exact absurd h (by simp)
    | error e =>
        rw [planBlocks_of_error hp, Except.error.injEq] at h
        rw [h]
  · obtain ⟨name, owner, hp⟩ := exists_unresolved blocks order hres
    rw [hp] at h
    exact absurd h (by simp)

/-- A cycle that is reported is a loop of references between unions and aliases. Some block has
got stuck; the search ends there with a loop from every place left, however many steps it has, and
the cycle is the loop from the first one. -/
theorem circular_planWith (hb : t.graph.IsComponents blocks)
    (h : t.planWith blocks order = .error (.circular cycle)) :
    IsLoop t.Refers cycle ∧
      (∀ name ∈ cycle, ∃ d, t.get? name = some d ∧ d.isEager = true) ∧
      ∃ block ∈ blocks, ∃ left,
        left = t.stuck t.graph (fun i => (keys order t.allSections).getD i (0, i)) block ∧
        (∀ i ∈ left, ∃ loop, Closes t.graph left [] i loop ∧
          ∀ steps, left.length < steps → walk t.graph left steps [] i = loop) ∧
        ∃ i loop, left.head? = some i ∧ Closes t.graph left [] i loop ∧
          cycle = t.namesAt loop := by
  obtain ⟨block, hblock, he⟩ := exists_block_of_sequence hb proper_graph
    (getD_keys_injective order _) (places_of_circular h)
  obtain ⟨i, loop, hhead, hcloses, hloop, hsub, heq⟩ := exists_closes_of_placeOrder he
  obtain rfl : cycle = t.namesAt loop := PlanError.circular.inj heq
  have hlt : ∀ i ∈ loop, i < t.definitions.length := fun i hi =>
    (hb.mem_flatten i).mp (List.mem_flatten.mpr ⟨block, hblock, (mem_stuck (hsub hi)).1⟩)
  refine ⟨isLoop_namesAt hlt hloop, ?_, block, hblock, _, rfl, ?_, i, loop, hhead, hcloses, rfl⟩
  · intro name hname
    rw [namesAt_eq_map hlt] at hname
    obtain ⟨j, hj, rfl⟩ := List.mem_map.mp hname
    obtain ⟨d, hd, heager⟩ := isEager_of_mem_stuck (hlt j hj) (hsub hj)
    refine ⟨d, get?_eq_some_iff.mpr ⟨List.mem_of_getElem? hd, ?_⟩, heager⟩
    exact (getD_names hd).symm
  · intro j hj
    obtain ⟨loop', hcloses', hsteps, _⟩ := exists_loop_of_mem_stuck hj
    exact ⟨loop', hcloses', hsteps⟩

end reported

theorem circular_planWith_aliasLoop :
    aliasLoop.planWith aliasLoop.blocks {} = .error (.circular ["Rows", "Row", "Rows"]) ∧
      IsLoop aliasLoop.Refers ["Rows", "Row", "Rows"] ∧
      ∀ name ∈ ["Rows", "Row", "Rows"], ∃ d, aliasLoop.get? name = some d ∧ d.isEager = true :=
  have h : aliasLoop.planWith aliasLoop.blocks {} =
    .error (.circular ["Rows", "Row", "Rows"]) := rfl
  have hcircular := circular_planWith isComponents_blocks h
  ⟨h, hcircular.1, hcircular.2.1⟩

end Table

end SchemaModels
