import SchemaModels.Proofs.Plan.Agenda
import SchemaModels.Proofs.Plan.Cycle
import SchemaModels.Proofs.Plan.Sections

/-!
# The order of declarations

A plan puts the definitions into the greedy order of their references: the items are the
definitions, and the key of a definition is the rank of its section with its place in the table.
The planner comes to it by counts of blocks and by least places; which blocks are listed first,
and which places in a block, makes no difference.

* `Table.agenda`: the definitions of a table as what is to be put into an order.
* `isGreedy_sequence`: the places of a graph in the order that the planner gives them.
* `greedy_planWith`: the definitions in the order of a plan.
-/

namespace SchemaModels

namespace Table

/-! ### The order of places -/

/-- The places of a graph, as what is to be put into an order. -/
def placeAgenda (t : Table) (g : Graph) (key : Nat → Greedy.Key) : Agenda Nat where
  Item i := i < g.size
  Refers := g.Edge
  Record i := t.isObjectAt i = true
  key := key

section places
variable {t : Table} {g : Graph} {key : Nat → Greedy.Key}

theorem linked_placeAgenda_iff {i j : Nat} (hi : i < g.size) :
    (t.placeAgenda g key).Linked i j ↔ g.Linked i j := by
  have hwalk : ∀ i j, Relation.ReflTransGen (t.placeAgenda g key).Refers i j ↔
      j = i ∨ g.Reaches i j := fun _ _ => Relation.reflTransGen_iff_eq_or_transGen
  rw [Agenda.Linked, hwalk, hwalk, Graph.Linked, and_iff_right hi, eq_comm (a := i)]
  tauto

theorem placeFree_iff {items taken : List Nat} (hn : items.Nodup) (hlt : ∀ i ∈ items, i < g.size)
    {i : Nat} (hi : i < g.size) :
    placeFree g (items.diff taken) i = true ↔ ∀ j ∈ items, g.Edge i j → j ∈ taken := by
  simp only [placeFree, List.all_eq_true, Bool.not_eq_true', ← Bool.not_eq_true,
    List.contains_iff_mem, hn.mem_sdiff_iff, not_and, not_not]
  constructor
  · exact fun h j hj hij => h j hij.2.2 hj
  · exact fun h j hij hj => h j hj ⟨hi, hlt j hj, hij⟩

section block
variable {block : List Nat} (hn : block.Nodup) (hkey : ∀ i j, key i = key j → i = j)
include hn hkey

/-- The records of a block in the order of their keys. -/
theorem pairwise_records :
    (Greedy.order key (fun _ _ => true) (block.filter t.isObjectAt)).1.Pairwise
      fun i j => Greedy.before (key i) (key j) = true := by
  have hperm : (Greedy.order key (fun _ _ => true) (block.filter t.isObjectAt)).1.Perm
      (block.filter t.isObjectAt) := perm_records
  have hnodup := hperm.nodup_iff.mpr (hn.filter _)
  refine InTurn.pairwise (Greedy.inTurn_order_before key (fun _ _ => true) (hn.filter _)
    fun i _ j _ => hkey i j) ?_
  intro pre i post he h j hj
  rw [he] at hnodup hperm
  have hjmem : j ∈ block.filter t.isObjectAt :=
    hperm.mem_iff.mp (List.mem_append_right pre (List.mem_cons_of_mem i hj))
  obtain ⟨_, hpost, hdisjoint⟩ := List.nodup_append.mp hnodup
  refine h.2 j hjmem (fun hpre => ?_) rfl fun hji => ?_
  · exact hdisjoint j hpre j (List.mem_cons_of_mem i hj) rfl
  · exact (List.nodup_cons.mp hpost).1 (hji ▸ hj)

variable (hlt : ∀ i ∈ block, i < g.size)
include hlt

/-- The places of a block that are no records, in the order in which they are taken. -/
theorem inTurn_others {others : List Nat}
    (hothers : (Greedy.order key (placeFree g) (block.filter fun i => !t.isObjectAt i)).1 = others)
    (hmem : ∀ i, i ∈ others ↔ i ∈ block.filter fun i => !t.isObjectAt i) :
    InTurn (fun taken i => (t.placeAgenda g key).Least
      ((t.placeAgenda g key).Open (· ∈ others) taken) i) [] others := by
  have hitems : ∀ i ∈ block.filter fun i => !t.isObjectAt i, i < g.size := fun i hi =>
    hlt i (List.mem_filter.mp hi).1
  have hturn := Greedy.inTurn_order_before key (placeFree g) (hn.filter fun i => !t.isObjectAt i)
    fun i _ j _ => hkey i j
  rw [hothers] at hturn
  refine InTurn.mono ?_ hturn
  intro taken i _ h
  rw [List.nil_append] at h ⊢
  have hopen : ∀ j, (t.placeAgenda g key).Open (· ∈ others) taken j ↔
      j ∈ (block.filter fun i => !t.isObjectAt i) ∧ j ∉ taken ∧
        placeFree g ((block.filter fun i => !t.isObjectAt i).diff taken) j = true := by
    intro j
    constructor
    · intro ho
      have hj := (hmem j).mp ho.holds
      refine ⟨hj, ho.left, (placeFree_iff (hn.filter _) hitems (hitems j hj)).mpr ?_⟩
      exact fun k hk hjk => ho.refers k ((hmem k).mpr hk) hjk
    · rintro ⟨hj, hleft, hfree⟩
      refine ⟨(hmem j).mpr hj, hleft, fun k hk hjk => ?_⟩
      exact (placeFree_iff (hn.filter _) hitems (hitems j hj)).mp hfree k ((hmem k).mp hk) hjk
  refine ⟨(hopen i).mpr h.1, fun j hj hne => ?_⟩
  obtain ⟨hj, hleft, hfree⟩ := (hopen j).mp hj
  exact h.2 j hj hleft hfree hne

theorem exists_arranged_placeOrder {ps : List Nat} (h : t.placeOrder g key block = .ok ps) :
    ∃ records others, records ++ others = ps ∧ (t.placeAgenda g key).Arranged records others := by
  simp only [placeOrder] at h
  split at h
  · rename_i hempty
    rw [Except.ok.injEq] at h
    refine ⟨_, _, h, ?_⟩
    have hrecords : (Greedy.order key (fun _ _ => true) (block.filter t.isObjectAt)).1.Perm
        (block.filter t.isObjectAt) := perm_records
    have hothers := Greedy.perm_order key (placeFree g) (block.filter fun i => !t.isObjectAt i)
    rw [List.isEmpty_iff.mp hempty, List.append_nil] at hothers
    refine ⟨?_, ?_, pairwise_records hn hkey, ?_⟩
    · intro i hi
      exact (List.mem_filter.mp (hrecords.mem_iff.mp hi)).2
    · intro i hi hobj
      have hother := (List.mem_filter.mp (hothers.mem_iff.mp hi)).2
      rw [show t.isObjectAt i = true from hobj] at hother
      exact Bool.false_ne_true hother
    · exact inTurn_others hn hkey hlt rfl fun i => hothers.mem_iff
  · exact absurd h (by simp)

end block

/-! ### The order of blocks -/

section blocks
variable {blocks : List (List Nat)} (hb : g.IsComponents blocks) (hg : g.Proper)
include hb hg

/-- A component is ready when the blocks that its edges lead to are taken. -/
theorem ready_placeAgenda_iff {taken emitted : List Nat}
    (hemitted : ∀ j, j < g.size → (j ∈ emitted ↔ blockAt blocks j ∈ taken)) {i : Nat}
    (hi : i < g.size) :
    (t.placeAgenda g key).Ready emitted i ↔ blockAt blocks i ∉ taken ∧
      ∀ b, (blockAt blocks i, b) ∈ blockEdges g blocks → blockAt blocks i ≠ b → b ∈ taken := by
  have hlinked : ∀ j, j < g.size →
      ((t.placeAgenda g key).Linked i j ↔ blockAt blocks i = blockAt blocks j) := fun j hj => by
    rw [linked_placeAgenda_iff hi, blockAt_eq_iff hb hi hj]
  constructor
  · intro h
    refine ⟨mt (hemitted i hi).mpr h.left, fun b hedge hne => ?_⟩
    obtain ⟨j, k, hjk, hj, rfl⟩ := (mem_blockEdges hg).mp hedge
    have hij := (hlinked j hjk.1).mpr hj.symm
    rcases h.refers j k hij hjk with hk | hk
    · exact (hemitted k hjk.2.1).mp hk
    · exact absurd ((hlinked k hjk.2.1).mp hk) hne
  · rintro ⟨hleft, hedges⟩
    refine ⟨hi, mt (hemitted i hi).mp hleft, fun j k hij hjk => ?_⟩
    have hblock := (hlinked j hjk.1).mp hij
    by_cases hsame : blockAt blocks i = blockAt blocks k
    · exact .inr ((hlinked k hjk.2.1).mpr hsame)
    · have hedge : (blockAt blocks i, blockAt blocks k) ∈ blockEdges g blocks :=
        (mem_blockEdges hg).mpr ⟨j, k, hjk, hblock.symm, rfl⟩
      exact .inl ((hemitted k hjk.2.1).mpr (hedges _ hedge hsame))

variable (hkey : ∀ i j, key i = key j → i = j)
include hkey

/-- The block that is taken holds the least place of the components that are ready. -/
theorem exists_least_block {taken emitted : List Nat} {b : Nat}
    (hemitted : ∀ j, j < g.size → (j ∈ emitted ↔ blockAt blocks j ∈ taken))
    (hlt : b < blocks.length) (hleft : b ∉ taken)
    (hfree : ∀ c, (b, c) ∈ blockEdges g blocks → b ≠ c → c ∈ taken)
    (hbefore : ∀ c < blocks.length, c ∉ taken →
      (∀ d, (c, d) ∈ blockEdges g blocks → c ≠ d → d ∈ taken) → c ≠ b →
      Greedy.before (blockKey key (blocks.getD b [])) (blockKey key (blocks.getD c [])) = true) :
    ∃ m, (t.placeAgenda g key).Least ((t.placeAgenda g key).Ready emitted) m ∧
      ∀ j, j ∈ blocks.getD b [] ↔ (t.placeAgenda g key).Linked m j := by
  obtain ⟨m, hm, hkeym, hleast⟩ := exists_blockKey key hb hlt
  have hmlt := (mem_block hb hm).2.2
  have hmb : blockAt blocks m = b := blockAt_eq hb hm
  refine ⟨m, ⟨?_, ?_⟩, fun j => ?_⟩
  · rw [ready_placeAgenda_iff hb hg hemitted hmlt, hmb]
    exact ⟨hleft, hfree⟩
  · intro i hi hne
    show Greedy.before (key m) (key i) = true
    have hilt : i < g.size := hi.item
    have hib := mem_blockAt hb hilt
    obtain ⟨hileft, hifree⟩ := (ready_placeAgenda_iff hb hg hemitted hilt).mp hi
    by_cases hsame : blockAt blocks i = b
    · -- a place of the block itself
      rw [hsame] at hib
      by_contra hnot
      have heq := Greedy.eq_of_not_before (hleast i hib) (Bool.eq_false_iff.mpr hnot)
      exact hne (hkey i m heq)
    · -- a place of another block, whose key comes later
      obtain ⟨n, _, hkeyn, hleastn⟩ := exists_blockKey key hb (mem_block hb hib).1
      have hlater := hbefore _ (mem_block hb hib).1 hileft hifree hsame
      rw [hkeym, hkeyn] at hlater
      exact Greedy.before_of_before_of_not hlater (hleastn i hib)
  · rw [linked_placeAgenda_iff hmlt]
    exact linked_iff hb hm j

/-- The places of blocks, each block in its turn. -/
theorem inTurn_next : ∀ {numbers taken : List Nat} {before groups : List (List Nat)},
    InTurn (fun taken b => (b ∈ List.range blocks.length ∧ b ∉ taken ∧
        (Condensation.ofEdges blocks.length (blockEdges g blocks)).free
          ((List.range blocks.length).diff taken) b = true) ∧
        ∀ c ∈ List.range blocks.length, c ∉ taken →
          (Condensation.ofEdges blocks.length (blockEdges g blocks)).free
            ((List.range blocks.length).diff taken) c = true → c ≠ b →
          Greedy.before (blockKey key (blocks.getD b [])) (blockKey key (blocks.getD c [])) = true)
      taken numbers →
    (∀ j, j < g.size → (j ∈ before.flatten ↔ blockAt blocks j ∈ taken)) →
    (numbers.map fun b => blocks.getD b []).mapM (t.placeOrder g key) = .ok groups →
    InTurn (fun before group => (t.placeAgenda g key).Next before.flatten group) before groups
  | [], _, _, groups, _, _, h => by
      rw [List.map_nil, List.mapM_nil] at h
      obtain rfl : [] = groups := Except.ok.inj h
      trivial
  | b :: numbers, taken, before, groups, hturn, hbefore, h => by
      rw [List.map_cons] at h
      obtain ⟨ps, rest, hps, hrest, rfl⟩ := mapM_cons_eq_ok.mp h
      obtain ⟨⟨⟨hlt, hleft, hfree⟩, hleast⟩, hturn⟩ := hturn
      rw [List.mem_range] at hlt
      rw [free_iff_blockEdges hb hg] at hfree
      have hblock : blocks.getD b [] ∈ blocks := by
        rw [List.getD_eq_getElem _ _ hlt]
        exact List.getElem_mem hlt
      have hn : (blocks.getD b []).Nodup := (List.nodup_flatten.mp hb.nodup).1 _ hblock
      have hperm := (placeOrder_ok hn hps).1
      refine ⟨⟨?_, ?_⟩, inTurn_next hturn ?_ hrest⟩
      · simp only [hperm.mem_iff]
        refine exists_least_block hb hg hkey hbefore hlt hleft hfree fun c hc hct hcfree => ?_
        exact hleast c (List.mem_range.mpr hc) hct ((free_iff_blockEdges hb hg).mpr hcfree)
      · exact exists_arranged_placeOrder hn hkey (fun i hi => (mem_block hb hi).2.2) hps
      · intro j hj
        have hjb : j ∈ blocks.getD b [] ↔ blockAt blocks j = b :=
          ⟨blockAt_eq hb, fun he => he ▸ mem_blockAt hb hj⟩
        rw [List.flatten_append, List.flatten_singleton, List.mem_append, List.mem_append,
          List.mem_singleton, hperm.mem_iff, hbefore j hj, hjb]

/-- The planner gives the places of a graph in the greedy order. -/
theorem isGreedy_sequence {ps : List Nat} (h : t.sequence g key blocks = .ok ps) :
    (t.placeAgenda g key).IsGreedy ps := by
  have hperm := (sequence_ok hb hg hkey h).1
  refine ⟨hperm.nodup_iff.mpr List.nodup_range, fun i => ?_, ?_⟩
  · rw [hperm.mem_iff, List.mem_range]
    exact Iff.rfl
  · obtain ⟨groups, hgroups, rfl⟩ := sequence_eq_ok_iff.mp h
    have hturn := Greedy.inTurn_order_before (fun b => blockKey key (blocks.getD b []))
      (Condensation.ofEdges blocks.length (blockEdges g blocks)).free
      (List.nodup_range (n := blocks.length)) fun a ha b hlt =>
        blockKey_injective hb hkey (List.mem_range.mp ha) (List.mem_range.mp hlt)
    rw [← blockNumbers_eq_greedy hb hg hkey] at hturn
    refine ⟨groups, rfl, inTurn_next hb hg hkey hturn (fun j _ => ?_) hgroups⟩
    simp

end blocks

end places

/-! ### The order of definitions -/

/-- The key of a definition: the rank of its section, then its place in the table. -/
noncomputable def keyOf (t : Table) (order : SectionOrder) (name : String) : Greedy.Key :=
  (((t.get? name).map fun d => order.rank (t.sectionFor d).1).getD 0, (t.index? name).getD 0)

/-- The definitions of a table, as what is to be put into an order. -/
noncomputable def agenda (t : Table) (order : SectionOrder) : Agenda String where
  Item name := name ∈ t.names
  Refers := t.Refers
  Record name := ∃ d, t.get? name = some d ∧ d.isObject = true
  key := t.keyOf order

section agenda
variable {t : Table} {order : SectionOrder}

theorem getD_keys {i : Nat} {d : Definition} (hd : t.definitions[i]? = some d) :
    (keys order t.allSections).getD i (0, i) = t.keyOf order d.name := by
  have hget : t.get? d.name = some d := get?_eq_some_iff.mpr ⟨List.mem_of_getElem? hd, rfl⟩
  have hindex : t.index? d.name = some i := index?_eq_some_iff.mpr ⟨d, hd, rfl⟩
  have hsection : t.allSections[i]? = some (t.sectionFor d) := by
    rw [allSections_eq_map, List.getElem?_map, hd, Option.map_some]
  rw [List.getD_eq_getElem?_getD, keys, List.getElem?_mapIdx, hsection, keyOf, hget, hindex]
  rfl

theorem exists_definition_of_lt {i : Nat} (h : i < t.graph.size) :
    ∃ d, t.definitions[i]? = some d ∧ t.names.getD i "" = d.name := by
  rw [size_graph] at h
  have hd := List.getElem?_eq_getElem h
  exact ⟨_, hd, getD_names hd⟩

/-- The definitions stand for their places. -/
theorem isCopy_agenda (hres : t.Resolved) :
    (t.placeAgenda t.graph fun i => (keys order t.allSections).getD i (0, i)).IsCopy
      (t.agenda order) fun i => t.names.getD i "" where
  item_iff name := by
    constructor
    · intro hname
      obtain ⟨i, d, _, hd, rfl⟩ := exists_index? hname
      exact ⟨i, (List.getElem?_eq_some_iff.mp hd).1, getD_names hd⟩
    · rintro ⟨i, hi, rfl⟩
      obtain ⟨d, hd, hname⟩ := exists_definition_of_lt hi
      exact hname ▸ List.mem_map_of_mem (List.mem_of_getElem? hd)
  injective _ _ hi hj hname := getD_names_injective hi hj hname
  item_of_refers _ _ hij := ⟨hij.1, hij.2.1⟩
  item_of_refers' := by
    rintro _ b ⟨d, hd, rfl, hb⟩
    exact ⟨List.mem_map_of_mem hd, hres d hd b hb⟩
  refers_iff i j hi hj := by
    obtain ⟨d, hd, hdn⟩ := exists_definition_of_lt hi
    obtain ⟨e, he, hen⟩ := exists_definition_of_lt hj
    simp only [hdn, hen]
    exact (edge_iff_refers hd he).symm
  record_iff i hi := by
    obtain ⟨d, hd, hdn⟩ := exists_definition_of_lt hi
    have hget : t.get? d.name = some d := get?_eq_some_iff.mpr ⟨List.mem_of_getElem? hd, rfl⟩
    simp only [agenda, placeAgenda, hdn, hget, Option.some.injEq, exists_eq_left',
      isObjectAt_eq hd]
  key_eq i hi := by
    obtain ⟨d, hd, hdn⟩ := exists_definition_of_lt hi
    simp only [agenda, placeAgenda, hdn, getD_keys hd]

variable {blocks : List (List Nat)} {plan : Plan}

/-- A plan gives the definitions in the greedy order. -/
theorem isGreedy_plan (hb : t.graph.IsComponents blocks)
    (h : t.planWith blocks order = .ok plan) :
    (t.agenda order).IsGreedy (plan.map Planned.name) := by
  obtain ⟨hres, _, ps, hps, rfl⟩ := planWith_eq_ok_iff.mp h
  have hlt : ∀ i ∈ ps, i < t.definitions.length := fun i hi =>
    List.mem_range.mp ((places_ok hb hps).1.mem_iff.mp hi)
  rw [map_name_plannedAfter, namesAt_eq_map hlt]
  have hgreedy := isGreedy_sequence hb proper_graph (getD_keys_injective order _) hps
  exact hgreedy.map (isCopy_agenda hres)

/-- The plan is the same for all lists of the components. -/
theorem planWith_congr {blocks' : List (List Nat)} (hb : t.graph.IsComponents blocks)
    (hb' : t.graph.IsComponents blocks') (h : t.planWith blocks order = .ok plan) :
    t.planWith blocks' order = .ok plan := by
  have hplan := (exists_planWith_iff hb order).mp ⟨plan, h⟩
  obtain ⟨plan', h'⟩ := (exists_planWith_iff hb' order).mpr hplan
  obtain ⟨_, _, ps, hps, rfl⟩ := planWith_eq_ok_iff.mp h
  obtain ⟨_, _, ps', hps', rfl⟩ := planWith_eq_ok_iff.mp h'
  have hgreedy := isGreedy_sequence hb proper_graph (getD_keys_injective order _) hps
  have hgreedy' := isGreedy_sequence hb' proper_graph (getD_keys_injective order _) hps'
  rw [hgreedy.unique hgreedy', h']

/-- A plan gives the definitions in the greedy order, whatever the order in which the components
are listed. Without cycles, each definition is the least of those that refer to nothing left. -/
theorem greedy_planWith (hb : t.graph.IsComponents blocks)
    (h : t.planWith blocks order = .ok plan) :
    (t.agenda order).IsGreedy (plan.map Planned.name) ∧
      (∀ blocks', t.graph.IsComponents blocks' → t.planWith blocks' order = .ok plan) ∧
      ((∀ name, ¬ t.Reaches name name) →
        InTurn (fun declared name =>
          (t.agenda order).Least ((t.agenda order).Open (· ∈ t.names) declared) name)
          [] (plan.map Planned.name)) := by
  have hgreedy := isGreedy_plan hb h
  refine ⟨hgreedy, fun blocks' hb' => planWith_congr hb hb' h, fun hacyclic => ?_⟩
  obtain ⟨hres, _⟩ := planWith_eq_ok_iff.mp h
  exact hgreedy.inTurn_open hacyclic fun a b hab => ((isCopy_agenda hres).item_of_refers' a b hab).2

end agenda

/-- Components that are texts only, which refer to nothing. -/
def texts : Table where
  root := {}
  definitions :=
    [⟨"UIComponent", none, .union ["Text"] none⟩,
     ⟨"Text", none, .object (Record.empty.insert "style" { shape := .reference "Style" })⟩,
     ⟨"UIMetadata", none, .object Record.empty⟩,
     ⟨"Style", none, .enum ["plain", "bold"]⟩]
  names_nodup := by decide

theorem greedy_planWith_examples :
    (∃ plan, cards.planWith cards.blocks {} = .ok plan ∧
      plan.map Planned.name = ["Text", "Card", "UIComponent", "UIMetadata"] ∧
      (cards.agenda {}).IsGreedy (plan.map Planned.name) ∧
      ∀ blocks, cards.graph.IsComponents blocks → cards.planWith blocks {} = .ok plan) ∧
    ∃ plan, texts.planWith texts.blocks {} = .ok plan ∧
      plan.map Planned.name = ["Style", "Text", "UIComponent", "UIMetadata"] ∧
      InTurn (fun declared name =>
        (texts.agenda {}).Least ((texts.agenda {}).Open (· ∈ texts.names) declared) name)
        [] (plan.map Planned.name) := by
  constructor
  · have h : cards.planWith cards.blocks {} = .ok _ := rfl
    have hgreedy := greedy_planWith isComponents_blocks h
    exact ⟨_, h, rfl, hgreedy.1, hgreedy.2.1⟩
  · have h : texts.planWith texts.blocks {} = .ok _ := rfl
    have hgreedy := greedy_planWith isComponents_blocks h
    have hacyclic : ∀ i < texts.definitions.length, i ∉ texts.graph.reachTable.getD i [] := by
      decide
    exact ⟨_, h, rfl, hgreedy.2.2 (not_reaches_self hacyclic)⟩

end Table

end SchemaModels
