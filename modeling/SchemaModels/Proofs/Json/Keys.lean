import SchemaModels.Json.Reader
import SchemaModels.Proofs.Json.Parts

/-!
# Keys of what is read

A text may write a key more than once, but the value of a text has each key of an object once.

* `distinct_array`, `distinct_object`: no key is repeated when the items and entries repeat none.
* `distinct_of_ofText?`: the value of a text repeats no key.
-/

namespace SchemaModels.Json

/-! ### Values -/

theorem distinct_of_scalar {v : Json} (h : v.parts = [v]) (hk : v.keys = []) : v.Distinct := by
  intro w hw
  rw [h, List.mem_singleton] at hw
  rw [hw, hk]
  exact List.nodup_nil

theorem distinct_array {items : List Json} :
    (array items).Distinct ↔ ∀ v ∈ items, v.Distinct := by
  refine ⟨fun h v hv => h.of_mem_parts (mem_parts_of_mem hv), fun h w hw => ?_⟩
  rcases mem_parts_array.mp hw with rfl | ⟨v, hv, hw⟩
  · exact List.nodup_nil
  · exact h v hv w hw

theorem distinct_object {entries : Entries} : (object entries).Distinct ↔
    (entries.map Prod.fst).Nodup ∧ ∀ e ∈ entries, e.2.Distinct := by
  refine ⟨fun h => ⟨h.nodup, fun e he => h.of_mem_parts (mem_parts_of_entry he)⟩, fun h w hw => ?_⟩
  rcases mem_parts_object.mp hw with rfl | ⟨e, he, hw⟩
  · exact h.1
  · exact h.2 e he w hw

/-- Entries that are put in one by one repeat no key. -/
theorem distinct_foldl_put : ∀ {written entries : Entries}, (object entries).Distinct →
    (∀ e ∈ written, e.2.Distinct) →
    (object (written.foldl (fun es e => Entries.put es e.1 e.2) entries)).Distinct
  | [], _, h, _ => h
  | (key, v) :: written, entries, h, hw => by
      obtain ⟨hv, hw⟩ := List.forall_mem_cons.mp hw
      obtain ⟨hn, he⟩ := distinct_object.mp h
      have hput : (object (Entries.put entries key v)).Distinct := by
        refine distinct_object.mpr ⟨Keyed.nodup_upsert Prod.fst _ _ hn, fun e hmem => ?_⟩
        rcases Keyed.mem_of_mem_upsert Prod.fst hmem with rfl | hmem
        · exact hv
        · exact he e hmem
      rw [List.foldl_cons]
      exact distinct_foldl_put hput hw

theorem put_of_not_mem {key : String} (v : Json) : ∀ {entries : Entries},
    key ∉ entries.map Prod.fst → Entries.put entries key v = entries ++ [(key, v)]
  | [], _ => rfl
  | e :: entries, h => by
      obtain ⟨hne, h⟩ := not_or.mp fun hm => h (List.mem_cons.mpr hm)
      have ih := put_of_not_mem v h
      rw [Entries.put] at ih ⊢
      rw [Keyed.upsert, if_neg (Ne.symm hne), ih, List.cons_append]

/-- Entries that repeat no key are put in as they are. -/
theorem foldl_put_of_nodup : ∀ {written entries : Entries},
    ((entries ++ written).map Prod.fst).Nodup →
    written.foldl (fun es e => Entries.put es e.1 e.2) entries = entries ++ written
  | [], entries, _ => (List.append_nil entries).symm
  | (key, v) :: written, entries, h => by
      have hkey : key ∉ entries.map Prod.fst := by
        rw [List.map_append, List.nodup_append] at h
        exact fun hm => h.2.2 key hm key List.mem_cons_self rfl
      rw [List.append_cons] at h
      rw [List.foldl_cons, put_of_not_mem v hkey, foldl_put_of_nodup h, ← List.append_cons]

/-! ### Reading -/

section containers
variable {item : List Char → Option (Json × List Char)}
  (h : ∀ s v rest, item s = some (v, rest) → v.Distinct)
include h

theorem distinct_of_readItems : ∀ {n : Nat} {s rest : List Char} {items : List Json},
    readItems item n s = some (items, rest) → ∀ v ∈ items, v.Distinct
  | 0, _, _, _, hr => by cases hr
  | n + 1, s, rest, items, hr => by
      simp only [readItems, Option.bind_eq_bind, Option.bind_eq_some_iff] at hr
      obtain ⟨⟨v, s'⟩, hv, ⟨more, s''⟩, _, hr⟩ := hr
      cases more with
      | false =>
          obtain ⟨rfl, _⟩ := Prod.mk.inj (Option.some.inj hr)
          exact List.forall_mem_singleton.mpr (h _ _ _ hv)
      | true =>
          simp only [if_true, Option.bind_eq_some_iff] at hr
          obtain ⟨⟨vs, _⟩, hvs, hr⟩ := hr
          obtain ⟨rfl, _⟩ := Prod.mk.inj (Option.some.inj hr)
          exact List.forall_mem_cons.mpr ⟨h _ _ _ hv, distinct_of_readItems hvs⟩

theorem distinct_of_readEntry {s rest : List Char} {e : String × Json}
    (hr : readEntry item s = some (e, rest)) : e.2.Distinct := by
  simp only [readEntry, Option.bind_eq_bind, Option.bind_eq_some_iff] at hr
  obtain ⟨⟨key, s'⟩, _, hr⟩ := hr
  dsimp only at hr
  split at hr
  · simp only [Option.bind_eq_some_iff] at hr
    obtain ⟨⟨v, s''⟩, hv, hr⟩ := hr
    obtain ⟨rfl, _⟩ := Prod.mk.inj (Option.some.inj hr)
    exact h _ _ _ hv
  · cases hr

theorem distinct_of_readEntries : ∀ {n : Nat} {s rest : List Char} {entries : Entries},
    readEntries item n s = some (entries, rest) → ∀ e ∈ entries, e.2.Distinct
  | 0, _, _, _, hr => by cases hr
  | n + 1, s, rest, items, hr => by
      simp only [readEntries, Option.bind_eq_bind, Option.bind_eq_some_iff] at hr
      obtain ⟨⟨e, s'⟩, he, ⟨more, s''⟩, _, hr⟩ := hr
      cases more with
      | false =>
          obtain ⟨rfl, _⟩ := Prod.mk.inj (Option.some.inj hr)
          exact List.forall_mem_singleton.mpr (distinct_of_readEntry h he)
      | true =>
          simp only [if_true, Option.bind_eq_some_iff] at hr
          obtain ⟨⟨es, _⟩, hes, hr⟩ := hr
          obtain ⟨rfl, _⟩ := Prod.mk.inj (Option.some.inj hr)
          exact List.forall_mem_cons.mpr ⟨distinct_of_readEntry h he, distinct_of_readEntries hes⟩

theorem distinct_of_readArray {s rest : List Char} {v : Json}
    (hr : readArray item s = some (v, rest)) : v.Distinct := by
  unfold readArray at hr
  split at hr
  · obtain ⟨rfl, _⟩ := Prod.mk.inj (Option.some.inj hr)
    exact distinct_array.mpr (by simp)
  · obtain ⟨⟨items, _⟩, hitems, hr⟩ := Option.map_eq_some_iff.mp hr
    obtain ⟨rfl, _⟩ := Prod.mk.inj hr
    exact distinct_array.mpr (distinct_of_readItems h hitems)

theorem distinct_of_readObject {s rest : List Char} {v : Json}
    (hr : readObject item s = some (v, rest)) : v.Distinct := by
  have hempty : (object []).Distinct := by decide
  unfold readObject at hr
  split at hr
  · obtain ⟨rfl, _⟩ := Prod.mk.inj (Option.some.inj hr)
    exact hempty
  · obtain ⟨⟨written, _⟩, hwritten, hr⟩ := Option.map_eq_some_iff.mp hr
    obtain ⟨rfl, _⟩ := Prod.mk.inj hr
    exact distinct_foldl_put hempty (distinct_of_readEntries h hwritten)

end containers

theorem distinct_of_readWord {word s rest : List Char} {value v : Json} (hd : value.Distinct)
    (hr : readWord word value s = some (v, rest)) : v.Distinct := by
  unfold readWord at hr
  split at hr
  · obtain ⟨rfl, _⟩ := Prod.mk.inj (Option.some.inj hr)
    exact hd
  · cases hr

theorem distinct_of_readValue : ∀ {depth : Nat} {s rest : List Char} {v : Json},
    readValue depth s = some (v, rest) → v.Distinct
  | depth, [], _, _, hr => by cases depth <;> cases hr
  | depth, c :: s, rest, v, hr => by
      rw [readValue.eq_def] at hr
      dsimp only at hr
      split at hr
      · obtain ⟨_, _, hr⟩ := Option.map_eq_some_iff.mp hr
        obtain ⟨rfl, _⟩ := Prod.mk.inj hr
        exact distinct_of_scalar rfl rfl
      split at hr
      · cases depth with
        | zero => cases hr
        | succ depth => exact distinct_of_readArray (fun _ _ _ => distinct_of_readValue) hr
      split at hr
      · cases depth with
        | zero => cases hr
        | succ depth => exact distinct_of_readObject (fun _ _ _ => distinct_of_readValue) hr
      split at hr
      · exact distinct_of_readWord (by decide) hr
      split at hr
      · exact distinct_of_readWord (by decide) hr
      split at hr
      · exact distinct_of_readWord (by decide) hr
      · obtain ⟨_, _, hr⟩ := Option.map_eq_some_iff.mp hr
        obtain ⟨rfl, _⟩ := Prod.mk.inj hr
        exact distinct_of_scalar rfl rfl

/-- The value of a text repeats no key. -/
theorem distinct_of_ofText? {text : String} {v : Json} (h : ofText? text = some v) :
    v.Distinct := by
  rw [ofText?, ofChars?] at h
  split at h
  · rename_i hr
    split at h
    · exact Option.some.inj h ▸ distinct_of_readValue hr
    · cases h
  · cases h

end SchemaModels.Json
