import Mathlib.Algebra.BigOperators.Group.Finset.Basic
import Mathlib.Data.Finset.Dedup
import Mathlib.Data.Fintype.EquivFin
import Std.Data.ExtTreeMap.Lemmas
import Reshard.NodeId

/-! Finite maps entry by entry.

    A finite map is seen through its entries. Writing a list of entries, or dropping a list of keys,
    changes the entries under the listed keys only. A sum over the listing of a map is a sum over
    its keys. Nodes, the keys of most maps, are finite in number themselves. -/

namespace Reshard

instance : Finite NodeId :=
  Finite.of_injective (fun n => (⟨n.index, Nat.lt_succ_of_le n.index_le⟩ : Fin _)) fun _ _ h =>
    NodeId.ext (Fin.mk.inj h)

end Reshard

namespace Reshard.FiniteMap

variable {κ ν : Type} [Ord κ] [Std.TransOrd κ] {m : Std.ExtTreeMap κ ν} {k a : κ} {v : ν}

theorem mem_of_get (h : m[k]? = some v) : k ∈ m :=
  Std.ExtTreeMap.mem_iff_isSome_getElem?.2 (h ▸ rfl)

theorem exists_get (h : k ∈ m) : ∃ v, m[k]? = some v :=
  Option.isSome_iff_exists.1 (Std.ExtTreeMap.mem_iff_isSome_getElem?.1 h)

variable [Std.LawfulEqOrd κ] [DecidableEq κ]

theorem get_insert : (m.insert k v)[a]? = if k = a then some v else m[a]? := by
  rw [Std.ExtTreeMap.getElem?_insert]
  simp only [Std.LawfulEqOrd.compare_eq_iff_eq]

theorem get_erase : (m.erase k)[a]? = if k = a then none else m[a]? := by
  rw [Std.ExtTreeMap.getElem?_erase]
  simp only [Std.LawfulEqOrd.compare_eq_iff_eq]

/-- Dropping several keys. -/
theorem get_eraseAll {β : Type} {key : β → κ} : ∀ {l : List β} {m : Std.ExtTreeMap κ ν},
    (l.foldl (fun m b => m.erase (key b)) m)[a]? = if a ∈ l.map key then none else m[a]?
  | [], m => by simp
  | b :: l, m => by
    rw [List.foldl_cons, get_eraseAll, get_erase, List.map_cons]
    by_cases hb : key b = a
    · simp [hb]
    · simp [hb, Ne.symm hb]

/-- Writing several entries leaves the other keys alone. -/
theorem get_insertAll_of_notMem {β : Type} {key : β → κ} {value : β → ν} :
    ∀ {l : List β} {m : Std.ExtTreeMap κ ν}, a ∉ l.map key →
    (l.foldl (fun m b => m.insert (key b) (value b)) m)[a]? = m[a]?
  | [], m, _ => rfl
  | b :: l, m, h => by
    rw [List.map_cons, List.mem_cons, not_or] at h
    rw [List.foldl_cons, get_insertAll_of_notMem h.2, get_insert, if_neg fun e => h.1 e.symm]

/-- An entry that no other one contradicts is there once all are written. -/
theorem get_insertAll_of_mem {β : Type} {key : β → κ} {value : β → ν} {b : β} :
    ∀ {l : List β} {m : Std.ExtTreeMap κ ν}, (∀ c ∈ l, key c = key b → value c = value b) →
    b ∈ l → (l.foldl (fun m b => m.insert (key b) (value b)) m)[key b]? = some (value b)
  | c :: l, m, hone, hb => by
    rw [List.foldl_cons]
    by_cases hlater : key b ∈ l.map key
    · obtain ⟨d, hd, hkey⟩ := List.mem_map.1 hlater
      have hvalue := hone d (List.mem_cons_of_mem _ hd) hkey
      rw [← hkey, ← hvalue]
      refine get_insertAll_of_mem ?_ hd
      intro c hc hsame
      rw [hone c (List.mem_cons_of_mem _ hc) (hsame.trans hkey), hvalue]
    · rcases List.mem_cons.1 hb with rfl | hb
      · rw [get_insertAll_of_notMem hlater, get_insert, if_pos rfl]
      · exact absurd (List.mem_map_of_mem hb) hlater

/-- What is there once several entries are written was written or was there before. -/
theorem of_get_insertAll {β : Type} {key : β → κ} {value : β → ν} :
    ∀ {l : List β} {m : Std.ExtTreeMap κ ν},
    (l.foldl (fun m b => m.insert (key b) (value b)) m)[a]? = some v →
    (∃ b ∈ l, key b = a ∧ value b = v) ∨ m[a]? = some v
  | [], _, h => .inr h
  | b :: l, m, h => by
    rw [List.foldl_cons] at h
    rcases of_get_insertAll h with ⟨c, hc, h⟩ | h
    · exact .inl ⟨c, List.mem_cons_of_mem _ hc, h⟩
    · rw [get_insert] at h
      split at h
      next hb => exact .inl ⟨b, List.mem_cons_self, hb, Option.some.inj h⟩
      next => exact .inr h

/-- A sum over the listing is a sum over any set of keys that has them all. -/
theorem sum_toList {γ : Type} [AddCommMonoid γ] {f : κ → ν → γ} {keys : Finset κ}
    (h : ∀ k ∈ m, k ∈ keys) :
    (m.toList.map fun p => f p.1 p.2).sum = ∑ k ∈ keys, (m[k]?).elim 0 (f k) := by
  have hentry : m.toList.map (fun p => f p.1 p.2) = m.keys.map fun k => (m[k]?).elim 0 (f k) := by
    rw [← Std.ExtTreeMap.map_fst_toList_eq_keys, List.map_map]
    refine List.map_congr_left ?_
    rintro ⟨k, v⟩ hp
    rw [Function.comp_apply, Std.ExtTreeMap.mem_toList_iff_getElem?_eq_some.1 hp]
    rfl
  rw [hentry, ← List.sum_toFinset _ Std.ExtTreeMap.nodup_keys]
  refine Finset.sum_subset (fun k hk => h k ?_) ?_
  · exact Std.ExtTreeMap.mem_keys.1 (List.mem_toFinset.1 hk)
  · intro k _ hk
    have hnot : k ∉ m := fun hm => hk (List.mem_toFinset.2 (Std.ExtTreeMap.mem_keys.2 hm))
    rw [Std.ExtTreeMap.getElem?_eq_none hnot]
    rfl

end Reshard.FiniteMap
