import Rivid.Lib.CompareSort
import Rivid.Lib.OrderedMap
import Mathlib.Algebra.BigOperators.Group.List.Lemmas
import Mathlib.Algebra.Ring.Nat

/-!
# How often each element is in a list

A list is counted into a map by its elements (`OrderedMap.tally`).  Sorted by how often they
are there, its entries are a histogram of the list, in which elements that are equally
frequent keep their order (`isHistogram_mergeSort`).
-/

universe u

namespace OrderedMap

variable {κ : Type u} [DecidableEq κ]

/-- How often each key is in a list, in the order in which they are first there. -/
def tally (l : List κ) : OrderedMap κ ℕ :=
  l.foldl (fun m k ↦ m.set k ((m.get? k).getD 0 + 1)) empty

theorem tally_concat (l : List κ) (k : κ) :
    tally (l ++ [k]) = (tally l).set k (((tally l).get? k).getD 0 + 1) := by
  rw [tally, List.foldl_append]
  rfl

theorem getD_get?_tally (l : List κ) (k : κ) : ((tally l).get? k).getD 0 = l.count k := by
  induction l using List.reverseRecOn with
  | nil => rfl
  | append_singleton l k' ih =>
      rw [tally_concat, get?_set, List.count_append, List.count_singleton, ← ih]
      by_cases hk : k = k'
      · subst hk
        simp
      · simp [hk, Ne.symm hk]

/-- Lists counted together are counted one by one. -/
theorem getD_get?_tally_flatten (ls : List (List κ)) (k : κ) :
    ((tally ls.flatten).get? k).getD 0 = (ls.map fun l ↦ ((tally l).get? k).getD 0).sum := by
  simp only [getD_get?_tally, List.count_flatten]

theorem keys_tally (l : List κ) : (tally l).keys = l.eraseDups := by
  induction l using List.reverseRecOn with
  | nil => rfl
  | append_singleton l k ih =>
      have hset := map_fst_setEntry k (((tally l).get? k).getD 0 + 1) (tally l).entries
      rw [tally_concat, keys, set, hset, ← keys, ih, List.eraseDups_append]
      by_cases hk : k ∈ l
      · rw [if_pos (List.mem_eraseDups.mpr hk)]
        simp [List.removeAll, hk]
      · rw [if_neg fun h ↦ hk (List.mem_eraseDups.mp h)]
        have hone : [k].removeAll l = [k] := by simp [List.removeAll, hk]
        rw [hone]
        rfl

theorem entries_tally (l : List κ) :
    (tally l).entries = l.eraseDups.map fun k ↦ (k, l.count k) := by
  have hentry : ∀ e ∈ (tally l).entries, (e.1, l.count e.1) = e := by
    rintro ⟨k, n⟩ he
    rw [← getD_get?_tally, mem_entries_iff.mp he]
    rfl
  rw [← keys_tally, keys, List.map_map]
  exact (List.map_id _).symm.trans (List.map_congr_left fun e he ↦ (hentry e he).symm)

theorem mem_entries_tally_iff {l : List κ} {k : κ} {n : ℕ} :
    (k, n) ∈ (tally l).entries ↔ k ∈ l ∧ n = l.count k := by
  rw [entries_tally, List.mem_map]
  constructor
  · rintro ⟨k', hk, heq⟩
    obtain ⟨rfl, rfl⟩ := Prod.mk.inj heq
    exact ⟨List.mem_eraseDups.mp hk, rfl⟩
  · rintro ⟨hk, rfl⟩
    exact ⟨k, List.mem_eraseDups.mpr hk, rfl⟩

theorem nodup_eraseDups (l : List κ) : l.eraseDups.Nodup := by
  rw [← keys_tally]
  exact (tally l).nodup

/-- Together the keys are as often in the list as it has elements. -/
theorem sum_tally (l : List κ) : ((tally l).entries.map Prod.snd).sum = l.length := by
  have hperm : l.eraseDups.Perm l.dedup :=
    (List.perm_ext_iff_of_nodup (nodup_eraseDups l) (List.nodup_dedup l)).mpr fun k ↦ by
      rw [List.mem_eraseDups, List.mem_dedup]
  rw [entries_tally, List.map_map, ← List.sum_map_count_dedup_eq_length l]
  exact (hperm.map fun k ↦ l.count k).sum_eq

/-- How often each element is there: the most frequent ones first, and those that are equally
frequent in the order in which they are first there. -/
structure IsHistogram (l : List κ) (h : List (κ × ℕ)) : Prop where
  mem_iff : ∀ k n, (k, n) ∈ h ↔ k ∈ l ∧ n = l.count k
  nodup : (h.map Prod.fst).Nodup
  descending : h.Pairwise fun a b ↦ b.2 ≤ a.2
  stable : ∀ n, (h.filter fun e ↦ e.2 = n).map Prod.fst = l.eraseDups.filter fun k ↦ l.count k = n
  total : (h.map Prod.snd).sum = l.length

theorem isHistogram_mergeSort (l : List κ) :
    IsHistogram l ((tally l).entries.mergeSort fun a b ↦ decide (b.2 ≤ a.2)) := by
  have hle : (fun a b : κ × ℕ ↦ decide (b.2 ≤ a.2)) =
      fun a b ↦ decide (OrderDual.toDual a.2 ≤ OrderDual.toDual b.2) := by
    funext a b
    exact decide_eq_decide.mpr OrderDual.toDual_le_toDual.symm
  have horder := TotalPreorder.ofKey fun e : κ × ℕ ↦ OrderDual.toDual e.2
  have hperm := List.mergeSort_perm (tally l).entries fun a b ↦ decide (b.2 ≤ a.2)
  refine ⟨fun k n ↦ ?_, ?_, ?_, fun n ↦ ?_, ?_⟩
  · rw [hperm.mem_iff, mem_entries_tally_iff]
  · exact (hperm.map Prod.fst).nodup_iff.mpr (tally l).nodup
  · rw [hle]
    have hsorted := List.pairwise_mergeSort horder.trans horder.total (tally l).entries
    exact hsorted.imp fun hab ↦ OrderDual.toDual_le_toDual.mp (of_decide_eq_true hab)
  · have hstable := filter_mergeSort_key (fun e : κ × ℕ ↦ OrderDual.toDual e.2) (tally l).entries
      (OrderDual.toDual n)
    have heq : (fun e : κ × ℕ ↦ decide (OrderDual.toDual e.2 = OrderDual.toDual n)) =
        fun e ↦ decide (e.2 = n) := by
      funext e
      exact decide_eq_decide.mpr OrderDual.toDual_inj
    rw [heq] at hstable
    rw [hle, hstable, entries_tally, List.filter_map, List.map_map]
    exact List.map_id _
  · rw [(hperm.map Prod.snd).sum_eq, sum_tally]

end OrderedMap
