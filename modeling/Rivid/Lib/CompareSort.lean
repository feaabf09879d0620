import Mathlib.Data.List.Sort
import Mathlib.Data.List.FinRange

/-!
# Sorting with a comparator that may throw

A library sort that is given a comparator is a decision tree: it asks for
comparisons of two positions, in an order of its own that depends on the answers
so far, and ends with an order of the positions.  Nothing is assumed about which
comparisons it makes, only that on the answers of a total preorder it returns
the stable order (`ArraySort.sorts`), and that an array of fewer than two
elements needs no comparison.

Two consequences hold of every such sort.  A comparator that answers as a total
preorder makes it the stable sort (`sort_eq_mergeSort`).  If every comparison of
one element throws, the sort of two or more elements throws
(`exists_error_of_uncomparable`): a sort that never asks about that element
would return the same order whether it belongs first or last.
-/

/-- A comparison sort of `n` positions. -/
inductive CompareTree (n : ℕ) where
  | result (order : List (Fin n))
  | ask (i j : Fin n) (next : Ordering → CompareTree n)

namespace CompareTree

variable {n : ℕ} {ε : Type*}

/-- The order returned when the comparisons are answered by `c`. -/
def answer : CompareTree n → (Fin n → Fin n → Ordering) → List (Fin n)
  | result order, _ => order
  | ask i j next, c => (next (c i j)).answer c

/-- The same with a comparator that may throw. -/
def run : CompareTree n → (Fin n → Fin n → Except ε Ordering) → Except ε (List (Fin n))
  | result order, _ => .ok order
  | ask i j next, cmp =>
      match cmp i j with
      | .error e => .error e
      | .ok o => (next o).run cmp

/-- A run that does not throw is the run on any answers that agree with those it got. -/
theorem answer_of_run {t : CompareTree n} {cmp : Fin n → Fin n → Except ε Ordering}
    {c : Fin n → Fin n → Ordering} {r : List (Fin n)} (h : t.run cmp = .ok r)
    (hc : ∀ i j o, cmp i j = .ok o → c i j = o) : t.answer c = r := by
  induction t with
  | result order =>
      cases h
      rfl
  | ask i j next ih =>
      rw [run] at h
      split at h
      · cases h
      · rename_i o ho
        rw [answer, hc i j o ho]
        exact ih o h

/-- A comparator that never throws. -/
theorem run_ok {t : CompareTree n} {cmp : Fin n → Fin n → Except ε Ordering}
    {c : Fin n → Fin n → Ordering} (hc : ∀ i j, cmp i j = .ok (c i j)) :
    t.run cmp = .ok (t.answer c) := by
  induction t with
  | result order => rfl
  | ask i j next ih =>
      rw [run, hc i j, answer]
      exact ih (c i j)

end CompareTree

/-- The answer of a comparator for a total preorder. -/
def orderingOf {α : Type*} (le : α → α → Bool) (a b : α) : Ordering :=
  if le a b then if le b a then .eq else .lt else .gt

/-- A total preorder. -/
structure TotalPreorder {α : Type*} (le : α → α → Bool) : Prop where
  trans : ∀ a b c, le a b = true → le b c = true → le a c = true
  total : ∀ a b, (le a b || le b a) = true

/-- Elements compared by a key in a linear order. -/
theorem TotalPreorder.ofKey {α κ : Type*} [LinearOrder κ] (key : α → κ) :
    TotalPreorder fun a b ↦ decide (key a ≤ key b) where
  trans a b c hab hbc := by
    rw [decide_eq_true_eq] at *
    exact le_trans hab hbc
  total a b := by
    rw [Bool.or_eq_true, decide_eq_true_eq, decide_eq_true_eq]
    exact le_total _ _

/-- The sort of a standard library: one comparison tree for each length. -/
structure ArraySort where
  tree : ∀ n, CompareTree n
  sorts : ∀ n (le : Fin n → Fin n → Bool), TotalPreorder le →
    (tree n).answer (orderingOf le) = (List.finRange n).mergeSort le
  short : ∀ n, n < 2 → ∃ order, tree n = .result order

namespace ArraySort

variable {α : Type*} {ε : Type*} (S : ArraySort)

/-- The array in sorted order, or what the comparator throws. -/
def sort (xs : List α) (cmp : α → α → Except ε Ordering) : Except ε (List α) :=
  ((S.tree xs.length).run fun i j ↦ cmp (xs.get i) (xs.get j)).map (·.map xs.get)

/-- On the answers of a total preorder the sort is the stable sort. -/
theorem sort_eq_mergeSort {le : α → α → Bool} (hle : TotalPreorder le) {xs : List α}
    {cmp : α → α → Except ε Ordering}
    (hcmp : ∀ a ∈ xs, ∀ b ∈ xs, cmp a b = .ok (orderingOf le a b)) :
    S.sort xs cmp = .ok (xs.mergeSort le) := by
  have hindex : TotalPreorder fun i j ↦ le (xs.get i) (xs.get j) :=
    ⟨fun _ _ _ ↦ hle.trans _ _ _, fun _ _ ↦ hle.total _ _⟩
  have hrun : ∀ i j, cmp (xs.get i) (xs.get j) =
      .ok (orderingOf (fun i j ↦ le (xs.get i) (xs.get j)) i j) :=
    fun i j ↦ hcmp _ (xs.get_mem i) _ (xs.get_mem j)
  rw [sort, CompareTree.run_ok hrun, S.sorts _ _ hindex]
  have hmap : ((List.finRange xs.length).mergeSort fun i j ↦ le (xs.get i) (xs.get j)).map xs.get =
      ((List.finRange xs.length).map xs.get).mergeSort le :=
    List.map_mergeSort fun _ _ _ _ ↦ rfl
  rw [Except.map, hmap, List.map_get_finRange]

/-- Arrays of fewer than two elements are returned as they are found in no comparison. -/
theorem sort_of_length_lt_two {xs : List α} (h : xs.length < 2)
    (cmp : α → α → Except ε Ordering) : ∃ ys, S.sort xs cmp = .ok ys := by
  obtain ⟨order, horder⟩ := S.short xs.length h
  exact ⟨order.map xs.get, by rw [sort, horder]; rfl⟩

/-- A comparator that never throws does not make the sort throw. -/
theorem sort_of_total {cmp : α → α → Except ε Ordering} {c : α → α → Ordering}
    (hcmp : ∀ a b, cmp a b = .ok (c a b)) (xs : List α) : ∃ ys, S.sort xs cmp = .ok ys := by
  have hrun := CompareTree.run_ok (t := S.tree xs.length)
    (fun i j ↦ hcmp (xs.get i) (xs.get j))
  exact ⟨_, by rw [sort, hrun]; rfl⟩

section Adversary

variable {n : ℕ} (v : Fin n → ℕ) (p : Fin n)

/-- The order of the keys with `p` moved before everything else. -/
def leFirst (i j : Fin n) : Bool := decide (i = p ∨ (j ≠ p ∧ v i ≤ v j))

/-- The order of the keys with `p` moved behind everything else. -/
def leLast (i j : Fin n) : Bool := decide (j = p ∨ (i ≠ p ∧ v i ≤ v j))

theorem totalPreorder_leFirst : TotalPreorder (leFirst v p) where
  trans a b c hab hbc := by
    simp only [leFirst, decide_eq_true_eq] at *
    rcases hab with rfl | ⟨hb, hab⟩
    · exact Or.inl rfl
    · rcases hbc with rfl | ⟨hc, hbc⟩
      · exact absurd rfl hb
      · exact Or.inr ⟨hc, le_trans hab hbc⟩
  total a b := by
    simp only [leFirst, Bool.or_eq_true, decide_eq_true_eq]
    by_cases ha : a = p
    · exact Or.inl (Or.inl ha)
    · by_cases hb : b = p
      · exact Or.inr (Or.inl hb)
      · rcases le_total (v a) (v b) with h | h
        · exact Or.inl (Or.inr ⟨hb, h⟩)
        · exact Or.inr (Or.inr ⟨ha, h⟩)

theorem totalPreorder_leLast : TotalPreorder (leLast v p) where
  trans a b c hab hbc := by
    simp only [leLast, decide_eq_true_eq] at *
    rcases hbc with rfl | ⟨hb, hbc⟩
    · exact Or.inl rfl
    · rcases hab with rfl | ⟨ha, hab⟩
      · exact absurd rfl hb
      · exact Or.inr ⟨ha, le_trans hab hbc⟩
  total a b := by
    simp only [leLast, Bool.or_eq_true, decide_eq_true_eq]
    by_cases hb : b = p
    · exact Or.inl (Or.inl hb)
    · by_cases ha : a = p
      · exact Or.inr (Or.inl ha)
      · rcases le_total (v a) (v b) with h | h
        · exact Or.inl (Or.inr ⟨ha, h⟩)
        · exact Or.inr (Or.inr ⟨hb, h⟩)

variable {v p}

/-- Away from `p` both orders answer as the keys. -/
theorem orderingOf_leFirst {i j : Fin n} (hi : i ≠ p) (hj : j ≠ p) :
    orderingOf (leFirst v p) i j = compare (v i) (v j) := by
  simp only [orderingOf, leFirst, hi, hj, ne_eq, not_false_eq_true, true_and, false_or,
    decide_eq_true_eq]
  rcases lt_trichotomy (v i) (v j) with h | h | h
  · rw [if_pos (le_of_lt h), if_neg (not_le_of_gt h), compare_lt_iff_lt.mpr h]
  · rw [if_pos (le_of_eq h), if_pos (le_of_eq h.symm), compare_eq_iff_eq.mpr h]
  · rw [if_neg (not_le_of_gt h), compare_gt_iff_gt.mpr h]

theorem orderingOf_leLast {i j : Fin n} (hi : i ≠ p) (hj : j ≠ p) :
    orderingOf (leLast v p) i j = orderingOf (leFirst v p) i j := by
  simp only [orderingOf, leFirst, leLast, hi, hj, ne_eq, not_false_eq_true, true_and, false_or]

/-- One list cannot be sorted both with `p` first and with `p` last. -/
theorem not_mergeSort_eq (hn : 2 ≤ n) :
    (List.finRange n).mergeSort (leFirst v p) ≠ (List.finRange n).mergeSort (leLast v p) := by
  intro heq
  obtain ⟨q, hq⟩ : ∃ q : Fin n, q ≠ p := by
    have : Nontrivial (Fin n) := Fin.nontrivial_iff_two_le.mpr hn
    exact exists_ne p
  have hfirst := List.pairwise_mergeSort (totalPreorder_leFirst v p).trans
    (totalPreorder_leFirst v p).total (List.finRange n)
  have hlast := List.pairwise_mergeSort (totalPreorder_leLast v p).trans
    (totalPreorder_leLast v p).total (List.finRange n)
  have hmem : ∀ i, i ∈ (List.finRange n).mergeSort (leFirst v p) := by simp
  rw [← heq] at hlast
  obtain ⟨a, ha, hpa⟩ := List.mem_iff_getElem.mp (hmem p)
  obtain ⟨b, hb, hqb⟩ := List.mem_iff_getElem.mp (hmem q)
  have hne : a ≠ b := by
    rintro rfl
    exact hq (hqb.symm.trans hpa)
  rcases Nat.lt_or_gt_of_ne hne with hab | hba
  · have h := List.pairwise_iff_getElem.mp hlast a b ha hb hab
    rw [hpa, hqb] at h
    simp [leLast, hq] at h
  · have h := List.pairwise_iff_getElem.mp hfirst b a hb ha hba
    rw [hpa, hqb] at h
    simp [leFirst, hq] at h

end Adversary

/-- If no comparison of `p` succeeds, sorting it with anything else throws. -/
theorem exists_error_of_uncomparable {xs : List α} {cmp : α → α → Except ε Ordering} {v : α → ℕ}
    {p : α} (hlen : 2 ≤ xs.length) (hp : p ∈ xs)
    (hcmp : ∀ a ∈ xs, ∀ b ∈ xs, ∀ o, cmp a b = .ok o → compare (v a) (v b) = o)
    (hleft : ∀ b ∈ xs, ∀ o, cmp p b ≠ .ok o) (hright : ∀ a ∈ xs, ∀ o, cmp a p ≠ .ok o) :
    ∃ e, S.sort xs cmp = .error e := by
  obtain ⟨k, hk⟩ := List.mem_iff_get.mp hp
  cases hrun : (S.tree xs.length).run fun i j ↦ cmp (xs.get i) (xs.get j) with
  | error e => exact ⟨e, by rw [sort, hrun]; rfl⟩
  | ok r =>
      have hasked : ∀ i j o, cmp (xs.get i) (xs.get j) = .ok o →
          orderingOf (leFirst (fun i ↦ v (xs.get i)) k) i j = o ∧
          orderingOf (leLast (fun i ↦ v (xs.get i)) k) i j = o := by
        intro i j o ho
        have hi : i ≠ k := by
          rintro rfl
          exact hleft _ (xs.get_mem j) o (hk ▸ ho)
        have hj : j ≠ k := by
          rintro rfl
          exact hright _ (xs.get_mem i) o (hk ▸ ho)
        rw [orderingOf_leLast hi hj, orderingOf_leFirst hi hj]
        have := hcmp _ (xs.get_mem i) _ (xs.get_mem j) o ho
        exact ⟨this, this⟩
      have hfirst := CompareTree.answer_of_run hrun fun i j o ho ↦ (hasked i j o ho).1
      have hlast := CompareTree.answer_of_run hrun fun i j o ho ↦ (hasked i j o ho).2
      rw [S.sorts _ _ (totalPreorder_leFirst _ _)] at hfirst
      rw [S.sorts _ _ (totalPreorder_leLast _ _)] at hlast
      exact absurd (hfirst.trans hlast.symm) (not_mergeSort_eq hlen)

/-! ## Insertion sort -/

/-- Insert a position before the first one that it is not greater than. -/
def insert {n : ℕ} (i : Fin n) : List (Fin n) → (List (Fin n) → CompareTree n) → CompareTree n
  | [], k => k [i]
  | j :: js, k => .ask i j fun o ↦
      if o = .gt then insert i js fun order ↦ k (j :: order) else k (i :: j :: js)

/-- Sort the positions from the last one on. -/
def insertAll {n : ℕ} : List (Fin n) → (List (Fin n) → CompareTree n) → CompareTree n
  | [], k => k []
  | i :: is, k => insertAll is fun order ↦ insert i order k

variable {n : ℕ} {le : Fin n → Fin n → Bool}

theorem orderingOf_eq_gt_iff {i j : Fin n} : orderingOf le i j = .gt ↔ le i j = false := by
  rw [orderingOf]
  cases le i j with
  | false => simp
  | true => cases le j i <;> simp

theorem answer_insert (i : Fin n) {l₁ l₂ : List (Fin n)}
    (h₁ : ∀ j ∈ l₁, le i j = false) (h₂ : ∀ j ∈ l₂.head?, le i j = true)
    (k : List (Fin n) → CompareTree n) :
    (insert i (l₁ ++ l₂) k).answer (orderingOf le) =
      (k (l₁ ++ i :: l₂)).answer (orderingOf le) := by
  induction l₁ generalizing k with
  | nil =>
      cases l₂ with
      | nil => rfl
      | cons j js =>
          have hj : orderingOf le i j ≠ .gt := by
            rw [ne_eq, orderingOf_eq_gt_iff, h₂ j rfl]
            exact Bool.true_eq_false_eq_False
          rw [List.nil_append, insert, CompareTree.answer, if_neg hj]
          rfl
  | cons j js ih =>
      have hj : orderingOf le i j = .gt := orderingOf_eq_gt_iff.mpr (h₁ j (by simp))
      rw [List.cons_append, insert, CompareTree.answer, if_pos hj]
      exact ih (fun j hj ↦ h₁ j (by simp [hj])) fun order ↦ k (j :: order)

/-- Insertion sort is the stable sort. -/
theorem answer_insertAll (hle : TotalPreorder le) (is : List (Fin n))
    (k : List (Fin n) → CompareTree n) :
    (insertAll is k).answer (orderingOf le) = (k (is.mergeSort le)).answer (orderingOf le) := by
  induction is generalizing k with
  | nil => rw [insertAll, List.mergeSort_nil]
  | cons i is ih =>
      obtain ⟨l₁, l₂, hcons, htail, hlt⟩ := List.mergeSort_cons hle.trans hle.total i is
      have hsorted := List.pairwise_mergeSort hle.trans hle.total (i :: is)
      rw [hcons] at hsorted
      rw [insertAll, ih, htail, hcons]
      refine answer_insert i (fun j hj ↦ by simpa using hlt j hj) (fun j hj ↦ ?_) k
      exact List.rel_of_pairwise_cons (List.pairwise_append.mp hsorted).2.1
        (List.mem_of_mem_head? hj)

/-- The sort that inserts element by element. -/
def insertionSort : ArraySort where
  tree n := insertAll (List.finRange n) .result
  sorts n le hle := by rw [answer_insertAll hle]; rfl
  short n h := by
    match n, h with
    | 0, _ => exact ⟨[], rfl⟩
    | 1, _ => exact ⟨[0], rfl⟩

end ArraySort

/-! ## Stability -/

/-- A stable sort by a key keeps the elements of each key in their order. -/
theorem filter_mergeSort_key {α κ : Type*} [LinearOrder κ] (key : α → κ) (xs : List α) (v : κ) :
    (xs.mergeSort fun a b ↦ decide (key a ≤ key b)).filter (fun x ↦ decide (key x = v)) =
      xs.filter fun x ↦ decide (key x = v) := by
  have hkey := TotalPreorder.ofKey key
  have heq : (xs.filter fun x ↦ decide (key x = v)).Pairwise fun a b ↦ decide (key a ≤ key b) := by
    refine List.pairwise_of_forall_mem_list fun a ha b hb ↦ ?_
    rw [List.mem_filter, decide_eq_true_eq] at ha hb
    rw [decide_eq_true_eq, ha.2, hb.2]
  have hsub := List.sublist_mergeSort hkey.trans hkey.total heq List.filter_sublist
  have hfilter := hsub.filter fun x ↦ decide (key x = v)
  rw [List.filter_filter] at hfilter
  simp only [Bool.and_self] at hfilter
  refine (hfilter.eq_of_length ?_).symm
  exact ((List.mergeSort_perm xs _).filter _).length_eq.symm
