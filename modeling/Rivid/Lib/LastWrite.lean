import Mathlib.Data.List.Basic
import Mathlib.Data.List.Perm.Basic

/-!
# The last element that satisfies a predicate

Where elements are written one after another, the one that counts is the last
with a property.  Which one that is depends on the order: any element with the
property can be made the last one, two elements with separate properties can be
made so together, and a predicate can be preferred over all properties at once.
Putting lists together that share no group keeps the last one of every group.
-/

universe u

variable {α : Type u} {p q : α → Bool} {l l' : List α} {a b : α}

/-- The last element of `l` with the property `p`. -/
def lastWhere (p : α → Bool) (l : List α) : Option α := l.reverse.find? p

theorem lastWhere_append (p : α → Bool) (l l' : List α) :
    lastWhere p (l ++ l') = (lastWhere p l').or (lastWhere p l) := by
  rw [lastWhere, List.reverse_append, List.find?_append]
  rfl

theorem lastWhere_concat_of_pos (h : p a = true) : lastWhere p (l ++ [a]) = some a := by
  rw [lastWhere_append, lastWhere, List.reverse_singleton, List.find?_cons_of_pos h]
  rfl

theorem lastWhere_concat_of_neg (h : p a = false) : lastWhere p (l ++ [a]) = lastWhere p l := by
  rw [lastWhere_append, lastWhere, List.reverse_singleton,
    List.find?_cons_of_neg (Bool.eq_false_iff.mp h)]
  rfl

theorem lastWhere_spec (h : lastWhere p l = some a) : a ∈ l ∧ p a = true :=
  ⟨List.mem_reverse.mp (List.mem_of_find?_eq_some h), List.find?_some h⟩

theorem isSome_lastWhere_iff : (lastWhere p l).isSome ↔ ∃ a ∈ l, p a = true := by
  simp [lastWhere, List.find?_isSome]

/-- The element found, with what stands behind it. -/
theorem lastWhere_eq_some_iff :
    lastWhere p l = some a ↔
      p a = true ∧ ∃ pre post, l = pre ++ a :: post ∧ ∀ b ∈ post, p b = false := by
  rw [lastWhere, List.find?_eq_some_iff_append]
  refine and_congr_right fun _ ↦ ?_
  constructor
  · rintro ⟨x, y, heq, hnot⟩
    refine ⟨y.reverse, x.reverse, ?_, fun b hb ↦ ?_⟩
    · rw [← List.reverse_reverse l, heq]
      simp
    · simpa using hnot b (List.mem_reverse.mp hb)
  · rintro ⟨pre, post, rfl, hnot⟩
    refine ⟨post.reverse, pre.reverse, by simp, fun b hb ↦ ?_⟩
    rw [hnot b (List.mem_reverse.mp hb)]
    rfl

/-- Skipping elements without the property. -/
theorem lastWhere_filter (p q : α → Bool) (l : List α) :
    lastWhere p (l.filter q) = lastWhere (fun a ↦ q a && p a) l := by
  rw [lastWhere, lastWhere, ← List.filter_reverse, List.find?_filter]
  congr 1
  funext a
  cases q a <;> simp

theorem lastWhere_eq_none_iff : lastWhere p l = none ↔ ∀ a ∈ l, p a = false := by
  rw [← Option.not_isSome_iff_eq_none, isSome_lastWhere_iff]
  simp

theorem lastWhere_append_left (h : ∀ b ∈ l', p b = false) :
    lastWhere p (l ++ l') = lastWhere p l := by
  rw [lastWhere_append, lastWhere_eq_none_iff.mpr h, Option.none_or]

theorem lastWhere_append_right (h : ∀ a ∈ l, p a = false) :
    lastWhere p (l ++ l') = lastWhere p l' := by
  rw [lastWhere_append, lastWhere_eq_none_iff.mpr h, Option.or_none]
/-! ## Orders -/

theorem isSome_lastWhere_of_perm (h : l.Perm l') :
    (lastWhere p l).isSome = (lastWhere p l').isSome := by
  rw [Bool.eq_iff_iff, isSome_lastWhere_iff, isSome_lastWhere_iff]
  exact exists_congr fun a ↦ and_congr_left fun _ ↦ h.mem_iff

section

variable [DecidableEq α]

/-- Any element with the property can be made the last one. -/
theorem exists_perm_lastWhere (ha : a ∈ l) (hp : p a = true) :
    ∃ l', l'.Perm l ∧ lastWhere p l' = some a := by
  refine ⟨l.erase a ++ [a], ?_, lastWhere_concat_of_pos hp⟩
  exact List.perm_append_singleton a _ |>.trans (List.perm_cons_erase ha).symm

/-- Two elements can be made the last ones of their properties at once, if the second
does not have the property of the first. -/
theorem exists_perm_lastWhere_two (ha : a ∈ l) (hb : b ∈ l) (hpa : p a = true) (hpb : p b = false)
    (hqb : q b = true) :
    ∃ l', l'.Perm l ∧ lastWhere p l' = some a ∧ lastWhere q l' = some b := by
  have hne : a ≠ b := by
    rintro rfl
    rw [hpa] at hpb
    cases hpb
  have ha' : a ∈ l.erase b := (List.mem_erase_of_ne hne).mpr ha
  obtain ⟨l', hperm, hlast⟩ := exists_perm_lastWhere ha' hpa
  refine ⟨l' ++ [b], ?_, ?_, lastWhere_concat_of_pos hqb⟩
  · exact (List.perm_append_singleton b l').trans
      ((hperm.cons b).trans (List.perm_cons_erase hb).symm)
  · rw [lastWhere_concat_of_neg hpb, hlast]

end

/-- In some order the last element with any property satisfies `r`, if one does that
has the property. -/
theorem exists_perm_prefer (r : α → Bool) (l : List α) :
    ∃ l', l'.Perm l ∧ ∀ p a, lastWhere p l' = some a → (∃ b ∈ l, p b = true ∧ r b = true) →
      r a = true := by
  refine ⟨l.filter (fun a ↦ !r a) ++ l.filter r, ?_, fun p a ha hb ↦ ?_⟩
  · exact List.perm_append_comm.trans (List.filter_append_perm r l)
  · obtain ⟨b, hb, hpb, hrb⟩ := hb
    have hsome : (lastWhere p (l.filter r)).isSome :=
      isSome_lastWhere_iff.mpr ⟨b, List.mem_filter.mpr ⟨hb, hrb⟩, hpb⟩
    rw [lastWhere_append, Option.or_of_isSome hsome] at ha
    exact (List.mem_filter.mp (lastWhere_spec ha).1).2

/-! ## Groups -/

section Groups

universe v w

variable {κ : Type v} {β : Type w} [DecidableEq κ] {p : α → Bool} {f : α → κ} {g : α → β}

/-- Of the elements with the property `p`, grouped by `f`, the last ones of two groups
have different values. -/
def Mixed (p : α → Bool) (f : α → κ) (g : α → β) (l : List α) : Prop :=
  ∃ k k' a b, lastWhere (fun x ↦ p x && f x = k) l = some a ∧
    lastWhere (fun x ↦ p x && f x = k') l = some b ∧ g a ≠ g b

/-- There is one group, or one value, or no value that all groups have. -/
def Settled (p : α → Bool) (f : α → κ) (g : α → β) (l : List α) : Prop :=
  (∀ a ∈ l, ∀ b ∈ l, p a = true → p b = true → f a = f b) ∨
    (∀ a ∈ l, ∀ b ∈ l, p a = true → p b = true → g a = g b) ∨
    ∀ v, ∃ a ∈ l, p a = true ∧ ∀ b ∈ l, p b = true → f b = f a → g b ≠ v

theorem lastWhere_group_spec {k : κ} (h : lastWhere (fun x ↦ p x && f x = k) l = some a) :
    a ∈ l ∧ p a = true ∧ f a = k := by
  obtain ⟨hmem, hboth⟩ := lastWhere_spec h
  rw [Bool.and_eq_true, decide_eq_true_eq] at hboth
  exact ⟨hmem, hboth⟩

/-- A group with an element has a last one. -/
theorem exists_lastWhere_group (ha : a ∈ l) (hp : p a = true) :
    ∃ b, lastWhere (fun x ↦ p x && f x = f a) l = some b :=
  Option.isSome_iff_exists.mp (isSome_lastWhere_iff.mpr ⟨a, ha, by simp [hp]⟩)

/-- If no value is in all groups, the last ones differ as soon as there is a group. -/
theorem mixed_iff_of_no_common
    (h : ∀ v, ∃ a ∈ l, p a = true ∧ ∀ b ∈ l, p b = true → f b = f a → g b ≠ v) :
    Mixed p f g l ↔ ∃ a ∈ l, p a = true := by
  constructor
  · rintro ⟨k, -, a, -, ha, -, -⟩
    obtain ⟨hmem, hp, -⟩ := lastWhere_group_spec ha
    exact ⟨a, hmem, hp⟩
  · rintro ⟨x, hx, hpx⟩
    obtain ⟨a, ha⟩ := exists_lastWhere_group (f := f) hx hpx
    obtain ⟨y, hy, hpy, hno⟩ := h (g a)
    obtain ⟨b, hb⟩ := exists_lastWhere_group (f := f) hy hpy
    obtain ⟨hmem, hpb, hfb⟩ := lastWhere_group_spec hb
    exact ⟨f x, f y, a, b, ha, hb, (hno b hmem hpb hfb).symm⟩

/-- If the value is settled, it is the same in every order. -/
theorem Settled.mixed_iff (h : Settled p f g l) (hperm : l'.Perm l) :
    Mixed p f g l' ↔ Mixed p f g l := by
  rcases h with hgroup | hvalue | hcommon
  · have hno : ∀ {m : List α}, m.Perm l → ¬ Mixed p f g m := by
      rintro m hm ⟨k, k', a, b, ha, hb, hne⟩
      obtain ⟨hma, hpa, rfl⟩ := lastWhere_group_spec ha
      obtain ⟨hmb, hpb, rfl⟩ := lastWhere_group_spec hb
      rw [hgroup a (hm.mem_iff.mp hma) b (hm.mem_iff.mp hmb) hpa hpb, hb, Option.some.injEq] at ha
      exact hne (congrArg g ha.symm)
    exact iff_of_false (hno hperm) (hno (List.Perm.refl l))
  · have hno : ∀ {m : List α}, m.Perm l → ¬ Mixed p f g m := by
      rintro m hm ⟨k, k', a, b, ha, hb, hne⟩
      obtain ⟨hma, hpa, -⟩ := lastWhere_group_spec ha
      obtain ⟨hmb, hpb, -⟩ := lastWhere_group_spec hb
      exact hne (hvalue a (hm.mem_iff.mp hma) b (hm.mem_iff.mp hmb) hpa hpb)
    exact iff_of_false (hno hperm) (hno (List.Perm.refl l))
  · have hcommon' : ∀ v, ∃ a ∈ l', p a = true ∧ ∀ b ∈ l', p b = true → f b = f a → g b ≠ v := by
      intro v
      obtain ⟨a, ha, hpa, hno⟩ := hcommon v
      exact ⟨a, hperm.mem_iff.mpr ha, hpa, fun b hb ↦ hno b (hperm.mem_iff.mp hb)⟩
    rw [mixed_iff_of_no_common hcommon', mixed_iff_of_no_common hcommon]
    exact exists_congr fun a ↦ and_congr_left fun _ ↦ hperm.mem_iff

/-- Two elements of different groups and values are the last ones in some order. -/
theorem exists_perm_mixed [DecidableEq α] (ha : a ∈ l) (hb : b ∈ l) (hpa : p a = true)
    (hpb : p b = true) (hf : f a ≠ f b) (hg : g a ≠ g b) : ∃ l', l'.Perm l ∧ Mixed p f g l' := by
  obtain ⟨l', hperm, hlast⟩ := exists_perm_lastWhere_two (p := fun x ↦ p x && f x = f a)
    (q := fun x ↦ p x && f x = f b) ha hb (by simp [hpa]) (by simp [Ne.symm hf]) (by simp [hpb])
  exact ⟨l', hperm, f a, f b, a, b, hlast.1, hlast.2, hg⟩

/-- A value that all groups have is the only one in some order. -/
theorem exists_perm_not_mixed [DecidableEq β] {v : β}
    (h : ∀ a ∈ l, p a = true → ∃ b ∈ l, p b = true ∧ f b = f a ∧ g b = v) :
    ∃ l', l'.Perm l ∧ ¬ Mixed p f g l' := by
  obtain ⟨l', hperm, hprefer⟩ := exists_perm_prefer (fun x ↦ g x = v) l
  refine ⟨l', hperm, ?_⟩
  have hvalue : ∀ {k : κ} {a : α}, lastWhere (fun x ↦ p x && f x = k) l' = some a → g a = v := by
    intro k a ha
    obtain ⟨hmem, hpa, rfl⟩ := lastWhere_group_spec ha
    obtain ⟨b, hb, hpb, hfb, hgb⟩ := h a (hperm.mem_iff.mp hmem) hpa
    simpa using hprefer _ a ha ⟨b, hb, by simp [hpb, hfb], by simpa using hgb⟩
  rintro ⟨k, k', a, b, ha, hb, hne⟩
  exact hne ((hvalue ha).trans (hvalue hb).symm)

/-- **Order independence.**  Whether the last ones of two groups differ is the same in
every order exactly if it is settled. -/
theorem forall_perm_mixed_iff [DecidableEq α] [DecidableEq β] :
    (∀ l', l'.Perm l → (Mixed p f g l' ↔ Mixed p f g l)) ↔ Settled p f g l := by
  refine ⟨fun hsame ↦ ?_, fun h l' hperm ↦ h.mixed_iff hperm⟩
  by_contra hnot
  simp only [Settled, not_or, not_forall, not_exists, not_and, ne_eq, not_not] at hnot
  obtain ⟨⟨a, ha, b, hb, hpa, hpb, hf⟩, ⟨c, hc, d, hd, hpc, hpd, hg⟩, v, hcommon⟩ := hnot
  have hno : ¬ Mixed p f g l := by
    have hcommon' : ∀ a ∈ l, p a = true → ∃ b ∈ l, p b = true ∧ f b = f a ∧ g b = v := by
      intro a ha hpa
      obtain ⟨b, hb, hpb, hfb, hgb⟩ := hcommon a ha hpa
      exact ⟨b, hb, hpb, hfb, hgb⟩
    obtain ⟨l', hperm, hnot⟩ := exists_perm_not_mixed hcommon'
    exact fun hmixed ↦ hnot ((hsame l' hperm).mpr hmixed)
  -- Some element of another group has a value different from `c`'s or from `d`'s.
  have hpair : ∃ x ∈ l, ∃ y ∈ l, p x = true ∧ p y = true ∧ f x ≠ f y ∧ g x ≠ g y := by
    by_cases hcd : f c = f d
    · have hother : ∃ e ∈ l, p e = true ∧ f e ≠ f c := by
        by_cases hac : f a = f c
        · exact ⟨b, hb, hpb, fun hbc ↦ hf (hac.trans hbc.symm)⟩
        · exact ⟨a, ha, hpa, hac⟩
      obtain ⟨e, he, hpe, hec⟩ := hother
      by_cases hge : g e = g c
      · exact ⟨e, he, d, hd, hpe, hpd, fun hed ↦ hec (hed.trans hcd.symm), hge ▸ hg⟩
      · exact ⟨e, he, c, hc, hpe, hpc, hec, hge⟩
    · exact ⟨c, hc, d, hd, hpc, hpd, hcd, hg⟩
  obtain ⟨x, hx, y, hy, hpx, hpy, hfxy, hgxy⟩ := hpair
  obtain ⟨l', hperm, hmixed⟩ := exists_perm_mixed hx hy hpx hpy hfxy hgxy
  exact hno ((hsame l' hperm).mp hmixed)

/-! ## Parts -/

/-- In parts that share no group, the last one of a group is the last one of a part. -/
theorem lastWhere_flatten_eq_some_iff {parts : List (List α)} {k : κ} {a : α}
    (h : parts.Pairwise fun l l' ↦ ∀ a ∈ l, ∀ b ∈ l', f a ≠ f b) :
    lastWhere (fun x ↦ p x && f x = k) parts.flatten = some a ↔
      ∃ l ∈ parts, lastWhere (fun x ↦ p x && f x = k) l = some a := by
  induction parts with
  | nil => simp [lastWhere]
  | cons l parts ih =>
      obtain ⟨hl, htail⟩ := List.pairwise_cons.mp h
      have hapart : ∀ {x}, lastWhere (fun x ↦ p x && f x = k) l = some x →
          lastWhere (fun x ↦ p x && f x = k) parts.flatten = none := by
        intro x hx
        obtain ⟨hmem, -, rfl⟩ := lastWhere_group_spec hx
        refine lastWhere_eq_none_iff.mpr fun b hb ↦ ?_
        obtain ⟨l', hl', hb⟩ := List.mem_flatten.mp hb
        have hne := hl l' hl' x hmem b hb
        simp [Ne.symm hne]
      rw [List.flatten_cons, lastWhere_append, List.exists_mem_cons_iff, ← ih htail]
      cases hlast : lastWhere (fun x ↦ p x && f x = k) l with
      | none => simp
      | some x => simp [hapart hlast]

/-- Parts that share no group are mixed exactly if two of them, or one, have groups that
differ. -/
theorem mixed_flatten_iff {parts : List (List α)}
    (h : parts.Pairwise fun l l' ↦ ∀ a ∈ l, ∀ b ∈ l', f a ≠ f b) :
    Mixed p f g parts.flatten ↔ ∃ l ∈ parts, ∃ l' ∈ parts, ∃ k k' a b,
      lastWhere (fun x ↦ p x && f x = k) l = some a ∧
      lastWhere (fun x ↦ p x && f x = k') l' = some b ∧ g a ≠ g b := by
  constructor
  · rintro ⟨k, k', a, b, ha, hb, hne⟩
    obtain ⟨l, hl, ha⟩ := (lastWhere_flatten_eq_some_iff h).mp ha
    obtain ⟨l', hl', hb⟩ := (lastWhere_flatten_eq_some_iff h).mp hb
    exact ⟨l, hl, l', hl', k, k', a, b, ha, hb, hne⟩
  · rintro ⟨l, hl, l', hl', k, k', a, b, ha, hb, hne⟩
    exact ⟨k, k', a, b, (lastWhere_flatten_eq_some_iff h).mpr ⟨l, hl, ha⟩,
      (lastWhere_flatten_eq_some_iff h).mpr ⟨l', hl', hb⟩, hne⟩

end Groups
