import Rivid.Lib.RegexSearch

/-!
# What a match finds

A group of an expression has what every match of its part of the expression has, whatever is
matched around it (`exists_group`), and a piece of a split has no symbol that the separator
matches (`not_mem_of_mem_split`).
-/

universe u

namespace Regex

variable {α : Type u} {P : List α → Prop} {n : ℕ} {r t : Regex α}

/-! ## Groups -/

/-- Every match of the expression is of a text with the property. -/
def Gives (P : List α → Prop) (r : Regex α) : Prop := ∀ s m, m ∈ run r s → P (s.upTo m)

/-- The parts of the expression that are the group. -/
def groupsOf (n : ℕ) : Regex α → List (Regex α)
  | seq r t | alt r t => groupsOf n r ++ groupsOf n t
  | star _ r => groupsOf n r
  | group k r => (if k = n then [r] else []) ++ groupsOf n r
  | empty | set _ | boundary _ | start | lineStart _ | stop | notAhead _ => []

/-- The group takes part in every match. -/
def sets (n : ℕ) : Regex α → Bool
  | seq r t => sets n r || sets n t
  | alt r t => sets n r && sets n t
  | group k r => k == n || sets n r
  | empty | set _ | star _ _ | boundary _ | start | lineStart _ | stop | notAhead _ => false

/-- The group has taken part, and its text has the property. -/
def Place.Has (n : ℕ) (P : List α → Prop) (s : Place α) : Prop := ∃ u, s.group n = some u ∧ P u

theorem has_group_iff {k : ℕ} {u : List α} {s : Place α} :
    Place.Has n P ⟨s.before, s.after, (k, u) :: s.groups⟩ ↔ (k = n ∧ P u) ∨ k ≠ n ∧ s.Has n P := by
  simp only [Place.Has, Place.group, List.lookup_cons]
  by_cases hk : n = k
  · subst hk
    simp
  · simp [beq_false_of_ne hk, Ne.symm hk]

/-- A match keeps what a group has. -/
theorem has_of_mem_run (hgives : ∀ t ∈ groupsOf n r, Gives P t) {s m : Place α}
    (hm : m ∈ run r s) (hs : s.Has n P) : m.Has n P := by
  induction r generalizing s m with
  | empty =>
      obtain rfl := List.mem_singleton.mp hm
      exact hs
  | set p =>
      obtain ⟨c, rest, -, -, rfl⟩ := mem_run_set_iff.mp hm
      exact hs
  | seq r t ihr iht =>
      obtain ⟨hr, ht⟩ := List.forall_mem_append.mp hgives
      obtain ⟨m₁, hm₁, hm⟩ := List.mem_flatMap.mp hm
      exact iht ht hm (ihr hr hm₁ hs)
  | alt r t ihr iht =>
      obtain ⟨hr, ht⟩ := List.forall_mem_append.mp hgives
      rcases List.mem_append.mp hm with hm | hm
      · exact ihr hr hm hs
      · exact iht ht hm hs
  | star greedy r ih =>
      refine rounds_rule (R := fun s m ↦ s.Has n P → m.Has n P) (fun _ h ↦ h) ?_ hm hs
      intro s m₁ m hm₁ _ hrest hs
      exact hrest (ih hgives hm₁ hs)
  | group k r ih =>
      obtain ⟨hself, hr⟩ := List.forall_mem_append.mp hgives
      obtain ⟨m₁, hm₁, rfl⟩ := List.mem_map.mp hm
      refine has_group_iff.mpr ?_
      by_cases hk : k = n
      · exact Or.inl ⟨hk, hself r (by simp [hk]) s m₁ hm₁⟩
      · exact Or.inr ⟨hk, ih hr hm₁ hs⟩
  | boundary _ | start | lineStart _ | stop | notAhead _ =>
      obtain rfl := eq_of_mem_if hm
      exact hs

/-- A group that takes part in every match has the property behind one. -/
theorem has_of_sets (hgives : ∀ t ∈ groupsOf n r, Gives P t) (hsets : sets n r = true)
    {s m : Place α} (hm : m ∈ run r s) : m.Has n P := by
  induction r generalizing s m with
  | seq r t ihr iht =>
      obtain ⟨hr, ht⟩ := List.forall_mem_append.mp hgives
      obtain ⟨m₁, hm₁, hm⟩ := List.mem_flatMap.mp hm
      rcases Bool.or_eq_true_iff.mp hsets with hset | hset
      · exact has_of_mem_run ht hm (ihr hr hset hm₁)
      · exact iht ht hset hm
  | alt r t ihr iht =>
      obtain ⟨hr, ht⟩ := List.forall_mem_append.mp hgives
      obtain ⟨hsetr, hsett⟩ := Bool.and_eq_true_iff.mp hsets
      rcases List.mem_append.mp hm with hm | hm
      · exact ihr hr hsetr hm
      · exact iht ht hsett hm
  | group k r ih =>
      obtain ⟨hself, hr⟩ := List.forall_mem_append.mp hgives
      obtain ⟨m₁, hm₁, rfl⟩ := List.mem_map.mp hm
      refine has_group_iff.mpr ?_
      by_cases hk : k = n
      · exact Or.inl ⟨hk, hself r (by simp [hk]) s m₁ hm₁⟩
      · have hset := (Bool.or_eq_true_iff.mp hsets).resolve_left fun h ↦ hk (eq_of_beq h)
        exact Or.inr ⟨hk, ih hr hset hm₁⟩
  | empty | set _ | star _ _ | boundary _ | start | lineStart _ | stop | notAhead _ => cases hsets

theorem mem_run_of_execFrom {before after : List α} {m : Place α}
    (h : execFrom r before after = some m) :
    ∃ u v, after = u ++ v ∧ m ∈ run r ⟨u.reverse ++ before, v, []⟩ := by
  induction after generalizing before with
  | nil => exact ⟨[], [], rfl, List.mem_of_head? h⟩
  | cons c after ih =>
      rw [execFrom] at h
      split at h
      · rename_i m' hm'
        cases h
        exact ⟨[], c :: after, rfl, List.mem_of_head? hm'⟩
      · obtain ⟨u, v, rfl, hm⟩ := ih h
        refine ⟨c :: u, v, rfl, ?_⟩
        rwa [List.reverse_cons, List.append_assoc]

/-- What a group has in the match that is found. -/
theorem exists_group (hgives : ∀ t ∈ groupsOf n r, Gives P t) (hsets : sets n r = true)
    {text : List α} {m : Place α} (h : exec r text = some m) : ∃ u, m.group n = some u ∧ P u := by
  obtain ⟨u, v, -, hm⟩ := mem_run_of_execFrom h
  exact has_of_sets hgives hsets hm

/-- The same for each of all matches. -/
theorem exists_group_of_mem_matchAll (hgives : ∀ t ∈ groupsOf n r, Gives P t)
    (hsets : sets n r = true) {text : List α} {m : Place α} (h : m ∈ matchAll r text) : ∃ u, m.group n = some u ∧ P u := by
  obtain ⟨u, v, -, hm⟩ := mem_matchAll h
  exact has_of_sets hgives hsets hm

theorem gives_plus_set (p : α → Bool) :
    Gives (fun u ↦ u ≠ [] ∧ ∀ c ∈ u, p c = true) (plus (set p)) := by
  intro s m hm
  obtain ⟨u, hne, hall, hu, -⟩ := exists_of_mem_run_plus_set hm
  rw [hu.upTo_eq]
  exact ⟨hne, hall⟩

theorem Gives.alt {Q : List α → Prop} (hr : Gives P r) (ht : Gives Q t) :
    Gives (fun u ↦ P u ∨ Q u) (alt r t) := by
  intro s m hm
  exact (List.mem_append.mp hm).imp (hr s m) (ht s m)

/-- A word, symbol by symbol. -/
theorem gives_seqAll_set {β : Type*} (p : β → α → Bool) (es : List β) :
    Gives (List.Forall₂ (fun e c ↦ p e c = true) es) (seqAll (es.map fun e ↦ set (p e))) := by
  intro s m hm
  obtain ⟨w, hw, hafter⟩ := exists_of_mem_run_seqAll_set hm
  rw [Place.upTo, hafter, List.length_append, Nat.add_sub_cancel, List.take_left]
  exact hw

/-! ## Pieces -/

theorem mem_consHead {c : α} {pieces : List (List α)} {piece : List α}
    (h : piece ∈ consHead c pieces) :
    piece = [c] ∨ (∃ p ∈ pieces, piece = c :: p) ∨ piece ∈ pieces := by
  cases pieces with
  | nil => exact Or.inl (List.mem_singleton.mp h)
  | cons p pieces =>
      rcases List.mem_cons.mp h with rfl | h
      · exact Or.inr (Or.inl ⟨p, List.mem_cons_self, rfl⟩)
      · exact Or.inr (Or.inr (List.mem_cons_of_mem p h))

/-- A symbol that the separator always matches is in no piece. -/
theorem not_mem_of_mem_split {c : α}
    (hmatch : ∀ before after, ∃ m, (run r ⟨before, c :: after, []⟩).head? = some m ∧
      m.after.length ≠ (c :: after).length) {text piece : List α} (h : piece ∈ split r text) :
    c ∉ piece := by
  have hall : ∀ (after before : List α) (skip : ℕ), ∀ piece ∈ splitFrom r before after skip,
      c ∉ piece := by
    intro after
    induction after with
    | nil =>
        intro before skip piece hp
        rw [splitFrom] at hp
        obtain rfl := List.mem_singleton.mp hp
        exact List.not_mem_nil
    | cons d after ih =>
        intro before skip piece hp
        have hcons : d ≠ c → piece ∈ consHead d (splitFrom r (d :: before) after 0) →
            c ∉ piece := by
          intro hne hp
          rcases mem_consHead hp with rfl | ⟨p, hp', rfl⟩ | hp
          · simpa using hne.symm
          · intro hmem
            rcases List.mem_cons.mp hmem with rfl | hmem
            · exact hne rfl
            · exact ih _ _ p hp' hmem
          · exact ih _ _ piece hp
        cases skip with
        | succ skip => exact ih _ skip piece hp
        | zero =>
            rw [splitFrom] at hp
            by_cases hdc : d = c
            · subst hdc
              obtain ⟨m, hm, hlen⟩ := hmatch before after
              rw [hm] at hp
              simp only [if_neg hlen] at hp
              rcases List.mem_cons.mp hp with rfl | hp
              · exact List.not_mem_nil
              · exact ih _ _ piece hp
            · split at hp
              · split at hp
                · exact hcons hdc hp
                · rcases List.mem_cons.mp hp with rfl | hp
                  · exact List.not_mem_nil
                  · exact ih _ _ piece hp
              · exact hcons hdc hp
  exact hall text [] 0 piece h

/-- The first piece starts with the first symbol, if no separator does. -/
theorem head_of_split {c : α} {rest : List α} (hnone : run r ⟨[], c :: rest, []⟩ = [])
    {piece : List α} {pieces : List (List α)} (h : split r (c :: rest) = piece :: pieces) :
    piece.head? = some c := by
  rw [split, splitFrom_of_none (by rw [hnone]; rfl)] at h
  cases hrest : splitFrom r [c] rest 0 with
  | nil =>
      rw [hrest] at h
      cases h
      rfl
  | cons p ps =>
      rw [hrest] at h
      cases h
      rfl

end Regex
