import Rivid.Lib.Regex

/-!
# Matches carried to another text

A map of places carries matches over when it does for each part of the expression.  So more
text in front does no harm to an expression that does not look back, nor does more text behind
a symbol it never gets past, and renamed symbols match like those they stand for.
-/

universe u

namespace Regex

variable {α : Type u}

section Carry

variable {β : Type u} {φ : Place α → Place β}

theorem run_if_map {p q : Prop} [Decidable p] [Decidable q] (h : p ↔ q) (s : Place α) :
    (if p then [φ s] else []) = (if q then [s] else []).map φ := by
  by_cases hq : q
  · rw [if_pos hq, if_pos (h.mpr hq), List.map_singleton]
  · rw [if_neg hq, if_neg fun hp ↦ hq (h.mp hp), List.map_nil]

theorem run_seq_map {r t : Regex α} {r' t' : Regex β} {s : Place α}
    (hr : run r' (φ s) = (run r s).map φ) (ht : ∀ m ∈ run r s, run t' (φ m) = (run t m).map φ) :
    run (seq r' t') (φ s) = (run (seq r t) s).map φ := by
  rw [run, run, hr, List.flatMap_map, List.map_flatMap]
  exact List.flatMap_congr ht

theorem run_alt_map {r t : Regex α} {r' t' : Regex β} {s : Place α}
    (hr : run r' (φ s) = (run r s).map φ) (ht : run t' (φ s) = (run t s).map φ) :
    run (alt r' t') (φ s) = (run (alt r t) s).map φ := by
  rw [run, run, hr, ht, List.map_append]

theorem run_star_map {greedy : Bool} {r : Regex α} {r' : Regex β} {P : Place α → Prop}
    (hr : ∀ s, P s → run r' (φ s) = (run r s).map φ)
    (hlen : ∀ s, ∀ m ∈ run r s,
      (φ m).after.length < (φ s).after.length ↔ m.after.length < s.after.length)
    (keep : ∀ s, P s → ∀ m ∈ run r s, P m) {s : Place α} (hs : P s) :
    run (star greedy r') (φ s) = (run (star greedy r) s).map φ := by
  induction hn : s.after.length using Nat.strongRecOn generalizing s with
  | _ n ih =>
      have hmore : ((run r' (φ s)).filter fun m ↦ m.after.length < (φ s).after.length).flatMap
          (run (star greedy r')) =
            (((run r s).filter fun m ↦ m.after.length < s.after.length).flatMap
              (run (star greedy r))).map φ := by
        rw [hr s hs, List.filter_map, List.flatMap_map, List.map_flatMap]
        have hfilter : (run r s).filter
            ((fun m : Place β ↦ decide (m.after.length < (φ s).after.length)) ∘ φ) =
              (run r s).filter fun m ↦ m.after.length < s.after.length :=
          List.filter_congr fun m hm ↦ decide_eq_decide.mpr (hlen s m hm)
        rw [hfilter]
        refine List.flatMap_congr fun m hm ↦ ?_
        have hlt : m.after.length < s.after.length := by simpa using (List.mem_filter.mp hm).2
        exact ih _ (hn ▸ hlt) (keep s hs m (List.mem_of_mem_filter hm)) rfl
      rw [run_star, run_star, hmore]
      cases greedy <;> simp

end Carry

namespace Place

/-- More text in front. -/
def prepend (x : List α) (s : Place α) : Place α := ⟨s.before ++ x, s.after, s.groups⟩

/-- More text behind. -/
def extend (y : List α) (s : Place α) : Place α := ⟨s.before, s.after ++ y, s.groups⟩

/-- Other symbols. -/
def map {β : Type u} (f : α → β) (s : Place α) : Place β :=
  ⟨s.before.map f, s.after.map f, s.groups.map fun g ↦ (g.1, g.2.map f)⟩

end Place

/-- The expression does not look back. -/
def forward : Regex α → Prop
  | empty => True
  | set _ => True
  | seq r t => forward r ∧ forward t
  | alt r t => forward r ∧ forward t
  | star _ r => forward r
  | group _ r => forward r
  | boundary _ => False
  | start => False
  | lineStart _ => False
  | stop => True
  | notAhead r => forward r

/-- What is in front does not matter to an expression that does not look back. -/
theorem run_prepend {r : Regex α} (h : forward r) (x : List α) (s : Place α) :
    run r (s.prepend x) = (run r s).map (Place.prepend x) := by
  induction r generalizing s with
  | empty => rfl
  | set p =>
      obtain ⟨before, after, groups⟩ := s
      cases after with
      | nil => rfl
      | cons c rest =>
          by_cases hp : p c = true <;> simp [run, Place.prepend, Place.next, hp]
  | seq r t ihr iht => exact run_seq_map (ihr h.1 s) fun m _ ↦ iht h.2 m
  | alt r t ihr iht => exact run_alt_map (ihr h.1 s) (iht h.2 s)
  | star greedy r ih =>
      exact run_star_map (P := fun _ ↦ True) (fun s _ ↦ ih h s) (fun _ _ _ ↦ Iff.rfl)
        (fun _ _ _ _ ↦ trivial) trivial
  | group n r ih =>
      rw [run, run, ih h s, List.map_map, List.map_map]
      rfl
  | boundary word => exact h.elim
  | start => exact h.elim
  | lineStart ends => exact h.elim
  | stop => exact run_if_map Iff.rfl s
  | notAhead r ih =>
      rw [run, run, ih h s, List.isEmpty_map]
      exact run_if_map Iff.rfl s

/-- Up to a symbol `c` that comes later, the expression avoids `c` but for the last symbol of
the match. -/
def guarded (c : α) : Regex α → Prop
  | empty => True
  | set _ => True
  | seq r t => avoids c r ∧ guarded c r ∧ guarded c t
  | alt r t => guarded c r ∧ guarded c t
  | star _ r => avoids c r ∧ guarded c r
  | group _ r => guarded c r
  | boundary _ => True
  | start => True
  | lineStart _ => True
  | stop => True
  | notAhead r => guarded c r

theorem mem_after_of_avoids {c : α} {r : Regex α} (h : avoids c r) {s m : Place α}
    (hm : m ∈ run r s) (hc : c ∈ s.after) : c ∈ m.after := by
  obtain ⟨u, hu, hcu⟩ := exists_consumed hm
  rw [hu.1] at hc
  exact (List.mem_append.mp hc).resolve_left (hcu c h)

/-- What is behind the next `c` does not matter to an expression that gets no further. -/
theorem run_extend {c : α} {r : Regex α} (h : guarded c r) (y : List α) {s : Place α}
    (hc : c ∈ s.after) : run r (s.extend y) = (run r s).map (Place.extend y) := by
  induction r generalizing s with
  | empty => rfl
  | set p =>
      obtain ⟨before, after, groups⟩ := s
      cases after with
      | nil => cases hc
      | cons c rest =>
          by_cases hp : p c = true <;> simp [run, Place.extend, Place.next, hp]
  | seq r t ihr iht =>
      exact run_seq_map (ihr h.2.1 hc) fun m hm ↦ iht h.2.2 (mem_after_of_avoids h.1 hm hc)
  | alt r t ihr iht => exact run_alt_map (ihr h.1 hc) (iht h.2 hc)
  | star greedy r ih =>
      refine run_star_map (P := fun s ↦ c ∈ s.after) (fun s hs ↦ ih h.2 hs) (fun s m _ ↦ ?_)
        (fun s hs m hm ↦ mem_after_of_avoids h.1 hm hs) hc
      simp [Place.extend]
  | group n r ih =>
      rw [run, run, ih h hc, List.map_map, List.map_map]
      refine List.map_congr_left fun m hm ↦ ?_
      obtain ⟨u, hu, -⟩ := exists_consumed hm
      have hext : Consumed (s.extend y) u (m.extend y) :=
        ⟨by simp [Place.extend, hu.1], hu.2⟩
      exact congrArg (fun v ↦ Place.mk m.before (m.after ++ y) ((n, v) :: m.groups))
        (hext.upTo_eq.trans hu.upTo_eq.symm)
  | boundary word =>
      obtain ⟨e, rest, he⟩ := List.exists_cons_of_ne_nil (List.ne_nil_of_mem hc)
      have hhead : (s.extend y).after.head? = s.after.head? := by simp [Place.extend, he]
      rw [run, run, hhead]
      exact run_if_map Iff.rfl s
  | start => exact run_if_map Iff.rfl s
  | lineStart ends => exact run_if_map Iff.rfl s
  | stop =>
      refine run_if_map ?_ s
      have hne := List.ne_nil_of_mem hc
      simp [Place.extend, hne]
  | notAhead r ih =>
      rw [run, run, ih h hc, List.isEmpty_map]
      exact run_if_map Iff.rfl s

/-- The expression over another alphabet: it sees what `f` makes of a symbol. -/
def comap {β : Type u} (f : β → α) : Regex α → Regex β
  | empty => empty
  | set p => set (p ∘ f)
  | seq r t => seq (comap f r) (comap f t)
  | alt r t => alt (comap f r) (comap f t)
  | star greedy r => star greedy (comap f r)
  | group n r => group n (comap f r)
  | boundary word => boundary (word ∘ f)
  | start => start
  | lineStart ends => lineStart (ends ∘ f)
  | stop => stop
  | notAhead r => notAhead (comap f r)

theorem run_comap {β : Type u} (f : β → α) (r : Regex α) (s : Place β) :
    run r (s.map f) = (run (comap f r) s).map (Place.map f) := by
  induction r generalizing s with
  | empty => rfl
  | set p =>
      obtain ⟨before, after, groups⟩ := s
      cases after with
      | nil => rfl
      | cons c rest =>
          by_cases hp : p (f c) = true <;> simp [run, comap, Place.map, Place.next, hp]
  | seq r t ihr iht => exact run_seq_map (ihr s) fun m _ ↦ iht m
  | alt r t ihr iht => exact run_alt_map (ihr s) (iht s)
  | star greedy r ih =>
      refine run_star_map (P := fun _ ↦ True) (fun s _ ↦ ih s) (fun s m _ ↦ ?_)
        (fun _ _ _ _ ↦ trivial) trivial
      simp [Place.map]
  | group n r ih =>
      rw [run, comap, run, ih s, List.map_map, List.map_map]
      refine List.map_congr_left fun m _ ↦ ?_
      simp [Place.map, Place.upTo]
  | boundary word =>
      have hany : ∀ l : List β, (l.map f).head?.any word = l.head?.any (word ∘ f) := by
        intro l
        cases l <;> rfl
      have hbefore : (s.map f).before.head?.any word = s.before.head?.any (word ∘ f) :=
        hany s.before
      have hafter : (s.map f).after.head?.any word = s.after.head?.any (word ∘ f) := hany s.after
      rw [run, comap, run, hbefore, hafter]
      exact run_if_map Iff.rfl s
  | start => exact run_if_map (by simp [Place.map]) s
  | lineStart ends =>
      have hall : (s.map f).before.head?.all ends = s.before.head?.all (ends ∘ f) := by
        rw [Place.map, List.head?_map]
        cases s.before.head? <;> rfl
      rw [run, comap, run, hall]
      exact run_if_map Iff.rfl s
  | stop => exact run_if_map (by simp [Place.map]) s
  | notAhead r ih =>
      rw [run, comap, run, ih s, List.isEmpty_map]
      exact run_if_map Iff.rfl s

/-- The expression does not tell `c` from `f c`. -/
def blind (f : α → α) : Regex α → Prop
  | empty => True
  | set p => ∀ c, p (f c) = p c
  | seq r t => blind f r ∧ blind f t
  | alt r t => blind f r ∧ blind f t
  | star _ r => blind f r
  | group _ r => blind f r
  | boundary word => ∀ c, word (f c) = word c
  | start => True
  | lineStart ends => ∀ c, ends (f c) = ends c
  | stop => True
  | notAhead r => blind f r

theorem comap_of_blind {f : α → α} {r : Regex α} (h : blind f r) : comap f r = r := by
  induction r with
  | empty => rfl
  | set p => exact congrArg set (funext h)
  | seq r t ihr iht => rw [comap, ihr h.1, iht h.2]
  | alt r t ihr iht => rw [comap, ihr h.1, iht h.2]
  | star greedy r ih => rw [comap, ih h]
  | group n r ih => rw [comap, ih h]
  | boundary word => exact congrArg boundary (funext h)
  | start => rfl
  | lineStart ends => exact congrArg lineStart (funext h)
  | stop => rfl
  | notAhead r ih => rw [comap, ih h]

theorem run_map {f : α → α} {r : Regex α} (h : blind f r) (s : Place α) :
    run r (s.map f) = (run r s).map (Place.map f) := by
  rw [run_comap, comap_of_blind h]

end Regex
