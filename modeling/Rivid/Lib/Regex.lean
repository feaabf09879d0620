import Mathlib.Data.List.Basic

/-!
# Backtracking regular expressions

Regular expressions in the sense of the scripting languages: greedy and lazy
repetition, groups, word boundaries, anchors and negative lookahead.  A match is
defined by its search order: `run` lists the places where a match from a given place can
end, the preferred one first, so the match that is found is the head of the list.

A group under a repetition keeps the text of the last round.  Words, line ends and the
like are sets of symbols, so the alphabet is arbitrary and letter case is up to the sets.
-/

universe u

inductive Regex (α : Type u) where
  | empty
  | set (p : α → Bool)
  | seq (r t : Regex α)
  | alt (r t : Regex α)
  | star (greedy : Bool) (r : Regex α)
  | group (n : ℕ) (r : Regex α)
  | boundary (word : α → Bool)
  | start
  | lineStart (ends : α → Bool)
  | stop
  | notAhead (r : Regex α)

namespace Regex

variable {α : Type u}

/-- One round at least. -/
def plus (r : Regex α) : Regex α := seq r (star true r)

def lazyPlus (r : Regex α) : Regex α := seq r (star false r)

def opt (r : Regex α) : Regex α := alt r empty

/-- One after the other. -/
def seqAll : List (Regex α) → Regex α
  | [] => empty
  | [r] => r
  | r :: rs => seq r (seqAll rs)

/-! ## Matching -/

/-- A place in a text: what is in front of it, last symbol first, what is behind it,
and the texts of the groups, last one first. -/
structure Place (α : Type u) where
  before : List α
  after : List α
  groups : List (ℕ × List α)

namespace Place

/-- The text of a group, if it took part. -/
def group (s : Place α) (n : ℕ) : Option (List α) := s.groups.lookup n

/-- The text between two places. -/
def upTo (s s' : Place α) : List α := s.after.take (s.after.length - s'.after.length)

/-- One symbol on. -/
def next (s : Place α) (c : α) (rest : List α) : Place α := ⟨c :: s.before, rest, s.groups⟩

end Place

/-- The rounds of a repetition: each must get on. -/
def rounds (greedy : Bool) (f : Place α → List (Place α)) : ℕ → Place α → List (Place α)
  | 0, s => [s]
  | n + 1, s =>
      let more := ((f s).filter fun s' ↦ s'.after.length < s.after.length).flatMap
        (rounds greedy f n)
      if greedy then more ++ [s] else s :: more

/-- The places where a match that starts at `s` can end, the preferred one first. -/
def run : Regex α → Place α → List (Place α)
  | empty, s => [s]
  | set p, s =>
      match s.after with
      | c :: rest => if p c then [s.next c rest] else []
      | [] => []
  | seq r t, s => (run r s).flatMap (run t)
  | alt r t, s => run r s ++ run t s
  | star greedy r, s => rounds greedy (run r) s.after.length s
  | group n r, s => (run r s).map fun s' ↦ { s' with groups := (n, s.upTo s') :: s'.groups }
  | boundary word, s => if s.before.head?.any word != s.after.head?.any word then [s] else []
  | start, s => if s.before.isEmpty then [s] else []
  | lineStart ends, s => if s.before.head?.all ends then [s] else []
  | stop, s => if s.after.isEmpty then [s] else []
  | notAhead r, s => if (run r s).isEmpty then [s] else []

/-- The first place from which there is a match, and where it ends: the search goes on
from the place after `before`. -/
def execFrom (r : Regex α) : List α → List α → Option (Place α)
  | before, [] => (run r ⟨before, [], []⟩).head?
  | before, c :: after =>
      match (run r ⟨before, c :: after, []⟩).head? with
      | some s => some s
      | none => execFrom r (c :: before) after

/-- `text.match(r)`. -/
def exec (r : Regex α) (text : List α) : Option (Place α) := execFrom r [] text

/-- `r.test(text)`. -/
def test (r : Regex α) (text : List α) : Bool := (exec r text).isSome

/-- The matches behind `before`, after the next `skip` symbols; each is looked for behind
the one before it. -/
def matchesFrom (r : Regex α) : List α → List α → ℕ → List (Place α)
  | before, [], skip => if skip = 0 then (run r ⟨before, [], []⟩).head?.toList else []
  | before, c :: after, skip + 1 => matchesFrom r (c :: before) after skip
  | before, c :: after, 0 =>
      match (run r ⟨before, c :: after, []⟩).head? with
      | some s => s :: matchesFrom r (c :: before) after (after.length - s.after.length)
      | none => matchesFrom r (c :: before) after 0

/-- `text.matchAll(r)`. -/
def matchAll (r : Regex α) (text : List α) : List (Place α) := matchesFrom r [] text 0

/-- Put a symbol in front of the first piece. -/
def consHead (c : α) : List (List α) → List (List α)
  | [] => [[c]]
  | piece :: pieces => (c :: piece) :: pieces

/-- The pieces behind `before`, after the next `skip` symbols, which are a separator's. -/
def splitFrom (r : Regex α) : List α → List α → ℕ → List (List α)
  | _, [], _ => [[]]
  | before, c :: after, skip + 1 => splitFrom r (c :: before) after skip
  | before, c :: after, 0 =>
      match (run r ⟨before, c :: after, []⟩).head? with
      | some s =>
          if s.after.length = (c :: after).length then
            consHead c (splitFrom r (c :: before) after 0)
          else [] :: splitFrom r (c :: before) after (after.length - s.after.length)
      | none => consHead c (splitFrom r (c :: before) after 0)

/-- `text.split(r)`, for an `r` that matches no empty text. -/
def split (r : Regex α) (text : List α) : List (List α) := splitFrom r [] text 0

/-! ## What a match consumes -/

/-- `s'` is `s` with the text `u` behind it. -/
def Consumed (s : Place α) (u : List α) (s' : Place α) : Prop :=
  s.after = u ++ s'.after ∧ s'.before = u.reverse ++ s.before

theorem Consumed.refl (s : Place α) : Consumed s [] s := ⟨rfl, rfl⟩

theorem Consumed.trans {s m s' : Place α} {u v : List α} (h : Consumed s u m)
    (h' : Consumed m v s') : Consumed s (u ++ v) s' := by
  refine ⟨?_, ?_⟩
  · rw [h.1, h'.1, List.append_assoc]
  · rw [h'.2, h.2, List.reverse_append, List.append_assoc]

theorem Consumed.length_le {s s' : Place α} {u : List α} (h : Consumed s u s') :
    s'.after.length ≤ s.after.length := by
  rw [h.1, List.length_append]
  exact Nat.le_add_left _ _

theorem Consumed.upTo_eq {s s' : Place α} {u : List α} (h : Consumed s u s') : s.upTo s' = u := by
  rw [Place.upTo, h.1, List.length_append, Nat.add_sub_cancel, List.take_left]

theorem mem_run_set_iff {p : α → Bool} {s s' : Place α} :
    s' ∈ run (set p) s ↔ ∃ c rest, s.after = c :: rest ∧ p c = true ∧ s' = s.next c rest := by
  obtain ⟨before, after, groups⟩ := s
  cases after with
  | nil => simp [run]
  | cons c rest =>
      by_cases hp : p c = true
      · simp [run, hp]
      · simp [run, hp]

/-- What each round keeps, the repetition keeps. -/
theorem rounds_rule {R : Place α → Place α → Prop} {f : Place α → List (Place α)} {greedy : Bool}
    (refl : ∀ s, R s s)
    (step : ∀ s m s', m ∈ f s → m.after.length < s.after.length → R m s' → R s s')
    {n : ℕ} {s s' : Place α} (h : s' ∈ rounds greedy f n s) : R s s' := by
  induction n generalizing s with
  | zero =>
      obtain rfl := List.mem_singleton.mp h
      exact refl s'
  | succ n ih =>
      have hcases : s' ∈ ((f s).filter fun s' ↦ s'.after.length < s.after.length).flatMap
          (rounds greedy f n) ∨ s' = s := by
        rw [rounds] at h
        cases greedy with
        | true => simpa using h
        | false => simpa [or_comm] using h
      rcases hcases with h | rfl
      · obtain ⟨m, hm, hs'⟩ := List.mem_flatMap.mp h
        have hlt : m.after.length < s.after.length := by simpa using (List.mem_filter.mp hm).2
        exact step s m s' (List.mem_of_mem_filter hm) hlt (ih hs')
      · exact refl s'

/-- No symbol of the expression is `c`. -/
def avoids (c : α) : Regex α → Prop
  | empty => True
  | set p => p c = false
  | seq r t => avoids c r ∧ avoids c t
  | alt r t => avoids c r ∧ avoids c t
  | star _ r => avoids c r
  | group _ r => avoids c r
  | boundary _ => True
  | start => True
  | lineStart _ => True
  | stop => True
  | notAhead _ => True

/-- An assertion stays where it is. -/
theorem eq_of_mem_if {p : Prop} [Decidable p] {s s' : Place α}
    (h : s' ∈ if p then [s] else []) : s' = s := by
  by_cases hp : p
  · rw [if_pos hp] at h
    exact List.mem_singleton.mp h
  · rw [if_neg hp] at h
    cases h

/-- A match gets on, and not over a symbol that the expression avoids. -/
theorem exists_consumed {r : Regex α} {s s' : Place α} (h : s' ∈ run r s) :
    ∃ u, Consumed s u s' ∧ ∀ c, avoids c r → c ∉ u := by
  induction r generalizing s s' with
  | empty =>
      obtain rfl := List.mem_singleton.mp h
      exact ⟨[], .refl s', fun c _ ↦ List.not_mem_nil⟩
  | set p =>
      obtain ⟨c, rest, hafter, hp, rfl⟩ := mem_run_set_iff.mp h
      refine ⟨[c], ⟨hafter, rfl⟩, fun e he hmem ↦ ?_⟩
      obtain rfl := List.mem_singleton.mp hmem
      rw [avoids, hp] at he
      cases he
  | seq r t ihr iht =>
      obtain ⟨m, hm, hs'⟩ := List.mem_flatMap.mp h
      obtain ⟨u, hu, hcu⟩ := ihr hm
      obtain ⟨v, hv, hcv⟩ := iht hs'
      refine ⟨u ++ v, hu.trans hv, fun c hc hmem ↦ ?_⟩
      rcases List.mem_append.mp hmem with hmem | hmem
      · exact hcu c hc.1 hmem
      · exact hcv c hc.2 hmem
  | alt r t ihr iht =>
      rcases List.mem_append.mp h with h | h
      · obtain ⟨u, hu, hcu⟩ := ihr h
        exact ⟨u, hu, fun c hc ↦ hcu c hc.1⟩
      · obtain ⟨u, hu, hcu⟩ := iht h
        exact ⟨u, hu, fun c hc ↦ hcu c hc.2⟩
  | star greedy r ih =>
      refine rounds_rule (R := fun s s' ↦ ∃ u, Consumed s u s' ∧ ∀ c, avoids c r → c ∉ u)
        (fun s ↦ ⟨[], .refl s, fun c _ ↦ List.not_mem_nil⟩) ?_ h
      rintro s m s' hm - ⟨v, hv, hcv⟩
      obtain ⟨u, hu, hcu⟩ := ih hm
      refine ⟨u ++ v, hu.trans hv, fun c hc hmem ↦ ?_⟩
      rcases List.mem_append.mp hmem with hmem | hmem
      · exact hcu c hc hmem
      · exact hcv c hc hmem
  | group n r ih =>
      obtain ⟨m, hm, rfl⟩ := List.mem_map.mp h
      obtain ⟨u, hu, hcu⟩ := ih hm
      exact ⟨u, hu, hcu⟩
  | boundary word =>
      obtain rfl := eq_of_mem_if h
      exact ⟨[], .refl s', fun c _ ↦ List.not_mem_nil⟩
  | start =>
      obtain rfl := eq_of_mem_if h
      exact ⟨[], .refl s', fun c _ ↦ List.not_mem_nil⟩
  | lineStart ends =>
      obtain rfl := eq_of_mem_if h
      exact ⟨[], .refl s', fun c _ ↦ List.not_mem_nil⟩
  | stop =>
      obtain rfl := eq_of_mem_if h
      exact ⟨[], .refl s', fun c _ ↦ List.not_mem_nil⟩
  | notAhead r _ =>
      obtain rfl := eq_of_mem_if h
      exact ⟨[], .refl s', fun c _ ↦ List.not_mem_nil⟩

theorem length_le_of_mem_run {r : Regex α} (s m : Place α) (h : m ∈ run r s) :
    m.after.length ≤ s.after.length := by
  obtain ⟨u, hu, -⟩ := exists_consumed h
  exact hu.length_le

/-! ## What a group has -/

/-- No symbol in the group is `c`. -/
def groupAvoids (n : ℕ) (c : α) : Regex α → Prop
  | empty => True
  | set _ => True
  | seq r t => groupAvoids n c r ∧ groupAvoids n c t
  | alt r t => groupAvoids n c r ∧ groupAvoids n c t
  | star _ r => groupAvoids n c r
  | group k r => (k = n → avoids c r) ∧ groupAvoids n c r
  | boundary _ => True
  | start => True
  | lineStart _ => True
  | stop => True
  | notAhead _ => True

/-- A group is from before, or it has a part of the text, and no symbol it avoids. -/
theorem mem_groups_of_mem_run {r : Regex α} {s m : Place α} (hm : m ∈ run r s) {g : ℕ × List α}
    (hg : g ∈ m.groups) : g ∈ s.groups ∨
      g.2 ⊆ s.after ∧ ∀ c, groupAvoids g.1 c r → c ∉ g.2 := by
  have hlater : ∀ {s m : Place α} {r : Regex α}, m ∈ run r s → m.after ⊆ s.after := by
    intro s m r hm
    obtain ⟨u, hu, -⟩ := exists_consumed hm
    rw [hu.1]
    exact List.subset_append_right u m.after
  induction r generalizing s m with
  | empty =>
      obtain rfl := List.mem_singleton.mp hm
      exact .inl hg
  | set p =>
      obtain ⟨c, rest, -, -, rfl⟩ := mem_run_set_iff.mp hm
      exact .inl hg
  | seq r t ihr iht =>
      obtain ⟨m₁, hm₁, hm⟩ := List.mem_flatMap.mp hm
      rcases iht hm hg with hg | ⟨hsub, havoid⟩
      · exact (ihr hm₁ hg).imp_right fun ⟨hsub, havoid⟩ ↦ ⟨hsub, fun c hc ↦ havoid c hc.1⟩
      · exact .inr ⟨List.Subset.trans hsub (hlater hm₁), fun c hc ↦ havoid c hc.2⟩
  | alt r t ihr iht =>
      rcases List.mem_append.mp hm with hm | hm
      · exact (ihr hm hg).imp_right fun ⟨hsub, havoid⟩ ↦ ⟨hsub, fun c hc ↦ havoid c hc.1⟩
      · exact (iht hm hg).imp_right fun ⟨hsub, havoid⟩ ↦ ⟨hsub, fun c hc ↦ havoid c hc.2⟩
  | star greedy r ih =>
      refine rounds_rule (R := fun s m ↦ g ∈ m.groups → g ∈ s.groups ∨
        g.2 ⊆ s.after ∧ ∀ c, groupAvoids g.1 c r → c ∉ g.2) (fun s hg ↦ .inl hg) ?_ hm hg
      rintro s m₁ m hm₁ - hrest hg
      rcases hrest hg with hg | ⟨hsub, havoid⟩
      · exact ih hm₁ hg
      · exact .inr ⟨List.Subset.trans hsub (hlater hm₁), havoid⟩
  | group n r ih =>
      obtain ⟨m₁, hm₁, rfl⟩ := List.mem_map.mp hm
      rcases List.mem_cons.mp hg with rfl | hg
      · obtain ⟨u, hu, hcu⟩ := exists_consumed hm₁
        rw [hu.upTo_eq]
        refine .inr ⟨?_, fun c hc ↦ hcu c (hc.1 rfl)⟩
        rw [hu.1]
        exact List.subset_append_left u m₁.after
      · exact (ih hm₁ hg).imp_right fun ⟨hsub, havoid⟩ ↦ ⟨hsub, fun c hc ↦ havoid c hc.2⟩
  | boundary word =>
      obtain rfl := eq_of_mem_if hm
      exact .inl hg
  | start =>
      obtain rfl := eq_of_mem_if hm
      exact .inl hg
  | lineStart ends =>
      obtain rfl := eq_of_mem_if hm
      exact .inl hg
  | stop =>
      obtain rfl := eq_of_mem_if hm
      exact .inl hg
  | notAhead r _ =>
      obtain rfl := eq_of_mem_if hm
      exact .inl hg

theorem mem_groups_of_group {m : Place α} {n : ℕ} {u : List α} (h : m.group n = some u) :
    (n, u) ∈ m.groups := by
  obtain ⟨before, after, groups⟩ := m
  induction groups with
  | nil => cases h
  | cons g groups ih =>
      obtain ⟨k, v⟩ := g
      rw [Place.group, List.lookup_cons] at h
      split at h
      · next hk =>
          obtain rfl := eq_of_beq hk
          obtain rfl := Option.some.inj h
          exact List.mem_cons_self
      · exact List.mem_cons_of_mem _ (ih h)

/-- The texts of the groups, each put through `f`. -/
theorem lookup_map_snd {β : Type*} (f : List α → List β) (n : ℕ) (groups : List (ℕ × List α)) :
    (groups.map fun g ↦ (g.1, f g.2)).lookup n = (groups.lookup n).map f := by
  induction groups with
  | nil => rfl
  | cons g groups ih =>
      rw [List.map_cons, List.lookup_cons, List.lookup_cons, ih]
      cases n == g.1 <;> rfl

/-! ## Sequences -/

/-- What each part has, a sequence has. -/
theorem forall_seqAll {P : Regex α → Prop} (hempty : P empty)
    (hseq : ∀ r t, P r → P t → P (seq r t)) {rs : List (Regex α)} (h : ∀ r ∈ rs, P r) :
    P (seqAll rs) := by
  induction rs with
  | nil => exact hempty
  | cons r rs ih =>
      obtain ⟨hr, hrs⟩ := List.forall_mem_cons.mp h
      cases rs with
      | nil => exact hr
      | cons t rs => exact hseq r _ hr (ih hrs)

/-- The same for a text, symbol by symbol. -/
theorem forall_seqAll_map {β : Type*} {P : Regex α → Prop} (hempty : P empty)
    (hseq : ∀ r t, P r → P t → P (seq r t)) {f : β → Regex α} {l : List β}
    (h : ∀ x ∈ l, P (f x)) : P (seqAll (l.map f)) := by
  refine forall_seqAll hempty hseq fun r hr ↦ ?_
  obtain ⟨x, hx, rfl⟩ := List.mem_map.mp hr
  exact h x hx

/-- What the end of a sequence has, and each part in front of it keeps. -/
theorem seqAll_append {P Q : Regex α → Prop} (rs ts : List (Regex α))
    (hseq : ∀ r t, P r → Q t → Q (seq r t)) (hne : ts ≠ []) (hts : Q (seqAll ts))
    (h : ∀ r ∈ rs, P r) :
    Q (seqAll (rs ++ ts)) := by
  induction rs with
  | nil => exact hts
  | cons r rs ih =>
      obtain ⟨hr, hrs⟩ := List.forall_mem_cons.mp h
      obtain ⟨t, rest, ht⟩ := List.exists_cons_of_ne_nil (List.append_ne_nil_of_right_ne_nil rs hne)
      have htail : Q (seqAll (rs ++ ts)) := ih hrs
      rw [ht] at htail
      rw [List.cons_append, ht]
      exact hseq r _ hr htail

theorem run_seq (r t : Regex α) (s : Place α) : run (seq r t) s = (run r s).flatMap (run t) := rfl

theorem run_seqAll_cons (r : Regex α) (rs : List (Regex α)) (s : Place α) :
    run (seqAll (r :: rs)) s = (run r s).flatMap (run (seqAll rs)) := by
  cases rs with
  | nil => exact (List.flatMap_singleton' (run r s)).symm
  | cons t rs => rfl

theorem run_seq_seqAll (rs : List (Regex α)) (t : Regex α) (s : Place α) :
    run (seq (seqAll rs) t) s = run (seqAll (rs ++ [t])) s := by
  induction rs generalizing s with
  | nil => exact List.flatMap_singleton _ _
  | cons r rs ih =>
      rw [List.cons_append, run_seqAll_cons, run, run_seqAll_cons, List.flatMap_assoc]
      exact List.flatMap_congr fun m _ ↦ ih m

theorem run_seq_opt (r t : Regex α) (s : Place α) :
    run (seq (opt r) t) s = run (seq r t) s ++ run t s := by
  have hmore : (run empty s).flatMap (run t) = run t s := List.flatMap_singleton _ _
  rw [← hmore]
  exact List.flatMap_append

theorem run_seq_group (n : ℕ) (r t : Regex α) (s : Place α) : run (seq (group n r) t) s =
    (run r s).flatMap fun m ↦ run t { m with groups := (n, s.upTo m) :: m.groups } :=
  List.flatMap_map _ _ _

theorem mem_run_stop_iff {s s' : Place α} : s' ∈ run stop s ↔ s.after = [] ∧ s' = s := by
  cases hs : s.after <;> simp [run, hs]

/-! ## Repetition -/

/-- At the end of the text no round gets on. -/
theorem rounds_at_end {greedy : Bool} {f : Place α → List (Place α)} {s : Place α}
    (h : s.after.length = 0) (n : ℕ) : rounds greedy f n s = [s] := by
  cases n with
  | zero => rfl
  | succ n => cases greedy <;> simp [rounds, h]

/-- More rounds than symbols are left change nothing. -/
theorem rounds_eq_rounds {greedy : Bool} {f : Place α → List (Place α)} {n m : ℕ} {s : Place α}
    (hn : s.after.length ≤ n) (hm : s.after.length ≤ m) :
    rounds greedy f n s = rounds greedy f m s := by
  induction n generalizing m s with
  | zero => rw [rounds_at_end (Nat.le_zero.mp hn), rounds_at_end (Nat.le_zero.mp hn)]
  | succ n ih =>
      cases m with
      | zero => rw [rounds_at_end (Nat.le_zero.mp hm), rounds_at_end (Nat.le_zero.mp hm)]
      | succ m =>
          have hmore : ((f s).filter fun s' ↦ s'.after.length < s.after.length).flatMap
              (rounds greedy f n) =
                ((f s).filter fun s' ↦ s'.after.length < s.after.length).flatMap
                  (rounds greedy f m) := by
            refine List.flatMap_congr fun s' hs' ↦ ?_
            have hlt : s'.after.length < s.after.length := by simpa using (List.mem_filter.mp hs').2
            exact ih (by omega) (by omega)
          rw [rounds, rounds, hmore]

/-- A repetition is a round that gets on and the repetition again, or nothing. -/
theorem run_star (greedy : Bool) (r : Regex α) (s : Place α) : run (star greedy r) s =
    if greedy then ((run r s).filter fun s' ↦ s'.after.length < s.after.length).flatMap
      (run (star greedy r)) ++ [s]
    else s :: ((run r s).filter fun s' ↦ s'.after.length < s.after.length).flatMap
      (run (star greedy r)) := by
  have hmore : ((run r s).filter fun s' ↦ s'.after.length < s.after.length).flatMap
      (rounds greedy (run r) s.after.length) =
        ((run r s).filter fun s' ↦ s'.after.length < s.after.length).flatMap
          (run (star greedy r)) := by
    refine List.flatMap_congr fun s' hs' ↦ ?_
    have hlt : s'.after.length < s.after.length := by simpa using (List.mem_filter.mp hs').2
    exact rounds_eq_rounds (Nat.le_of_lt hlt) (Nat.le_refl _)
  rw [← hmore]
  exact rounds_eq_rounds (Nat.le_refl _) (Nat.le_succ _)

theorem mem_run_star_iff {greedy : Bool} {r : Regex α} {s s' : Place α} :
    s' ∈ run (star greedy r) s ↔ s' = s ∨ ∃ m ∈ run r s, m.after.length < s.after.length ∧
      s' ∈ run (star greedy r) m := by
  rw [run_star]
  cases greedy with
  | true =>
      simp only [if_true, List.mem_append, List.mem_singleton, List.mem_flatMap, List.mem_filter,
        decide_eq_true_eq, and_assoc]
      exact or_comm
  | false =>
      simp only [Bool.false_eq_true, if_false, List.mem_cons, List.mem_flatMap, List.mem_filter,
        decide_eq_true_eq, and_assoc]

end Regex
