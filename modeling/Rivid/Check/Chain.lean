import Rivid.Check.ChainLines

/-!
# The columns of a builder chain

Breaking the lines of a file in front of the dots of its builder chains changes nothing of what is
extracted exactly if no line that is read loses its builder or a modifier to the break.
-/

namespace Rivid.Check.Drizzle

open Regex Gaps

/-! ## The columns of a layout -/

/-- If each element that counts in one list counts in the other, the two have the same values
exactly if each element has. -/
theorem filterMap_eq_filterMap_iff {α β : Type*} {f g : α → Option β} {l : List α}
    (h : ∀ x ∈ l, (f x).isSome → (g x).isSome) :
    l.filterMap f = l.filterMap g ↔ ∀ x ∈ l, f x = g x := by
  refine ⟨fun heq ↦ ?_, fun hall ↦ List.filterMap_congr hall⟩
  have hle : ∀ l : List α, (∀ x ∈ l, (f x).isSome → (g x).isSome) →
      (l.filterMap f).length ≤ (l.filterMap g).length := by
    intro l h
    rw [List.length_filterMap_eq_countP, List.length_filterMap_eq_countP]
    exact List.countP_mono_left h
  induction l with
  | nil => exact fun x hx ↦ absurd hx List.not_mem_nil
  | cons x l ih =>
      obtain ⟨hx, hl⟩ := List.forall_mem_cons.mp h
      refine List.forall_mem_cons.mpr ?_
      cases hfx : f x with
      | none =>
          rw [List.filterMap_cons_none hfx] at heq
          cases hgx : g x with
          | none =>
              rw [List.filterMap_cons_none hgx] at heq
              exact ⟨rfl, ih hl heq⟩
          | some b =>
              rw [List.filterMap_cons_some hgx] at heq
              have hlen := congrArg List.length heq
              rw [List.length_cons] at hlen
              exact absurd (hle l hl) (by omega)
      | some a =>
          obtain ⟨b, hgx⟩ := Option.isSome_iff_exists.mp (hx (Option.isSome_of_eq_some hfx))
          rw [List.filterMap_cons_some hfx, List.filterMap_cons_some hgx] at heq
          obtain ⟨rfl, hrest⟩ := List.cons.inj heq
          exact ⟨hgx.symm, ih hl hrest⟩

theorem group_map {m : Place (JsString × U16)} (n : ℕ) :
    (m.map Prod.snd).group n = (m.group n).map whole :=
  lookup_map_snd whole n m.groups

/-- The name of a table has no breaks. -/
theorem groupAvoids_tableRe {e : JsString × U16} (h : e.2 = period) :
    groupAvoids 2 e (comap Prod.snd tableRe) := by
  have hword : isWordChar e.2 = false := h ▸ rfl
  have hverbatim : ∀ s, groupAvoids 2 e (comap Prod.snd (verbatim s)) := fun s ↦
    forall_seqAll_map (P := fun r ↦ groupAvoids 2 e (comap Prod.snd r)) trivial
      (fun _ _ hr ht ↦ ⟨hr, ht⟩) fun _ _ ↦ trivial
  simp [tableRe, headingParts, bodyParts, seqAll, comap, groupAvoids, avoids, wordGroup, spaces,
    char, stringQuote, plus, hverbatim, hword]

section Layout

variable (l : ChainLayout) {m : Place (JsString × U16)}

theorem ChainLayout.mem_groups (hm : m ∈ tablesOf l.text) {n : ℕ} {u : List (JsString × U16)}
    (hu : m.group n = some u) : u ⊆ l.text ∧
      ∀ e, groupAvoids n e (comap Prod.snd tableRe) → e ∉ u := by
  obtain ⟨before, after, htext, hrun⟩ := mem_matchAll hm
  rcases mem_groups_of_mem_run hrun (mem_groups_of_group hu) with h | ⟨hsub, havoid⟩
  · cases h
  · refine ⟨fun e he ↦ ?_, havoid⟩
    rw [htext]
    exact List.mem_append_right _ (hsub he)

/-- The name of a table, read with and without the breaks. -/
theorem ChainLayout.fill_name (hm : m ∈ tablesOf l.text) :
    ((fillPlace m).group 2).getD [] = ((m.map Prod.snd).group 2).getD [] := by
  rw [group_fillPlace, group_map]
  cases hu : m.group 2 with
  | none => rfl
  | some u =>
      obtain ⟨hsub, havoid⟩ := l.mem_groups hm hu
      refine fill_of_forall fun e he ↦ ?_
      by_contra hne
      exact havoid e (groupAvoids_tableRe (l.breaks e (hsub he) hne).1) he

theorem ChainLayout.readTable_fill (hm : m ∈ tablesOf l.text) (file : JsString) :
    readTable file (fillPlace m) = (linesOf m).filterMap fun line ↦
      readColumn (((m.map Prod.snd).group 2).getD []) file (firstPart line) := by
  have hbody : ((fillPlace m).group 3).getD [] = fill ((m.group 3).getD []) := by
    rw [group_fillPlace]
    cases m.group 3 <;> rfl
  have hbreaks : BreaksDots ((m.group 3).getD []) := by
    cases hu : m.group 3 with
    | none => exact fun e he ↦ absurd he List.not_mem_nil
    | some u => exact fun e he ↦ l.breaks e ((l.mem_groups hm hu).1 he)
  rw [readTable, filterMap_splitLines, l.fill_name hm, hbody, readLines_fill _ _ hbreaks]
  rfl

theorem readTable_map (m : Place (JsString × U16)) (file : JsString) :
    readTable file (m.map Prod.snd) = (linesOf m).filterMap fun line ↦
      readColumn (((m.map Prod.snd).group 2).getD []) file (whole line) := by
  have hbody : ((m.map Prod.snd).group 3).getD [] = whole ((m.group 3).getD []) := by
    rw [group_map]
    cases m.group 3 <;> rfl
  rw [readTable, filterMap_splitLines, hbody, readLines_whole]
  rfl

/-- The lines of the tables, each with the name of its table. -/
def ChainLayout.tableLines : List (JsString × List (JsString × U16)) :=
  (tablesOf l.text).flatMap fun m ↦
    (linesOf m).map fun line ↦ (((m.map Prod.snd).group 2).getD [], line)

theorem ChainLayout.extract_broken (file : JsString) : extractDrizzleTs l.broken file =
    l.tableLines.filterMap fun (table, line) ↦ readColumn table file (firstPart line) := by
  rw [extractDrizzleTs, matchAll_broken, List.flatMap_map, tableLines, List.filterMap_flatMap]
  refine List.flatMap_congr fun m hm ↦ ?_
  rw [l.readTable_fill hm, List.filterMap_map]
  rfl

theorem ChainLayout.extract_plain (file : JsString) : extractDrizzleTs l.plain file =
    l.tableLines.filterMap fun (table, line) ↦ readColumn table file (whole line) := by
  rw [extractDrizzleTs, matchAll_plain, List.flatMap_map, tableLines, List.filterMap_flatMap]
  refine List.flatMap_congr fun m hm ↦ ?_
  rw [readTable_map, List.filterMap_map]
  rfl

theorem ChainLayout.headKept_of_mem {line : List (JsString × U16)} (h : line ∈ l.lines) :
    headKept line = true := by
  obtain ⟨m, hm, hline⟩ := List.mem_flatMap.mp h
  exact l.heads m hm line hline

theorem ChainLayout.map_snd_tableLines : l.tableLines.map Prod.snd = l.lines := by
  rw [tableLines, List.map_flatMap, lines]
  refine List.flatMap_congr fun m hm ↦ ?_
  rw [List.map_map]
  exact List.map_id _

/-- Breaking the chains leaves the columns as they are exactly if no line with an identifier
loses what makes it a key or unique. -/
theorem extractDrizzleTs_broken_iff (file : JsString) :
    extractDrizzleTs l.broken file = extractDrizzleTs l.plain file ↔
      ∀ line ∈ l.lines, KeepsModifiers line := by
  have hkept : ∀ e ∈ l.tableLines, headKept e.2 = true := fun e he ↦
    l.headKept_of_mem (l.map_snd_tableLines ▸ List.mem_map_of_mem he)
  rw [l.extract_broken, l.extract_plain, filterMap_eq_filterMap_iff, ← l.map_snd_tableLines,
    List.forall_mem_map]
  · exact forall₂_congr fun e he ↦ readColumn_firstPart_iff (hkept e he)
  · exact fun e he ↦ isSome_readColumn_whole (hkept e he)

end Layout

/-! ## A documented schema -/

/-- A text with a break in front of it. -/
def breakBefore (s : String) : List (JsString × U16) :=
  match literal s with
  | [] => []
  | u :: rest => (literal "\n    ", u) :: rest.map fun v ↦ ([], v)

/-- A native uuid as the primary key. -/
def usersUuidV7 : List (JsString × U16) :=
  (literal "export const usersUuidV7 = pgTable(\"users_uuid7\", \x7b\n  id: uuid(\"id\")").map
      (fun u ↦ ([], u)) ++
    breakBefore ".primaryKey()" ++ breakBefore ".$defaultFn(() => uuidv7()),\n  // ...\n\x7d);"

set_option maxRecDepth 10000 in
def usersLayout : ChainLayout where
  text := usersUuidV7
  breaks := by decide
  heads := by decide

set_option maxRecDepth 10000 in
/-- On a line of its own, `.primaryKey()` is not seen. -/
theorem usersLayout_loses_key : ¬ ∀ (l : ChainLayout) (file : JsString),
    extractDrizzleTs l.broken file = extractDrizzleTs l.plain file := by
  intro h
  have hpk : (extractDrizzleTs usersLayout.broken []).map Column.pk =
      (extractDrizzleTs usersLayout.plain []).map Column.pk := congrArg _ (h usersLayout [])
  exact absurd hpk (by decide)

end Rivid.Check.Drizzle
