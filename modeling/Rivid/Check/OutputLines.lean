import Rivid.Check.Report

/-!
# Lines of the output

What of the output is a command is up to the runner that reads it.  It splits what is printed into
lines, where `console.log` ends one or at another line terminator, and takes those for commands
that start with two colons or have a `#` in them, in an older form.  So a line that has neither a
line terminator nor a `#` in it and shows a letter first is read as the line it was written as, and
is no command.
-/

namespace Rivid.Check

/-! ## Lines -/

/-- The text stays on its line, and there is no `#` in it. -/
def Clean (s : JsString) : Prop := ∀ u ∈ s, isLineTerminator u = false ∧ u ≠ hash

/-- A letter, a digit or one of the icons. -/
def startsLine (u : U16) : Bool := isWordChar u || u == 0x2713 || u == 0x2717 || u == 0x26a0

/-- What the text shows first is such a character. -/
def Plain (s : JsString) : Prop :=
  ∃ n u t, s = List.replicate n space ++ u :: t ∧ startsLine u = true

/-- How the lines of the output are read on GitHub: a line that starts with two colons and the name
of a command is a command, and an older form of commands has a `#` in it. -/
structure Runner where
  breaks : U16 → Bool
  isCommand : JsString → Bool
  breaks_lineFeed : breaks lineFeed = true
  breaks_ok : ∀ u, breaks u = true → isLineTerminator u = true
  annotation : ∀ cmd ∈ [literal "error", literal "warning"], ∀ parameters message,
    isCommand (literal "::" ++ cmd ++ literal " " ++ parameters ++ literal "::" ++ message) = true
  plain : ∀ line, line = [] ∨ Plain line → hash ∉ line → isCommand line = false

/-- The lines that are read as commands. -/
def Runner.commands (rn : Runner) (text : JsString) : List JsString :=
  (text.splitOnP rn.breaks).filter rn.isCommand

/-- A character that ends a line or starts a command of the older form. -/
def spoilsLine (c : Char) : Bool := [0xa, 0xd, 0x2028, 0x2029, 0x23].contains c.toNat

/-- A character that starts a word. -/
def startsWord (c : Char) : Bool :=
  decide (c.toNat < 0x10000) && isWordChar (BitVec.ofNat 16 c.toNat)

/-- The characters of a text that starts with a word and stays on its line. -/
def isProse (cs : List Char) : Bool := cs.head?.any startsWord && !cs.any spoilsLine

theorem clean_literal {s : String} (h : s.toList.any spoilsLine = false) :
    Clean (literal s) := by
  intro u hu
  obtain ⟨c, hc, hu⟩ := List.mem_flatMap.mp hu
  have hne := List.any_eq_false.mp h c hc
  have hlt : c.toNat < 0x110000 := c.valid.elim (fun h ↦ h.trans (by decide)) And.right
  rw [spoilsLine] at hne
  generalize c.toNat = n at hlt hne hu
  simp only [List.contains_cons, List.contains_nil, Bool.or_false, Bool.or_eq_true, beq_iff_eq,
    not_or] at hne
  simp only [isLineTerminator, lineFeed, carriageReturn, hash, Bool.or_eq_false_iff,
    beq_eq_false_iff_ne]
  dsimp only at hu
  split at hu
  · obtain rfl := List.mem_singleton.mp hu
    bv_omega
  · simp only [List.mem_cons, List.not_mem_nil, or_false] at hu
    rcases hu with rfl | rfl
    · bv_omega
    · bv_omega

theorem plain_cons {u : U16} (hu : startsLine u = true) (t : JsString) : Plain (u :: t) :=
  ⟨0, u, t, rfl, hu⟩

/-- Such a character is not white space and is no colon. -/
theorem startsLine_ne {u : U16} (hu : startsLine u = true) : isSpace u = false ∧ u ≠ colon := by
  simp only [startsLine, Bool.or_eq_true, beq_iff_eq] at hu
  rcases hu with ((hword | rfl) | rfl) | rfl
  · have hkey : isKeyChar u = true := by rw [isKeyChar, hword, Bool.true_or]
    exact ⟨(isKeyChar_ne hkey).1, (isKeyChar_ne hkey).2.1⟩
  · exact ⟨rfl, by decide⟩
  · exact ⟨rfl, by decide⟩
  · exact ⟨rfl, by decide⟩

theorem plain_literal {s : String} (h : s.toList.head?.any startsWord = true) :
    Plain (literal s) := by
  rw [literal]
  cases hs : s.toList with
  | nil =>
      rw [hs] at h
      cases h
  | cons c cs =>
      rw [hs] at h
      obtain ⟨hlt, hword⟩ := Bool.and_eq_true_iff.mp h
      rw [List.flatMap_cons]
      dsimp only
      rw [if_pos (of_decide_eq_true hlt), List.singleton_append]
      refine plain_cons ?_ _
      rw [startsLine, hword]
      rfl

theorem Clean.append {s t : JsString} (hs : Clean s) (ht : Clean t) : Clean (s ++ t) :=
  List.forall_mem_append.mpr ⟨hs, ht⟩

theorem Clean.joinWith {separator : JsString} {parts : List JsString} (hsep : Clean separator)
    (hparts : ∀ p ∈ parts, Clean p) : Clean (joinWith separator parts) := by
  induction parts with
  | nil => exact List.forall_mem_nil _
  | cons p parts ih =>
      obtain ⟨hp, hparts⟩ := List.forall_mem_cons.mp hparts
      cases parts with
      | nil => exact hp.append (List.forall_mem_nil _)
      | cons q parts => exact hp.append (hsep.append (ih hparts))

theorem Clean.hash_notMem {s : JsString} (h : Clean s) : hash ∉ s := fun hmem ↦
  (h hash hmem).2 rfl

theorem clean_of_isSpace {s : JsString} (h : ∀ u ∈ s, isSpace u = false) (hhash : hash ∉ s) :
    Clean s := by
  refine fun u hu ↦ ⟨?_, fun hu' ↦ hhash (hu' ▸ hu)⟩
  by_contra hline
  have hspace := isSpace_of_isLineTerminator (Bool.not_eq_false _ ▸ hline)
  rw [h u hu] at hspace
  cases hspace

theorem clean_of_isTableChar {s : JsString} (h : ∀ u ∈ s, isTableChar u = true) : Clean s :=
  clean_of_isSpace (fun u hu ↦ (isTableChar_ne (h u hu)).1) fun hmem ↦ by cases h hash hmem

theorem clean_of_isWordChar {s : JsString} (h : ∀ u ∈ s, isWordChar u = true) : Clean s :=
  clean_of_isTableChar fun u hu ↦ by rw [isTableChar, h u hu, Bool.true_or]

theorem prose_literal {s : String} (h : isProse s.toList = true) :
    Clean (literal s) ∧ Plain (literal s) := by
  rw [isProse, Bool.and_eq_true, Bool.not_eq_true'] at h
  exact ⟨clean_literal h.2, plain_literal h.1⟩

theorem Plain.append {s : JsString} (hs : Plain s) (t : JsString) : Plain (s ++ t) := by
  obtain ⟨n, u, rest, rfl, hu⟩ := hs
  exact ⟨n, u, rest ++ t, by simp, hu⟩

theorem Plain.indent {s : JsString} (hs : Plain s) (n : ℕ) :
    Plain (List.replicate n space ++ s) := by
  obtain ⟨m, u, rest, rfl, hu⟩ := hs
  refine ⟨n + m, u, rest, ?_, hu⟩
  rw [← List.append_assoc, List.replicate_append_replicate]

section Lines

variable (rn : Runner)

/-- Lines that are printed are the lines that are read. -/
theorem splitOnP_printed {lines : List JsString} (h : ∀ line ∈ lines, Clean line) :
    (printed lines).splitOnP rn.breaks = lines ++ [[]] := by
  induction lines with
  | nil => rfl
  | cons line lines ih =>
      obtain ⟨hline, hlines⟩ := List.forall_mem_cons.mp h
      have hbreaks : ∀ u ∈ line, rn.breaks u = false := fun u hu ↦ by
        refine Bool.eq_false_iff.mpr fun hbreak ↦ ?_
        have hterminator := rn.breaks_ok u hbreak
        rw [(hline u hu).1] at hterminator
        cases hterminator
      rw [printed, List.flatMap_cons, List.append_assoc, List.singleton_append,
        List.splitOnP_append_cons_of_forall_mem hbreaks lineFeed rn.breaks_lineFeed]
      exact congrArg (line :: ·) (ih hlines)

theorem commands_printed {lines : List JsString} (h : ∀ line ∈ lines, Clean line) :
    rn.commands (printed lines) = lines.filter rn.isCommand := by
  rw [Runner.commands, splitOnP_printed rn h, List.filter_append, List.filter_singleton,
    rn.plain [] (.inl rfl) List.not_mem_nil]
  exact List.append_nil _

end Lines

/-! ## Numbers -/

theorem isDigit_of_mem_indexKey {n : ℕ} {u : U16} (h : u ∈ indexKey n) :
    Drizzle.isDigit u = true := by
  obtain ⟨c, hc, hu⟩ := List.mem_flatMap.mp h
  rw [Nat.toString_eq_ofList_toDigits, String.toList_ofList] at hc
  have hdigit := Nat.isDigit_of_mem_toDigits (by decide) (by decide) hc
  obtain ⟨hle, hge⟩ := Char.isDigit_iff_toNat.mp hdigit
  replace hle : 48 ≤ c.toNat := hle
  replace hge : c.toNat ≤ 57 := hge
  dsimp only at hu
  rw [if_pos (Nat.lt_of_le_of_lt hge (by decide))] at hu
  obtain rfl := List.mem_singleton.mp hu
  rw [Drizzle.isDigit, Bool.and_eq_true, decide_eq_true_eq, decide_eq_true_eq]
  bv_omega

theorem isWordChar_of_mem_indexKey {n : ℕ} {u : U16} (h : u ∈ indexKey n) :
    isWordChar u = true := by
  have hdigit := isDigit_of_mem_indexKey h
  rw [Drizzle.isDigit] at hdigit
  rw [isWordChar, hdigit]
  rfl

theorem literal_cons_ne (c : Char) (s : List Char) : literal (String.ofList (c :: s)) ≠ [] := by
  rw [literal, String.toList_ofList, List.flatMap_cons]
  dsimp only
  split_ifs
  · exact List.cons_ne_nil _ _
  · exact List.cons_ne_nil _ _

theorem indexKey_ne (n : ℕ) : indexKey n ≠ [] := by
  rw [indexKey, Nat.toString_eq_ofList_toDigits]
  obtain ⟨c, s, h⟩ := List.exists_cons_of_ne_nil (Nat.toDigits_ne_nil (n := n) (b := 10))
  rw [h]
  exact literal_cons_ne c s

theorem clean_indexKey (n : ℕ) : Clean (indexKey n) :=
  clean_of_isWordChar fun _ hu ↦ isWordChar_of_mem_indexKey hu

theorem plain_indexKey (n : ℕ) : Plain (indexKey n) := by
  obtain ⟨u, t, h⟩ := List.exists_cons_of_ne_nil (indexKey_ne n)
  have hword : isWordChar u = true := isWordChar_of_mem_indexKey (h ▸ List.mem_cons_self)
  rw [h]
  refine plain_cons ?_ t
  rw [startsLine, hword]
  rfl

end Rivid.Check
