import Rivid.Binding.Js
import Mathlib.Data.List.DropRight
import Mathlib.Data.List.Infix

/-!
# The text of a policy file

What `parsePolicyYaml` does to text: `trim`, the split into lines, and its two
regular expressions.  The strings are code units, and so are the regular
expressions, which have no `u` flag.

Both expressions end in `\s*(.*)$`.  Giving back some of the space `\s*` took
only makes the rest longer, so it matches exactly if what follows all of the
space has no line terminator, and that is the group.
-/

namespace Rivid.Check

/-! ## Characters -/

def lineFeed : U16 := 0xa
def carriageReturn : U16 := 0xd
def space : U16 := 0x20
def hash : U16 := 0x23
def colon : U16 := 0x3a
def dash : U16 := 0x2d

/-- `\s`, which is also what `trim` removes. -/
def isSpace (u : U16) : Bool :=
  (0x9 ≤ u && u ≤ 0xd) || u == 0x20 || u == 0xa0 || u == 0x1680 || (0x2000 ≤ u && u ≤ 0x200a) ||
    u == 0x2028 || u == 0x2029 || u == 0x202f || u == 0x205f || u == 0x3000 || u == 0xfeff

/-- The characters `.` does not match. -/
def isLineTerminator (u : U16) : Bool :=
  u == lineFeed || u == carriageReturn || u == 0x2028 || u == 0x2029

/-- `\w`. -/
def isWordChar (u : U16) : Bool :=
  (0x30 ≤ u && u ≤ 0x39) || (0x41 ≤ u && u ≤ 0x5a) || u == 0x5f || (0x61 ≤ u && u ≤ 0x7a)

/-- `[\w-]`. -/
def isKeyChar (u : U16) : Bool := isWordChar u || u == dash

/-- `["']`. -/
def isQuote (u : U16) : Bool := u == 0x22 || u == 0x27

/-- A character of a key is neither space nor a mark of the layout. -/
theorem isKeyChar_ne {u : U16} (h : isKeyChar u = true) :
    isSpace u = false ∧ u ≠ colon ∧ u ≠ hash := by
  simp only [isKeyChar, isWordChar, isSpace, dash, colon, hash, Bool.or_eq_true, Bool.and_eq_true,
    decide_eq_true_eq, beq_iff_eq, Bool.or_eq_false_iff, Bool.and_eq_false_imp,
    decide_eq_false_iff_not, beq_eq_false_iff_ne] at h ⊢
  bv_omega

theorem isWordChar_of_isSpace {u : U16} (h : isSpace u = true) : isWordChar u = false := by
  refine Bool.eq_false_iff.mpr fun hword ↦ ?_
  have hkey : isKeyChar u = true := by rw [isKeyChar, hword, Bool.true_or]
  rw [(isKeyChar_ne hkey).1] at h
  cases h

/-- A word character is no dash. -/
theorem ne_dash_of_isWordChar {u : U16} (h : isWordChar u = true) : u ≠ dash := by
  rintro rfl
  exact absurd h (by decide)

/-- Line terminators are space. -/
theorem isSpace_of_isLineTerminator {u : U16} (h : isLineTerminator u = true) :
    isSpace u = true := by
  simp only [isLineTerminator, Bool.or_eq_true, beq_iff_eq] at h
  rcases h with ((rfl | rfl) | rfl) | rfl <;> rfl

/-! ## Trimming and lines -/

def trimStart (s : JsString) : JsString := s.dropWhile isSpace

def trimEnd (s : JsString) : JsString := s.rdropWhile isSpace

def trim (s : JsString) : JsString := trimEnd (trimStart s)

/-- `text.split(/\r?\n/)`: a carriage return in front of a line feed goes with it. -/
def splitLines : JsString → List JsString
  | [] => [[]]
  | u :: s =>
      if u = lineFeed then [] :: splitLines s
      else if u = carriageReturn ∧ s.head? = some lineFeed then splitLines s
      else match splitLines s with
        | [] => [[u]]
        | line :: lines => (u :: line) :: lines

/-- A blank in front of the end of a line is not trimmed. -/
theorem trimEnd_append (a : JsString) {b : JsString} (h : trimEnd b ≠ []) :
    trimEnd (a ++ b) = a ++ trimEnd b := by
  induction b using List.reverseRecOn with
  | nil => exact absurd rfl h
  | append_singleton b u ih =>
      rw [trimEnd] at h
      rw [← List.append_assoc, trimEnd, trimEnd]
      by_cases hu : isSpace u = true
      · rw [List.rdropWhile_concat_pos _ _ _ hu] at h
        rw [List.rdropWhile_concat_pos _ _ _ hu, List.rdropWhile_concat_pos _ _ _ hu]
        exact ih h
      · rw [List.rdropWhile_concat_neg _ _ _ hu, List.rdropWhile_concat_neg _ _ _ hu,
          List.append_assoc]

theorem trimEnd_eq_nil_iff {s : JsString} : trimEnd s = [] ↔ ∀ u ∈ s, isSpace u = true :=
  List.rdropWhile_eq_nil_iff

theorem trimEnd_append_of_nil (a : JsString) {b : JsString} (h : trimEnd b = []) :
    trimEnd (a ++ b) = trimEnd a := by
  have hspace : ∀ u ∈ b.reverse, isSpace u = true :=
    fun u hu ↦ trimEnd_eq_nil_iff.mp h u (List.mem_reverse.mp hu)
  rw [trimEnd, trimEnd, List.rdropWhile, List.rdropWhile, List.reverse_append,
    List.dropWhile_append_of_pos hspace]

theorem trimEnd_append_of_last {a : JsString} (ha : a.getLast?.any isSpace = false) (b : JsString) :
    trimEnd (a ++ b) = a ++ trimEnd b := by
  by_cases hb : trimEnd b = []
  · rw [trimEnd_append_of_nil a hb, hb, List.append_nil, trimEnd, List.rdropWhile_eq_self_iff]
    intro hne
    rw [List.getLast?_eq_getLast_of_ne_nil hne] at ha
    exact Bool.eq_false_iff.mp ha
  · exact trimEnd_append a hb

theorem trimEnd_cons_of_ne (u : U16) {s : JsString} (h : trimEnd s ≠ []) :
    trimEnd (u :: s) = u :: trimEnd s :=
  trimEnd_append [u] h

theorem trimEnd_cons_of_eq {u : U16} {s : JsString} (h : trimEnd s = []) :
    trimEnd (u :: s) = trimEnd [u] := by
  rw [trimEnd_eq_nil_iff] at h
  by_cases hu : isSpace u = true
  · rw [trimEnd_eq_nil_iff.mpr (List.forall_mem_cons.mpr ⟨hu, h⟩),
      trimEnd_eq_nil_iff.mpr (List.forall_mem_singleton.mpr hu)]
  · induction s using List.reverseRecOn with
    | nil => rfl
    | append_singleton s v ih =>
        obtain ⟨hs, hv⟩ := List.forall_mem_append.mp h
        have hv : isSpace v = true := hv v List.mem_cons_self
        rw [← List.cons_append, trimEnd, List.rdropWhile_concat_pos _ _ _ hv]
        exact ih hs

theorem trimEnd_cons_congr (u : U16) {s t : JsString} (h : trimEnd s = trimEnd t) :
    trimEnd (u :: s) = trimEnd (u :: t) := by
  by_cases hs : trimEnd s = []
  · rw [trimEnd_cons_of_eq hs, trimEnd_cons_of_eq (h.symm.trans hs)]
  · rw [trimEnd_cons_of_ne u hs, trimEnd_cons_of_ne u fun ht ↦ hs (h.trans ht), h]

theorem trim_cons_of_isSpace {u : U16} (hu : isSpace u = true) (s : JsString) :
    trim (u :: s) = trim s := by
  rw [trim, trimStart, List.dropWhile_cons_of_pos hu]
  rfl

theorem trim_cons_of_not_isSpace {u : U16} (hu : isSpace u = false) (s : JsString) :
    trim (u :: s) = trimEnd (u :: s) := by
  rw [trim, trimStart, List.dropWhile_cons_of_neg (Bool.eq_false_iff.mp hu)]

theorem trimStart_trimEnd (s : JsString) : trimStart (trimEnd s) = trim s := by
  induction s with
  | nil => rfl
  | cons u s ih =>
      cases hu : isSpace u with
      | true =>
          rw [trim_cons_of_isSpace hu, ← ih]
          by_cases hs : trimEnd s = []
          · rw [trimEnd_cons_of_eq hs, hs,
              trimEnd_eq_nil_iff.mpr (List.forall_mem_singleton.mpr hu)]
          · rw [trimEnd_cons_of_ne u hs, trimStart, List.dropWhile_cons_of_pos hu]
            rfl
      | false =>
          have hu' : ¬ isSpace u = true := Bool.eq_false_iff.mp hu
          rw [trim_cons_of_not_isSpace hu]
          by_cases hs : trimEnd s = []
          · have hone : trimEnd [u] = [u] := List.rdropWhile_concat_neg isSpace [] u hu'
            rw [trimEnd_cons_of_eq hs, hone, trimStart, List.dropWhile_cons_of_neg hu']
          · rw [trimEnd_cons_of_ne u hs, trimStart, List.dropWhile_cons_of_neg hu']

/-- What is trimmed at the end makes no difference. -/
theorem trim_congr {s t : JsString} (h : trimEnd s = trimEnd t) : trim s = trim t := by
  rw [← trimStart_trimEnd, h, trimStart_trimEnd]

/-! ## The regular expressions -/

/-- `\s*(.*)$`: the group. -/
def restOfLine (s : JsString) : Option JsString :=
  if (trimStart s).any isLineTerminator then none else some (trimStart s)

/-- `/^-\s+(.*)$/`: the group. -/
def matchList : JsString → Option JsString
  | u :: v :: s => if u = dash ∧ isSpace v then restOfLine s else none
  | _ => none

/-- `/^([\w][\w-]*):\s*(.*)$/`: the two groups. -/
def matchKeyValue (line : JsString) : Option (JsString × JsString) :=
  let key := line.takeWhile isKeyChar
  match line.dropWhile isKeyChar with
  | u :: s =>
      if u = colon ∧ key.head?.any isWordChar then (restOfLine s).map fun value ↦ (key, value)
      else none
  | [] => none

/-- `s.replace(/^["']|["']$/g, '')`. -/
def stripQuotes (s : JsString) : JsString :=
  let s := if s.head?.any isQuote then s.tail else s
  if s.getLast?.any isQuote then s.dropLast else s

/-! ## Solid text

The pieces a line is put together from: they are not empty, neither start nor end
with space, and lie on one line, that is, have no line terminator in them. -/

structure Solid (s : JsString) : Prop where
  ne : s ≠ []
  head : s.head?.any isSpace = false
  last : s.getLast?.any isSpace = false
  line : ∀ u ∈ s, isLineTerminator u = false

namespace Solid

instance : DecidablePred Solid := fun s ↦
  have := List.decidableBAll (fun u ↦ isLineTerminator u = false) s
  decidable_of_iff (s ≠ [] ∧ s.head?.any isSpace = false ∧ s.getLast?.any isSpace = false ∧
      ∀ u ∈ s, isLineTerminator u = false)
    ⟨fun ⟨hne, hhead, hlast, hline⟩ ↦ ⟨hne, hhead, hlast, hline⟩,
      fun h ↦ ⟨h.ne, h.head, h.last, h.line⟩⟩

theorem singleton {u : U16} (h : isSpace u = false) : Solid [u] where
  ne := List.cons_ne_nil u []
  head := h
  last := h
  line := by
    intro v hv
    obtain rfl := List.mem_singleton.mp hv
    exact Bool.eq_false_iff.mpr fun ht ↦
      Bool.eq_false_iff.mp h (isSpace_of_isLineTerminator ht)

/-- Text of characters that are no space is solid. -/
theorem of_forall {s : JsString} (hne : s ≠ []) (h : ∀ u ∈ s, isSpace u = false) : Solid s where
  ne := hne
  head := by
    obtain ⟨u, t, rfl⟩ := List.exists_cons_of_ne_nil hne
    exact h u List.mem_cons_self
  last := by
    rw [List.getLast?_eq_getLast_of_ne_nil hne]
    exact h _ (List.getLast_mem hne)
  line := fun u hu ↦ Bool.eq_false_iff.mpr fun ht ↦
    Bool.eq_false_iff.mp (h u hu) (isSpace_of_isLineTerminator ht)

/-- Two pieces with a gap on the same line between them. -/
theorem append {a c : JsString} (ha : Solid a) (b : JsString)
    (hb : ∀ u ∈ b, isLineTerminator u = false) (hc : Solid c) : Solid (a ++ (b ++ c)) where
  ne := List.append_ne_nil_of_left_ne_nil ha.ne _
  head := by
    rw [List.head?_append_of_ne_nil _ ha.ne]
    exact ha.head
  last := by
    rw [List.getLast?_append_of_ne_nil _ (List.append_ne_nil_of_right_ne_nil _ hc.ne),
      List.getLast?_append_of_ne_nil _ hc.ne]
    exact hc.last
  line := by
    intro u hu
    rcases List.mem_append.mp hu with hu | hu
    · exact ha.line u hu
    · rcases List.mem_append.mp hu with hu | hu
      · exact hb u hu
      · exact hc.line u hu

variable {s : JsString}

theorem trimStart_eq (h : Solid s) : trimStart s = s := by
  obtain ⟨u, t, rfl⟩ := List.exists_cons_of_ne_nil h.ne
  exact List.dropWhile_cons_of_neg (Bool.eq_false_iff.mp h.head)

theorem trimEnd_eq (h : Solid s) : trimEnd s = s := by
  refine List.rdropWhile_eq_self_iff.mpr fun hne ↦ Bool.eq_false_iff.mp ?_
  have hlast := h.last
  rw [List.getLast?_eq_getLast_of_ne_nil hne] at hlast
  exact hlast

theorem restOfLine_eq (h : Solid s) : restOfLine s = some s := by
  rw [restOfLine, h.trimStart_eq, if_neg]
  rw [List.any_eq_true]
  rintro ⟨u, hu, ht⟩
  exact Bool.eq_false_iff.mp (h.line u hu) ht

/-- The rest of a line is read without the blank in front of it. -/
theorem restOfLine_space (h : Solid s) : restOfLine (space :: s) = some s := by
  rw [← h.restOfLine_eq, restOfLine, restOfLine, trimStart, List.dropWhile_cons_of_pos rfl]
  rfl

end Solid

/-! ## Lines read back -/

/-- The first line of a text. -/
theorem splitLines_line {line : JsString} (hlf : lineFeed ∉ line) (hcr : carriageReturn ∉ line)
    (s : JsString) : splitLines (line ++ lineFeed :: s) = line :: splitLines s := by
  induction line with
  | nil => rfl
  | cons u line ih =>
      rw [List.mem_cons, not_or] at hlf hcr
      rw [List.cons_append, splitLines, if_neg (Ne.symm hlf.1), if_neg fun h ↦ hcr.1 h.1.symm,
        ih hlf.2 hcr.2]

/-- The lines of a text are the lines it was put together from and, after the last
line feed, an empty one. -/
theorem splitLines_flatMap {lines : List JsString}
    (h : ∀ line ∈ lines, lineFeed ∉ line ∧ carriageReturn ∉ line) :
    splitLines (lines.flatMap (· ++ [lineFeed])) = lines ++ [[]] := by
  induction lines with
  | nil => rfl
  | cons line lines ih =>
      obtain ⟨hline, hlines⟩ := List.forall_mem_cons.mp h
      rw [List.flatMap_cons, List.append_assoc, List.singleton_append,
        splitLines_line hline.1 hline.2, ih hlines]
      rfl

/-- A carriage return at the end of a line is trimmed anyway. -/
theorem map_trimEnd_splitLines (s : JsString) :
    (splitLines s).map trimEnd = (s.splitOn lineFeed).map trimEnd := by
  induction s with
  | nil => rfl
  | cons u s ih =>
      rw [splitLines, List.splitOn_cons_eq_if_modifyHead]
      by_cases hlf : u = lineFeed
      · rw [if_pos hlf, if_pos (beq_iff_eq.mpr hlf), List.map_cons, List.map_cons, ih]
      · rw [if_neg hlf, if_neg fun h ↦ hlf (eq_of_beq h)]
        by_cases hcr : u = carriageReturn ∧ s.head? = some lineFeed
        · obtain ⟨rfl, hs⟩ := hcr
          obtain ⟨s, rfl⟩ := List.head?_eq_some_iff.mp hs
          rw [if_pos ⟨rfl, rfl⟩, ih, List.splitOn_cons_eq_if_modifyHead, if_pos (BEq.refl _)]
          rfl
        · rw [if_neg hcr]
          obtain ⟨line, lines, hsplit⟩ :=
            List.exists_cons_of_ne_nil (List.splitOn_ne_nil lineFeed s)
          rw [hsplit] at ih ⊢
          cases hlines : splitLines s with
          | nil =>
              rw [hlines] at ih
              cases ih
          | cons line' lines' =>
              rw [hlines, List.map_cons, List.map_cons] at ih
              obtain ⟨hline, hrest⟩ := List.cons.inj ih
              simp only [List.modifyHead_cons, List.map_cons]
              rw [trimEnd_cons_congr u hline, hrest]

theorem map_trim_splitLines (s : JsString) :
    (splitLines s).map trim = (s.splitOn lineFeed).map trim := by
  have htrim : trim = trimStart ∘ trimEnd := funext fun s ↦ (trimStart_trimEnd s).symm
  rw [htrim, ← List.map_map, map_trimEnd_splitLines, List.map_map]

/-- What is behind a text takes nothing away from it but the space at its end. -/
theorem trim_isPrefix_append (a b : JsString) : trim a <+: trim (a ++ b) := by
  by_cases ha : trimStart a = []
  · rw [trim, ha]
    exact List.nil_prefix
  · have hstart : trimStart (a ++ b) = trimStart a ++ b := by
      have hne : ¬ (a.dropWhile isSpace).isEmpty := fun h ↦ ha (List.isEmpty_iff.mp h)
      rw [trimStart, List.dropWhile_append, if_neg hne]
      rfl
    rw [trim, trim, hstart]
    by_cases hb : trimEnd b = []
    · rw [trimEnd_append_of_nil _ hb]
    · rw [trimEnd_append _ hb]
      exact (List.rdropWhile_prefix isSpace _).trans (List.prefix_append _ _)

/-- A key, a colon and the rest of the line. -/
theorem matchKeyValue_append {key : JsString} (hhead : key.head?.any isWordChar = true)
    (hkey : ∀ u ∈ key, isKeyChar u = true) (s : JsString) :
    matchKeyValue (key ++ colon :: s) = (restOfLine s).map fun value ↦ (key, value) := by
  have htake : (key ++ colon :: s).takeWhile isKeyChar = key := by
    rw [List.takeWhile_append_of_pos hkey, List.takeWhile_cons_of_neg (by decide), List.append_nil]
  have hdrop : (key ++ colon :: s).dropWhile isKeyChar = colon :: s := by
    rw [List.dropWhile_append_of_pos hkey, List.dropWhile_cons_of_neg (by decide)]
  simp only [matchKeyValue, htake, hdrop]
  exact if_pos ⟨trivial, hhead⟩

/-- A dash, a blank and the rest of the line. -/
theorem matchList_dash {s : JsString} (h : Solid s) : matchList (dash :: space :: s) = some s := by
  rw [matchList, if_pos ⟨rfl, rfl⟩]
  exact h.restOfLine_eq

/-- A line that does not start with a dash is no list item. -/
theorem matchList_of_ne {s : JsString} (h : s.head? ≠ some dash) : matchList s = none := by
  match s, h with
  | [], _ => rfl
  | [_], _ => rfl
  | u :: v :: t, h =>
      rw [matchList, if_neg]
      rintro ⟨rfl, -⟩
      exact h rfl

end Rivid.Check
