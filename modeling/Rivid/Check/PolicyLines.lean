import Rivid.Check.Policy

/-!
# The lines of a policy

A line of the documented layout is an entry of a map, the first entry of an item of a list, or
the key of a map or list whose entries come below it; behind it there may be a comment.  The
parser knows no comments behind other text: a value takes the comment of its line with it.

There is one lemma for what the parser does on each kind of line (`State.step_line`,
`State.step_headerLine`, `State.step_itemLine`), whatever frames are open.
-/

namespace Rivid.Check

/-! ## Keys -/

/-- `[A-Za-z0-9_][A-Za-z0-9_-]*`. -/
def IsKeyText (key : JsString) : Prop :=
  key.head?.any isWordChar = true ∧ ∀ u ∈ key, isKeyChar u = true

instance : DecidablePred IsKeyText := fun key ↦
  have := List.decidableBAll (fun u ↦ isKeyChar u = true) key
  inferInstanceAs (Decidable (_ ∧ _))

def rividKey : JsString := JsString.ofAscii "rivid"

def allowKey : JsString := JsString.ofAscii "allow"

theorem IsKeyText.solid {key : JsString} (h : IsKeyText key) : Solid key := by
  refine Solid.of_forall ?_ fun u hu ↦ (isKeyChar_ne (h.2 u hu)).1
  rintro rfl
  exact absurd h.1 (by decide)

theorem isKeyText_rividKey : IsKeyText rividKey := by decide

theorem isKeyText_allowKey : IsKeyText allowKey := by decide

theorem rividKey_ne_proto : rividKey ≠ proto := by decide

theorem allowKey_ne_proto : allowKey ≠ proto := by decide

/-- A line that starts with a key is neither a comment nor a list item. -/
theorem IsKeyText.head_ne {key : JsString} (h : IsKeyText key) (s : JsString) :
    (key ++ s).head? ≠ some hash ∧ (key ++ s).head? ≠ some dash := by
  obtain ⟨u, t, rfl⟩ := List.exists_cons_of_ne_nil h.solid.ne
  refine ⟨fun heq ↦ ?_, fun heq ↦ ?_⟩
  · exact (isKeyChar_ne (h.2 u List.mem_cons_self)).2.2 (Option.some.inj heq)
  · exact ne_dash_of_isWordChar h.1 (Option.some.inj heq)

/-! ## Comments -/

/-- A comment behind a line: blanks, and `#` with text to the end of the line. -/
structure Comment where
  gap : JsString
  text : JsString
  gap_ne : gap ≠ []
  blank : ∀ u ∈ gap, isSpace u = true ∧ isLineTerminator u = false
  line : ∀ u ∈ text, isLineTerminator u = false

namespace Comment

/-- The comment as it is written behind a line, if there is one. -/
def written : Option Comment → JsString
  | none => []
  | some c => c.gap ++ hash :: c.text

/-- The comment from its `#` to where the line ends once it is trimmed. -/
def body : Option Comment → JsString
  | none => []
  | some c => trimEnd (hash :: c.text)

/-- The comment behind a trimmed line. -/
def seen : Option Comment → JsString
  | none => []
  | some c => c.gap ++ body (some c)

variable (c : Comment)

theorem body_ne : body (some c) ≠ [] := by
  rw [body, trimEnd, Ne, List.rdropWhile_eq_nil_iff]
  exact fun h ↦ absurd (h hash List.mem_cons_self) (by decide)

theorem head_body : (body (some c)).head? = some hash := by
  obtain ⟨t, ht⟩ : body (some c) <+: hash :: c.text := List.rdropWhile_prefix isSpace _
  have hhead : (body (some c) ++ t).head? = (body (some c)).head? :=
    List.head?_append_of_ne_nil _ (body_ne c)
  rw [← hhead, ht]
  rfl

theorem solid_body : Solid (body (some c)) where
  ne := body_ne c
  head := by
    rw [head_body]
    rfl
  last := by
    rw [List.getLast?_eq_getLast_of_ne_nil (body_ne c)]
    exact Bool.eq_false_iff.mpr (List.rdropWhile_last_not isSpace _ (body_ne c))
  line := by
    intro u hu
    have hprefix : body (some c) <+: hash :: c.text := List.rdropWhile_prefix isSpace _
    rcases List.mem_cons.mp (List.IsPrefix.subset hprefix hu) with rfl | hu
    · rfl
    · exact c.line u hu

variable {s : JsString}

theorem solid_seen (h : Solid s) (c : Option Comment) : Solid (s ++ seen c) := by
  cases c with
  | none => exact (List.append_nil s).symm ▸ h
  | some c => exact h.append c.gap (fun u hu ↦ (c.blank u hu).2) (solid_body c)

theorem trimEnd_written (h : Solid s) (c : Option Comment) :
    trimEnd (s ++ written c) = s ++ seen c := by
  cases c with
  | none => rw [written, seen, List.append_nil, h.trimEnd_eq]
  | some c =>
      rw [written, seen, ← List.append_assoc, trimEnd_append _ (body_ne c), List.append_assoc]
      rfl

/-- Behind a colon only the comment is left. -/
theorem restOfLine_seen (c : Option Comment) : restOfLine (seen c) = some (body c) := by
  cases c with
  | none => rfl
  | some c =>
      have htrim : trimStart (seen (some c)) = trimStart (body (some c)) :=
        List.dropWhile_append_of_pos fun u hu ↦ (c.blank u hu).1
      rw [← (solid_body c).restOfLine_eq, restOfLine, restOfLine, htrim]

end Comment

/-! ## Lines -/

/-- An entry `key: value`, with what is written behind it. -/
structure Entry where
  key : JsString
  value : JsString
  comment : Option Comment
  isKeyText : IsKeyText key
  solid : Solid value

namespace Entry

variable (e : Entry)

/-- Whether the entry is a property of its object; `__proto__` sets the prototype instead. -/
def isOwn : Bool := e.key ≠ proto

/-- What the parser takes for the value. -/
def read : JsString := e.value ++ Comment.seen e.comment

def item : Item := coerce e.read

def property : JsString × Value := (e.key, .item e.item)

def written : JsString := e.key ++ colon :: space :: e.value ++ Comment.written e.comment

/-- The entry as it is on the trimmed line. -/
def trimmed : JsString := e.key ++ colon :: space :: e.read

theorem solid_read : Solid e.read := Comment.solid_seen e.solid e.comment

theorem solid_plain : Solid (e.key ++ colon :: space :: e.value) := by
  have hgap : ∀ u ∈ [colon, space], isLineTerminator u = false := by
    rintro u (_ | ⟨_, _ | ⟨_, ⟨⟩⟩⟩) <;> rfl
  exact e.isKeyText.solid.append [colon, space] hgap e.solid

theorem trimmed_eq : e.trimmed = e.key ++ colon :: space :: e.value ++ Comment.seen e.comment := by
  rw [trimmed, read, List.append_assoc]
  rfl

theorem matchKeyValue_trimmed : matchKeyValue e.trimmed = some (e.key, e.read) := by
  rw [trimmed, matchKeyValue_append e.isKeyText.1 e.isKeyText.2, e.solid_read.restOfLine_space]
  rfl

end Entry

/-- `key: value` with `n` blanks in front. -/
def Entry.line (n : ℕ) (e : Entry) : JsString := List.replicate n space ++ e.written

/-- `- key: value` with `n` blanks in front. -/
def Entry.itemLine (n : ℕ) (e : Entry) : JsString :=
  List.replicate n space ++ (dash :: space :: e.written)

/-- `key:` with `n` blanks in front. -/
def headerLine (n : ℕ) (key : JsString) (comment : Option Comment) : JsString :=
  List.replicate n space ++ (key ++ [colon] ++ Comment.written comment)

theorem solid_item {s : JsString} (h : Solid s) : Solid (dash :: space :: s) :=
  (Solid.singleton (u := dash) (by decide)).append [space] (by simp; decide) h

theorem solid_header {key : JsString} (h : IsKeyText key) : Solid (key ++ [colon]) :=
  h.solid.append [] (by simp) (Solid.singleton (by decide))

/-! ## Popping frames -/

namespace State

/-- The stack of a state from which no frame is popped. -/
def Popped (s : State) (n : ℤ) : Prop := s.below = [] ∨ s.top.indent < n

theorem pop_of_popped {s : State} {n : ℤ} (h : s.Popped n) : s.pop n = s := by
  obtain ⟨heap, top, below⟩ := s
  have hframes : popFrames n top below = (top, below) := by
    cases below with
    | nil => rfl
    | cons f fs => exact if_neg (not_le.mpr (h.resolve_left (List.cons_ne_nil f fs)))
  rw [pop, hframes]

/-- Popping down to an indentation and then further is popping further at once. -/
theorem pop_pop (s : State) {m n : ℤ} (h : n ≤ m) : (s.pop m).pop n = s.pop n := by
  have hframes : ∀ below top, popFrames n (popFrames m top below).1 (popFrames m top below).2 =
      popFrames n top below := by
    intro below
    induction below with
    | nil => exact fun _ ↦ rfl
    | cons f fs ih =>
        intro top
        by_cases hm : m ≤ top.indent
        · rw [popFrames, if_pos hm, ih f, popFrames, if_pos (h.trans hm)]
        · rw [show popFrames m top (f :: fs) = (top, f :: fs) from if_neg hm]
  rw [pop, pop, hframes]
  rfl

theorem popped_pop (s : State) (n : ℤ) : (s.pop n).Popped n := by
  have hframes : ∀ below top, (popFrames n top below).2 = [] ∨
      (popFrames n top below).1.indent < n := by
    intro below
    induction below with
    | nil => exact fun _ ↦ Or.inl rfl
    | cons f fs ih =>
        intro top
        by_cases hn : n ≤ top.indent
        · rw [popFrames, if_pos hn]
          exact ih f
        · rw [popFrames, if_neg hn]
          exact Or.inr (not_le.mp hn)
  exact hframes s.below s.top

end State

/-! ## One line -/

section Written

variable (n : ℕ) {line : JsString}

theorem trimStart_written (h : Solid line) (c : Option Comment) :
    trimStart (List.replicate n space ++ (line ++ Comment.written c)) =
      line ++ Comment.written c := by
  have hspace : ∀ u ∈ List.replicate n space, isSpace u = true := by
    intro u hu
    rw [List.eq_of_mem_replicate hu]
    rfl
  obtain ⟨u, t, rfl⟩ := List.exists_cons_of_ne_nil h.ne
  rw [trimStart, List.dropWhile_append_of_pos hspace]
  exact List.dropWhile_cons_of_neg (Bool.eq_false_iff.mp h.head)

theorem trim_written (h : Solid line) (c : Option Comment) :
    trim (List.replicate n space ++ (line ++ Comment.written c)) = line ++ Comment.seen c := by
  rw [trim, trimStart_written n h, Comment.trimEnd_written h]

end Written

namespace State

/-- A solid line that is no comment, with its indentation and a comment behind it. -/
theorem step_written (s : State) (n : ℕ) {line : JsString} (h : Solid line)
    (hhash : line.head? ≠ some hash) (c : Option Comment) :
    s.step (List.replicate n space ++ (line ++ Comment.written c)) =
      (s.pop n).trimmedLine n (line ++ Comment.seen c) := by
  have hindent : ((List.replicate n space ++ (line ++ Comment.written c)).length : ℤ) -
      (line ++ Comment.written c).length = n := by
    rw [List.length_append, List.length_replicate]
    omega
  rw [step, trim_written n h, trimStart_written n h, List.head?_append_of_ne_nil _ h.ne,
    if_neg fun hor ↦ hor.elim (List.append_ne_nil_of_left_ne_nil h.ne _) hhash]
  simp only [hindent]

theorem step_line (s : State) (n : ℕ) (e : Entry) :
    s.step (e.line n) = (s.pop n).keyValue n e.key e.read := by
  have hne := e.isKeyText.head_ne (colon :: space :: e.value)
  have hdash : e.trimmed.head? ≠ some dash := (e.isKeyText.head_ne _).2
  rw [Entry.line, Entry.written, step_written s n e.solid_plain hne.1, ← e.trimmed_eq,
    trimmedLine, matchList_of_ne hdash, e.matchKeyValue_trimmed]

theorem step_headerLine (s : State) (n : ℕ) {key : JsString} (h : IsKeyText key)
    (c : Option Comment) :
    s.step (headerLine n key c) = (s.pop n).keyValue n key (Comment.body c) := by
  have hline : key ++ [colon] ++ Comment.seen c = key ++ colon :: Comment.seen c :=
    List.append_assoc _ _ _
  rw [headerLine, step_written s n (solid_header h) (h.head_ne _).1, trimmedLine, hline,
    matchList_of_ne (h.head_ne _).2, matchKeyValue_append h.1 h.2, Comment.restOfLine_seen]
  rfl

theorem step_itemLine (s : State) (n : ℕ) (e : Entry) :
    s.step (e.itemLine n) = (s.pop n).listItem n e.trimmed := by
  have htrimmed : dash :: space :: (e.key ++ colon :: space :: e.value) ++ Comment.seen e.comment =
      dash :: space :: e.trimmed := by
    rw [e.trimmed_eq]
    rfl
  have hread : Solid e.trimmed := by
    rw [e.trimmed_eq]
    exact Comment.solid_seen e.solid_plain e.comment
  have hstep := step_written s n (solid_item e.solid_plain) (by simp; decide) e.comment
  rw [htrimmed, trimmedLine, matchList_dash hread] at hstep
  exact hstep

end State

end Rivid.Check
