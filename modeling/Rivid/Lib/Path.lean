import Mathlib.Data.List.Basic
import Mathlib.Data.List.Infix

/-!
# POSIX paths

Paths as `path.posix` of Node handles them, over any characters: `normalize`,
`join`, `relative` and `extname`, all by the segments between the separators.

A normalized path is put together from segments that normalizing leaves alone
(`Stack`): `..` only in front, and only if the path is relative, and names behind.
So joining names to a path appends them to its segments (`foldl_join`), and
neither the path relative to the first one (`relative_foldl_join`) nor the
extension depends on what is in front of the names.
-/

universe u

namespace PosixPath

variable {α : Type u} [DecidableEq α] (sep dot : α)

/-! ## Operations -/

/-- One segment of a path that is being normalized; the segments so far stand with the
last one first. -/
def push (above : Bool) (stack : List (List α)) (s : List α) : List (List α) :=
  if s = [] ∨ s = [dot] then stack
  else if s = [dot, dot] then
    match stack with
    | [] => if above then [s] else []
    | top :: rest => if top = [dot, dot] then if above then s :: stack else stack else rest
  else s :: stack

/-- The segments of a path once it is normalized; `..` may stand in front only if the
path may lead above where it starts. -/
def normalSegments (above : Bool) (p : List α) : List (List α) :=
  ((p.splitOn sep).foldl (push dot above) []).reverse

def isAbsolute (p : List α) : Bool := p.head? = some sep

/-- The path with the given segments. -/
def format (absolute : Bool) (segments : List (List α)) : List α :=
  (if absolute then [sep] else []) ++ [sep].intercalate segments

def normalize (p : List α) : List α :=
  if p = [] then [dot]
  else
    let absolute := isAbsolute sep p
    let trailing : Bool := p.getLast? = some sep
    let segments := normalSegments sep dot (!absolute) p
    if segments = [] then
      if absolute then [sep] else if trailing then [dot, sep] else [dot]
    else format sep absolute segments ++ if trailing then [sep] else []

/-- `join(a, b)`: empty paths are left out. -/
def join (a b : List α) : List α :=
  if a = [] then if b = [] then [dot] else normalize sep dot b
  else if b = [] then normalize sep dot a
  else normalize sep dot (a ++ sep :: b)

/-- The segments of `resolve(p)`. -/
def resolve (cwd p : List α) : List (List α) :=
  normalSegments sep dot false (if isAbsolute sep p then p else cwd ++ sep :: p)

/-- How many segments two paths have in common. -/
def commonLength : List (List α) → List (List α) → ℕ
  | s :: ss, t :: ts => if s = t then commonLength ss ts + 1 else 0
  | _, _ => 0

def relative (cwd source target : List α) : List α :=
  let ss := resolve sep dot cwd source
  let ts := resolve sep dot cwd target
  let n := commonLength ss ts
  [sep].intercalate (List.replicate (ss.length - n) [dot, dot] ++ ts.drop n)

/-- The last segment of a path. -/
def basename (p : List α) : List α := ((p.splitOn sep).filter (· ≠ [])).getLast?.getD []

/-- The extension of the last segment, from its last dot on.  A dot in front of a name
begins no extension. -/
def extname (p : List α) : List α :=
  let base := basename sep p
  if base = [dot, dot] then []
  else
    match base.reverse.dropWhile (· ≠ dot) with
    | [] | [_] => []
    | _ => dot :: (base.reverse.takeWhile (· ≠ dot)).reverse

/-! ## Names -/

/-- What an entry of a directory can be called. -/
structure IsName (s : List α) : Prop where
  ne : s ≠ []
  ne_dot : s ≠ [dot]
  ne_dots : s ≠ [dot, dot]
  sep_notMem : sep ∉ s

instance : DecidablePred (IsName sep dot) := fun s ↦
  decidable_of_iff (s ≠ [] ∧ s ≠ [dot] ∧ s ≠ [dot, dot] ∧ sep ∉ s)
    ⟨fun ⟨h₁, h₂, h₃, h₄⟩ ↦ ⟨h₁, h₂, h₃, h₄⟩, fun h ↦ ⟨h.ne, h.ne_dot, h.ne_dots, h.sep_notMem⟩⟩

/-- Segments as normalizing leaves them, the last one first. -/
inductive Stack (above : Bool) : List (List α) → Prop
  | nil : Stack above []
  | up {stack : List (List α)} (habove : above = true) (hup : ∀ s ∈ stack, s = [dot, dot])
      (h : Stack above stack) : Stack above ([dot, dot] :: stack)
  | name {s : List α} {stack : List (List α)} (hs : IsName sep dot s) (h : Stack above stack) :
      Stack above (s :: stack)

section Push

variable {sep dot} {above : Bool} {stack : List (List α)} {s : List α}

theorem push_name (hs : IsName sep dot s) : push dot above stack s = s :: stack := by
  rw [push.eq_def, if_neg fun h ↦ h.elim hs.ne hs.ne_dot, if_neg hs.ne_dots]

theorem push_skip (hs : s = [] ∨ s = [dot]) : push dot above stack s = stack := if_pos hs

/-- `..` takes the name in front of it away. -/
theorem push_dots_name {t : List α} (ht : IsName sep dot t) :
    push dot above (t :: stack) [dot, dot] = stack := by
  rw [push.eq_def, if_neg (by simp), if_pos rfl]
  exact if_neg ht.ne_dots

/-- Above the start there are only more `..`. -/
theorem push_dots_up (hup : ∀ s ∈ stack, s = [dot, dot]) :
    push dot above stack [dot, dot] = if above then [dot, dot] :: stack else stack := by
  rw [push.eq_def, if_neg (by simp), if_pos rfl]
  cases stack with
  | nil => rfl
  | cons top rest => exact if_pos (hup top List.mem_cons_self)

theorem Stack.push (h : Stack sep dot above stack) (hsep : sep ∉ s) :
    Stack sep dot above (push dot above stack s) := by
  by_cases hskip : s = [] ∨ s = [dot]
  · rw [push_skip hskip]
    exact h
  · by_cases hdots : s = [dot, dot]
    · have hup : (∀ t ∈ stack, t = [dot, dot]) →
          Stack sep dot above (PosixPath.push dot above stack s) := by
        intro hup
        rw [hdots, push_dots_up hup]
        split
        · next habove => exact Stack.up habove hup h
        · exact h
      cases h with
      | nil => exact hup fun t ht ↦ absurd ht List.not_mem_nil
      | up habove hall h => exact hup (List.forall_mem_cons.mpr ⟨rfl, hall⟩)
      | name ht h =>
          rw [hdots, push_dots_name ht]
          exact h
    · rw [not_or] at hskip
      rw [push_name ⟨hskip.1, hskip.2, hdots, hsep⟩]
      exact Stack.name ⟨hskip.1, hskip.2, hdots, hsep⟩ h

theorem Stack.foldl {segments : List (List α)} (h : Stack sep dot above stack)
    (hsep : ∀ s ∈ segments, sep ∉ s) :
    Stack sep dot above (segments.foldl (PosixPath.push dot above) stack) := by
  induction segments generalizing stack with
  | nil => exact h
  | cons s segments ih =>
      obtain ⟨hs, hsegments⟩ := List.forall_mem_cons.mp hsep
      exact ih (h.push hs) hsegments

/-- Normalizing leaves normalized segments alone. -/
theorem Stack.foldl_reverse (h : Stack sep dot above stack) :
    stack.reverse.foldl (PosixPath.push dot above) [] = stack := by
  induction h with
  | nil => rfl
  | up habove hup h ih =>
      rw [List.reverse_cons, List.foldl_append, ih, List.foldl_cons, List.foldl_nil,
        push_dots_up hup, if_pos habove]
  | name hs h ih =>
      rw [List.reverse_cons, List.foldl_append, ih, List.foldl_cons, List.foldl_nil, push_name hs]

theorem Stack.foldl_names {names : List (List α)} (hnames : ∀ s ∈ names, IsName sep dot s) :
    names.foldl (PosixPath.push dot above) stack = names.reverse ++ stack := by
  induction names generalizing stack with
  | nil => rfl
  | cons s names ih =>
      obtain ⟨hs, hnames⟩ := List.forall_mem_cons.mp hnames
      rw [List.foldl_cons, push_name hs, ih hnames, List.reverse_cons, List.append_assoc]
      rfl

omit [DecidableEq α] in
theorem Stack.sep_notMem (h : Stack sep dot above stack) (hne : sep ≠ dot) :
    ∀ s ∈ stack, s ≠ [] ∧ sep ∉ s := by
  induction h with
  | nil => exact fun s hs ↦ absurd hs List.not_mem_nil
  | up habove hup h ih =>
      refine List.forall_mem_cons.mpr ⟨⟨List.cons_ne_nil _ _, ?_⟩, ih⟩
      simp [hne]
  | name hs h ih => exact List.forall_mem_cons.mpr ⟨⟨hs.ne, hs.sep_notMem⟩, ih⟩

end Push

/-! ## Joining names to a path -/

section Join

variable {sep dot} {above absolute : Bool} {p c w : List α} {names segments : List (List α)}

theorem sep_notMem_of_mem_splitOn {s : List α} (h : s ∈ p.splitOn sep) : sep ∉ s := by
  induction p generalizing s with
  | nil =>
      obtain rfl := List.mem_singleton.mp h
      exact List.not_mem_nil
  | cons a p ih =>
      rw [List.splitOn_cons_eq_if_modifyHead] at h
      split at h
      · rcases List.mem_cons.mp h with rfl | h
        · exact List.not_mem_nil
        · exact ih h
      · next ha =>
          obtain ⟨t, ts, hsplit⟩ := List.exists_cons_of_ne_nil (List.splitOn_ne_nil sep p)
          rw [hsplit] at h ih
          rcases List.mem_cons.mp h with rfl | h
          · rw [List.mem_cons, not_or]
            exact ⟨fun heq ↦ ha (beq_iff_eq.mpr heq.symm), ih List.mem_cons_self⟩
          · exact ih (List.mem_cons_of_mem t h)

theorem stack_normalSegments (above : Bool) (p : List α) :
    Stack sep dot above (normalSegments sep dot above p).reverse := by
  rw [normalSegments, List.reverse_reverse]
  exact Stack.nil.foldl fun s hs ↦ sep_notMem_of_mem_splitOn hs

/-- The separators of a path are those between its segments and in front of it. -/
theorem splitOn_format (hsep : ∀ s ∈ segments, sep ∉ s) (hne : segments ≠ []) :
    (format sep absolute segments).splitOn sep = (if absolute then [[]] else []) ++ segments := by
  have hsplit : ([sep].intercalate segments).splitOn sep = segments :=
    List.splitOn_intercalate sep hsep hne
  cases absolute with
  | false => exact hsplit
  | true =>
      have hcons := List.splitOn_append_cons_self (a := sep) [] ([sep].intercalate segments)
      rw [hsplit] at hcons
      exact hcons

theorem isAbsolute_append (hp : p ≠ []) (q : List α) :
    isAbsolute sep (p ++ q) = isAbsolute sep p := by
  rw [isAbsolute, isAbsolute, List.head?_append_of_ne_nil _ hp]

theorem isAbsolute_of_notMem (h : sep ∉ p) : isAbsolute sep p = false :=
  decide_eq_false fun heq ↦ h (List.mem_of_head? heq)

theorem isAbsolute_format (hsegments : ∀ s ∈ segments, s ≠ [] ∧ sep ∉ s) (hne : segments ≠ []) :
    isAbsolute sep (format sep absolute segments) = absolute := by
  cases absolute with
  | true => exact decide_eq_true rfl
  | false =>
      obtain ⟨s, ss, rfl⟩ := List.exists_cons_of_ne_nil hne
      obtain ⟨hs, hsep⟩ := hsegments s List.mem_cons_self
      cases ss with
      | nil =>
          rw [format, List.intercalate_singleton]
          exact isAbsolute_of_notMem hsep
      | cons t ss =>
          rw [format, List.intercalate_cons_cons, List.append_assoc]
          exact (isAbsolute_append hs _).trans (isAbsolute_of_notMem hsep)

theorem normalSegments_append_name (above : Bool) (p : List α) (hc : IsName sep dot c) :
    normalSegments sep dot above (p ++ sep :: c) = normalSegments sep dot above p ++ [c] := by
  rw [normalSegments, List.splitOn_append_cons_self, List.splitOn_eq_singleton hc.sep_notMem,
    List.foldl_append, List.foldl_cons, List.foldl_nil, push_name hc, List.reverse_cons]
  rfl

/-- Segments as normalizing leaves them are left alone. -/
theorem normalSegments_format (h : Stack sep dot above segments.reverse) (hdot : sep ≠ dot)
    (hne : segments ≠ []) :
    normalSegments sep dot above (format sep absolute segments) = segments := by
  have hsep : ∀ s ∈ segments, sep ∉ s := fun s hs ↦
    (h.sep_notMem hdot s (List.mem_reverse.mpr hs)).2
  have hfold : segments.foldl (push dot above) [] = segments.reverse := by
    have hall := h.foldl_reverse
    rwa [List.reverse_reverse] at hall
  rw [normalSegments, splitOn_format hsep hne, List.foldl_append]
  cases absolute with
  | false =>
      exact (congrArg List.reverse hfold).trans (List.reverse_reverse segments)
  | true =>
      exact (congrArg List.reverse hfold).trans (List.reverse_reverse segments)

/-- A path that ends in no separator. -/
theorem normalize_eq (hlast : p.getLast? ≠ some sep)
    (hsegments : normalSegments sep dot (!isAbsolute sep p) p = segments) (hne : segments ≠ []) :
    normalize sep dot p = format sep (isAbsolute sep p) segments := by
  have hp : p ≠ [] := by
    rintro rfl
    exact hne hsegments.symm
  rw [normalize, if_neg hp]
  simp only [hsegments, if_neg hne, decide_eq_false hlast, Bool.false_eq_true, if_false,
    List.append_nil]

theorem join_name (p : List α) (hc : IsName sep dot c) : join sep dot p c =
    format sep (isAbsolute sep p) (normalSegments sep dot (!isAbsolute sep p) p ++ [c]) := by
  have hlast : ∀ q : List α, (q ++ c).getLast? ≠ some sep := by
    intro q heq
    rw [List.getLast?_append_of_ne_nil _ hc.ne] at heq
    exact hc.sep_notMem (List.mem_of_getLast? heq)
  have hne : ∀ ss : List (List α), ss ++ [c] ≠ [] := fun ss ↦
    List.append_ne_nil_of_right_ne_nil ss (List.cons_ne_nil c [])
  by_cases hp : p = []
  · subst hp
    have habs : isAbsolute sep c = false := isAbsolute_of_notMem hc.sep_notMem
    have hsegments : normalSegments sep dot (!isAbsolute sep c) c = [] ++ [c] := by
      rw [normalSegments, List.splitOn_eq_singleton hc.sep_notMem, List.foldl_cons, List.foldl_nil,
        push_name hc]
      rfl
    rw [join, if_pos rfl, if_neg hc.ne,
      normalize_eq (show c.getLast? ≠ some sep from hlast []) hsegments (hne []), habs]
    rfl
  · have habs : isAbsolute sep (p ++ sep :: c) = isAbsolute sep p := isAbsolute_append hp _
    have hlast' : (p ++ sep :: c).getLast? ≠ some sep := by
      rw [List.append_cons]
      exact hlast _
    have hsegments := normalSegments_append_name (!isAbsolute sep (p ++ sep :: c)) p hc
    rw [join, if_neg hp, if_neg hc.ne, normalize_eq hlast' hsegments (hne _), habs]

/-- Names behind normalized segments. -/
theorem stack_append (above : Bool) (p : List α) (hnames : ∀ s ∈ names, IsName sep dot s) :
    Stack sep dot above (normalSegments sep dot above p ++ names).reverse := by
  have hnames' : names.foldl (push dot above) (normalSegments sep dot above p).reverse =
      names.reverse ++ (normalSegments sep dot above p).reverse := Stack.foldl_names hnames
  rw [List.reverse_append, ← hnames']
  exact (stack_normalSegments above p).foldl fun s hs ↦ (hnames s hs).sep_notMem

/-- The segments of a path to which names were joined, and whether it is absolute. -/
theorem segments_format (hdot : sep ≠ dot) (p : List α) (hnames : ∀ s ∈ names, IsName sep dot s)
    (hne : names ≠ []) :
    let q := format sep (isAbsolute sep p) (normalSegments sep dot (!isAbsolute sep p) p ++ names)
    isAbsolute sep q = isAbsolute sep p ∧
      normalSegments sep dot (!isAbsolute sep p) q =
        normalSegments sep dot (!isAbsolute sep p) p ++ names := by
  have hstack := stack_append (!isAbsolute sep p) p hnames
  have hsegments := List.append_ne_nil_of_right_ne_nil
    (normalSegments sep dot (!isAbsolute sep p) p) hne
  refine ⟨isAbsolute_format (fun s hs ↦ ?_) hsegments, normalSegments_format hstack hdot hsegments⟩
  exact hstack.sep_notMem hdot s (List.mem_reverse.mpr hs)

/-- Joining names to a path appends them to its segments. -/
theorem foldl_join (hdot : sep ≠ dot) (p : List α) (hnames : ∀ s ∈ names, IsName sep dot s)
    (hne : names ≠ []) : names.foldl (join sep dot) p =
      format sep (isAbsolute sep p) (normalSegments sep dot (!isAbsolute sep p) p ++ names) := by
  induction names using List.reverseRecOn with
  | nil => exact absurd rfl hne
  | append_singleton names c ih =>
      have hinit : ∀ s ∈ names, IsName sep dot s := fun s hs ↦
        hnames s (List.mem_append_left _ hs)
      have hc : IsName sep dot c := hnames c (List.mem_append_right _ List.mem_cons_self)
      rw [List.foldl_append, List.foldl_cons, List.foldl_nil, join_name _ hc]
      by_cases hnil : names = []
      · rw [hnil]
        rfl
      · obtain ⟨habs, hsegments⟩ := segments_format hdot p hinit hnil
        rw [ih hinit hnil, habs, hsegments, List.append_assoc]

/-- A segment is pushed on resolved segments as on the ones of a relative path. -/
theorem foldl_reverse_push {stack : List (List α)} (h : Stack sep dot true stack) {s : List α}
    (hs : sep ∉ s) (base : List (List α)) :
    (push dot true stack s).reverse.foldl (push dot false) base =
      push dot false (stack.reverse.foldl (push dot false) base) s := by
  have hcons : ∀ t : List α, (t :: stack).reverse.foldl (push dot false) base =
      push dot false (stack.reverse.foldl (push dot false) base) t := by
    intro t
    rw [List.reverse_cons, List.foldl_append]
    rfl
  by_cases hskip : s = [] ∨ s = [dot]
  · rw [push_skip hskip, push_skip hskip]
  · by_cases hdots : s = [dot, dot]
    · have hup : (∀ t ∈ stack, t = [dot, dot]) → push dot true stack s = s :: stack := by
        intro hup
        rw [hdots, push_dots_up hup]
        rfl
      cases h with
      | nil => rw [hup fun t ht ↦ absurd ht List.not_mem_nil, hcons]
      | up _ hall _ => rw [hup (List.forall_mem_cons.mpr ⟨rfl, hall⟩), hcons]
      | @name t stack ht _ =>
          rw [hdots, push_dots_name ht, List.reverse_cons, List.foldl_append, List.foldl_cons,
            List.foldl_nil, push_name ht, push_dots_name ht]
    · rw [not_or] at hskip
      rw [push_name ⟨hskip.1, hskip.2, hdots, hs⟩, hcons]

/-- Resolving a normalized relative path resolves the path. -/
theorem foldl_reverse_foldl_push {stack : List (List α)} (h : Stack sep dot true stack)
    (hsep : ∀ s ∈ segments, sep ∉ s) (base : List (List α)) :
    (segments.foldl (push dot true) stack).reverse.foldl (push dot false) base =
      segments.foldl (push dot false) (stack.reverse.foldl (push dot false) base) := by
  induction segments generalizing stack with
  | nil => rfl
  | cons s segments ih =>
      obtain ⟨hs, hsegments⟩ := List.forall_mem_cons.mp hsep
      rw [List.foldl_cons, List.foldl_cons, ih (h.push hs) hsegments, foldl_reverse_push h hs]

/-- Joining names to a path appends them to what it resolves to. -/
theorem resolve_foldl_join (hdot : sep ≠ dot) (cwd p : List α)
    (hnames : ∀ s ∈ names, IsName sep dot s) (hne : names ≠ []) :
    resolve sep dot cwd (names.foldl (join sep dot) p) = resolve sep dot cwd p ++ names := by
  obtain ⟨habs, hsegments⟩ := segments_format hdot p hnames hne
  rw [foldl_join hdot p hnames hne, resolve, resolve, habs]
  cases habsolute : isAbsolute sep p with
  | true =>
      rw [habsolute] at hsegments
      exact hsegments
  | false =>
      have hstack := stack_append true p hnames
      have hsep : ∀ s ∈ normalSegments sep dot true p ++ names, sep ∉ s := fun s hs ↦
        (hstack.sep_notMem hdot s (List.mem_reverse.mpr hs)).2
      have hresolve : ∀ q : List α, normalSegments sep dot false (cwd ++ sep :: q) =
          ((q.splitOn sep).foldl (push dot false)
            ((cwd.splitOn sep).foldl (push dot false) [])).reverse := by
        intro q
        rw [normalSegments, List.splitOn_append_cons_self, List.foldl_append]
      have hp : (normalSegments sep dot true p).foldl (push dot false)
          ((cwd.splitOn sep).foldl (push dot false) []) =
            (p.splitOn sep).foldl (push dot false) ((cwd.splitOn sep).foldl (push dot false) []) :=
        foldl_reverse_foldl_push Stack.nil (fun s hs ↦ sep_notMem_of_mem_splitOn hs) _
      simp only [Bool.not_false, Bool.false_eq_true, if_false]
      rw [hresolve, hresolve, splitOn_format hsep (List.append_ne_nil_of_right_ne_nil _ hne),
        if_neg Bool.false_ne_true, List.nil_append, List.foldl_append, hp,
        Stack.foldl_names hnames, List.reverse_append, List.reverse_reverse]

theorem commonLength_append (ss ts : List (List α)) : commonLength ss (ss ++ ts) = ss.length := by
  induction ss with
  | nil => cases ts <;> rfl
  | cons s ss ih => rw [List.cons_append, commonLength, if_pos rfl, ih, List.length_cons]

/-- Relative to a path, names that were joined to it are just themselves. -/
theorem relative_foldl_join (hdot : sep ≠ dot) (cwd p : List α)
    (hnames : ∀ s ∈ names, IsName sep dot s) (hne : names ≠ []) :
    relative sep dot cwd p (names.foldl (join sep dot) p) = [sep].intercalate names := by
  simp only [relative]
  rw [resolve_foldl_join hdot cwd p hnames hne, commonLength_append, Nat.sub_self,
    List.replicate_zero, List.nil_append, List.drop_left]

omit [DecidableEq α] in
theorem filter_name (hc : IsName sep dot c) : [c].filter (· ≠ []) = [c] :=
  List.filter_cons_of_pos (decide_eq_true hc.ne)

theorem basename_name (hc : IsName sep dot c) : basename sep c = c := by
  rw [basename, List.splitOn_eq_singleton hc.sep_notMem, filter_name hc]
  rfl

/-- The extension is that of the last name. -/
theorem extname_foldl_join (hdot : sep ≠ dot) (p : List α)
    (hnames : ∀ s ∈ names ++ [c], IsName sep dot s) :
    extname sep dot ((names ++ [c]).foldl (join sep dot) p) = extname sep dot c := by
  have hc : IsName sep dot c := hnames c (List.mem_append_right _ List.mem_cons_self)
  have hne : names ++ [c] ≠ [] := List.append_ne_nil_of_right_ne_nil _ (List.cons_ne_nil _ _)
  have hbase : basename sep ((names ++ [c]).foldl (join sep dot) p) = basename sep c := by
    have hsep := fun s hs ↦ ((stack_append (!isAbsolute sep p) p hnames).sep_notMem hdot s
      (List.mem_reverse.mpr hs)).2
    rw [basename_name hc, foldl_join hdot p hnames hne, basename,
      splitOn_format hsep (List.append_ne_nil_of_right_ne_nil _ hne), ← List.append_assoc,
      ← List.append_assoc, List.filter_append, filter_name hc, List.getLast?_concat]
    rfl
  rw [extname, extname, hbase]

/-! ## Directories on the way -/

omit [DecidableEq α] in
theorem intercalate_append {ss ts : List (List α)} (hs : ss ≠ []) (ht : ts ≠ []) :
    [sep].intercalate (ss ++ ts) = [sep].intercalate ss ++ sep :: [sep].intercalate ts := by
  induction ss with
  | nil => exact absurd rfl hs
  | cons s ss ih =>
      cases ss with
      | nil =>
          rw [List.singleton_append, List.intercalate_cons_of_ne_nil ht, List.intercalate_singleton,
            List.append_assoc]
          rfl
      | cons s' ss =>
          have hcons : [sep].intercalate (s :: (s' :: ss ++ ts)) =
              s ++ [sep] ++ [sep].intercalate (s' :: ss ++ ts) :=
            List.intercalate_cons_of_ne_nil (List.cons_ne_nil _ _)
          rw [List.cons_append, hcons, ih (List.cons_ne_nil _ _),
            List.intercalate_cons_of_ne_nil (List.cons_ne_nil s' ss), List.append_assoc,
            List.append_assoc, List.append_assoc]

/-- A name between two separators is a segment that is neither the first nor the last. -/
theorem infix_iff_mem_tail_dropLast (hw : sep ∉ w) :
    sep :: (w ++ [sep]) <:+: p ↔ w ∈ (p.splitOn sep).tail.dropLast := by
  constructor
  · rintro ⟨a, b, rfl⟩
    obtain ⟨x, xs, ha⟩ := List.exists_cons_of_ne_nil (List.splitOn_ne_nil sep a)
    have hp : a ++ sep :: (w ++ [sep]) ++ b = a ++ sep :: (w ++ sep :: b) := by simp
    rw [hp, List.splitOn_append_cons_self, List.splitOn_append_cons_self_of_not_mem hw, ha,
      List.cons_append, List.tail_cons,
      List.dropLast_append_of_ne_nil (List.cons_ne_nil w _),
      List.dropLast_cons_of_ne_nil (List.splitOn_ne_nil sep b)]
    exact List.mem_append_right _ List.mem_cons_self
  · intro h
    obtain ⟨x, t, hsplit⟩ := List.exists_cons_of_ne_nil (List.splitOn_ne_nil sep p)
    rw [hsplit, List.tail_cons] at h
    obtain ⟨A, B, hAB⟩ := List.append_of_mem h
    have ht : t ≠ [] := by
      rintro rfl
      cases h
    obtain ⟨y, hy⟩ : ∃ y, A ++ w :: B ++ [y] = t := by
      rw [← hAB]
      exact ⟨_, List.dropLast_append_getLast ht⟩
    have hp : p.splitOn sep = (x :: A) ++ (w :: (B ++ [y])) := by
      rw [hsplit, ← hy]
      simp
    have hjoin : [sep].intercalate (p.splitOn sep) = p := List.intercalate_splitOn sep
    rw [← hjoin, hp, intercalate_append (List.cons_ne_nil _ _)
      (List.cons_ne_nil _ _), List.intercalate_cons_of_ne_nil
      (List.append_ne_nil_of_right_ne_nil _ (List.cons_ne_nil _ _))]
    exact ⟨[sep].intercalate (x :: A), [sep].intercalate (B ++ [y]), by simp⟩

end Join

end PosixPath
