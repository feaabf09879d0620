import Rivid.Check.Location

/-!
# What a scan reads

`walk` goes down into every directory that it can read and does not skip, and collects the
files whose extension is scanned; `extractAll` leaves those out that the path of the root or
of the file hides.  With a bound deeper than the tree, the scan reads every other one once,
and nothing else.
-/

namespace Rivid.Check

namespace DirTree

variable {t : DirTree}

/-- From a directory the walk gets to the directory `dir`. -/
inductive Enters (t : DirTree) : List JsString → List JsString → Prop where
  | here (dir : List JsString) : Enters t dir dir
  | down {start entries dir : List _} {name : JsString}
      (hentries : t.readdirSync start = some entries) (hname : name ∈ entries)
      (hskip : name ∉ skipDirs) (hdir : t.isDirectory (start ++ [name]) = some true)
      (hrest : Enters t (start ++ [name]) dir) : Enters t start dir

/-- A file in a directory that the walk collects. -/
structure Collects (t : DirTree) (dir : List JsString) (name : JsString) : Prop where
  entry : ∃ entries, t.readdirSync dir = some entries ∧ name ∈ entries
  notSkipped : name ∉ skipDirs
  isFile : t.isDirectory (dir ++ [name]) = some false
  ext : extname name ∈ scanExt

/-- A file that the walk gets to. -/
def Found (t : DirTree) (file : List JsString) : Prop :=
  ∃ dir name, file = dir ++ [name] ∧ t.Enters [] dir ∧ t.Collects dir name

theorem Enters.isPrefix {start dir : List JsString} (h : t.Enters start dir) : start <+: dir := by
  induction h with
  | here dir => exact List.prefix_rfl
  | down _ _ _ _ _ ih => exact (List.prefix_append _ _).trans ih

theorem Enters.eq_or_isDirectory {start dir : List JsString} (h : t.Enters start dir) :
    dir = start ∨ t.isDirectory dir = some true := by
  induction h with
  | here dir => exact Or.inl rfl
  | down _ _ _ hdir _ ih =>
      rcases ih with rfl | ih
      · exact Or.inr hdir
      · exact Or.inr ih

/-- What the walk makes of one entry. -/
def visit (t : DirTree) (n : ℕ) (start : List JsString) (name : JsString) : List (List JsString) :=
  if skipDirs.contains name then []
  else
    match t.isDirectory (start ++ [name]) with
    | none => []
    | some true => t.walk n (start ++ [name])
    | some false => if scanExt.contains (extname name) then [start ++ [name]] else []

theorem walk_succ (n : ℕ) (start : List JsString) : t.walk (n + 1) start =
    match t.readdirSync start with
    | none => []
    | some entries => entries.flatMap (t.visit n start) := rfl

theorem mem_visit_iff {n : ℕ} {start file : List JsString} {name : JsString} :
    file ∈ t.visit n start name ↔ name ∉ skipDirs ∧
      (t.isDirectory (start ++ [name]) = some true ∧ file ∈ t.walk n (start ++ [name]) ∨
        t.isDirectory (start ++ [name]) = some false ∧ extname name ∈ scanExt ∧
          file = start ++ [name]) := by
  rw [visit]
  by_cases hskip : name ∈ skipDirs
  · rw [if_pos (List.contains_iff_mem.mpr hskip)]
    simp [hskip]
  · rw [if_neg (mt List.contains_iff_mem.mp hskip)]
    cases hdir : t.isDirectory (start ++ [name]) with
    | none => simp
    | some directory =>
        cases directory with
        | true => simp [hskip]
        | false =>
            by_cases hext : extname name ∈ scanExt
            · simp [hskip, hext]
            · simp [hskip, hext]

/-- The walk collects what is in the directories that it gets to within its bound. -/
theorem mem_walk_iff {n : ℕ} {start file : List JsString} : file ∈ t.walk n start ↔
    ∃ dir name, file = dir ++ [name] ∧ t.Enters start dir ∧ dir.length < start.length + n ∧
      t.Collects dir name := by
  induction n generalizing start with
  | zero =>
      refine iff_of_false List.not_mem_nil ?_
      rintro ⟨dir, name, -, henters, hlt, -⟩
      exact absurd henters.isPrefix.length_le (Nat.not_le.mpr hlt)
  | succ n ih =>
      rw [walk_succ]
      constructor
      · intro h
        cases hentries : t.readdirSync start with
        | none =>
            rw [hentries] at h
            cases h
        | some entries =>
            rw [hentries] at h
            obtain ⟨name, hname, h⟩ := List.mem_flatMap.mp h
            obtain ⟨hskip, ⟨hdir, h⟩ | ⟨hfile, hext, rfl⟩⟩ := mem_visit_iff.mp h
            · obtain ⟨dir, last, rfl, henters, hlt, hcollects⟩ := ih.mp h
              refine ⟨dir, last, rfl, .down hentries hname hskip hdir henters, ?_, hcollects⟩
              rw [List.length_append, List.length_singleton] at hlt
              omega
            · exact ⟨start, name, rfl, .here start, by omega,
                ⟨⟨entries, hentries, hname⟩, hskip, hfile, hext⟩⟩
      · rintro ⟨dir, last, rfl, henters, hlt, hcollects⟩
        cases henters with
        | here =>
            obtain ⟨entries, hentries, hname⟩ := hcollects.entry
            rw [hentries]
            refine List.mem_flatMap.mpr ⟨last, hname, mem_visit_iff.mpr ⟨hcollects.notSkipped, ?_⟩⟩
            exact Or.inr ⟨hcollects.isFile, hcollects.ext, rfl⟩
        | down hentries hname hskip hdir hrest =>
            rw [hentries]
            refine List.mem_flatMap.mpr ⟨_, hname, mem_visit_iff.mpr ⟨hskip, Or.inl ⟨hdir, ?_⟩⟩⟩
            refine ih.mpr ⟨dir, last, rfl, hrest, ?_, hcollects⟩
            rw [List.length_append, List.length_singleton]
            omega

/-- What is collected through an entry lies behind its name. -/
theorem isPrefix_of_mem_visit {n : ℕ} {start file : List JsString} {name : JsString}
    (h : file ∈ t.visit n start name) : start ++ [name] <+: file := by
  obtain ⟨-, ⟨-, hwalk⟩ | ⟨-, -, rfl⟩⟩ := mem_visit_iff.mp h
  · obtain ⟨dir, last, rfl, henters, -⟩ := mem_walk_iff.mp hwalk
    exact henters.isPrefix.trans (List.prefix_append _ _)
  · exact List.prefix_rfl

/-- No file is collected twice. -/
theorem nodup_walk (hnodup : ∀ dir entries, t.readdirSync dir = some entries → entries.Nodup)
    (n : ℕ) (start : List JsString) : (t.walk n start).Nodup := by
  induction n generalizing start with
  | zero => exact List.nodup_nil
  | succ n ih =>
      rw [walk_succ]
      cases hentries : t.readdirSync start with
      | none => exact List.nodup_nil
      | some entries =>
          refine List.nodup_flatMap.mpr ⟨fun name _ ↦ ?_, ?_⟩
          · rw [visit]
            split
            · exact List.nodup_nil
            · split
              · exact List.nodup_nil
              · exact ih _
              · split
                · exact List.nodup_singleton _
                · exact List.nodup_nil
          · refine (hnodup start entries hentries).imp fun {a b} hne file ha hb ↦ hne ?_
            have hprefix := List.prefix_of_prefix_length_le (isPrefix_of_mem_visit ha)
              (isPrefix_of_mem_visit hb) (by simp)
            have heq := hprefix.eq_of_length (by simp)
            exact List.singleton_inj.mp (List.append_cancel_left heq)

end DirTree

/-- A file that the walk gets to and the paths do not hide. -/
def DirTree.Scanned (t : DirTree) (root : JsString) (file : List JsString) : Prop :=
  t.Found file ∧ ¬ Hidden root file

open DirTree in
/--
**A scan reads every schema once.**  The columns and the count of a scan are those of the
files that can be got to from the root, through directories that are readable and not skipped,
and whose extension is scanned, less the hidden ones: each of these files is read, none twice,
and no other one.
-/
theorem extractAll_scans {fs : FileSystem} {t : DirTree} {root : JsString} {n : ℕ}
    (x : Extractors) (h : fs.Located t root) (hdeep : ∀ dir, t.Enters [] dir → dir.length < n)
    (hnodup : ∀ dir entries, t.readdirSync dir = some entries → entries.Nodup) :
    ∃ files : List (List JsString), files.Nodup ∧ (∀ file, file ∈ files ↔ t.Scanned root file) ∧
      extractAll x fs n root = ⟨files.flatMap (t.columns x), files.length⟩ := by
  have hfound : ∀ file, file ∈ t.files n ↔ t.Found file := by
    intro file
    rw [files, mem_walk_iff]
    constructor
    · rintro ⟨dir, name, rfl, henters, -, hcollects⟩
      exact ⟨dir, name, rfl, henters, hcollects⟩
    · rintro ⟨dir, name, rfl, henters, hcollects⟩
      refine ⟨dir, name, rfl, henters, ?_, hcollects⟩
      rw [List.length_nil, Nat.zero_add]
      exact hdeep dir henters
  refine ⟨(t.files n).filter fun file ↦ !unscanned (path root file), ?_, ?_, h.extractAll_eq x n⟩
  · exact (nodup_walk hnodup n []).filter _
  · intro file
    rw [List.mem_filter, Scanned, ← hfound]
    refine and_congr_right fun hfile ↦ ?_
    obtain ⟨hne, hnames⟩ := of_mem_files hfile
    rw [Bool.not_eq_true', ← Bool.not_eq_true, unscanned_path_iff root hnames hne]

/-- A schema in `db` is the only file. -/
theorem extractAll_scans_db :
    let t := schemaTree (literal "db") (by decide)
    let fs := t.mounted (literal "/srv/app") [literal "srv", literal "app"]
    ∃ files : List (List JsString), files.Nodup ∧
      (∀ file, file ∈ files ↔ t.Scanned (literal ".") file) ∧
      extractAll usersColumns fs 3 (literal ".") =
        ⟨files.flatMap (t.columns usersColumns), files.length⟩ := by
  refine extractAll_scans usersColumns (DirTree.located_mounted _ (by decide)) ?_ ?_
  · intro dir henters
    rcases henters.eq_or_isDirectory with rfl | hdir
    · simp
    · rcases dir with _ | ⟨d, _ | ⟨f, _ | ⟨g, dir⟩⟩⟩
      · simp
      · simp
      · dsimp only [schemaTree] at hdir
        split at hdir
        · cases hdir
        · cases hdir
      · cases hdir
  · intro dir entries hentries
    rcases dir with _ | ⟨d, _ | ⟨f, dir⟩⟩
    · cases hentries
      exact List.nodup_singleton _
    · dsimp only [schemaTree] at hentries
      split at hentries
      · cases hentries
        exact List.nodup_singleton _
      · cases hentries
    · cases hentries

end Rivid.Check
