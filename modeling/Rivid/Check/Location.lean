import Rivid.Check.Files
import Mathlib.Data.List.Find

/-!
# The same directory under two paths

A directory tree can be scanned wherever it is and however its root is written: by
an absolute path or relative to the current directory.  The names of the files found
are relative to the root, so they do not depend on it (`relative_path`).

But `extractAll` looks for the directories it leaves out in the path of a file, and
that starts with the path of the root: it hides the whole tree if a directory of the
root's path has such a name, except in front of a relative path, and it does not
hide a directory directly in the root if the root is the current directory.
`sameResult_iff` says that the two results are the same exactly if this hides the
same files.
-/

namespace Rivid.Check

open PosixPath (normalSegments isAbsolute)

/-! ## Directory trees -/

/-- What there is below a directory, by the names that lead to it. -/
structure DirTree where
  readdirSync : List JsString → Option (List JsString)
  isDirectory : List JsString → Option Bool
  readFileSync : List JsString → Option JsString
  isName : ∀ names entries, readdirSync names = some entries → ∀ name ∈ entries, IsName name

/-- The path at which `names` lead from a root. -/
def path (root : JsString) (names : List JsString) : JsString := names.foldl join root

/-- The tree is found at the path `root`. -/
structure FileSystem.Located (fs : FileSystem) (t : DirTree) (root : JsString) : Prop where
  readdirSync : ∀ names, (∀ s ∈ names, IsName s) →
    fs.readdirSync (path root names) = t.readdirSync names
  isDirectory : ∀ names, (∀ s ∈ names, IsName s) →
    fs.isDirectory (path root names) = t.isDirectory names
  readFileSync : ∀ names, (∀ s ∈ names, IsName s) →
    fs.readFileSync (path root names) = t.readFileSync names

namespace DirTree

variable (t : DirTree)

/-- The files `walk` finds, by the names that lead to them. -/
def walk : ℕ → List JsString → List (List JsString)
  | 0, _ => []
  | n + 1, names =>
      match t.readdirSync names with
      | none => []
      | some entries =>
          entries.flatMap fun name ↦
            if skipDirs.contains name then []
            else
              match t.isDirectory (names ++ [name]) with
              | none => []
              | some true => walk n (names ++ [name])
              | some false => if scanExt.contains (extname name) then [names ++ [name]] else []

/-- The files of the tree that may hold a schema. -/
def files (n : ℕ) : List (List JsString) := t.walk n []

/-- The columns in a file. -/
def columns (x : Extractors) (names : List JsString) : List Column :=
  match t.readFileSync names with
  | none => []
  | some text => x.columns (extname (names.getLast?.getD [])) text ([sep].intercalate names)

variable {t} {n : ℕ} {names : List JsString}

/-- The names that lead to an entry of a directory. -/
theorem isName_append (hnames : ∀ s ∈ names, IsName s) {name : JsString} (hname : IsName name) :
    ∀ s ∈ names ++ [name], IsName s := by
  intro s hs
  rcases List.mem_append.mp hs with hs | hs
  · exact hnames s hs
  · obtain rfl := List.mem_singleton.mp hs
    exact hname

/-- Every file found has a name, below the directory. -/
theorem of_mem_walk (hnames : ∀ s ∈ names, IsName s) :
    ∀ file ∈ t.walk n names, file ≠ [] ∧ ∀ s ∈ file, IsName s := by
  induction n generalizing names with
  | zero => exact fun file h ↦ absurd h List.not_mem_nil
  | succ n ih =>
      intro file h
      rw [walk] at h
      cases hentries : t.readdirSync names with
      | none =>
          rw [hentries] at h
          cases h
      | some entries =>
          rw [hentries] at h
          obtain ⟨name, hname, h⟩ := List.mem_flatMap.mp h
          have hall := isName_append hnames (t.isName names entries hentries name hname)
          split at h
          · cases h
          · split at h
            · cases h
            · exact ih hall file h
            · split at h
              · obtain rfl := List.mem_singleton.mp h
                exact ⟨List.append_ne_nil_of_right_ne_nil _ (List.cons_ne_nil _ _), hall⟩
              · cases h

theorem of_mem_files {file : List JsString} (h : file ∈ t.files n) :
    file ≠ [] ∧ ∀ s ∈ file, IsName s :=
  of_mem_walk (fun _ hs ↦ absurd hs List.not_mem_nil) file h

end DirTree

/-! ## Paths below a root -/

theorem sep_ne_period : sep ≠ period := by decide

section Path

variable {root : JsString} {names : List JsString}

theorem path_append (root : JsString) (names : List JsString) (name : JsString) :
    path root (names ++ [name]) = join (path root names) name := by
  rw [path, List.foldl_append]
  rfl

/-- A file is called the same relative to any root. -/
theorem relative_path (cwd : JsString) (hnames : ∀ s ∈ names, IsName s) (hne : names ≠ []) :
    relative cwd root (path root names) = [sep].intercalate names :=
  PosixPath.relative_foldl_join sep_ne_period cwd root hnames hne

theorem extname_path (hnames : ∀ s ∈ names, IsName s) (hne : names ≠ []) :
    extname (path root names) = extname (names.getLast?.getD []) := by
  induction names using List.reverseRecOn with
  | nil => exact absurd rfl hne
  | append_singleton names name =>
      rw [List.getLast?_concat]
      exact PosixPath.extname_foldl_join sep_ne_period root hnames

end Path

/-! ## One tree, one walk -/

namespace FileSystem.Located

variable {fs : FileSystem} {t : DirTree} {root : JsString}

/-- Walking at a path is walking in the tree. -/
theorem walk_eq (h : fs.Located t root) (n : ℕ) {names : List JsString}
    (hnames : ∀ s ∈ names, IsName s) :
    fs.walk n (path root names) = (t.walk n names).map (path root) := by
  induction n generalizing names with
  | zero => rfl
  | succ n ih =>
      rw [FileSystem.walk, DirTree.walk, h.readdirSync names hnames]
      cases hentries : t.readdirSync names with
      | none => rfl
      | some entries =>
          dsimp only
          rw [List.map_flatMap]
          refine List.flatMap_congr fun name hname ↦ ?_
          have hall := DirTree.isName_append hnames (t.isName names entries hentries name hname)
          split
          · rfl
          · rw [← path_append, h.isDirectory _ hall]
            cases t.isDirectory (names ++ [name]) with
            | none => rfl
            | some directory =>
                cases directory with
                | true => exact ih hall
                | false =>
                    dsimp only
                    split <;> rfl

/-- What is extracted at a path is what the files that are not left out hold. -/
theorem foldl_extractFile (h : fs.Located t root) (x : Extractors) {files : List (List JsString)}
    (hfiles : ∀ file ∈ files, file ≠ [] ∧ ∀ s ∈ file, IsName s) (e : Extraction) :
    (files.map (path root)).foldl (extractFile x fs root) e =
      { cols := e.cols ++
          (files.filter fun file ↦ !unscanned (path root file)).flatMap (t.columns x)
        scanned := e.scanned + (files.filter fun file ↦ !unscanned (path root file)).length } := by
  induction files generalizing e with
  | nil =>
      rw [List.filter_nil, List.flatMap_nil, List.append_nil]
      rfl
  | cons file files ih =>
      obtain ⟨⟨hne, hnames⟩, hfiles⟩ := List.forall_mem_cons.mp hfiles
      rw [List.map_cons, List.foldl_cons, ih hfiles, extractFile]
      cases hskip : unscanned (path root file) with
      | true =>
          rw [List.filter_cons_of_neg (by simp [hskip]), if_pos rfl]
      | false =>
          rw [List.filter_cons_of_pos (by simp [hskip]), if_neg Bool.false_ne_true,
            h.readFileSync file hnames, List.flatMap_cons, DirTree.columns, List.length_cons]
          cases t.readFileSync file with
          | none =>
              simp only [List.nil_append, Extraction.mk.injEq, true_and]
              omega
          | some text =>
              rw [extname_path hnames hne, relative_path fs.cwd hnames hne]
              simp only [List.append_assoc, Extraction.mk.injEq, true_and]
              omega

theorem extractAll_eq (h : fs.Located t root) (x : Extractors) (n : ℕ) :
    extractAll x fs n root =
      { cols := ((t.files n).filter fun file ↦ !unscanned (path root file)).flatMap (t.columns x)
        scanned := ((t.files n).filter fun file ↦ !unscanned (path root file)).length } := by
  have hwalk : fs.walk n root = (t.files n).map (path root) :=
    h.walk_eq n fun _ hs ↦ absurd hs List.not_mem_nil
  rw [extractAll, hwalk, h.foldl_extractFile x fun _ ↦ DirTree.of_mem_files, Nat.zero_add]
  rfl

end FileSystem.Located

/-! ## What the path of the root hides -/

/-- The directories on the path to a file, those of the root first.  The one in front of a
relative path has no separator before it and does not count. -/
def dirsTo (root : JsString) (file : List JsString) : List JsString :=
  let dirs := normalSegments sep period (!isAbsolute sep root) root ++ file.dropLast
  if isAbsolute sep root then dirs else dirs.tail

/-- The path to the file leads through a directory that is left out. -/
def Hidden (root : JsString) (file : List JsString) : Prop :=
  ∃ dir ∈ unscannedDirs, dir ∈ dirsTo root file

instance (root : JsString) (file : List JsString) : Decidable (Hidden root file) :=
  inferInstanceAs (Decidable (∃ dir ∈ unscannedDirs, dir ∈ dirsTo root file))

theorem unscanned_path_iff (root : JsString) {file : List JsString}
    (hnames : ∀ s ∈ file, IsName s) (hne : file ≠ []) :
    unscanned (path root file) = true ↔ Hidden root file := by
  have hdirs : ∀ dir ∈ unscannedDirs, sep ∉ dir := by decide
  have hstack := PosixPath.stack_append (!isAbsolute sep root) root hnames
  have hsep : ∀ s ∈ normalSegments sep period (!isAbsolute sep root) root ++ file, sep ∉ s :=
    fun s hs ↦ (hstack.sep_notMem sep_ne_period s (List.mem_reverse.mpr hs)).2
  rw [unscanned, List.any_eq_true, Hidden, dirsTo]
  refine exists_congr fun dir ↦ and_congr_right fun hdir ↦ ?_
  rw [decide_eq_true_iff, PosixPath.infix_iff_mem_tail_dropLast (hdirs dir hdir), path]
  have hjoin := PosixPath.foldl_join sep_ne_period root hnames hne
  rw [show file.foldl join root = _ from hjoin, PosixPath.splitOn_format hsep
    (List.append_ne_nil_of_right_ne_nil _ hne)]
  cases isAbsolute sep root with
  | true => exact iff_of_eq (congrArg (dir ∈ ·) (List.dropLast_append_of_ne_nil hne))
  | false =>
      refine iff_of_eq (congrArg (dir ∈ ·) ?_)
      exact List.tail_dropLast.symm.trans (congrArg List.tail (List.dropLast_append_of_ne_nil hne))

section Roots

variable {root root' : JsString} {file : List JsString}

/-- The root is the current directory once it is normalized. -/
def IsCurrent (root : JsString) : Prop :=
  isAbsolute sep root = false ∧ normalSegments sep period true root = []

/-- The path of the root hides the whole tree. -/
def HidesAll (root : JsString) : Prop :=
  ∃ dir ∈ unscannedDirs, if isAbsolute sep root then dir ∈ normalSegments sep period false root
    else dir ∈ (normalSegments sep period true root).tail

/-- Apart from the path of the root, the directories of the tree count: all of them, unless
the root is the current directory. -/
theorem hidden_iff (root : JsString) (file : List JsString) : Hidden root file ↔
    HidesAll root ∨ (¬ IsCurrent root ∧ ∃ dir ∈ unscannedDirs, dir ∈ file.dropLast) ∨
      ∃ dir ∈ unscannedDirs, dir ∈ file.dropLast.tail := by
  have htail : (∃ dir ∈ unscannedDirs, dir ∈ file.dropLast.tail) →
      ∃ dir ∈ unscannedDirs, dir ∈ file.dropLast :=
    fun ⟨dir, hdir, hmem⟩ ↦ ⟨dir, hdir, List.mem_of_mem_tail hmem⟩
  have happend : ∀ dirs : List JsString, (∃ dir ∈ unscannedDirs, dir ∈ dirs ++ file.dropLast) ↔
      (∃ dir ∈ unscannedDirs, dir ∈ dirs) ∨ ∃ dir ∈ unscannedDirs, dir ∈ file.dropLast := by
    intro dirs
    simp only [List.mem_append, and_or_left, exists_or]
  simp only [Hidden, dirsTo, HidesAll, IsCurrent]
  cases isAbsolute sep root with
  | true =>
      simp only [if_true, Bool.not_true, Bool.true_eq_false, false_and, not_false_iff, true_and]
      rw [happend, or_iff_left_of_imp htail]
  | false =>
      simp only [Bool.false_eq_true, if_false, Bool.not_false, true_and]
      cases normalSegments sep period true root with
      | nil =>
          simp only [List.nil_append, List.tail_nil, List.not_mem_nil, and_false, exists_false,
            false_or, not_true, false_and]
      | cons dir dirs =>
          simp only [List.cons_append, List.tail_cons, reduceCtorEq, not_false_iff, true_and]
          rw [happend, or_iff_left_of_imp htail]

/-- Of two roots, one hides all that the other hides. -/
theorem hidden_total (root root' : JsString) :
    (∀ file, Hidden root file → Hidden root' file) ∨
      ∀ file, Hidden root' file → Hidden root file := by
  have hidesAll : ∀ {r : JsString}, HidesAll r → ∀ file, Hidden r file := fun h file ↦
    (hidden_iff _ file).mpr (Or.inl h)
  by_cases hall : HidesAll root
  · exact Or.inr fun file _ ↦ hidesAll hall file
  by_cases hall' : HidesAll root'
  · exact Or.inl fun file _ ↦ hidesAll hall' file
  simp only [hidden_iff]
  by_cases hcurrent : IsCurrent root
  · refine Or.inl fun file h ↦ Or.inr (Or.inr ?_)
    rcases h with h | h | h
    · exact absurd h hall
    · exact absurd hcurrent h.1
    · exact h
  · refine Or.inr fun file h ↦ Or.inr ?_
    rcases h with h | h | h
    · exact absurd h hall'
    · exact Or.inl ⟨hcurrent, h.2⟩
    · exact Or.inr h

end Roots

/-- A smaller selection of the same size is the same. -/
theorem filter_iff_of_length {α : Type} {p q : α → Bool} {l : List α}
    (himp : ∀ a, p a = true → q a = true) (hlength : (l.filter p).length = (l.filter q).length) :
    ∀ a ∈ l, (p a = true ↔ q a = true) := by
  have heq : l.filter p = l.filter q :=
    (List.monotone_filter_right l himp).eq_of_length hlength
  intro a ha
  have hmem : a ∈ l.filter p ↔ a ∈ l.filter q := by rw [heq]
  simpa [List.mem_filter, ha] using hmem

/-! ## Two roots -/

section TwoRoots

variable (toLength : Heap → Value → Except Thrown ℕ)
  (readJson : JsString → Option (Except Thrown Config)) (x : Extractors)
  (toLowerCase : JsString → JsString)
  {fs fs' : FileSystem} {t : DirTree} {root root' : JsString}

/-- The policy is part of the tree. -/
theorem loadPolicy_eq (h : fs.Located t root) (h' : fs'.Located t root') :
    loadPolicy toLength readJson fs root = loadPolicy toLength readJson fs' root' := by
  have hnames : ∀ name ∈ [literal ".rivid.yml", literal ".rivid.yaml", literal ".rivid.json"],
      IsName name := by decide
  have hexists : ∀ name ∈ [literal ".rivid.yml", literal ".rivid.yaml", literal ".rivid.json"],
      fs.existsSync (join root name) = fs'.existsSync (join root' name) := by
    intro name hname
    have hisName := List.forall_mem_singleton.mpr (hnames name hname)
    exact congrArg Option.isSome ((h.isDirectory [name] hisName).trans
      (h'.isDirectory [name] hisName).symm)
  rw [loadPolicy, loadPolicy, List.find?_congr hexists]
  cases hfind : List.find? _ _ with
  | none => rfl
  | some name =>
      have hisName := List.forall_mem_singleton.mpr (hnames name (List.mem_of_find?_eq_some hfind))
      have hread : fs.readFileSync (join root name) = fs'.readFileSync (join root' name) :=
        (h.readFileSync [name] hisName).trans (h'.readFileSync [name] hisName).symm
      dsimp only
      rw [hread]

/-- The same columns under the same policy lead to the same outcome. -/
theorem runCheck_eq (h : fs.Located t root) (h' : fs'.Located t root') {n : ℕ}
    (hextract : extractAll x fs n root = extractAll x fs' n root') (strict : Bool) :
    runCheck toLength readJson x toLowerCase fs n root strict =
      runCheck toLength readJson x toLowerCase fs' n root' strict := by
  have hexists : fs.existsSync root = fs'.existsSync root' :=
    congrArg Option.isSome ((h.isDirectory [] fun _ hs ↦ absurd hs List.not_mem_nil).trans
      (h'.isDirectory [] fun _ hs ↦ absurd hs List.not_mem_nil).symm)
  rw [runCheck, runCheck, loadPolicy_eq toLength readJson h h', hexists, hextract]

/-- Two roots hide the same files if as many files are scanned. -/
theorem extractAll_eq_iff (h : fs.Located t root) (h' : fs'.Located t root') (n : ℕ) :
    extractAll x fs n root = extractAll x fs' n root' ↔
      ∀ file ∈ t.files n, (Hidden root file ↔ Hidden root' file) := by
  have hshown : ∀ r : JsString, ((t.files n).filter fun file ↦ !unscanned (path r file)) =
      (t.files n).filter fun file ↦ ¬ Hidden r file := by
    intro r
    refine List.filter_congr fun file hfile ↦ ?_
    obtain ⟨hne, hnames⟩ := DirTree.of_mem_files hfile
    rw [Bool.eq_iff_iff, Bool.not_eq_true', ← Bool.not_eq_true, unscanned_path_iff r hnames hne,
      decide_eq_true_iff]
  rw [h.extractAll_eq, h'.extractAll_eq, hshown root, hshown root']
  constructor
  · intro heq file hfile
    have hlength := congrArg Extraction.scanned heq
    rw [← not_iff_not]
    rcases hidden_total root root' with himp | himp
    · simpa using (filter_iff_of_length (fun file ↦ by simpa using mt (himp file)) hlength.symm
        file hfile).symm
    · simpa using filter_iff_of_length (fun file ↦ by simpa using mt (himp file)) hlength file hfile
  · intro hiff
    have hfilter : ((t.files n).filter fun file ↦ ¬ Hidden root file) =
        (t.files n).filter fun file ↦ ¬ Hidden root' file :=
      List.filter_congr fun file hfile ↦ decide_eq_decide.mpr (not_congr (hiff file hfile))
    rw [hfilter]

/-- The result of the check is the same under two paths exactly if these hide the same
files of the tree. -/
theorem sameResult_iff (h : fs.Located t root) (h' : fs'.Located t root') (n : ℕ)
    (strict : Bool) :
    extractAll x fs n root = extractAll x fs' n root' ∧
      runCheck toLength readJson x toLowerCase fs n root strict =
        runCheck toLength readJson x toLowerCase fs' n root' strict ↔
      ∀ file ∈ t.files n, (Hidden root file ↔ Hidden root' file) := by
  rw [← extractAll_eq_iff x h h' n]
  exact and_iff_left_of_imp fun hextract ↦
    runCheck_eq toLength readJson x toLowerCase h h' hextract strict

end TwoRoots

/-! ## A mounted tree

Any tree can be found at any path, by all paths that resolve to the same directory. -/

namespace DirTree

/-- The names that lead to a path from the directory with the segments `base`. -/
def namesBelow (cwd : JsString) (base : List JsString) (p : JsString) : Option (List JsString) :=
  let dirs := PosixPath.resolve sep period cwd p
  if base <+: dirs then some (dirs.drop base.length) else none

/-- The file system with nothing but the tree in it. -/
def mounted (t : DirTree) (cwd : JsString) (base : List JsString) : FileSystem where
  cwd := cwd
  readdirSync p := (namesBelow cwd base p).bind t.readdirSync
  isDirectory p := (namesBelow cwd base p).bind t.isDirectory
  readFileSync p := (namesBelow cwd base p).bind t.readFileSync

theorem located_mounted (t : DirTree) {cwd root : JsString} {base : List JsString}
    (h : PosixPath.resolve sep period cwd root = base) : (t.mounted cwd base).Located t root := by
  have hbelow : ∀ names, (∀ s ∈ names, IsName s) →
      namesBelow cwd base (path root names) = some names := by
    intro names hnames
    have hresolve : PosixPath.resolve sep period cwd (path root names) = base ++ names := by
      by_cases hne : names = []
      · rw [hne, List.append_nil]
        exact h
      · rw [← h]
        exact PosixPath.resolve_foldl_join sep_ne_period cwd root hnames hne
    rw [namesBelow]
    simp only [hresolve, if_pos (List.prefix_append base names), List.drop_left]
  exact {
    readdirSync := fun names hnames ↦ congrArg (Option.bind · t.readdirSync) (hbelow names hnames)
    isDirectory := fun names hnames ↦ congrArg (Option.bind · t.isDirectory) (hbelow names hnames)
    readFileSync := fun names hnames ↦
      congrArg (Option.bind · t.readFileSync) (hbelow names hnames) }

end DirTree

/-- A directory with one schema in a directory of the given name. -/
def schemaTree (dir : JsString) (hdir : IsName dir) : DirTree where
  readdirSync
    | [] => some [dir]
    | [d] => if d = dir then some [literal "schema.sql"] else none
    | _ => none
  isDirectory
    | [] => some true
    | [d] => if d = dir then some true else none
    | [d, f] => if d = dir ∧ f = literal "schema.sql" then some false else none
    | _ => none
  readFileSync
    | [d, f] =>
        if d = dir ∧ f = literal "schema.sql" then
          some (literal "CREATE TABLE users (id uuid PRIMARY KEY);")
        else none
    | _ => none
  isName := by
    rintro (_ | ⟨d, _ | ⟨f, fs⟩⟩) entries h name hname
    · cases h
      obtain rfl := List.mem_singleton.mp hname
      exact hdir
    · dsimp only at h
      split at h
      · cases h
        obtain rfl := List.mem_singleton.mp hname
        decide
      · cases h
    · cases h

/-- What the extractors find in that schema. -/
def usersColumns : Extractors where
  extractSql _ file :=
    [⟨literal "users", literal "id", literal "uuid", some 16, true, false, none, file⟩]
  extractPrisma _ _ := []
  extractDrizzleTs _ _ := []

/-- A schema under `db` is checked the same as `.` and by its absolute path. -/
theorem sameResult_db :
    let t := schemaTree (literal "db") (by decide)
    let fs := t.mounted (literal "/srv/app") [literal "srv", literal "app"]
    extractAll usersColumns fs 3 (literal ".") = extractAll usersColumns fs 3 (literal "/srv/app") ∧
      runCheck (fun _ _ ↦ .ok 0) (fun _ ↦ none) usersColumns (fun s ↦ s) fs 3 (literal ".") true =
        runCheck (fun _ _ ↦ .ok 0) (fun _ ↦ none) usersColumns (fun s ↦ s) fs 3
          (literal "/srv/app") true :=
  (sameResult_iff _ _ _ _ (DirTree.located_mounted _ (by decide))
    (DirTree.located_mounted _ (by decide)) 3 true).mpr (by decide)

/-- Addressed as `.`, a schema under `integrations` is scanned, by its absolute path it is
not. -/
theorem extractAll_integrations :
    let t := schemaTree (literal "integrations") (by decide)
    let fs := t.mounted (literal "/srv/app") [literal "srv", literal "app"]
    fs.Located t (literal ".") ∧ fs.Located t (literal "/srv/app") ∧
      extractAll usersColumns fs 3 (literal ".") ≠
        extractAll usersColumns fs 3 (literal "/srv/app") :=
  ⟨DirTree.located_mounted _ (by decide), DirTree.located_mounted _ (by decide),
    by decide⟩

end Rivid.Check
