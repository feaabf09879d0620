import Rivid.Check.Load
import Rivid.Lib.Path

/-!
# From a directory to a verdict

`walk` collects the files that may hold a schema, `extractAll` reads the ones that
no directory called `integrations` or `benchmarks` hides and looks for columns, and
`runCheck` analyzes them under the policy of the directory.

Paths are those of a POSIX system.  What an extractor finds depends on the text and the
name of the file, in any way, and so does what `JSON.parse` makes of a policy.
-/

namespace Rivid.Check

/-! ## Paths -/

/-- `sep`. -/
def sep : U16 := 0x2f

def period : U16 := 0x2e

def join (a b : JsString) : JsString := PosixPath.join sep period a b

/-- `relative`, in the current directory `cwd`. -/
def relative (cwd source target : JsString) : JsString :=
  PosixPath.relative sep period cwd source target

def extname (p : JsString) : JsString := PosixPath.extname sep period p

/-- What an entry of a directory can be called. -/
abbrev IsName (s : JsString) : Prop := PosixPath.IsName sep period s

/-! ## File discovery -/

/-- The file system as the process sees it; there is no value where a call throws. -/
structure FileSystem where
  cwd : JsString
  readdirSync : JsString → Option (List JsString)
  /-- `statSync(p).isDirectory()`. -/
  isDirectory : JsString → Option Bool
  readFileSync : JsString → Option JsString

def skipDirs : List JsString :=
  ["node_modules", ".git", "dist", "target", "build", ".next", ".venv", "venv", "__pycache__",
    ".gradle", "coverage", ".pytest_cache", "pkg"].map literal

def scanExt : List JsString :=
  [".sql", ".prisma", ".ts", ".mts", ".cts", ".tsx", ".js", ".mjs", ".cjs", ".py", ".go", ".rs",
    ".yml", ".yaml"].map literal

namespace FileSystem

variable (fs : FileSystem)

def existsSync (p : JsString) : Bool := (fs.isDirectory p).isSome

/-- The files below a directory, at most so many directories deep. -/
def walk : ℕ → JsString → List JsString
  | 0, _ => []
  | n + 1, dir =>
      match fs.readdirSync dir with
      | none => []
      | some entries =>
          entries.flatMap fun name ↦
            if skipDirs.contains name then []
            else
              let p := join dir name
              match fs.isDirectory p with
              | none => []
              | some true => walk n p
              | some false => if scanExt.contains (extname name) then [p] else []

end FileSystem

/-! ## Extraction -/

structure Extractors where
  extractSql : JsString → JsString → List Column
  extractPrisma : JsString → JsString → List Column
  extractDrizzleTs : JsString → JsString → List Column

/-- `/pgTable|mysqlTable|sqliteTable/.test(text)`. -/
def usesTable (text : JsString) : Bool :=
  [literal "pgTable", literal "mysqlTable", literal "sqliteTable"].any fun word ↦ word <:+: text

/-- The columns in a text, from a file with the given extension and relative name. -/
def Extractors.columns (x : Extractors) (ext text rel : JsString) : List Column :=
  if ext = literal ".sql" then x.extractSql text rel
  else if ext = literal ".prisma" then x.extractPrisma text rel
  else if [literal ".ts", literal ".mts", literal ".tsx"].contains ext && usesTable text then
    x.extractDrizzleTs text rel
  else []

/-- The directories whose files are left out. -/
def unscannedDirs : List JsString := [literal "integrations", literal "benchmarks"]

def unscanned (file : JsString) : Bool :=
  unscannedDirs.any fun dir ↦ sep :: (dir ++ [sep]) <:+: file

structure Extraction where
  cols : List Column
  scanned : ℕ
deriving DecidableEq, Repr

/-- One file of `extractAll`. -/
def extractFile (x : Extractors) (fs : FileSystem) (root : JsString) (e : Extraction)
    (file : JsString) : Extraction :=
  if unscanned file then e
  else
    match fs.readFileSync file with
    | none => { e with scanned := e.scanned + 1 }
    | some text =>
        { cols := e.cols ++ x.columns (extname file) text (relative fs.cwd root file)
          scanned := e.scanned + 1 }

def extractAll (x : Extractors) (fs : FileSystem) (n : ℕ) (root : JsString) : Extraction :=
  (fs.walk n root).foldl (extractFile x fs root) ⟨[], 0⟩

/-! ## The check -/

/-- What `analyze` reads of `{}`. -/
def Config.empty : Config := ⟨.undefined, .undefined, .undefined, .undefined, []⟩

section

variable (toLength : Heap → Value → Except Thrown ℕ)
  (readJson : JsString → Option (Except Thrown Config))

/-- `loadPolicy`: there is no policy if its file cannot be read or parsed. -/
def loadPolicy (fs : FileSystem) (root : JsString) : Option (Except Thrown Config) :=
  match [literal ".rivid.yml", literal ".rivid.yaml", literal ".rivid.json"].find? fun name ↦
      fs.existsSync (join root name) with
  | none => some (.ok Config.empty)
  | some name =>
      match fs.readFileSync (join root name) with
      | none => none
      | some raw =>
          if (literal ".json").isSuffixOf name then readJson raw
          else some ((parsePolicyYaml raw).config toLength)

/-- The findings that are printed, and the exit code. -/
structure Outcome where
  findings : List Finding
  exitCode : ℕ
deriving DecidableEq, Repr

/-- Where there is no policy or nothing to look at, the exit code is 2. -/
def runCheck (x : Extractors) (toLowerCase : JsString → JsString) (fs : FileSystem) (n : ℕ)
    (scanRoot : JsString) (strict : Bool) : Except Thrown Outcome :=
  match loadPolicy toLength readJson fs scanRoot with
  | none => .ok ⟨[], 2⟩
  | some policy =>
      if fs.existsSync scanRoot then do
        let config ← policy
        let report := analyze toLowerCase (extractAll x fs n scanRoot).cols config
        return ⟨report.findings, report.exitCode strict⟩
      else .ok ⟨[], 2⟩

end

end Rivid.Check
