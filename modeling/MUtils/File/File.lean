import MUtils.Theory.Outcome
import MUtils.Theory.Text

/-!
# Files

`file_get_relative_path` and `file_gather_files`. A `fs::path` is its text, with `/` as separator
and without root names. What `file_gather_files` asks of the machine, through tinydir and through
`fs`, is a `FileSystem`; what it logs is left out.
-/

namespace MUtils
open Text

/-! ### Relative paths -/

/-- The elements of a path from `begin()` to `end()`: the root directory, the names, and a dot for a
separator behind the last name. -/
def pathElements (path : Text) : List Text :=
  let root_directory := if path.head? = some '/' then [['/']] else []
  let names := runs (· == '/') path
  let dot := if path.getLast? = some '/' ∧ names ≠ [] then [['.']] else []
  root_directory ++ names ++ dot

/-- `operator/` -/
def pathAppend (path other : Text) : Text :=
  if path = [] ∨ path.getLast? = some '/' ∨ other.head? = some '/' then path ++ other
  else path ++ '/' :: other

/-- The loop through both paths, up to where they first diverge. -/
def loopThroughBoth : List Text → List Text → List Text × List Text
  | f :: fromIter, t :: toIter =>
    if t = f then loopThroughBoth fromIter toIter else (f :: fromIter, t :: toIter)
  | fromIter, toIter => (fromIter, toIter)

def file_get_relative_path (fromPath toPath : Text) : Text :=
  let (fromIter, toIter) := loopThroughBoth (pathElements fromPath) (pathElements toPath)
  let finalPath := fromIter.foldl (fun finalPath _ => pathAppend finalPath "..".toList) []
  toIter.foldl pathAppend finalPath

/-! ### Gathering files -/

/-- An open directory, with the names of the entries from the next one on. -/
structure tinydir_dir where
  path : Text
  names : List Text

/-- What a process sees of the files of a machine, as long as nobody changes them. -/
structure FileSystem where
  /-- `none` for a result of `-1`. -/
  tinydir_open : Text → Option tinydir_dir
  /-- Whether `tinydir_readfile` can read the entry with the path. -/
  readable : Text → Bool
  /-- `none` for an exception. -/
  canonical : Text → Option Text
  /-- `none` for an exception. -/
  is_directory : Text → Option Bool

structure GatherState where
  ret : List Text := []
  checkedPaths : Finset Text := ∅
  dirs : List tinydir_dir := []
  /-- The paths that `tinydir_open` was called with. -/
  opened : List Text := []

namespace FileSystem

/-- The test that is to ignore `.` and `..`. -/
def Ignored (filePath : Text) : Prop :=
  (findSub "\\.".toList filePath).isSome ∨ (findSub "..".toList filePath).isSome

instance (filePath : Text) : Decidable (Ignored filePath) := inferInstanceAs (Decidable (_ ∨ _))

variable (fs : FileSystem)

/-- `thisDir` and the name of the entry at its cursor. -/
def tinydir_readfile (path name : Text) : Option Text :=
  let file := path ++ '/' :: name
  if fs.readable file then some file else none

/-- The loop over the entries of `thisDir`. -/
def gatherDir (path : Text) : List Text → GatherState → GatherState
  | [], s => s
  | name :: names, s =>
    match fs.tinydir_readfile path name with
    | none => gatherDir path names s
    | some file =>
      if Ignored file then gatherDir path names s
      else
        match fs.canonical file with
        | none => gatherDir path names s
        | some filePath =>
          if filePath ∈ s.checkedPaths then gatherDir path names s
          else
            let s := { s with checkedPaths := insert filePath s.checkedPaths }
            match fs.is_directory filePath with
            | none => gatherDir path names s
            | some false => gatherDir path names { s with ret := s.ret ++ [filePath] }
            | some true =>
              let s := { s with opened := s.opened ++ [filePath] }
              match fs.tinydir_open filePath with
              | none => gatherDir path names s
              | some subDir =>
                match fs.canonical subDir.path with
                | none => gatherDir path names s
                | some _ => gatherDir path names { s with dirs := s.dirs ++ [subDir] }

/-- The loop over the directories, for at most `fuel` rounds. -/
def gatherDirs : Nat → GatherState → Outcome GatherState
  | 0, _ => .error .diverged
  | fuel + 1, s =>
    match s.dirs with
    | [] => .ok s
    | thisDir :: dirs =>
      gatherDirs fuel (fs.gatherDir thisDir.path thisDir.names { s with dirs })

/-- `file_gather_files`, with all that it keeps track of. -/
def gather (fuel : Nat) (root : Text) : Outcome GatherState :=
  match fs.tinydir_open root with
  | none => .ok { opened := [root] }
  | some dir => fs.gatherDirs fuel { dirs := [dir], opened := [root] }

end FileSystem

def file_gather_files (fs : FileSystem) (fuel : Nat) (root : Text) : Outcome (List Text) := do
  let s ← fs.gather fuel root
  return s.ret

end MUtils
