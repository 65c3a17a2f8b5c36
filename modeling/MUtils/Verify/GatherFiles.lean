import MUtils.File.File
import MUtils.Theory.Occurrences
import MUtils.Theory.Worklist

/-!
# Gathering files

`file_gather_files` is a walk (`KeyGraph`) whose nodes are open directories and whose keys are
canonical paths: the paths of the entries that can be read, pass the filter and can be made
canonical. Everything that the function keeps track of is determined by the walk (`ofWalk`), and so
it ends, without duplicates, with exactly the files that the walk reaches.
-/

namespace MUtils
open Text

namespace FileSystem
variable (fs : FileSystem)

/-- The canonical path of an entry, if the walk gets that far. -/
def seen (path name : Text) : Option Text := do
  let file ← fs.tinydir_readfile path name
  if Ignored file then none else fs.canonical file

/-- The directory that is queued for a path. -/
def queued (filePath : Text) : Option tinydir_dir := do
  if fs.is_directory filePath = some true then
    let subDir ← fs.tinydir_open filePath
    let _ ← fs.canonical subDir.path
    return subDir
  else none

def graph : KeyGraph tinydir_dir Text where
  keys dir := dir.names.filterMap (fs.seen dir.path)
  node := fs.queued

/-- What the function keeps track of in a walk. -/
def ofWalk (root : Text) (s : SearchState tinydir_dir Text) : GatherState where
  ret := s.found.filter (fs.is_directory · = some false)
  checkedPaths := s.found.toFinset
  dirs := s.queue
  opened := root :: s.found.filter (fs.is_directory · = some true)

/-- What happens to a path that the walk gets to. -/
def note (filePath : Text) (s : GatherState) : GatherState :=
  if filePath ∈ s.checkedPaths then s
  else
    { ret := s.ret ++ if fs.is_directory filePath = some false then [filePath] else []
      checkedPaths := insert filePath s.checkedPaths
      dirs := s.dirs ++ (fs.queued filePath).toList
      opened := s.opened ++ if fs.is_directory filePath = some true then [filePath] else [] }

variable {fs} {root : Text}

/-! ### The loops -/

theorem tinydir_readfile_eq_some {path name file : Text} :
    fs.tinydir_readfile path name = some file ↔ fs.readable file ∧ file = path ++ '/' :: name := by
  rw [tinydir_readfile, Option.ite_none_right_eq_some, Option.some_inj, eq_comm (b := file)]
  exact and_congr_left fun hfile => by rw [hfile]

theorem seen_eq_some {path name filePath : Text} :
    fs.seen path name = some filePath ↔ ∃ file, fs.tinydir_readfile path name = some file ∧
      ¬Ignored file ∧ fs.canonical file = some filePath := by
  simp only [seen, Option.bind_eq_bind, Option.bind_eq_some_iff]
  refine exists_congr fun file => and_congr_right fun _ => ?_
  by_cases hignored : Ignored file
  · simp [hignored]
  · simp [hignored]

theorem gatherDir_seen_none {path name : Text} (h : fs.seen path name = none) (names : List Text)
    (s : GatherState) : fs.gatherDir path (name :: names) s = fs.gatherDir path names s := by
  rw [gatherDir]
  cases hfile : fs.tinydir_readfile path name with
  | none => rfl
  | some file =>
    by_cases hignored : Ignored file
    · exact if_pos hignored
    · cases hcanonical : fs.canonical file with
      | none => simp only [if_neg hignored, hcanonical]
      | some filePath =>
        rw [seen_eq_some.mpr ⟨file, hfile, hignored, hcanonical⟩] at h
        cases h

theorem gatherDir_seen_some {path name filePath : Text} (h : fs.seen path name = some filePath)
    (names : List Text) (s : GatherState) :
    fs.gatherDir path (name :: names) s = fs.gatherDir path names (fs.note filePath s) := by
  obtain ⟨file, hfile, hignored, hcanonical⟩ := seen_eq_some.mp h
  rw [gatherDir]
  simp only [hfile, if_neg hignored, hcanonical, note]
  by_cases hchecked : filePath ∈ s.checkedPaths
  · rw [if_pos hchecked, if_pos hchecked]
  · rw [if_neg hchecked, if_neg hchecked]
    cases hdirectory : fs.is_directory filePath with
    | none => simp [queued, hdirectory]
    | some directory =>
      cases directory with
      | false => simp [queued, hdirectory]
      | true =>
        cases hopen : fs.tinydir_open filePath with
        | none => simp [queued, hdirectory, hopen]
        | some subDir =>
          cases hnew : fs.canonical subDir.path <;> simp [queued, hdirectory, hopen, hnew]

theorem note_ofWalk (filePath : Text) (s : SearchState tinydir_dir Text) :
    fs.note filePath (fs.ofWalk root s) = fs.ofWalk root (fs.graph.visit s filePath) := by
  have hchecked : filePath ∈ (fs.ofWalk root s).checkedPaths ↔ filePath ∈ s.found :=
    List.mem_toFinset
  rw [note, if_congr hchecked rfl rfl, KeyGraph.visit]
  by_cases hfound : filePath ∈ s.found
  · rw [if_pos hfound, if_pos hfound]
  · rw [if_neg hfound, if_neg hfound]
    simp [ofWalk, graph, List.filter_singleton, List.toFinset_append]

theorem gatherDir_ofWalk (path : Text) (names : List Text) (s : SearchState tinydir_dir Text) :
    fs.gatherDir path names (fs.ofWalk root s) =
      fs.ofWalk root (fs.graph.visitAll s (names.filterMap (fs.seen path))) := by
  induction names generalizing s with
  | nil => rfl
  | cons name names ih =>
    cases hseen : fs.seen path name with
    | none => rw [gatherDir_seen_none hseen, ih, List.filterMap_cons_none hseen]
    | some filePath =>
      rw [gatherDir_seen_some hseen, note_ofWalk, ih, List.filterMap_cons_some hseen]
      rfl

theorem gatherDirs_nil {s : SearchState tinydir_dir Text} (h : s.queue = []) (fuel : Nat) :
    fs.gatherDirs (fuel + 1) (fs.ofWalk root s) = .ok (fs.ofWalk root s) := by
  obtain ⟨found, queue⟩ := s
  subst h
  rfl

theorem gatherDirs_round {s : SearchState tinydir_dir Text} (h : s.queue ≠ []) (fuel : Nat) :
    fs.gatherDirs (fuel + 1) (fs.ofWalk root s) =
      fs.gatherDirs fuel (fs.ofWalk root (fs.graph.round s)) := by
  obtain ⟨found, queue⟩ := s
  cases queue with
  | nil => exact absurd rfl h
  | cons thisDir dirs =>
    exact congrArg (fs.gatherDirs fuel) (gatherDir_ofWalk thisDir.path thisDir.names ⟨found, dirs⟩)

theorem gatherDirs_walk {start : tinydir_dir} {n d fuel : Nat}
    (hdone : (fs.graph.walk start (n + d)).queue = []) (hfuel : d < fuel) :
    fs.gatherDirs fuel (fs.ofWalk root (fs.graph.walk start n)) =
      .ok (fs.ofWalk root (fs.graph.walk start (n + d))) := by
  induction d generalizing n fuel with
  | zero =>
    obtain ⟨fuel, rfl⟩ := Nat.exists_eq_add_one.mpr hfuel
    exact gatherDirs_nil hdone fuel
  | succ d ih =>
    obtain ⟨fuel, rfl⟩ := Nat.exists_eq_add_one.mpr (Nat.zero_lt_of_lt hfuel)
    by_cases hqueue : (fs.graph.walk start n).queue = []
    · rw [gatherDirs_nil hqueue, fs.graph.walk_add_of_nil hqueue]
    · have hnext : n + (d + 1) = n + 1 + d := by omega
      rw [hnext] at hdone ⊢
      rw [gatherDirs_round hqueue]
      exact ih hdone (Nat.lt_of_succ_lt_succ hfuel)

/-- The function comes to an end, and what it has kept track of is a walk that is over. -/
theorem exists_gather {dir : tinydir_dir} (hopen : fs.tinydir_open root = some dir)
    (hfinite : {p | fs.graph.ReachesKey dir p}.Finite) :
    ∃ n s, (∀ fuel ≥ n, fs.gather fuel root = .ok (fs.ofWalk root s)) ∧
      KeyGraph.WalkInv fs.graph dir s ∧ s.queue = [] := by
  obtain ⟨n, hdone⟩ := KeyGraph.exists_walk_done hfinite
  refine ⟨n + 1, fs.graph.walk dir n, fun fuel hfuel => ?_, KeyGraph.walkInv_walk _ _ _, hdone⟩
  have hwalk : fs.gatherDirs fuel (fs.ofWalk root (fs.graph.walk dir 0)) =
      .ok (fs.ofWalk root (fs.graph.walk dir (0 + n))) :=
    gatherDirs_walk (by rwa [Nat.zero_add]) hfuel
  rw [gather, hopen]
  rwa [Nat.zero_add] at hwalk

/-! ### What is gathered -/

/-- The canonical paths of what can be reached from the root by going from directories to their
entries, but not by way of `..` from a directory to the one that it is in. -/
inductive Below (fs : FileSystem) (root : Text) : Text → Prop
  | entry {dir name p} : fs.tinydir_open root = some dir → name ∈ dir.names → name ≠ "..".toList →
      fs.canonical (dir.path ++ '/' :: name) = some p → Below fs root p
  | deeper {d dir name p} : Below fs root d → fs.is_directory d = some true →
      fs.tinydir_open d = some dir → name ∈ dir.names → name ≠ "..".toList →
      fs.canonical (dir.path ++ '/' :: name) = some p → Below fs root p

theorem ignored_iff {path : Text} :
    Ignored path ↔ "\\.".toList <:+: path ∨ "..".toList <:+: path := by
  have hfind : ∀ d : Text, (findSub d path).isSome ↔ d <:+: path := by
    intro d
    rw [← not_iff_not, ← findSub_eq_none, Bool.not_eq_true, Option.isSome_eq_false_iff,
      Option.isNone_iff_eq_none]
  rw [Ignored, hfind, hfind]

theorem canonical_of_seen {path name p : Text} (h : fs.seen path name = some p) :
    fs.canonical (path ++ '/' :: name) = some p := by
  obtain ⟨file, hfile, -, hcanonical⟩ := seen_eq_some.mp h
  obtain ⟨-, rfl⟩ := tinydir_readfile_eq_some.mp hfile
  exact hcanonical

/-- The filter keeps the walk from going up. -/
theorem ne_dotdot_of_seen {path name p : Text} (h : fs.seen path name = some p) :
    name ≠ "..".toList := by
  rintro rfl
  obtain ⟨file, hfile, hignored, -⟩ := seen_eq_some.mp h
  obtain ⟨-, rfl⟩ := tinydir_readfile_eq_some.mp hfile
  exact hignored (ignored_iff.mpr (.inr ⟨path ++ ['/'], [], by simp⟩))

theorem queued_eq_some {p : Text} {dir : tinydir_dir} (h : fs.queued p = some dir) :
    fs.is_directory p = some true ∧ fs.tinydir_open p = some dir := by
  unfold queued at h
  split at h
  · next hdirectory =>
    simp only [Option.bind_eq_bind, Option.bind_eq_some_iff, Option.pure_def,
      Option.some.injEq] at h
    obtain ⟨_, hopen, _, _, rfl⟩ := h
    exact ⟨hdirectory, hopen⟩
  · cases h

theorem mem_keys {dir : tinydir_dir} {p : Text} :
    p ∈ fs.graph.keys dir ↔ ∃ name ∈ dir.names, fs.seen dir.path name = some p :=
  List.mem_filterMap

theorem below_of_reachesKey {dir : tinydir_dir} (hopen : fs.tinydir_open root = some dir) {p : Text}
    (h : fs.graph.ReachesKey dir p) : fs.Below root p := by
  obtain ⟨v, hv, hp⟩ := h
  induction hv generalizing p with
  | start =>
    obtain ⟨name, hname, hseen⟩ := mem_keys.mp hp
    exact .entry hopen hname (ne_dotdot_of_seen hseen) (canonical_of_seen hseen)
  | next _ hd hnode ih =>
    obtain ⟨hdirectory, hopen'⟩ := queued_eq_some hnode
    obtain ⟨name, hname, hseen⟩ := mem_keys.mp hp
    exact .deeper (ih hd) hdirectory hopen' hname (ne_dotdot_of_seen hseen)
      (canonical_of_seen hseen)

/-- **Gathering files ends**, whatever links there are and whatever cannot be read: no directory is
opened twice besides the root, and what is returned are different canonical paths of files below the
root. -/
theorem gather_files_ends (fs : FileSystem) (root : Text)
    (hfinite : {q | ∃ p, fs.canonical p = some q}.Finite)
    (hidem : ∀ p q, fs.canonical p = some q → fs.canonical q = some q) :
    ∃ n s, (∀ fuel ≥ n, fs.gather fuel root = .ok s ∧ file_gather_files fs fuel root = .ok s.ret) ∧
      (∃ opened, s.opened = root :: opened ∧ opened.Nodup ∧
        ∀ p ∈ opened, fs.canonical p = some p ∧ fs.is_directory p = some true) ∧
      s.ret.Nodup ∧
      ∀ p ∈ s.ret, fs.canonical p = some p ∧ fs.is_directory p = some false ∧ fs.Below root p := by
  cases hopen : fs.tinydir_open root with
  | none =>
    have hgather : ∀ fuel, fs.gather fuel root = .ok { opened := [root] } := fun fuel => by
      rw [gather, hopen]
    refine ⟨0, _, fun fuel _ => ⟨hgather fuel, ?_⟩, ⟨[], rfl, List.nodup_nil, nofun⟩,
      List.nodup_nil, nofun⟩
    rw [file_gather_files, hgather]
    rfl
  | some dir =>
    have hkey : ∀ p, fs.graph.ReachesKey dir p → ∃ file, fs.canonical file = some p := by
      rintro p ⟨v, -, hp⟩
      obtain ⟨name, -, hseen⟩ := mem_keys.mp hp
      exact ⟨_, canonical_of_seen hseen⟩
    obtain ⟨n, s, hgather, hinv, -⟩ := exists_gather hopen (hfinite.subset hkey)
    have hcanonical : ∀ p ∈ s.found, fs.canonical p = some p := by
      intro p hp
      obtain ⟨file, hfile⟩ := hkey p (hinv.found p hp)
      exact hidem file p hfile
    refine ⟨n, _, fun fuel hfuel => ⟨hgather fuel hfuel, ?_⟩,
      ⟨_, rfl, hinv.nodup.filter _, fun p hp => ?_⟩, hinv.nodup.filter _, fun p hp => ?_⟩
    · rw [file_gather_files, hgather fuel hfuel]
      rfl
    · obtain ⟨hfound, hdirectory⟩ := List.mem_filter.mp hp
      exact ⟨hcanonical p hfound, of_decide_eq_true hdirectory⟩
    · obtain ⟨hfound, hfile⟩ := List.mem_filter.mp hp
      exact ⟨hcanonical p hfound, of_decide_eq_true hfile,
        below_of_reachesKey hopen (hinv.found p hfound)⟩

/-- A directory with a file, a link to itself and an entry for the directory that it is in. -/
def linked : FileSystem where
  tinydir_open path := if path = "/d".toList then some ⟨path, [['f'], ['l'], ['.', '.']]⟩ else none
  readable _ := true
  canonical path :=
    if path = "/d/f".toList then some "/d/f".toList
    else if path = "/d/l".toList ∨ path = "/d".toList then some "/d".toList
    else if path = "/d/..".toList ∨ path = "/".toList then some "/".toList
    else none
  is_directory path := some (path ≠ "/d/f".toList)

theorem linked_canonical {p q : Text} (h : linked.canonical p = some q) :
    q = "/d/f".toList ∨ q = "/d".toList ∨ q = "/".toList := by
  simp only [linked] at h
  split at h
  · exact .inl (Option.some.inj h).symm
  split at h
  · exact .inr (.inl (Option.some.inj h).symm)
  split at h
  · exact .inr (.inr (Option.some.inj h).symm)
  · cases h

theorem gather_files_ends_linked :
    ∃ n s, (∀ fuel ≥ n, linked.gather fuel "/d".toList = .ok s) ∧ s.ret.Nodup ∧
      ∀ p ∈ s.ret, linked.Below "/d".toList p := by
  have hfinite : {q | ∃ p, linked.canonical p = some q}.Finite := by
    apply Set.Finite.subset (Set.toFinite {"/d/f".toList, "/d".toList, "/".toList})
    rintro q ⟨p, h⟩
    exact linked_canonical h
  have hidem : ∀ p q, linked.canonical p = some q → linked.canonical q = some q := by
    intro p q h
    rcases linked_canonical h with rfl | rfl | rfl
    · rfl
    · rfl
    · rfl
  obtain ⟨n, s, hends, -, hnodup, hfiles⟩ := gather_files_ends linked "/d".toList hfinite hidem
  exact ⟨n, s, fun fuel hfuel => (hends fuel hfuel).1, hnodup, fun p hp => (hfiles p hp).2.2⟩

end FileSystem

end MUtils
