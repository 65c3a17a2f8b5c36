import MUtils.Theory.Occurrences
import MUtils.Verify.DirectoryTree

/-!
# Files that are gathered from a tree

The filter for `.` and `..` looks at whole paths. Files directly in the root are seen under the path
that the root was given by, and deeper ones under the canonical path of their directory, so that
nothing in these paths may look like a dot entry.
-/

namespace MUtils
open Text FileSystem

/-! ### The filter -/

section
variable {path name : Text} {names : List Text}

/-- What is filtered for has no separator in it. -/
theorem ignored_append : Ignored (path ++ '/' :: name) ↔ Ignored path ∨ Ignored name := by
  rw [ignored_iff, ignored_iff, ignored_iff, infix_append_cons (by decide),
    infix_append_cons (by decide)]
  exact or_or_or_comm

theorem ignored_replicate (n : Nat) : Ignored (path ++ List.replicate n '/') ↔ Ignored path := by
  induction n with
  | zero => rw [List.replicate_zero, List.append_nil]
  | succ n ih =>
    have hnil : ¬Ignored [] := by decide
    rw [List.replicate_succ', ← List.append_assoc, ignored_append, ih, or_iff_left hnil]

theorem ignored_flatMap :
    Ignored (path ++ names.flatMap ('/' :: ·)) ↔ Ignored path ∨ ∃ name ∈ names, Ignored name := by
  induction names generalizing path with
  | nil => simp
  | cons name names ih =>
    rw [List.flatMap_cons, ← List.append_assoc, ih, ignored_append, or_assoc]
    simp

theorem ignored_absolutePath : Ignored (absolutePath names) ↔ ∃ name ∈ names, Ignored name := by
  have hnil : ¬Ignored [] := by decide
  by_cases hnames : names = []
  · subst hnames
    exact iff_of_false (by decide) (by simp)
  · rw [absolutePath, if_neg hnames, ← List.nil_append (names.flatMap _), ignored_flatMap,
      or_iff_right hnil]

end

namespace DirectoryTree
variable {T : DirectoryTree} {p names : List Text} {path name q : Text}

theorem ignored_kept (hpath : path ≠ []) : Ignored (T.kept path) ↔ Ignored path := by
  obtain ⟨-, n, hn⟩ := T.kept_eq path hpath
  conv_rhs => rw [hn]
  exact (ignored_replicate n).symm

/-! ### Directories -/

theorem isName_of_mem (h : (T.kind p).isSome) : ∀ name ∈ p, IsName name := by
  induction p using List.reverseRecOn with
  | nil => exact nofun
  | append_singleton p name ih =>
    intro name' hname'
    rcases List.mem_append.mp hname' with hname' | hname'
    · exact ih (by rw [T.kind_parent p name h]; rfl) name' hname'
    · rw [List.mem_singleton.mp hname']
      exact T.isName p name h

theorem absolutePath_inj {p' : List Text} (h : (T.kind p).isSome) (h' : (T.kind p').isSome)
    (heq : absolutePath p = absolutePath p') : p = p' := by
  have helements := congrArg pathElements heq
  rw [pathElements_absolutePath fun e he => (isName_of_mem h e he).toIsElement,
    pathElements_absolutePath fun e he => (isName_of_mem h' e he).toIsElement] at helements
  exact (List.cons.inj helements).2

/-- An open directory of the tree, under whatever path. -/
structure Shows (T : DirectoryTree) (dir : tinydir_dir) (p : List Text) : Prop where
  kind : T.kind p = some .directory
  resolves : T.resolve dir.path = some p
  names : dir.names = T.entries p

theorem tinydir_open_eq (hresolve : T.resolve path = some p)
    (hdir : T.kind p = some .directory) :
    T.fileSystem.tinydir_open path = some ⟨T.kept path, T.entries p⟩ := by
  simp only [fileSystem, hresolve, if_pos hdir]

theorem shows_open (hresolve : T.resolve path = some p) (hdir : T.kind p = some .directory) :
    T.Shows ⟨T.kept path, T.entries p⟩ p :=
  ⟨hdir, resolve_kept hresolve, rfl⟩

theorem seen_eq : T.fileSystem.seen path name = some q ↔
    ¬Ignored (path ++ '/' :: name) ∧
      ∃ p, T.resolve (path ++ '/' :: name) = some p ∧ absolutePath p = q := by
  rw [seen_eq_some]
  constructor
  · rintro ⟨file, hfile, hignored, hcanonical⟩
    obtain ⟨-, rfl⟩ := tinydir_readfile_eq_some.mp hfile
    exact ⟨hignored, Option.map_eq_some_iff.mp hcanonical⟩
  · rintro ⟨hignored, p, hresolve, hq⟩
    have hreadable : T.fileSystem.readable (path ++ '/' :: name) :=
      Option.isSome_of_eq_some hresolve
    exact ⟨_, tinydir_readfile_eq_some.mpr ⟨hreadable, rfl⟩, hignored,
      Option.map_eq_some_iff.mpr ⟨p, hresolve, hq⟩⟩

theorem Shows.resolve_entry {dir : tinydir_dir} (h : T.Shows dir p) (hname : '/' ∉ name) :
    T.resolve (dir.path ++ '/' :: name) = T.step p name := by
  rw [resolve_append (ne_nil_of_resolve h.resolves) hname, h.resolves, Option.bind_some]

/-- The keys of a directory: its own path, by way of the dot, and those of the names in it. -/
theorem Shows.mem_keys {dir : tinydir_dir} (h : T.Shows dir p) :
    q ∈ T.fileSystem.graph.keys dir ↔ ¬Ignored dir.path ∧ (q = absolutePath p ∨
      ∃ name, (T.kind (p ++ [name])).isSome ∧ ¬Ignored name ∧ q = absolutePath (p ++ [name])) := by
  have hdot : ¬Ignored ".".toList := by decide
  have hdotdot : Ignored "..".toList := by decide
  simp only [FileSystem.mem_keys, seen_eq, ignored_append, not_or, h.names]
  constructor
  · rintro ⟨name, hmem, ⟨hpath, hname⟩, p', hresolve, rfl⟩
    refine ⟨hpath, ?_⟩
    rcases (T.mem_entries p h.kind name).mp hmem with rfl | rfl | hchild
    · rw [h.resolve_entry (by decide), step_dot h.kind] at hresolve
      exact .inl (congrArg absolutePath (Option.some.inj hresolve).symm)
    · exact absurd hdotdot hname
    · rw [h.resolve_entry (T.isName p name hchild).noSeparator, step_child hchild] at hresolve
      exact .inr ⟨name, hchild, hname, congrArg absolutePath (Option.some.inj hresolve).symm⟩
  · rintro ⟨hpath, rfl | ⟨name, hchild, hname, rfl⟩⟩
    · refine ⟨".".toList, (T.mem_entries p h.kind _).mpr (.inl rfl), ⟨hpath, hdot⟩, p, ?_, rfl⟩
      rw [h.resolve_entry (by decide), step_dot h.kind]
    · refine ⟨name, (T.mem_entries p h.kind name).mpr (.inr (.inr hchild)), ⟨hpath, hname⟩,
        p ++ [name], ?_, rfl⟩
      rw [h.resolve_entry (T.isName p name hchild).noSeparator, step_child hchild]

theorem is_directory_absolutePath (h : (T.kind p).isSome) :
    T.fileSystem.is_directory (absolutePath p) = some (decide (T.kind p = some .directory)) := by
  simp only [fileSystem, resolve_absolutePath h, Option.map_some]

/-- The directory that is queued for a canonical path. -/
def dirOf (T : DirectoryTree) (p : List Text) : tinydir_dir :=
  ⟨T.kept (absolutePath p), T.entries p⟩

theorem shows_dirOf (h : T.kind p = some .directory) : T.Shows (T.dirOf p) p :=
  shows_open (resolve_absolutePath (Option.isSome_of_eq_some h)) h

theorem ignored_dirOf : Ignored (T.dirOf p).path ↔ ∃ name ∈ p, Ignored name :=
  (ignored_kept (absolutePath_ne_nil p)).trans ignored_absolutePath

theorem node_absolutePath (h : (T.kind p).isSome) :
    T.fileSystem.graph.node (absolutePath p) =
      if T.kind p = some .directory then some (T.dirOf p) else none := by
  have hresolve := resolve_absolutePath h
  change T.fileSystem.queued (absolutePath p) = _
  rw [queued, is_directory_absolutePath h]
  by_cases hdir : T.kind p = some .directory
  · have hcanonical : T.fileSystem.canonical (T.kept (absolutePath p)) = some (absolutePath p) :=
      Option.map_eq_some_iff.mpr ⟨p, resolve_kept hresolve, rfl⟩
    simp [hdir, tinydir_open_eq hresolve hdir, hcanonical, dirOf]
  · simp [hdir]

/-! ### What is reached -/

/-- Nothing on the way to the names is ignored, when `base` is opened under `path`. -/
structure Passes (path : Text) (base names : List Text) : Prop where
  path_ok : ¬Ignored path
  names_ok : ∀ name ∈ names, ¬Ignored name
  base_ok : 1 < names.length → ¬Ignored (absolutePath base)

section
variable {dir v : tinydir_dir} {base : List Text}

/-- The directories that a walk comes to. -/
inductive Visits (T : DirectoryTree) (dir : tinydir_dir) (base : List Text) : tinydir_dir → Prop
  | start : Visits T dir base dir
  | below {names : List Text} : T.kind (base ++ names) = some .directory →
      Passes dir.path base names → Visits T dir base (T.dirOf (base ++ names))

theorem Visits.passes (hdir : T.Shows dir base) (hv : Visits T dir base v)
    (hq : q ∈ T.fileSystem.graph.keys v) :
    ∃ names, (T.kind (base ++ names)).isSome ∧ Passes dir.path base names ∧
      q = absolutePath (base ++ names) := by
  cases hv with
  | start =>
    obtain ⟨hpath, rfl | ⟨name, hchild, hname, rfl⟩⟩ := hdir.mem_keys.mp hq
    · refine ⟨[], ?_, ⟨hpath, nofun, nofun⟩, ?_⟩
      · rw [List.append_nil, hdir.kind]
        rfl
      · rw [List.append_nil]
    · exact ⟨[name], hchild, ⟨hpath, List.forall_mem_singleton.mpr hname, nofun⟩, rfl⟩
  | @below names hkind hpasses =>
    obtain ⟨hpath, hq⟩ := (shows_dirOf hkind).mem_keys.mp hq
    rcases hq with rfl | ⟨name, hchild, hname, rfl⟩
    · exact ⟨names, Option.isSome_of_eq_some hkind, hpasses, rfl⟩
    · rw [List.append_assoc] at hchild ⊢
      refine ⟨names ++ [name], hchild, ⟨hpasses.path_ok, ?_, fun _ hbase => hpath ?_⟩, rfl⟩
      · exact List.forall_mem_append.mpr ⟨hpasses.names_ok, List.forall_mem_singleton.mpr hname⟩
      · obtain ⟨part, hpart, hignored⟩ := ignored_absolutePath.mp hbase
        exact ignored_dirOf.mpr ⟨part, List.mem_append_left _ hpart, hignored⟩

theorem visits_of_reaches (hdir : T.Shows dir base) (h : T.fileSystem.graph.Reaches dir v) :
    Visits T dir base v := by
  induction h with
  | start => exact .start
  | next _ hk hnode ih =>
    obtain ⟨names, hkind, hpasses, rfl⟩ := ih.passes hdir hk
    rw [node_absolutePath hkind] at hnode
    split at hnode
    · next hdirectory =>
      cases hnode
      exact .below hdirectory hpasses
    · cases hnode

theorem reachesKey_of_passes (hdir : T.Shows dir base) {names : List Text}
    (hkind : (T.kind (base ++ names)).isSome) (hpasses : Passes dir.path base names) :
    T.fileSystem.graph.ReachesKey dir (absolutePath (base ++ names)) := by
  induction names using List.reverseRecOn with
  | nil =>
    rw [List.append_nil]
    exact ⟨dir, .start, hdir.mem_keys.mpr ⟨hpasses.path_ok, .inl rfl⟩⟩
  | append_singleton names name ih =>
    obtain ⟨hpath, hnames, hbase⟩ := hpasses
    obtain ⟨hnames, hname⟩ := List.forall_mem_append.mp hnames
    have hname := List.forall_mem_singleton.mp hname
    rw [← List.append_assoc] at hkind ⊢
    have hparent := T.kind_parent _ _ hkind
    cases names with
    | nil =>
      rw [List.append_nil] at hkind ⊢
      exact ⟨dir, .start, hdir.mem_keys.mpr ⟨hpath, .inr ⟨name, hkind, hname, rfl⟩⟩⟩
    | cons first names =>
      -- the directory is reached, and opened under its canonical path
      have hsome : (T.kind (base ++ first :: names)).isSome := Option.isSome_of_eq_some hparent
      have hbase' : ¬Ignored (absolutePath base) := hbase (by simp)
      obtain ⟨v, hv, hk⟩ := ih hsome ⟨hpath, hnames, fun _ => hbase'⟩
      have hnode := (node_absolutePath hsome).trans (if_pos hparent)
      refine ⟨_, hv.next hk hnode, (shows_dirOf hparent).mem_keys.mpr ⟨?_, .inr ?_⟩⟩
      · rw [ignored_dirOf]
        rintro ⟨part, hpart, hignored⟩
        rcases List.mem_append.mp hpart with hpart | hpart
        · exact hbase' (ignored_absolutePath.mpr ⟨part, hpart, hignored⟩)
        · exact hnames part hpart hignored
      · exact ⟨name, hkind, hname, rfl⟩

end

/-- **The files that are gathered** from a tree are those for which neither the path that was given,
nor a name on the way, nor, for files in directories below it, the canonical path of the root has
`..` or `\.` in it. -/
theorem gathers_file_iff (T : DirectoryTree) {root : Text} {base : List Text}
    (hroot : T.resolve root = some base) (hdir : T.kind base = some .directory) :
    ∃ n ret, (∀ fuel ≥ n, file_gather_files T.fileSystem fuel root = .ok ret) ∧
      ∀ names, T.kind (base ++ names) = some .file →
        (absolutePath (base ++ names) ∈ ret ↔ ¬Ignored root ∧ (∀ name ∈ names, ¬Ignored name) ∧
          (1 < names.length → ¬Ignored (absolutePath base))) := by
  have hshows := shows_open hroot hdir
  have hkeys : ∀ q, T.fileSystem.graph.ReachesKey ⟨T.kept root, T.entries base⟩ q →
      ∃ names, (T.kind (base ++ names)).isSome ∧ Passes (T.kept root) base names ∧
        q = absolutePath (base ++ names) := by
    rintro q ⟨v, hv, hq⟩
    exact (visits_of_reaches hshows hv).passes hshows hq
  have hfinite : {q | T.fileSystem.graph.ReachesKey ⟨T.kept root, T.entries base⟩ q}.Finite := by
    apply (T.finite.image absolutePath).subset
    intro q hq
    obtain ⟨names, hkind, -, rfl⟩ := hkeys q hq
    exact ⟨_, hkind, rfl⟩
  obtain ⟨n, s, hgather, hinv, hqueue⟩ := exists_gather (tinydir_open_eq hroot hdir) hfinite
  refine ⟨n, (T.fileSystem.ofWalk root s).ret, fun fuel hfuel => ?_, fun names hkind => ?_⟩
  · rw [file_gather_files, hgather fuel hfuel]
    rfl
  · have hsome : (T.kind (base ++ names)).isSome := Option.isSome_of_eq_some hkind
    have hfile : T.fileSystem.is_directory (absolutePath (base ++ names)) = some false := by
      rw [is_directory_absolutePath hsome, hkind]
      rfl
    have hret : absolutePath (base ++ names) ∈ (T.fileSystem.ofWalk root s).ret ↔
        absolutePath (base ++ names) ∈ s.found :=
      List.mem_filter.trans (and_iff_left (decide_eq_true hfile))
    rw [hret, hinv.mem_found hqueue, ← ignored_kept (T := T) (ne_nil_of_resolve hroot)]
    constructor
    · intro hreaches
      obtain ⟨names', hsome', hpasses, heq⟩ := hkeys _ hreaches
      obtain rfl := List.append_cancel_left (absolutePath_inj hsome hsome' heq)
      exact ⟨hpasses.path_ok, hpasses.names_ok, hpasses.base_ok⟩
    · rintro ⟨hpath, hnames, hbase⟩
      exact reachesKey_of_passes hshows hsome ⟨hpath, hnames, hbase⟩

/-- A file and a directory. -/
def besidesKind (p : List Text) : Option FileKind :=
  if p = [] ∨ p = [['d']] then some .directory else if p = [['f']] then some .file else none

theorem besidesKind_isSome : (besidesKind p).isSome ↔ p = [] ∨ p = [['d']] ∨ p = [['f']] := by
  rw [← or_assoc, besidesKind]
  by_cases hdir : p = [] ∨ p = [['d']]
  · simp [hdir]
  · by_cases hfile : p = [['f']] <;> simp [hdir, hfile]

theorem besidesKind_concat_isSome :
    (besidesKind (p ++ [name])).isSome ↔ p = [] ∧ (name = ['d'] ∨ name = ['f']) := by
  rw [besidesKind_isSome]
  cases p with
  | nil => simp
  | cons first p => simp

/-- A file next to the working directory. -/
def besides : DirectoryTree where
  kind := besidesKind
  entries p := [".".toList, "..".toList] ++ if p = [] then [['d'], ['f']] else []
  cwd := [['d']]
  kept := id
  kind_root := rfl
  kind_cwd := rfl
  kind_parent p name h := by
    rw [(besidesKind_concat_isSome.mp h).1]
    rfl
  isName p name h := by
    rcases (besidesKind_concat_isSome.mp h).2 with rfl | rfl
    · decide
    · decide
  mem_entries p hp name := by
    rw [besidesKind_concat_isSome]
    by_cases hnil : p = [] <;> simp [hnil]
  kept_eq path hpath := ⟨hpath, 0, (List.append_nil path).symm⟩
  finite := by
    apply (Set.toFinite {[], [['d']], [['f']]}).subset
    intro p hp
    exact besidesKind_isSome.mp hp

theorem gathers_file_iff_absolute :
    ∃ n ret, (∀ fuel ≥ n, file_gather_files besides.fileSystem fuel ['/'] = .ok ret) ∧
      absolutePath [['f']] ∈ ret := by
  have hroot : besides.resolve ['/'] = some [] := rfl
  obtain ⟨n, ret, hret, hfiles⟩ := gathers_file_iff besides hroot rfl
  exact ⟨n, ret, hret, (hfiles [['f']] rfl).mpr ⟨by decide, by decide, nofun⟩⟩

/-- The file is not found when the root is given by a path that goes up. -/
theorem gathers_not_relative :
    besides.resolve "..".toList = some [] ∧ besides.kind [] = some .directory ∧
      besides.kind [['f']] = some .file ∧
      ∀ fuel ≥ 2, file_gather_files besides.fileSystem fuel "..".toList = .ok [] := by
  refine ⟨rfl, rfl, rfl, fun fuel hfuel => ?_⟩
  obtain ⟨fuel, rfl⟩ := Nat.exists_eq_add_of_le' hfuel
  rfl

end DirectoryTree

end MUtils
