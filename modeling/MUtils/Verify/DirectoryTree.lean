import MUtils.Verify.GatherFiles
import MUtils.Verify.RelativePath

/-!
# Directory trees

A machine whose files are a finite tree that can be read everywhere, without links. Files and
directories are given by their names from the root of the machine on. A path is resolved name by
name, from there or from the working directory.
-/

namespace MUtils
open Text

inductive FileKind where
  | directory
  | file
  deriving DecidableEq

structure DirectoryTree where
  kind : List Text → Option FileKind
  /-- What is enumerated of a directory, in whatever order. -/
  entries : List Text → List Text
  cwd : List Text
  /-- The path that an open directory keeps. -/
  kept : Text → Text
  kind_root : kind [] = some .directory
  kind_cwd : kind cwd = some .directory
  kind_parent : ∀ p name, (kind (p ++ [name])).isSome → kind p = some .directory
  isName : ∀ p name, (kind (p ++ [name])).isSome → IsName name
  mem_entries : ∀ p, kind p = some .directory → ∀ name, name ∈ entries p ↔
    name = ".".toList ∨ name = "..".toList ∨ (kind (p ++ [name])).isSome
  /-- Separators at the end may be dropped. -/
  kept_eq : ∀ path ≠ [], kept path ≠ [] ∧ ∃ n, path = kept path ++ List.replicate n '/'
  finite : {p | (kind p).isSome}.Finite

namespace DirectoryTree
variable (T : DirectoryTree)

/-- One name of a path, from a directory; that there is none stands for a dot. -/
def step (p : List Text) (name : Text) : Option (List Text) :=
  if T.kind p = some .directory then
    if name = [] ∨ name = ".".toList then some p
    else if name = "..".toList then some p.dropLast
    else if (T.kind (p ++ [name])).isSome then some (p ++ [name])
    else none
  else none

/-- The file or directory that a path names. -/
def resolve (path : Text) : Option (List Text) :=
  if path = [] then none
  else (path.splitOnP (· == '/')).foldlM T.step (if path.head? = some '/' then [] else T.cwd)

def fileSystem : FileSystem where
  tinydir_open path :=
    match T.resolve path with
    | some p => if T.kind p = some .directory then some ⟨T.kept path, T.entries p⟩ else none
    | none => none
  readable path := (T.resolve path).isSome
  canonical path := (T.resolve path).map absolutePath
  is_directory path := (T.resolve path).map (T.kind · = some .directory)

variable {T} {p names : List Text} {path name : Text}

/-! ### Resolving -/

theorem splitOnP_of_noSeparator (h : '/' ∉ name) : name.splitOnP (· == '/') = [name] := by
  apply List.splitOnP_eq_singleton
  intro c hc
  exact beq_false_of_ne fun heq => h (heq ▸ hc)

theorem splitOnP_append (path : Text) (hname : '/' ∉ name) :
    (path ++ '/' :: name).splitOnP (· == '/') = path.splitOnP (· == '/') ++ [name] := by
  have hcut := List.splitOnP_append_cons (p := (· == '/')) path name (beq_self_eq_true '/')
  rw [hcut, splitOnP_of_noSeparator hname]

theorem resolve_append (hpath : path ≠ []) (hname : '/' ∉ name) :
    T.resolve (path ++ '/' :: name) = (T.resolve path).bind (T.step · name) := by
  rw [resolve, if_neg (List.append_ne_nil_of_left_ne_nil hpath _), splitOnP_append path hname,
    List.foldlM_append, List.head?_append_of_ne_nil _ hpath, resolve, if_neg hpath]
  simp

theorem step_nil (h : T.kind p = some .directory) : T.step p [] = some p := by
  rw [step, if_pos h, if_pos (.inl rfl)]

theorem resolve_root (hname : '/' ∉ name) : T.resolve ('/' :: name) = T.step [] name := by
  have hsplit := splitOnP_append [] hname
  rw [List.nil_append] at hsplit
  rw [resolve, if_neg (List.cons_ne_nil '/' name), hsplit]
  simp [step_nil T.kind_root]

theorem step_dot (h : T.kind p = some .directory) : T.step p ".".toList = some p := by
  rw [step, if_pos h, if_pos (.inr rfl)]

theorem step_child (h : (T.kind (p ++ [name])).isSome) : T.step p name = some (p ++ [name]) := by
  have hname := T.isName p name h
  rw [step, if_pos (T.kind_parent p name h), if_neg, if_neg hname.ne_dotdot, if_pos h]
  rintro (hnil | hdot)
  · exact hname.ne_nil hnil
  · exact hname.ne_dot hdot

/-- Separators at the end do not matter. -/
theorem resolve_of_append_separators (hpath : path ≠ []) {n : Nat}
    (h : T.resolve (path ++ List.replicate n '/') = some p) : T.resolve path = some p := by
  induction n with
  | zero => rwa [List.replicate_zero, List.append_nil] at h
  | succ n ih =>
    rw [List.replicate_succ', ← List.append_assoc,
      resolve_append (List.append_ne_nil_of_left_ne_nil hpath _) List.not_mem_nil] at h
    obtain ⟨p', hp', hstep⟩ := Option.bind_eq_some_iff.mp h
    unfold step at hstep
    split at hstep
    · exact ih (hp'.trans hstep)
    · cases hstep

theorem ne_nil_of_resolve (h : T.resolve path = some p) : path ≠ [] := by
  rintro rfl
  cases h

theorem resolve_kept (h : T.resolve path = some p) : T.resolve (T.kept path) = some p := by
  obtain ⟨hkept, n, hn⟩ := T.kept_eq path (ne_nil_of_resolve h)
  rw [hn] at h
  exact resolve_of_append_separators hkept h

theorem absolutePath_concat (hp : p ≠ []) (name : Text) :
    absolutePath (p ++ [name]) = absolutePath p ++ '/' :: name := by
  rw [absolutePath, if_neg (List.append_ne_nil_of_left_ne_nil hp _), absolutePath, if_neg hp,
    List.flatMap_append, List.flatMap_singleton]

theorem absolutePath_ne_nil (p : List Text) : absolutePath p ≠ [] := by
  cases p with
  | nil => exact List.cons_ne_nil '/' []
  | cons first p => exact List.cons_ne_nil '/' _

theorem resolve_absolutePath (h : (T.kind p).isSome) : T.resolve (absolutePath p) = some p := by
  induction p using List.reverseRecOn with
  | nil => exact (resolve_root List.not_mem_nil).trans (step_nil T.kind_root)
  | append_singleton p name ih =>
    have hdir := T.kind_parent p name h
    have hname := T.isName p name h
    cases p with
    | nil =>
      have habsolute : absolutePath ([] ++ [name]) = '/' :: name := List.flatMap_singleton _ _
      rw [habsolute, resolve_root hname.noSeparator, step_child h]
    | cons first p =>
      rw [absolutePath_concat (List.cons_ne_nil first p),
        resolve_append (absolutePath_ne_nil _) hname.noSeparator, ih (by rw [hdir]; rfl)]
      exact step_child h

end DirectoryTree

end MUtils
