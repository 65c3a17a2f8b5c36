import MUtils.File.File

/-!
# Relative paths

A path that is put together from names by `operator/` has these names as its elements. So
`file_get_relative_path` can be read on lists of names: it takes off the longest common prefix, goes
up once for every name that is left of `from`, and then down to `to`.
-/

namespace MUtils
open Text

/-! ### Names and paths -/

/-- What can stand between separators. -/
structure IsElement (e : Text) : Prop where
  ne_nil : e ≠ []
  noSeparator : '/' ∉ e

/-- The name of a file or a directory. -/
structure IsName (name : Text) : Prop extends IsElement name where
  ne_dot : name ≠ ".".toList
  ne_dotdot : name ≠ "..".toList

instance (e : Text) : Decidable (IsElement e) :=
  decidable_of_iff (e ≠ [] ∧ '/' ∉ e) ⟨fun h => ⟨h.1, h.2⟩, fun h => ⟨h.1, h.2⟩⟩

instance (name : Text) : Decidable (IsName name) :=
  decidable_of_iff (IsElement name ∧ name ≠ ".".toList ∧ name ≠ "..".toList)
    ⟨fun h => ⟨h.1, h.2.1, h.2.2⟩, fun h => ⟨h.1, h.2, h.3⟩⟩

theorem isElement_dotdot : IsElement "..".toList := ⟨nofun, by decide⟩

/-- The absolute path with the names. -/
def absolutePath (names : List Text) : Text :=
  if names = [] then ['/'] else names.flatMap ('/' :: ·)

variable {e t : Text} {es : List Text}

theorem IsElement.runs_eq (h : IsElement e) : runs (· == '/') e = [e] := by
  apply runs_of_forall _ h.ne_nil
  intro c hc
  exact beq_false_of_ne fun heq => h.noSeparator (heq ▸ hc)

theorem runs_flatMap (t : Text) (hes : ∀ e ∈ es, IsElement e) :
    runs (· == '/') (t ++ es.flatMap ('/' :: ·)) = runs (· == '/') t ++ es := by
  induction es generalizing t with
  | nil => rw [List.flatMap_nil, List.append_nil, List.append_nil]
  | cons e es ih =>
    obtain ⟨he, hes⟩ := List.forall_mem_cons.mp hes
    have hcut := runs_append_cons (p := (· == '/')) (u := t) (v := e ++ es.flatMap ('/' :: ·))
      (beq_self_eq_true '/')
    rw [List.flatMap_cons, List.cons_append, hcut, ih e hes, he.runs_eq, List.singleton_append]

/-- A text to which `operator/` adds a separator. -/
def EndsInName (t : Text) : Prop := ∃ c ∈ t.getLast?, c ≠ '/'

theorem IsElement.endsInName (h : IsElement e) : EndsInName e := by
  refine ⟨e.getLast h.ne_nil, List.getLast?_eq_some_getLast h.ne_nil, fun heq => ?_⟩
  exact h.noSeparator (heq ▸ List.getLast_mem h.ne_nil)

theorem EndsInName.append (h : EndsInName e) (t : Text) : EndsInName (t ++ e) := by
  obtain ⟨c, hc, hne⟩ := h
  exact ⟨c, List.mem_getLast?_append_of_mem_getLast? hc, hne⟩

theorem EndsInName.flatMap (h : EndsInName t) (hes : ∀ e ∈ es, IsElement e) :
    EndsInName (t ++ es.flatMap ('/' :: ·)) := by
  induction es generalizing t with
  | nil => rwa [List.flatMap_nil, List.append_nil]
  | cons e es ih =>
    obtain ⟨he, hes⟩ := List.forall_mem_cons.mp hes
    rw [List.flatMap_cons, ← List.append_assoc]
    exact ih ((he.endsInName.append ['/']).append t) hes

theorem pathAppend_element (ht : EndsInName t) (he : IsElement e) :
    pathAppend t e = t ++ '/' :: e := by
  obtain ⟨c, hc, hne⟩ := ht
  apply if_neg
  rintro (rfl | hlast | hhead)
  · cases hc
  · exact hne (Option.some.inj (hc.symm.trans hlast))
  · exact he.noSeparator (List.mem_of_mem_head? hhead)

theorem foldl_pathAppend (ht : EndsInName t) (hes : ∀ e ∈ es, IsElement e) :
    es.foldl pathAppend t = t ++ es.flatMap ('/' :: ·) := by
  induction es generalizing t with
  | nil => rw [List.foldl_nil, List.flatMap_nil, List.append_nil]
  | cons e es ih =>
    obtain ⟨he, hes⟩ := List.forall_mem_cons.mp hes
    rw [List.foldl_cons, pathAppend_element ht he, List.flatMap_cons, ← List.append_assoc]
    exact ih ((he.endsInName.append ['/']).append t) hes

theorem EndsInName.pathElements_eq (ht : EndsInName t) :
    pathElements t = (if t.head? = some '/' then [['/']] else []) ++ runs (· == '/') t := by
  obtain ⟨c, hc, hne⟩ := ht
  have hlast : ¬(t.getLast? = some '/' ∧ runs (· == '/') t ≠ []) := fun h =>
    hne (Option.some.inj (hc.symm.trans h.1))
  rw [pathElements, if_neg hlast, List.append_nil]

theorem pathElements_absolutePath (hes : ∀ e ∈ es, IsElement e) :
    pathElements (absolutePath es) = ['/'] :: es := by
  cases es with
  | nil => rfl
  | cons e es =>
    obtain ⟨he, hes'⟩ := List.forall_mem_cons.mp hes
    have hends : EndsInName ((e :: es).flatMap ('/' :: ·)) :=
      (he.endsInName.append ['/']).flatMap hes'
    rw [absolutePath, if_neg (List.cons_ne_nil e es), hends.pathElements_eq]
    exact congrArg (['/'] :: ·) (runs_flatMap [] hes)

/-- What `operator/` puts together are the elements of the path. -/
theorem pathElements_foldl (hes : ∀ e ∈ es, IsElement e) :
    pathElements (es.foldl pathAppend []) = es := by
  cases es with
  | nil => rfl
  | cons e es =>
    obtain ⟨he, hes⟩ := List.forall_mem_cons.mp hes
    have hhead : (e ++ es.flatMap ('/' :: ·)).head? ≠ some '/' := by
      rw [List.head?_append_of_ne_nil _ he.ne_nil]
      exact fun h => he.noSeparator (List.mem_of_mem_head? h)
    rw [List.foldl_cons]
    change pathElements (es.foldl pathAppend e) = _
    rw [foldl_pathAppend he.endsInName hes, (he.endsInName.flatMap hes).pathElements_eq,
      if_neg hhead, runs_flatMap e hes, he.runs_eq]
    rfl

/-! ### Common prefixes -/

def IsLongestCommonPrefix (common l l' : List Text) : Prop :=
  common <+: l ∧ common <+: l' ∧ ∀ p, p <+: l → p <+: l' → p <+: common

theorem IsLongestCommonPrefix.cons {common l l' : List Text} (x : Text)
    (h : IsLongestCommonPrefix common l l') :
    IsLongestCommonPrefix (x :: common) (x :: l) (x :: l') := by
  obtain ⟨hl, hl', hlongest⟩ := h
  refine ⟨List.cons_prefix_cons.mpr ⟨rfl, hl⟩, List.cons_prefix_cons.mpr ⟨rfl, hl'⟩, ?_⟩
  intro p hp hp'
  cases p with
  | nil => exact List.nil_prefix
  | cons y p =>
    obtain ⟨rfl, hpl⟩ := List.cons_prefix_cons.mp hp
    exact List.cons_prefix_cons.mpr ⟨rfl, hlongest p hpl (List.cons_prefix_cons.mp hp').2⟩

theorem isLongestCommonPrefix_nil {l l' : List Text}
    (h : ∀ x ∈ l.head?, ∀ x' ∈ l'.head?, x ≠ x') : IsLongestCommonPrefix [] l l' := by
  refine ⟨List.nil_prefix, List.nil_prefix, fun p hp hp' => ?_⟩
  cases p with
  | nil => exact List.nil_prefix
  | cons x p =>
    obtain ⟨v, rfl⟩ := hp
    obtain ⟨v', rfl⟩ := hp'
    exact absurd rfl (h x rfl x rfl)

theorem loopThroughBoth_spec (l l' : List Text) :
    ∃ common a b, loopThroughBoth l l' = (a, b) ∧ l = common ++ a ∧ l' = common ++ b ∧
      IsLongestCommonPrefix common l l' := by
  induction l, l' using loopThroughBoth.induct with
  | case1 fromIter f toIter ih =>
    obtain ⟨common, a, b, hloop, hfrom, hto, hlongest⟩ := ih
    refine ⟨f :: common, a, b, ?_, congrArg (f :: ·) hfrom, congrArg (f :: ·) hto, hlongest.cons f⟩
    rw [loopThroughBoth, if_pos rfl, hloop]
  | case2 f fromIter t toIter hne =>
    refine ⟨[], _, _, ?_, rfl, rfl, isLongestCommonPrefix_nil ?_⟩
    · rw [loopThroughBoth, if_neg hne]
    · rintro _ ⟨⟩ _ ⟨⟩ heq
      exact hne heq.symm
  | case3 fromIter toIter hend =>
    refine ⟨[], _, _, ?_, rfl, rfl, isLongestCommonPrefix_nil ?_⟩
    · rw [loopThroughBoth]
      exact hend
    · intro f hf t ht
      obtain ⟨fromIter, rfl⟩ := List.head?_eq_some_iff.mp hf
      obtain ⟨toIter, rfl⟩ := List.head?_eq_some_iff.mp ht
      exact (hend f fromIter t toIter rfl rfl).elim

/-! ### Resolving -/

/-- A relative path against a path, both as their elements. -/
def resolve (path relative : List Text) : List Text :=
  relative.foldl (fun path e => if e = "..".toList then path.dropLast else path ++ [e]) path

theorem resolve_append (path relative relative' : List Text) :
    resolve path (relative ++ relative') = resolve (resolve path relative) relative' :=
  List.foldl_append

theorem resolve_up (path names : List Text) :
    resolve (path ++ names) (List.replicate names.length "..".toList) = path := by
  induction names using List.reverseRecOn with
  | nil => exact List.append_nil path
  | append_singleton names name ih =>
    rw [List.length_append, List.length_singleton, List.replicate_succ, ← List.append_assoc]
    change resolve ((path ++ names ++ [name]).dropLast) _ = path
    rw [List.dropLast_concat, ih]

theorem resolve_down (path : List Text) {names : List Text} (h : ∀ name ∈ names, IsName name) :
    resolve path names = path ++ names := by
  induction names generalizing path with
  | nil => exact (List.append_nil path).symm
  | cons name names ih =>
    obtain ⟨hname, hnames⟩ := List.forall_mem_cons.mp h
    have hstep : resolve path (name :: names) = resolve (path ++ [name]) names := by
      rw [resolve, List.foldl_cons, if_neg hname.ne_dotdot]
      rfl
    rw [hstep, ih _ hnames, List.append_assoc, List.singleton_append]

/-- The elements of the relative path, where the paths are `common ++ a` and `common ++ b`. -/
theorem relative_path_elements {fromNames toNames a b : List Text}
    (hloop : loopThroughBoth fromNames toNames = (a, b)) (hfrom : ∀ e ∈ fromNames, IsElement e)
    (hto : ∀ e ∈ toNames, IsElement e) (hb : ∀ e ∈ b, IsElement e) :
    pathElements (file_get_relative_path (absolutePath fromNames) (absolutePath toNames)) =
      List.replicate a.length "..".toList ++ b := by
  have hloop' : loopThroughBoth (['/'] :: fromNames) (['/'] :: toNames) = (a, b) := by
    rw [loopThroughBoth, if_pos rfl, hloop]
  have hup : a.foldl (fun finalPath _ => pathAppend finalPath "..".toList) [] =
      (List.replicate a.length "..".toList).foldl pathAppend [] := by
    rw [← List.map_const', List.foldl_map]
  simp only [file_get_relative_path, pathElements_absolutePath hfrom, pathElements_absolutePath hto,
    hloop', hup]
  rw [← List.foldl_append]
  apply pathElements_foldl
  intro e he
  rcases List.mem_append.mp he with he | he
  · rw [List.eq_of_mem_replicate he]
    exact isElement_dotdot
  · exact hb e he

/-- **Relative paths resolve back**: against the path they start from they give the path they lead
to, and they go up once for every name behind the longest common prefix. -/
theorem relative_path_resolves {fromNames toNames : List Text}
    (hfrom : ∀ name ∈ fromNames, IsName name) (hto : ∀ name ∈ toNames, IsName name) :
    let relative := pathElements
      (file_get_relative_path (absolutePath fromNames) (absolutePath toNames))
    resolve fromNames relative = toNames ∧
      ∃ common, IsLongestCommonPrefix common fromNames toNames ∧
        (relative.takeWhile (· == "..".toList)).length = fromNames.length - common.length := by
  obtain ⟨common, a, b, hloop, rfl, rfl, hlongest⟩ := loopThroughBoth_spec fromNames toNames
  have hb : ∀ name ∈ b, IsName name := fun name hname => hto name (List.mem_append_right _ hname)
  have hrelative := relative_path_elements hloop (fun e he => (hfrom e he).toIsElement)
    (fun e he => (hto e he).toIsElement) (fun e he => (hb e he).toIsElement)
  rw [hrelative]
  refine ⟨?_, common, hlongest, ?_⟩
  · rw [resolve_append, resolve_up, resolve_down common hb]
  · -- the names that follow are not taken for `..`
    have hdown : b.takeWhile (· == "..".toList) = [] := by
      cases b with
      | nil => rfl
      | cons name b =>
        have hname := (hb name List.mem_cons_self).ne_dotdot
        exact List.takeWhile_cons_of_neg (by simpa using hname)
    rw [List.takeWhile_append_of_pos, hdown, List.append_nil, List.length_replicate,
      List.length_append, Nat.add_sub_cancel_left]
    intro e he
    rw [List.eq_of_mem_replicate he, beq_self_eq_true]

theorem relative_path_resolves_up_down :
    let relative := pathElements (file_get_relative_path
      (absolutePath [['a'], ['b']]) (absolutePath [['a'], ['c'], ['d']]))
    resolve [['a'], ['b']] relative = [['a'], ['c'], ['d']] :=
  (relative_path_resolves (by decide) (by decide)).1

end MUtils
