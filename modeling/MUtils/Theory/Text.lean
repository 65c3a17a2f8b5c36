import Mathlib

/-!
# Searching and cutting texts

The searches of `std::basic_string` by position (`findFrom`, `findLast`, `find`), the maximal runs
of a text between delimiters (`runs`, and `runsAt` with their positions), and what occurs in a text
that is put together from lines (`infix_append_cons`).
-/

namespace MUtils

/-- A `std::string`. -/
abbrev Text := List Char

namespace Text

/-! ### Searching -/

/-- The first position from `pos` on whose element satisfies `p`; `none` is `npos`. -/
def findFrom (p : α → Bool) (s : List α) (pos : Nat) : Option Nat :=
  ((s.drop pos).findIdx? p).map (· + pos)

/-- The last position whose element satisfies `p`. -/
def findLast (p : α → Bool) (s : List α) : Option Nat :=
  (s.reverse.findIdx? p).map (s.length - 1 - ·)

/-- `find_first_of` -/
def findFirstOf (delims s : Text) (pos : Nat) : Option Nat := findFrom (delims.contains ·) s pos

/-- `find_first_not_of` -/
def findFirstNotOf (delims s : Text) (pos : Nat) : Option Nat :=
  findFrom (!delims.contains ·) s pos

/-- `find_last_not_of` -/
def findLastNotOf (delims s : Text) : Option Nat := findLast (!delims.contains ·) s

/-- The first position at which `sub` occurs. -/
def findSub [BEq α] (sub : List α) : List α → Option Nat
  | [] => if sub.isEmpty then some 0 else none
  | c :: s => if sub.isPrefixOf (c :: s) then some 0 else (findSub sub s).map (· + 1)

/-- `contains`, by way of `find`. -/
def hasSub [BEq α] (sub s : List α) : Bool := (findSub sub s).isSome

section
variable {p : α → Bool} {s : List α} {pos i : Nat}

theorem findFrom_none : findFrom p s pos = none ↔ ∀ x ∈ s.drop pos, p x = false := by
  simp [findFrom, List.findIdx?_eq_none_iff]

/-- What is found cuts the text: nothing before it, from `pos` on, is what was looked for. -/
theorem findFrom_some (h : findFrom p s pos = some i) :
    ∃ u c v, s.drop pos = u ++ c :: v ∧ i = pos + u.length ∧ (∀ x ∈ u, p x = false) ∧ p c := by
  simp only [findFrom, Option.map_eq_some_iff] at h
  obtain ⟨j, hj, rfl⟩ := h
  obtain ⟨hlt, hp, hbefore⟩ := List.findIdx?_eq_some_iff_getElem.1 hj
  refine ⟨(s.drop pos).take j, (s.drop pos)[j], (s.drop pos).drop (j + 1), ?_, ?_, ?_, hp⟩
  · rw [List.getElem_cons_drop, List.take_append_drop]
  · rw [List.length_take, Nat.min_eq_left (Nat.le_of_lt hlt), Nat.add_comm]
  · intro x hx
    obtain ⟨k, hk, rfl⟩ := List.mem_iff_getElem.1 hx
    rw [List.length_take] at hk
    rw [List.getElem_take]
    exact eq_false_of_ne_true (hbefore k (by omega))

theorem findFrom_congr {s' : List α} (h : s.drop pos = s'.drop pos) :
    findFrom p s pos = findFrom p s' pos := by
  rw [findFrom, h, findFrom]

/-- Nothing is lost by starting one further when what is looked for is not here. -/
theorem findFrom_succ {v : List α} {c : α} (hs : s.drop pos = c :: v) (hc : p c = false) :
    findFrom p s (pos + 1) = findFrom p s pos := by
  have hdrop : s.drop (pos + 1) = v := by
    rw [← List.drop_drop, hs, List.drop_one, List.tail_cons]
  have hcomp : (· + pos) ∘ (· + 1) = (· + (pos + 1)) := by
    funext k
    simp only [Function.comp]
    omega
  simp only [findFrom, hdrop, hs, List.findIdx?_cons, hc, Bool.false_eq_true, if_false,
    Option.map_map, hcomp]

theorem lt_of_findFrom {v : List α} {c : α} (hs : s.drop pos = c :: v) (hc : p c = false)
    (h : findFrom p s pos = some i) : pos < i := by
  rw [← findFrom_succ hs hc] at h
  obtain ⟨u, _, _, -, rfl, -⟩ := findFrom_some h
  omega

theorem findFrom_append {u v : List α} {c : α} (hs : s.drop pos = u ++ c :: v)
    (hu : ∀ x ∈ u, p x = false) (hc : p c) : findFrom p s pos = some (pos + u.length) := by
  rw [findFrom, hs, List.findIdx?_append, List.findIdx?_eq_none_iff.2 hu]
  simp [List.findIdx?_cons, hc, Nat.add_comm]

end

section
variable {s u v : Text} {c : Char} {pos : Nat}

theorem findFirstOf_singleton (hs : s.drop pos = u ++ c :: v) (hu : c ∉ u) :
    findFirstOf [c] s pos = some (pos + u.length) := by
  apply findFrom_append hs
  · intro x hx
    have : x ≠ c := fun h => hu (h ▸ hx)
    simpa using this
  · simp

theorem findFirstOf_singleton_none (hs : c ∉ s.drop pos) : findFirstOf [c] s pos = none := by
  rw [findFirstOf, findFrom_none]
  intro x hx
  have : x ≠ c := fun h => hs (h ▸ hx)
  simpa using this

end

/-- `sub` occurs in `s` after `u`, and nowhere before. -/
structure OccursFirst (sub s u v : List α) : Prop where
  cut : s = u ++ sub ++ v
  first : ∀ a b, s = a ++ sub ++ b → u.length ≤ a.length

/-- If `sub` does not stand in front, every occurrence leaves out the first element. -/
theorem occursFirst_cons_iff {c : α} {sub s u v : List α} (hpre : ¬sub <+: c :: s) :
    OccursFirst sub (c :: s) u v ↔ ∃ u', u = c :: u' ∧ OccursFirst sub s u' v := by
  have htail : ∀ {a b}, c :: s = a ++ sub ++ b → ∃ a', a = c :: a' ∧ s = a' ++ sub ++ b := by
    intro a b h
    cases a with
    | nil => exact (hpre ⟨b, h.symm⟩).elim
    | cons d a =>
      obtain ⟨rfl, h'⟩ := List.cons.inj h
      exact ⟨a, rfl, h'⟩
  constructor
  · rintro ⟨hcut, hfirst⟩
    obtain ⟨u, rfl, hcut'⟩ := htail hcut
    refine ⟨u, rfl, hcut', fun a b h => ?_⟩
    exact Nat.le_of_succ_le_succ (hfirst (c :: a) b (congrArg (c :: ·) h))
  · rintro ⟨u, rfl, rfl, hfirst⟩
    refine ⟨rfl, fun a b h => ?_⟩
    obtain ⟨a, rfl, h'⟩ := htail h
    exact Nat.succ_le_succ (hfirst a b h')

theorem findSub_eq_some [BEq α] [LawfulBEq α] {sub s : List α} {i : Nat} :
    findSub sub s = some i ↔ ∃ u v, OccursFirst sub s u v ∧ u.length = i := by
  induction s generalizing i with
  | nil =>
    rw [findSub]
    constructor
    · intro h
      split at h
      · next hsub =>
        cases h
        exact ⟨[], [], ⟨by simpa using hsub, fun a b _ => Nat.zero_le _⟩, rfl⟩
      · cases h
    · rintro ⟨u, v, ⟨hcut, -⟩, rfl⟩
      obtain ⟨hus, rfl⟩ := List.append_eq_nil_iff.1 hcut.symm
      obtain ⟨rfl, rfl⟩ := List.append_eq_nil_iff.1 hus
      rfl
  | cons c s ih =>
    rw [findSub]
    split
    · next hpre =>
      obtain ⟨v, hv⟩ := List.isPrefixOf_iff_prefix.1 hpre
      constructor
      · intro h
        cases h
        exact ⟨[], v, ⟨hv.symm, fun a b _ => Nat.zero_le _⟩, rfl⟩
      · rintro ⟨u, w, ⟨-, hfirst⟩, rfl⟩
        have := hfirst [] v hv.symm
        rw [List.length_nil, Nat.le_zero] at this
        rw [this]
    · next hpre =>
      rw [List.isPrefixOf_iff_prefix] at hpre
      simp only [Option.map_eq_some_iff, ih, occursFirst_cons_iff hpre]
      constructor
      · rintro ⟨_, ⟨u, v, h, rfl⟩, rfl⟩
        exact ⟨c :: u, v, ⟨u, rfl, h⟩, rfl⟩
      · rintro ⟨_, v, ⟨u, rfl, h⟩, rfl⟩
        exact ⟨_, ⟨u, v, h, rfl⟩, rfl⟩

/-! ### Runs -/

variable {p : α → Bool} {s u v l : List α} {c : α} {pos a : Nat}

/-- The maximal non-empty runs of elements that are not delimiters. -/
def runs (p : α → Bool) (s : List α) : List (List α) := (s.splitOnP p).filter (!·.isEmpty)

@[simp] theorem runs_nil : runs p [] = [] := rfl

/-- A delimiter cuts. -/
theorem runs_append_cons (hc : p c) : runs p (u ++ c :: v) = runs p u ++ runs p v := by
  rw [runs, List.splitOnP_append_cons u v hc, List.filter_append]
  rfl

theorem runs_cons (hc : p c) : runs p (c :: v) = runs p v := by
  simpa using runs_append_cons (u := []) (v := v) hc

theorem runs_of_forall (hu : ∀ x ∈ u, p x = false) (hne : u ≠ []) : runs p u = [u] := by
  simp [runs, List.splitOnP_eq_singleton hu, hne]

/-- A text is cut where a delimiter starts. -/
theorem runs_append (u : List α) (hv : ∀ c ∈ v.head?, p c) :
    runs p (u ++ v) = runs p u ++ runs p v := by
  cases v with
  | nil => rw [List.append_nil, runs_nil, List.append_nil]
  | cons d v => rw [runs_append_cons (hv d rfl), runs_cons (hv d rfl)]

/-- A text has no delimiter, or a first one. -/
theorem exists_cut (p : α → Bool) (s : List α) :
    (∀ x ∈ s, p x = false) ∨ ∃ u c v, s = u ++ c :: v ∧ (∀ x ∈ u, p x = false) ∧ p c := by
  cases h : findFrom p s 0 with
  | none => exact .inl (findFrom_none.1 h)
  | some i =>
    obtain ⟨u, c, v, hs, -, hu, hc⟩ := findFrom_some h
    exact .inr ⟨u, c, v, hs, hu, hc⟩

/-! ### Runs with their positions -/

/-- `l` is a run of `s` and starts at position `a`. -/
structure IsRunAt (p : α → Bool) (s : List α) (a : Nat) (l : List α) : Prop where
  ne_nil : l ≠ []
  clean : ∀ x ∈ l, p x = false
  cut : ∃ u v, s = u ++ l ++ v ∧ u.length = a ∧ (∀ c ∈ u.getLast?, p c) ∧ ∀ c ∈ v.head?, p c

/-- `rs` lists the runs of `s` in order, with their positions when `s` itself starts at `pos`. -/
structure RunsOf (p : α → Bool) (pos : Nat) (s : List α) (rs : List (Nat × List α)) : Prop where
  sorted : rs.Pairwise (·.1 < ·.1)
  mem : ∀ i l, (i, l) ∈ rs ↔ ∃ a, i = pos + a ∧ IsRunAt p s a l

theorem isRunAt_nil : ¬IsRunAt p [] a l := by
  rintro ⟨hne, -, u, v, hs, -⟩
  have := congrArg List.length hs
  simp only [List.length_append, List.length_nil] at this
  exact hne (List.length_eq_zero_iff.1 (by omega))

/-- A run does not start at a delimiter. -/
theorem IsRunAt.start_pos (h : IsRunAt p s a l) (hs : ∀ c ∈ s.head?, p c) : 0 < a := by
  obtain ⟨u, v, rfl, rfl, -, -⟩ := h.cut
  rw [List.length_pos_iff]
  rintro rfl
  obtain ⟨d, l, rfl⟩ := List.exists_cons_of_ne_nil h.ne_nil
  have hd := h.clean d List.mem_cons_self
  rw [hs d rfl] at hd
  cases hd

theorem isRunAt_cons (hc : p c) :
    IsRunAt p (c :: s) a l ↔ ∃ a', a = a' + 1 ∧ IsRunAt p s a' l := by
  constructor
  · intro h
    have hpos := h.start_pos (by simpa using hc)
    obtain ⟨u, v, hs, rfl, hu, hv⟩ := h.cut
    obtain ⟨d, u, rfl⟩ := List.exists_cons_of_ne_nil (List.length_pos_iff.1 hpos)
    obtain ⟨rfl, hs'⟩ := List.cons.inj hs
    refine ⟨u.length, rfl, h.ne_nil, h.clean, u, v, hs', rfl, fun x hx => hu x ?_, hv⟩
    simp only [List.getLast?_cons, Option.mem_def.1 hx, Option.getD_some, Option.mem_def]
  · rintro ⟨_, rfl, h⟩
    obtain ⟨u, v, rfl, rfl, hu, hv⟩ := h.cut
    refine ⟨h.ne_nil, h.clean, c :: u, v, rfl, rfl, fun x hx => ?_, hv⟩
    rw [List.getLast?_cons, Option.mem_some_iff] at hx
    cases hlast : u.getLast? with
    | none =>
      rw [hlast, Option.getD_none] at hx
      exact hx ▸ hc
    | some y =>
      rw [hlast, Option.getD_some] at hx
      exact hu x (hlast.trans (congrArg some hx))

theorem isRunAt_append (hu : ∀ x ∈ u, p x = false) (hne : u ≠ []) (hv : ∀ c ∈ v.head?, p c) :
    IsRunAt p (u ++ v) a l ↔ (a = 0 ∧ l = u) ∨ ∃ a', a = u.length + a' ∧ IsRunAt p v a' l := by
  constructor
  · rintro ⟨hl, hclean, w, t, hs, rfl, hw, ht⟩
    rw [List.append_assoc] at hs
    rcases List.append_eq_append_iff.1 hs with ⟨x, rfl, rfl⟩ | ⟨x, rfl, hlt⟩
    · -- the run starts after `u`
      refine .inr ⟨x.length, by simp, hl, hclean, x, t, by simp, rfl, fun c hc => hw c ?_, ht⟩
      rw [List.getLast?_append, Option.mem_def.1 hc]
      rfl
    · -- it starts inside `u`, which is free of delimiters: at its beginning, that is
      have hw : w = [] := by
        rcases List.eq_nil_or_concat w with rfl | ⟨w, d, rfl⟩
        · rfl
        · have hd := hu d (by simp)
          rw [hw d (by simp)] at hd
          cases hd
      subst hw
      refine .inl ⟨rfl, ?_⟩
      rw [List.nil_append] at hu
      rcases List.append_eq_append_iff.1 hlt with ⟨y, rfl, hy⟩ | ⟨y, rfl, rfl⟩
      · cases y with
        | nil => simp
        | cons d y =>
          have hd := hu d (by simp)
          rw [ht d (by simp [hy])] at hd
          cases hd
      · cases y with
        | nil => simp
        | cons d y =>
          have hd := hclean d (by simp)
          rw [hv d (by simp)] at hd
          cases hd
  · rintro (⟨rfl, rfl⟩ | ⟨a', rfl, h⟩)
    · exact ⟨hne, hu, [], v, by simp, rfl, by simp, hv⟩
    · have hpos := h.start_pos hv
      obtain ⟨w, t, rfl, rfl, hw, ht⟩ := h.cut
      refine ⟨h.ne_nil, h.clean, u ++ w, t, by simp, by simp, fun c hc => hw c ?_, ht⟩
      obtain ⟨y, hy⟩ := Option.isSome_iff_exists.1
        (List.getLast?_isSome.2 (List.length_pos_iff.1 hpos))
      rwa [List.getLast?_append, hy, Option.some_or, ← hy] at hc

/-- The runs with their positions, when `s` starts at `pos`. -/
def runsAt (p : α → Bool) (pos : Nat) : List α → List (Nat × List α)
  | [] => []
  | c :: s =>
    if p c then runsAt p (pos + 1) s
    else (pos, c :: s.takeWhile (!p ·)) ::
      runsAt p (pos + (s.takeWhile (!p ·)).length + 1) (s.dropWhile (!p ·))
termination_by s => s.length
decreasing_by
  · simp
  · exact Nat.lt_succ_of_le (List.dropWhile_sublist _).length_le

@[simp] theorem runsAt_nil : runsAt p pos [] = [] := by rw [runsAt]

theorem runsAt_cons (hc : p c) : runsAt p pos (c :: v) = runsAt p (pos + 1) v := by
  rw [runsAt, if_pos hc]

/-- Delimiters at the front do not count. -/
theorem runsAt_append_left (hu : ∀ x ∈ u, p x) :
    runsAt p pos (u ++ v) = runsAt p (pos + u.length) v := by
  induction u generalizing pos with
  | nil => rfl
  | cons c u ih =>
    rw [List.cons_append, runsAt_cons (hu c List.mem_cons_self),
      ih fun x hx => hu x (List.mem_cons_of_mem _ hx), List.length_cons]
    congr 1
    omega

/-- A run, and what follows it. -/
theorem runsAt_append (hu : ∀ x ∈ u, p x = false) (hne : u ≠ []) (hv : ∀ c ∈ v.head?, p c) :
    runsAt p pos (u ++ v) = (pos, u) :: runsAt p (pos + u.length) v := by
  obtain ⟨c, u, rfl⟩ := List.exists_cons_of_ne_nil hne
  have hclean : ∀ x ∈ u, (!p x) = true := fun x hx => by simp [hu x (List.mem_cons_of_mem _ hx)]
  have htake : (u ++ v).takeWhile (!p ·) = u := by
    rw [List.takeWhile_append_of_pos hclean]
    cases v with
    | nil => simp
    | cons d v => simp [hv d rfl]
  have hdrop : (u ++ v).dropWhile (!p ·) = v := by
    rw [List.dropWhile_append_of_pos hclean]
    cases v with
    | nil => rfl
    | cons d v => simp [hv d rfl]
  rw [List.cons_append, runsAt, if_neg (by simp [hu c]), htake, hdrop]
  rfl

/-- A text is empty, or starts with a delimiter, or starts with a run. -/
theorem runsAt_induction {motive : Nat → List α → Prop} (p : α → Bool)
    (nil : ∀ pos, motive pos [])
    (cons : ∀ pos c s, p c → motive (pos + 1) s → motive pos (c :: s))
    (run : ∀ pos u v, (∀ x ∈ u, p x = false) → u ≠ [] → (∀ c ∈ v.head?, p c) →
      motive (pos + u.length) v → motive pos (u ++ v))
    (pos : Nat) (s : List α) : motive pos s := by
  induction hn : s.length using Nat.strong_induction_on generalizing pos s with
  | _ n ih =>
    cases s with
    | nil => exact nil pos
    | cons c s =>
      by_cases hc : p c
      · exact cons pos c s hc (ih s.length (by simp [← hn]) _ s rfl)
      · rcases exists_cut p (c :: s) with hs | ⟨u, d, v, hs, hu, hd⟩
        · have := run pos (c :: s) [] hs (by simp) (by simp) (nil _)
          rwa [List.append_nil] at this
        · have hne : u ≠ [] := by
            rintro rfl
            obtain ⟨rfl, -⟩ := List.cons.inj hs
            exact hc hd
          have hlt : (d :: v).length < n := by
            have := List.length_pos_iff.2 hne
            rw [← hn, hs, List.length_append]
            omega
          rw [hs]
          exact run pos u (d :: v) hu hne (by simpa using hd) (ih _ hlt _ _ rfl)

theorem runsAt_map_snd : (runsAt p pos s).map Prod.snd = runs p s := by
  induction pos, s using runsAt_induction p with
  | nil pos => simp
  | cons pos c s hc ih => rw [runsAt_cons hc, runs_cons hc, ih]
  | run pos u v hu hne hv ih =>
    rw [runsAt_append hu hne hv, List.map_cons, ih, runs_append u hv, runs_of_forall hu hne]
    rfl

theorem runs_congr {q : α → Bool} (h : ∀ x ∈ s, p x = q x) : runs p s = runs q s := by
  induction (0 : Nat), s using runsAt_induction p with
  | nil => rfl
  | cons _ c s hc ih =>
    have hc' : q c := (h c List.mem_cons_self).symm.trans hc
    rw [runs_cons hc, runs_cons hc', ih fun x hx => h x (List.mem_cons_of_mem _ hx)]
  | run _ u v hu hne hv ih =>
    have hu' : ∀ x ∈ u, q x = false :=
      fun x hx => (h x (List.mem_append_left _ hx)).symm.trans (hu x hx)
    have hright : ∀ x ∈ v, p x = q x := fun x hx => h x (List.mem_append_right _ hx)
    have hv' : ∀ c ∈ v.head?, q c :=
      fun c hc => (hright c (List.mem_of_mem_head? hc)).symm.trans (hv c hc)
    rw [runs_append u hv, runs_append u hv', runs_of_forall hu hne, runs_of_forall hu' hne,
      ih hright]

/-- Cutting at two kinds of delimiters is cutting at the one, and then the pieces at the other. -/
theorem runs_or {q r : α → Bool} (h : ∀ x, r x = (p x || q x)) (s : List α) :
    runs r s = (runs p s).flatMap (runs q) := by
  have hr : ∀ {x}, p x → r x := fun hp => by rw [h, hp, Bool.true_or]
  induction (0 : Nat), s using runsAt_induction p with
  | nil => rfl
  | cons _ c s hc ih => rw [runs_cons (hr hc), runs_cons hc, ih]
  | run _ u v hu hne hv ih =>
    have hclean : runs r u = runs q u := by
      apply runs_congr
      intro x hx
      rw [h, hu x hx, Bool.false_or]
    rw [runs_append u fun c hc => hr (hv c hc), runs_append u hv, ih, hclean,
      runs_of_forall hu hne, List.flatMap_append, List.flatMap_singleton]

theorem runsOf_runsAt (p : α → Bool) (pos : Nat) (s : List α) :
    RunsOf p pos s (runsAt p pos s) := by
  induction pos, s using runsAt_induction p with
  | nil pos => exact ⟨by simp, fun i l => by simp [isRunAt_nil]⟩
  | cons pos c s hc ih =>
    rw [runsAt_cons hc]
    refine ⟨ih.sorted, fun i l => (ih.mem i l).trans ⟨?_, ?_⟩⟩
    · rintro ⟨a, rfl, h⟩
      exact ⟨a + 1, by omega, (isRunAt_cons hc).2 ⟨a, rfl, h⟩⟩
    · rintro ⟨a, rfl, h⟩
      obtain ⟨a', rfl, h'⟩ := (isRunAt_cons hc).1 h
      exact ⟨a', by omega, h'⟩
  | run pos u v hu hne hv ih =>
    rw [runsAt_append hu hne hv]
    refine ⟨List.pairwise_cons.2 ⟨?_, ih.sorted⟩, fun i l => ?_⟩
    · rintro ⟨i, l⟩ hr
      obtain ⟨a, rfl, h⟩ := (ih.mem i l).1 hr
      have := h.start_pos hv
      change pos < pos + u.length + a
      omega
    · rw [List.mem_cons, Prod.mk.injEq, ih.mem]
      constructor
      · rintro (⟨rfl, rfl⟩ | ⟨a, rfl, h⟩)
        · exact ⟨0, rfl, (isRunAt_append hu hne hv).2 (.inl ⟨rfl, rfl⟩)⟩
        · exact ⟨u.length + a, by omega, (isRunAt_append hu hne hv).2 (.inr ⟨a, rfl, h⟩)⟩
      · rintro ⟨a, rfl, h⟩
        rcases (isRunAt_append hu hne hv).1 h with ⟨rfl, rfl⟩ | ⟨a', rfl, h'⟩
        · exact .inl ⟨rfl, rfl⟩
        · exact .inr ⟨a', by omega, h'⟩

/-- `l` stands in `s` between delimiters or the ends, and has none itself. -/
structure IsRun (p : α → Bool) (s l : List α) : Prop where
  ne_nil : l ≠ []
  clean : ∀ x ∈ l, p x = false
  cut : ∃ a b, s = a ++ l ++ b ∧ (∀ c ∈ a.getLast?, p c) ∧ ∀ c ∈ b.head?, p c

theorem isRun_iff : IsRun p s l ↔ ∃ a, IsRunAt p s a l := by
  constructor
  · rintro ⟨hne, hclean, u, v, hs, hu, hv⟩
    exact ⟨u.length, hne, hclean, u, v, hs, rfl, hu, hv⟩
  · rintro ⟨a, hne, hclean, u, v, hs, -, hu, hv⟩
    exact ⟨hne, hclean, u, v, hs, hu, hv⟩

theorem mem_runs : l ∈ runs p s ↔ IsRun p s l := by
  have hmem := (runsOf_runsAt p 0 s).mem
  rw [← @runsAt_map_snd _ p s 0, List.mem_map, isRun_iff]
  constructor
  · rintro ⟨⟨i, l⟩, hr, rfl⟩
    obtain ⟨a, -, h⟩ := (hmem i l).1 hr
    exact ⟨a, h⟩
  · rintro ⟨a, h⟩
    exact ⟨(a, l), (hmem a l).2 ⟨a, by omega, h⟩, rfl⟩

/-! ### Occurrences in a text made of lines -/

/-- What has no `c` in it occurs on one side of `c`. -/
theorem infix_append_cons (hl : c ∉ l) : l <:+: u ++ c :: v ↔ l <:+: u ∨ l <:+: v := by
  constructor
  · rintro ⟨a, b, h⟩
    rw [List.append_assoc] at h
    rcases List.append_eq_append_iff.1 h with ⟨w, rfl, hw⟩ | ⟨w, rfl, hw⟩
    · rcases List.append_eq_append_iff.1 hw with ⟨w', rfl, -⟩ | ⟨w', rfl, hw'⟩
      · exact .inl ⟨a, w', by simp⟩
      · cases w' with
        | nil => exact .inl ⟨a, [], by simp⟩
        | cons d w' =>
          obtain ⟨rfl, -⟩ := List.cons.inj hw'
          simp at hl
    · cases w with
      | nil =>
        cases l with
        | nil => exact .inl (List.nil_infix)
        | cons d l =>
          obtain ⟨rfl, -⟩ := List.cons.inj hw
          simp at hl
      | cons d w =>
        obtain ⟨-, rfl⟩ := List.cons.inj hw
        exact .inr ⟨w, b, by simp⟩
  · rintro (h | h)
    · exact h.trans (List.prefix_append u _).isInfix
    · exact h.trans ((List.suffix_cons c v).trans (List.suffix_append u _)).isInfix

end Text

end MUtils
