import MUtils.Verify.ProfilerRecording

/-!
# Scopes and entries

The scopes that a thread has open are known from the calls that were made (`scopes`), each with the
entry that its `PushSectionBase` wrote, if it was not dropped. While the profiler records, the
entries on the stack of a slot are those of the open scopes of its thread that were opened in the
current generation, and these are the innermost ones (`Matched`): a scope is dropped only when
the profiler is paused, and a pause ends with a new generation.
-/

namespace MUtils.Profiler
open Outcome

variable {Thread : Type} [DecidableEq Thread]

/-- The open scopes of the thread `t`, the innermost first. -/
def scopes : List (Event Thread) → Thread → List (Option Mark)
  | [], _ => []
  | e :: h, t =>
    if e.thread = t then
      match e.call with
      | .pushSection .. => e.mark :: scopes h t
      | .popSection => (scopes h t).tail
      | _ => scopes h t
    else scopes h t

/-- The open scopes of the thread `t` that were recorded in the generation `g`. -/
def recorded (h : List (Event Thread)) (t : Thread) (g : Nat) : List Mark :=
  (scopes h t).filterMap fun m => m.filter (·.generation = g)

omit [DecidableEq Thread] in
/-- The entries on the stack of the slot that the thread `t` owns. -/
def openMarks (s : Profiler Thread) (t : Thread) : List Mark :=
  if s.gGenerationTLS t = s.gProfilerGeneration ∧ 0 ≤ s.gThreadIndexTLS t then
    (s.slot (s.gThreadIndexTLS t).toNat).tree.stack.map
      (⟨s.gProfilerGeneration, (s.gThreadIndexTLS t).toNat, ·⟩)
  else []

variable {s s' s₁ : Profiler Thread} {t t' : Thread} {now : Instant} {c : Call}
  {m : Option Mark} {i j : Nat} {h h₁ : List (Event Thread)}

omit [DecidableEq Thread] in
theorem openMarks_of_owns (ho : s.Owns t i) :
    s.openMarks t = (s.slot i).tree.stack.map (⟨s.gProfilerGeneration, i, ·⟩) := by
  obtain ⟨hgen, hidx⟩ := ho
  rw [openMarks, if_pos ⟨hgen, by omega⟩, hidx]
  rfl

omit [DecidableEq Thread] in
theorem openMarks_of_not_owns (ho : ∀ i, ¬s.Owns t i) : s.openMarks t = [] := by
  rw [openMarks, if_neg]
  rintro ⟨hgen, hidx⟩
  exact ho (s.gThreadIndexTLS t).toNat ⟨hgen, by omega⟩

/-! ### Changes that concern no section -/

/-- The call trees stay, and so do the entries that threads have on their stacks. -/
structure SameTrees (s s' : Profiler Thread) : Prop where
  unpaused : s'.gPaused = false → s.gPaused = false
  generation : s'.gProfilerGeneration = s.gProfilerGeneration
  size : s'.gThreadData.size = s.gThreadData.size
  tree : ∀ j, (s'.slot j).tree = (s.slot j).tree
  openMarks : ∀ t, s'.openMarks t = s.openMarks t

omit [DecidableEq Thread] in
theorem SameTrees.refl : SameTrees s s := ⟨id, rfl, rfl, fun _ => rfl, fun _ => rfl⟩

omit [DecidableEq Thread] in
theorem SameTrees.trans (H : SameTrees s s₁) (H' : SameTrees s₁ s') : SameTrees s s' where
  unpaused h := H.unpaused (H'.unpaused h)
  generation := H'.generation.trans H.generation
  size := H'.size.trans H.size
  tree j := (H'.tree j).trans (H.tree j)
  openMarks t := (H'.openMarks t).trans (H.openMarks t)

omit [DecidableEq Thread] in
theorem openMarks_congr (hindex : s'.gThreadIndexTLS t = s.gThreadIndexTLS t)
    (htls : s'.gGenerationTLS t = s.gGenerationTLS t)
    (hgen : s'.gProfilerGeneration = s.gProfilerGeneration)
    (htree : ∀ j, s.Owns t j → (s'.slot j).tree.stack = (s.slot j).tree.stack) :
    s'.openMarks t = s.openMarks t := by
  simp only [Profiler.openMarks, hindex, htls, hgen]
  split
  · next h => rw [htree _ ⟨h.1, by omega⟩]
  · rfl

/-- A slot that is given out has no entries on its stack. -/
theorem sameTrees_useSlot (H : s.Recording) (hreg : s.Unregistered t) (hfree : s.Free i)
    (hi : i < 2 ^ 31) : SameTrees s (s.useSlot t i) := by
  obtain ⟨hcur, hdepth⟩ := (H.slots i hfree.lt_size).idle hfree.free
  have htree : ∀ j, ((s.useSlot t i).slot j).tree = (s.slot j).tree := by
    intro j
    rw [slot_useSlot]
    split
    · next hj =>
      subst hj
      simp [ThreadData.tree, hcur]
    · rfl
  refine ⟨id, rfl, rfl, htree, fun t' => ?_⟩
  by_cases ht : t' = t
  · subst ht
    rw [openMarks_of_owns (useSlot_owns hi), openMarks_of_not_owns fun i => hreg.not_owns, htree]
    simp [ThreadData.tree, hdepth, openEntries]
  · refine openMarks_congr (Function.update_of_ne ht ..) (Function.update_of_ne ht ..) rfl ?_
    intro j _
    rw [htree]

theorem Quiet.sameTrees (H : s.Recording) (hq : Quiet t now s s') : SameTrees s s' := by
  cases hq with
  | flags hp => exact ⟨hp, rfl, rfl, fun _ => rfl, fun _ => rfl⟩
  | limit | region | frame => exact ⟨id, rfl, rfl, fun _ => rfl, fun _ => rfl⟩
  | use _ hreg hfree hi => exact sameTrees_useSlot H hreg hfree hi
  | @change i g _ _ _ hg =>
    have htree : ∀ j, (slot { s with gThreadData := s.gThreadData.modify i g } j).tree =
        (s.slot j).tree := by
      intro j
      rw [slot_modify]
      split
      · next hj =>
        obtain ⟨hidden, name, hg⟩ := hg (s.slot i)
        rw [hg, hj]
        rfl
      · rfl
    exact ⟨id, rfl, rfl, htree, fun t => openMarks_congr rfl rfl rfl fun j _ => by rw [htree]⟩

/-- The profiler keeps to its invariants, and the trees stay. -/
theorem quiets_sameTrees (hheld : s.SlotsHeld) (H : s.Recording)
    (hq : Relation.ReflTransGen (Quiet t now) s s') :
    s'.SlotsHeld ∧ s'.Recording ∧ SameTrees s s' := by
  induction hq with
  | refl => exact ⟨hheld, H, .refl⟩
  | tail _ hq ih =>
    obtain ⟨hheld, H, hsame⟩ := ih
    exact ⟨hheld.quiet hq, H.quiet hq, hsame.trans (hq.sameTrees H)⟩

/-! ### Scopes and stacks -/

/-- The entries on the stacks are those of the innermost scopes; the scopes around them are not of
this generation. -/
structure Matched (h : List (Event Thread)) (s : Profiler Thread) : Prop where
  generation_le : ∀ {t m}, some m ∈ scopes h t → m.generation ≤ s.gProfilerGeneration
  scopes_eq : s.gPaused = false → ∀ t, ∃ old, scopes h t = (s.openMarks t).map some ++ old ∧
    ∀ m, some m ∈ old → m.generation < s.gProfilerGeneration

theorem Matched.new : Matched [] (new : Profiler Thread) where
  generation_le hm := absurd hm List.not_mem_nil
  scopes_eq hp := absurd hp (by simp [Profiler.new])

theorem Matched.sameTrees (H : Matched h s) (hsame : SameTrees s s') : Matched h s' where
  generation_le hm := hsame.generation ▸ H.generation_le hm
  scopes_eq hp t := by
    obtain ⟨old, hscopes, hold⟩ := H.scopes_eq (hsame.unpaused hp) t
    rw [hsame.openMarks t, hsame.generation]
    exact ⟨old, hscopes, hold⟩

/-- A call that is none of `PushSectionBase` and `PopSection` opens and closes no scope. -/
theorem scopes_cons_of_not_isSection (hc : c.isSection = false) :
    scopes (⟨t, now, c, m⟩ :: h) t' = scopes h t' := by
  rw [scopes]
  split
  · cases c <;> first | rfl | cases hc
  · rfl

theorem scopes_push {szSection szFile : Option String} {color : UInt32} {line : Int} :
    scopes (⟨t, now, .pushSection szSection color szFile line, m⟩ :: h) t' =
      if t = t' then m :: scopes h t' else scopes h t' := rfl

theorem scopes_pop :
    scopes (⟨t, now, .popSection, m⟩ :: h) t' =
      if t = t' then (scopes h t').tail else scopes h t' := rfl

/-- Apart from the one that a call opens, the scopes were there before. -/
theorem mem_scopes_cons {m' : Mark} (hm : some m' ∈ scopes (⟨t, now, c, m⟩ :: h) t') :
    m = some m' ∨ some m' ∈ scopes h t' := by
  rw [scopes] at hm
  split at hm
  · split at hm
    · rcases List.mem_cons.1 hm with hm | hm
      · exact .inl hm.symm
      · exact .inr hm
    · exact .inr (List.mem_of_mem_tail hm)
    · exact .inr hm
  · exact .inr hm

/-- A new generation begins with empty stacks. -/
theorem Matched.restarted {settings : ProfileSettings} {request : Bool}
    (hle : ∀ {t m}, some m ∈ scopes h t → m.generation ≤ s.gProfilerGeneration)
    (hheld : s.SlotsHeld) : Matched h (s.restarted t now settings request) where
  generation_le hm := Nat.le_succ_of_le (hle hm)
  scopes_eq _ t' := by
    refine ⟨scopes h t', ?_, fun m hm => Nat.lt_succ_of_le (hle hm)⟩
    rw [openMarks_of_not_owns fun i => hheld.not_owns_restarted]
    rfl

theorem Matched.cons_of_not_isSection (H : Matched h s) (hc : c.isSection = false) :
    Matched (⟨t, now, c, m⟩ :: h) s where
  generation_le hm := by
    rw [scopes_cons_of_not_isSection hc] at hm
    exact H.generation_le hm
  scopes_eq hp t' := by
    rw [scopes_cons_of_not_isSection hc]
    exact H.scopes_eq hp t'

/-- A scope may be dropped while the profiler is paused. -/
theorem Matched.cons_of_paused (H : Matched h s) (hp : s.gPaused = true) :
    Matched (⟨t, now, c, none⟩ :: h) s where
  generation_le hm := by
    rcases mem_scopes_cons hm with hm | hm
    · cases hm
    · exact H.generation_le hm
  scopes_eq hp' := by simp [hp] at hp'

omit [DecidableEq Thread] in
/-- A thread writes to no other thread's slot. -/
theorem openMarks_others {g : ThreadData → ThreadData} (hheld : s.SlotsHeld) (ho : s.Owns t i)
    (ht : t' ≠ t) :
    openMarks { s with gThreadData := s.gThreadData.modify i g } t' = s.openMarks t' := by
  refine openMarks_congr rfl rfl rfl fun j hj => ?_
  have hne : j ≠ i := by
    rintro rfl
    exact ht (hheld.injective hj ho)
  rw [slot_modify, if_neg hne]

theorem Matched.pushed {szSection szFile : Option String} {color : UInt32} {line : Int}
    (H : Matched h s) (hheld : s.SlotsHeld) (hrec : s.Recording) (hr : s.Ready t i) :
    Matched (⟨t, now, .pushSection szSection color szFile line,
        some ⟨s.gProfilerGeneration, i, (s.slot i).currentEntry⟩⟩ :: h)
      (s.pushed now i szSection color szFile line) where
  generation_le hm := by
    rcases mem_scopes_cons hm with hm | hm
    · cases hm
      exact Nat.le_refl _
    · exact H.generation_le hm
  scopes_eq hp t' := by
    obtain ⟨old, hscopes, hold⟩ := H.scopes_eq hp t'
    refine ⟨old, ?_, hold⟩
    rw [scopes_push]
    by_cases ht : t = t'
    · subst ht
      have howns : (s.pushed now i szSection color szFile line).Owns t i := hr.owns
      have Hi := hrec.slots i hr.lt_size
      rw [if_pos rfl, openMarks_of_owns howns, slot_pushed, if_pos rfl,
        ThreadData.tree_push Hi.top_ne_noParent, hscopes, openMarks_of_owns hr.owns]
      rfl
    · rw [if_neg ht, hscopes]
      congr 2
      exact (openMarks_others hheld hr.owns (Ne.symm ht)).symm

omit [DecidableEq Thread] in
/-- The stack of the slot when `PopSection` ends its innermost section. -/
theorem CanPop.stack_eq {e : Nat} (hrec : s.Recording) (hi : i < s.gThreadData.size)
    (hcan : s.CanPop i e) :
    (s.slot i).entryStack.get ((s.slot i).callStackDepth - 1) = e ∧
      (s.slot i).tree.stack = e :: (s.slot i).tree.stack.tail := by
  have Hi := hrec.slots i hi
  have hlt := Hi.top_lt hcan.nonempty
  have hle := Hi.currentEntry_le
  have hfits := s.settings.fits.2.2.1
  have htop := ((toInt32_eq_iff (by omega)).1 hcan.top).1
  refine ⟨htop, ?_⟩
  have hhead : (s.slot i).tree.stack.head? = some e := by
    rw [ThreadData.tree, head?_openEntries, if_pos hcan.nonempty, htop]
  exact (List.cons_head?_tail hhead).symm

/-- The section that `PopSection` ends is that of the innermost scope. -/
theorem Matched.scopes_eq_cons {e : Nat} (H : Matched h s) (hrec : s.Recording)
    (hr : s.Ready t i) (hcan : s.CanPop i e) :
    (scopes h t).head? = some (some ⟨s.gProfilerGeneration, i, e⟩) := by
  obtain ⟨old, hscopes, -⟩ := H.scopes_eq hr.unpaused t
  rw [hscopes, openMarks_of_owns hr.owns, (hcan.stack_eq hrec hr.lt_size).2]
  rfl

theorem Matched.popped {e : Nat} (H : Matched h s) (hheld : s.SlotsHeld) (hrec : s.Recording)
    (hr : s.Ready t i) (hcan : s.CanPop i e) :
    Matched (⟨t, now, .popSection, some ⟨s.gProfilerGeneration, i, e⟩⟩ :: h)
      (s.popped now i e) where
  generation_le hm := by
    rcases mem_scopes_cons hm with hm | hm
    · cases hm
      exact Nat.le_refl _
    · exact H.generation_le hm
  scopes_eq hp t' := by
    obtain ⟨old, hscopes, hold⟩ := H.scopes_eq hp t'
    refine ⟨old, ?_, hold⟩
    rw [scopes_pop]
    by_cases ht : t = t'
    · subst ht
      have howns : (s.popped now i e).Owns t i := hr.owns
      obtain ⟨htop, hstack⟩ := hcan.stack_eq hrec hr.lt_size
      rw [if_pos rfl, openMarks_of_owns howns, slot_popped, if_pos rfl,
        ThreadData.tree_pop hcan.nonempty htop, CallTree.stack_pop, hscopes,
        openMarks_of_owns hr.owns, hstack]
      rfl
    · rw [if_neg ht, hscopes]
      congr 2
      exact (openMarks_others hheld hr.owns (Ne.symm ht)).symm

/-- Where there is no section to end, the scope that is closed was not recorded in this
generation. -/
theorem Matched.skipped (H : Matched h s) (hrec : s.Recording) (hr : s.Ready t i)
    (hskip : s.gRestarting = true ∨ (s.slot i).callStackDepth = 0) :
    Matched (⟨t, now, .popSection, none⟩ :: h) s where
  generation_le hm := by
    rcases mem_scopes_cons hm with hm | hm
    · cases hm
    · exact H.generation_le hm
  scopes_eq hp t' := by
    obtain ⟨old, hscopes, hold⟩ := H.scopes_eq hp t'
    rw [scopes_pop]
    by_cases ht : t = t'
    · subst ht
      have hdepth : (s.slot i).callStackDepth = 0 := by
        rcases hskip with hrest | hdepth
        · exact hrec.restarting hrest i hr.lt_size
        · exact hdepth
      have hopen : s.openMarks t = [] := by
        rw [openMarks_of_owns hr.owns, ThreadData.tree, hdepth]
        rfl
      rw [if_pos rfl, hscopes, hopen]
      exact ⟨old.tail, rfl, fun m hm => hold m (List.mem_of_mem_tail hm)⟩
    · rw [if_neg ht]
      exact ⟨old, hscopes, hold⟩

theorem Matched.performed (H : Matched h s) (hheld : s.SlotsHeld) (hrec : s.Recording)
    (hp : Performed t now s c m s') : Matched (⟨t, now, c, m⟩ :: h) s' := by
  cases hp with
  | start request hc =>
    exact (Matched.restarted H.generation_le hheld).cons_of_not_isSection
      (Call.isSection_of_starts hc)
  | quiet hc hq =>
    obtain ⟨-, -, hsame⟩ := quiets_sameTrees hheld hrec hq
    exact (H.sameTrees hsame).cons_of_not_isSection hc
  | drop hc hq hpaused =>
    obtain ⟨-, -, hsame⟩ := quiets_sameTrees hheld hrec hq
    exact (H.sameTrees hsame).cons_of_paused hpaused
  | push hq hr hcan =>
    obtain ⟨hheld, hrec, hsame⟩ := quiets_sameTrees hheld hrec hq
    exact (H.sameTrees hsame).pushed hheld hrec hr
  | skip hq hr hskip =>
    obtain ⟨-, hrec, hsame⟩ := quiets_sameTrees hheld hrec hq
    exact (H.sameTrees hsame).skipped hrec hr hskip
  | pop hq hr hcan =>
    obtain ⟨hheld, hrec, hsame⟩ := quiets_sameTrees hheld hrec hq
    exact (H.sameTrees hsame).popped hheld hrec hr hcan

/-- While the profiler records, the entries on the stack are those of the scopes of this
generation. -/
theorem Matched.recorded_eq (H : Matched h s) (hp : s.gPaused = false) :
    recorded h t s.gProfilerGeneration = s.openMarks t := by
  obtain ⟨old, hscopes, hold⟩ := H.scopes_eq hp t
  have hopen : ∀ m ∈ s.openMarks t, m.generation = s.gProfilerGeneration := by
    intro m hm
    unfold openMarks at hm
    split at hm
    · obtain ⟨_, _, rfl⟩ := List.mem_map.1 hm
      rfl
    · simp at hm
  have hnone : old.filterMap (fun m => m.filter (·.generation = s.gProfilerGeneration)) = [] := by
    rw [List.filterMap_eq_nil_iff]
    intro m hm
    cases m with
    | none => rfl
    | some m => simpa using Nat.ne_of_lt (hold m hm)
  rw [recorded, hscopes, List.filterMap_append, hnone, List.append_nil, List.filterMap_map,
    List.filterMap_congr (g := some) fun m hm => by simp [hopen m hm], List.filterMap_some]

/-! ### Entries and the scopes they were written for -/

/-- The thread `t` opened a scope after the calls `h₁`, for which the entry `m` was written. -/
def Opens (h : List (Event Thread)) (t : Thread) (m : Mark) (h₁ : List (Event Thread)) : Prop :=
  ∃ now szSection color szFile line,
    ⟨t, now, .pushSection szSection color szFile line, some m⟩ :: h₁ <:+ h

/-- The place of the entry `e` of slot `i` is that of a scope within the scopes that were recorded
in the generation `g`. -/
structure Placed (enclosing : List Mark) (i : Nat) (c : CallTree Int) (e : Nat) : Prop where
  lt_size : e < c.size
  parent : (c.node e).parent = enclosing.head?.map (·.entry)
  level : (c.node e).level = enclosing.length
  slot : ∀ m ∈ enclosing, m.slot = i

theorem Placed.push {enclosing : List Mark} {tree : CallTree Int} {e : Nat} {never start : Int}
    (H : Placed enclosing i tree e) : Placed enclosing i (tree.push never start) e := by
  have hne : e ≠ tree.size := Nat.ne_of_lt H.lt_size
  refine ⟨Nat.lt_succ_of_lt H.lt_size, ?_, ?_, H.slot⟩
  · rw [CallTree.node_push_of_ne hne, H.parent]
  · rw [CallTree.node_push_of_ne hne, H.level]

/-- A call that begins is placed in the calls that are open. -/
theorem Placed.last {g : Nat} {tree : CallTree Int} {never start : Int} :
    Placed (tree.stack.map (⟨g, i, ·⟩)) i (tree.push never start) tree.size := by
  refine ⟨Nat.lt_succ_self _, ?_, ?_, fun m hm => ?_⟩
  · rw [CallTree.node_push_self, List.head?_map, Option.map_map]
    exact Option.map_id'.symm
  · rw [CallTree.node_push_self, List.length_map]
  · obtain ⟨_, _, rfl⟩ := List.mem_map.1 hm
    rfl

theorem Placed.pop {enclosing : List Mark} {tree : CallTree Int} {e : Nat} {stop : Int}
    (H : Placed enclosing i tree e) : Placed enclosing i (tree.pop stop) e := by
  refine ⟨Nat.lt_of_lt_of_eq H.lt_size CallTree.size_pop.symm, ?_, ?_, H.slot⟩
  · rw [CallTree.node_pop, H.parent]
  · rw [CallTree.node_pop, H.level]

/-- Every entry was written for a scope, in whose place it is, and every section that was ended was
that of the innermost scope. -/
structure Attributed (h : List (Event Thread)) (s : Profiler Thread) : Prop where
  generation_le : ∀ {t m h₁}, Opens h t m h₁ → m.generation ≤ s.gProfilerGeneration
  opened : ∀ {i e}, i < s.gThreadData.size → e < (s.slot i).currentEntry →
    ∃ t h₁, Opens h t ⟨s.gProfilerGeneration, i, e⟩ h₁
  placed : ∀ {t i e h₁}, Opens h t ⟨s.gProfilerGeneration, i, e⟩ h₁ → i < s.gThreadData.size ∧
    Placed (recorded h₁ t s.gProfilerGeneration) i (s.slot i).tree e
  closed : ∀ {t now m h₁}, ⟨t, now, .popSection, some m⟩ :: h₁ <:+ h →
    (scopes h₁ t).head? = some (some m)

omit [DecidableEq Thread] in
theorem opens_cons {m' : Mark} (ho : Opens (⟨t, now, c, m⟩ :: h) t' m' h₁) :
    (c ≠ .popSection ∧ m = some m' ∧ t' = t ∧ h₁ = h) ∨ Opens h t' m' h₁ := by
  obtain ⟨now', szSection, color, szFile, line, ho⟩ := ho
  rcases List.suffix_cons_iff.1 ho with heq | ho
  · simp only [List.cons.injEq, Event.mk.injEq] at heq
    obtain ⟨⟨rfl, -, rfl, rfl⟩, rfl⟩ := heq
    exact .inl ⟨by simp, rfl, rfl, rfl⟩
  · exact .inr ⟨now', szSection, color, szFile, line, ho⟩

omit [DecidableEq Thread] in
theorem Opens.cons {e : Event Thread} {m' : Mark} (ho : Opens h t m' h₁) :
    Opens (e :: h) t m' h₁ := by
  obtain ⟨now, szSection, color, szFile, line, ho⟩ := ho
  exact ⟨now, szSection, color, szFile, line, ho.trans (List.suffix_cons e h)⟩

theorem Attributed.new : Attributed [] (new : Profiler Thread) where
  generation_le := by
    rintro t m h₁ ⟨_, _, _, _, _, ho⟩
    simp at ho
  opened hi := absurd hi (Nat.not_lt_zero _)
  placed := by
    rintro t i e h₁ ⟨_, _, _, _, _, ho⟩
    simp at ho
  closed ho := by simp at ho

theorem Attributed.sameTrees (H : Attributed h s) (hsame : SameTrees s s') : Attributed h s' where
  generation_le ho := hsame.generation ▸ H.generation_le ho
  opened {i e} hi he := by
    rw [hsame.size] at hi
    have he' : e < (s.slot i).tree.size := hsame.tree i ▸ he
    rw [hsame.generation]
    exact H.opened hi he'
  placed ho := by
    rw [hsame.generation] at ho ⊢
    rw [hsame.size, hsame.tree]
    exact H.placed ho
  closed := H.closed

/-- A call that writes no entry. -/
theorem Attributed.cons_none (H : Attributed h s) : Attributed (⟨t, now, c, none⟩ :: h) s where
  generation_le ho := by
    rcases opens_cons ho with ⟨-, hm, -⟩ | ho
    · cases hm
    · exact H.generation_le ho
  opened hi he := by
    obtain ⟨t', h₁, ho⟩ := H.opened hi he
    exact ⟨t', h₁, ho.cons⟩
  placed ho := by
    rcases opens_cons ho with ⟨-, hm, -⟩ | ho
    · cases hm
    · exact H.placed ho
  closed ho := by
    rcases List.suffix_cons_iff.1 ho with heq | ho
    · simp at heq
    · exact H.closed ho

/-- A new generation begins without entries. -/
theorem Attributed.restarted {settings : ProfileSettings} {request : Bool} (H : Attributed h s) :
    Attributed h (s.restarted t now settings request) where
  generation_le ho := Nat.le_succ_of_le (H.generation_le ho)
  opened _ he := by
    rw [slot_restarted] at he
    exact absurd he (Nat.not_lt_zero _)
  placed ho := absurd (H.generation_le ho) (Nat.not_succ_le_self _)
  closed := H.closed

theorem Attributed.pushed {szSection szFile : Option String} {color : UInt32} {line : Int}
    (H : Attributed h s) (hmatch : Matched h s) (hrec : s.Recording) (hr : s.Ready t i) :
    Attributed (⟨t, now, .pushSection szSection color szFile line,
        some ⟨s.gProfilerGeneration, i, (s.slot i).currentEntry⟩⟩ :: h)
      (s.pushed now i szSection color szFile line) where
  generation_le ho := by
    rcases opens_cons ho with ⟨-, hm, -⟩ | ho
    · cases hm
      exact Nat.le_refl _
    · exact H.generation_le ho
  opened {j e} hj he := by
    rw [slot_pushed] at he
    split at he
    · next hji =>
      subst hji
      rcases Nat.lt_succ_iff_lt_or_eq.1 he with he | rfl
      · obtain ⟨t', h₁, ho⟩ := H.opened hj he
        exact ⟨t', h₁, ho.cons⟩
      · exact ⟨t, h, now, szSection, color, szFile, line, List.suffix_refl _⟩
    · obtain ⟨t', h₁, ho⟩ := H.opened hj he
      exact ⟨t', h₁, ho.cons⟩
  placed {t' j e h₁} ho := by
    have Hi := hrec.slots i hr.lt_size
    rcases opens_cons ho with ⟨-, hm, ht, hh⟩ | ho
    · cases hm
      refine ⟨hr.lt_size, ?_⟩
      rw [ht, hh]
      change Placed (recorded h t s.gProfilerGeneration) i _ _
      rw [slot_pushed, if_pos rfl, ThreadData.tree_push Hi.top_ne_noParent,
        hmatch.recorded_eq hr.unpaused, openMarks_of_owns hr.owns]
      exact .last
    · obtain ⟨hj, hplaced⟩ := H.placed ho
      refine ⟨hj, ?_⟩
      rw [slot_pushed]
      split
      · next hji =>
        subst hji
        rw [ThreadData.tree_push Hi.top_ne_noParent]
        exact hplaced.push
      · exact hplaced
  closed ho := by
    rcases List.suffix_cons_iff.1 ho with heq | ho
    · simp at heq
    · exact H.closed ho

theorem Attributed.popped {e : Nat} (H : Attributed h s) (hmatch : Matched h s) (hrec : s.Recording)
    (hr : s.Ready t i) (hcan : s.CanPop i e) :
    Attributed (⟨t, now, .popSection, some ⟨s.gProfilerGeneration, i, e⟩⟩ :: h)
      (s.popped now i e) where
  generation_le ho := by
    rcases opens_cons ho with ⟨hc, -⟩ | ho
    · exact absurd rfl hc
    · exact H.generation_le ho
  opened {j e'} hj he := by
    have he' : e' < (s.slot j).currentEntry := by
      rw [slot_popped] at he
      split at he
      · next hji => rw [hji]; exact he
      · exact he
    obtain ⟨t', h₁, ho⟩ := H.opened hj he'
    exact ⟨t', h₁, ho.cons⟩
  placed {t' j e' h₁} ho := by
    rcases opens_cons ho with ⟨hc, -⟩ | ho
    · exact absurd rfl hc
    · obtain ⟨hj, hplaced⟩ := H.placed ho
      refine ⟨hj, ?_⟩
      rw [slot_popped]
      split
      · next hji =>
        subst hji
        rw [ThreadData.tree_pop hcan.nonempty (hcan.stack_eq hrec hr.lt_size).1]
        exact hplaced.pop
      · exact hplaced
  closed ho := by
    rcases List.suffix_cons_iff.1 ho with heq | ho
    · simp only [List.cons.injEq, Event.mk.injEq, Option.some.injEq] at heq
      obtain ⟨⟨rfl, -, -, rfl⟩, rfl⟩ := heq
      exact hmatch.scopes_eq_cons hrec hr hcan
    · exact H.closed ho

theorem Attributed.performed (H : Attributed h s) (hmatch : Matched h s) (hheld : s.SlotsHeld)
    (hrec : s.Recording) (hp : Performed t now s c m s') : Attributed (⟨t, now, c, m⟩ :: h) s' := by
  cases hp with
  | start => exact H.restarted.cons_none
  | quiet _ hq | drop _ hq | skip hq =>
    obtain ⟨-, -, hsame⟩ := quiets_sameTrees hheld hrec hq
    exact (H.sameTrees hsame).cons_none
  | push hq hr hcan =>
    obtain ⟨-, hrec, hsame⟩ := quiets_sameTrees hheld hrec hq
    exact (H.sameTrees hsame).pushed (hmatch.sameTrees hsame) hrec hr
  | pop hq hr hcan =>
    obtain ⟨-, hrec, hsame⟩ := quiets_sameTrees hheld hrec hq
    exact (H.sameTrees hsame).popped (hmatch.sameTrees hsame) hrec hr hcan

/-- In every run without `Finish`. -/
theorem Run.attributed {allowed : List (Event Thread) → Profiler Thread → Thread → Call → Prop}
    (hfinish : ∀ h s t, ¬allowed h s t .finish) (hrun : Run allowed h s) :
    Matched h s ∧ Attributed h s := by
  induction hrun with
  | new => exact ⟨.new, .new⟩
  | @call h s t c now m s' hrun hallowed hcall ih =>
    have hc : c ≠ .finish := by
      rintro rfl
      exact hfinish _ _ _ hallowed
    have hp := perform_cases hc hcall
    have hrec := hrun.recording hfinish
    exact ⟨ih.1.performed hrun.slotsHeld hrec hp, ih.2.performed ih.1 hrun.slotsHeld hrec hp⟩

end MUtils.Profiler
