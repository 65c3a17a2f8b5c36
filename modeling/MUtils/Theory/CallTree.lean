import Mathlib

/-!
# Call trees

A recording of calls, numbered in the order in which they begin. Each call has the innermost call
that was open when it began as its parent; the calls that are open form a stack, innermost first.
`Valid` is the shape of such a recording, and `Timed` what a clock that does not run backwards adds:
the interval of a call lies within that of its parent.

Someone who looks at a recording from some point in time on does not have to look at all calls.
`Covers c a since` says that of the calls up to `a`, those that end after `since` do not precede the
outermost call around `a`; this holds if `a` was the last call at that time, and stays true.
-/

namespace MUtils

structure CallNode (τ : Type) where
  parent : Option Nat
  /-- How many calls are around this one. -/
  level : Nat
  start : τ
  stop : τ

structure CallTree (τ : Type) where
  size : Nat
  node : Nat → CallNode τ
  /-- The open calls, the innermost first. -/
  stack : List Nat

namespace CallTree
variable {τ : Type}

/-- A call begins. Its end is `never` until it is known. -/
def push (c : CallTree τ) (never start : τ) : CallTree τ where
  size := c.size + 1
  node := Function.update c.node c.size ⟨c.stack.head?, c.stack.length, start, never⟩
  stack := c.size :: c.stack

/-- The innermost open call ends. -/
def pop (c : CallTree τ) (stop : τ) : CallTree τ :=
  match c.stack with
  | [] => c
  | e :: rest => { c with node := Function.update c.node e { c.node e with stop }, stack := rest }

/-- Of the calls of a stack, each was made in the next one. -/
def Linked (c : CallTree τ) : List Nat → Prop
  | [] => True
  | e :: rest => (c.node e).parent = rest.head? ∧ (c.node e).level = rest.length ∧ c.Linked rest

/-- The outermost call around `e` is `r`. -/
inductive Root (c : CallTree τ) : Nat → Nat → Prop
  | top : (c.node e).parent = none → Root c e e
  | up : (c.node e).parent = some p → Root c p r → Root c e r

structure Valid (c : CallTree τ) : Prop where
  parent_lt : ∀ {e p}, e < c.size → (c.node e).parent = some p → p < e
  stack_lt : ∀ {e}, e ∈ c.stack → e < c.size
  linked : c.Linked c.stack
  /-- The open calls are around the last one. -/
  root : ∀ {r}, c.stack.getLast? = some r → c.Root (c.size - 1) r

variable {c c' : CallTree τ} {a d e p r r' : Nat} {start stop never now : τ}

/-! ### Outermost calls -/

theorem Root.unique (h : c.Root e r) (h' : c.Root e r') : r = r' := by
  induction h with
  | top hnone =>
    cases h' with
    | top => rfl
    | up hsome => simp [hnone] at hsome
  | up hsome _ ih =>
    cases h' with
    | top hnone => simp [hnone] at hsome
    | up hsome' h' =>
      obtain rfl := Option.some.inj (hsome.symm.trans hsome')
      exact ih h'

theorem Valid.root_le (H : c.Valid) (he : e < c.size) (h : c.Root e r) : r ≤ e := by
  induction h with
  | top => exact Nat.le_refl _
  | up hsome _ ih =>
    have hlt := H.parent_lt he hsome
    have := ih (by omega)
    omega

theorem Valid.exists_root (H : c.Valid) (he : e < c.size) : ∃ r, c.Root e r := by
  induction e using Nat.strongRecOn with
  | _ e ih =>
    cases hp : (c.node e).parent with
    | none => exact ⟨e, .top hp⟩
    | some p =>
      have hlt := H.parent_lt he hp
      obtain ⟨r, hr⟩ := ih p hlt (by omega)
      exact ⟨r, .up hp hr⟩

/-- The outermost call depends only on the parents of the calls before. -/
theorem Valid.root_congr (H : c.Valid) (he : e < c.size)
    (hparent : ∀ d ≤ e, (c'.node d).parent = (c.node d).parent) (h : c.Root e r) : c'.Root e r := by
  induction h with
  | @top e hnone => exact .top ((hparent e (Nat.le_refl e)).trans hnone)
  | @up e p r hsome _ ih =>
    have hlt := H.parent_lt he hsome
    refine .up ((hparent e (Nat.le_refl e)).trans hsome) (ih (by omega) fun d hd => ?_)
    exact hparent d (by omega)

/-- A change that leaves the parents alone leaves the outermost calls alone. -/
theorem Valid.root_of_congr (H : c.Valid) (he : e < c.size)
    (hparent : ∀ d ≤ e, (c'.node d).parent = (c.node d).parent) (h : c'.Root e r) : c.Root e r := by
  obtain ⟨r', hr'⟩ := H.exists_root he
  obtain rfl := h.unique (H.root_congr he hparent hr')
  exact hr'

/-! ### Stacks -/

theorem Linked.root {stack : List Nat} (h : c.Linked (e :: stack)) :
    ∃ r, (e :: stack).getLast? = some r ∧ c.Root e r := by
  induction stack generalizing e with
  | nil => exact ⟨e, rfl, .top h.1⟩
  | cons p rest ih =>
    obtain ⟨r, hlast, hroot⟩ := ih h.2.2
    exact ⟨r, by simpa using hlast, .up h.1 hroot⟩

/-- Calls further down the stack began earlier. -/
theorem Valid.lt_of_mem_tail (H : c.Valid) {stack : List Nat} (h : c.Linked (e :: stack))
    (he : e < c.size) (hd : d ∈ stack) : d < e := by
  induction stack generalizing e with
  | nil => simp at hd
  | cons p rest ih =>
    have hlt := H.parent_lt he h.1
    rcases List.mem_cons.1 hd with rfl | hd
    · exact hlt
    · have := ih h.2.2 (by omega) hd
      omega

theorem Valid.getLast_le (H : c.Valid) {stack : List Nat} (h : c.Linked stack)
    (hlt : ∀ d ∈ stack, d < c.size) (hr : stack.getLast? = some r) (he : e ∈ stack) : r ≤ e := by
  induction stack with
  | nil => simp at he
  | cons top rest ih =>
    cases rest with
    | nil =>
      obtain rfl : top = r := by simpa using hr
      obtain rfl : e = top := by simpa using he
      exact Nat.le_refl _
    | cons p rest =>
      have hr' : (p :: rest).getLast? = some r := by simpa using hr
      rcases List.mem_cons.1 he with rfl | he
      · have htop := hlt e List.mem_cons_self
        exact Nat.le_of_lt (H.lt_of_mem_tail h htop (List.mem_of_getLast? hr'))
      · exact ih h.2.2 (fun d hd => hlt d (List.mem_cons_of_mem _ hd)) hr' he

theorem Linked.congr {stack : List Nat} (h : c.Linked stack)
    (hparent : ∀ d ∈ stack, (c'.node d).parent = (c.node d).parent)
    (hlevel : ∀ d ∈ stack, (c'.node d).level = (c.node d).level) : c'.Linked stack := by
  induction stack with
  | nil => trivial
  | cons e rest ih =>
    refine ⟨(hparent e List.mem_cons_self).trans h.1, (hlevel e List.mem_cons_self).trans h.2.1,
      ih h.2.2 (fun d hd => ?_) fun d hd => ?_⟩
    · exact hparent d (List.mem_cons_of_mem _ hd)
    · exact hlevel d (List.mem_cons_of_mem _ hd)

/-! ### Beginning and ending calls -/

theorem node_push_of_ne (he : e ≠ c.size) : (c.push never start).node e = c.node e :=
  Function.update_of_ne he ..

theorem node_push_self :
    (c.push never start).node c.size = ⟨c.stack.head?, c.stack.length, start, never⟩ :=
  Function.update_self ..

/-- The end of a call changes nothing but its end. -/
theorem node_pop :
    (c.pop stop).node e =
      { c.node e with stop := if c.stack.head? = some e then stop else (c.node e).stop } := by
  unfold pop
  split
  · next h => simp [h]
  · next top _ h =>
    by_cases he : e = top
    · simp [h, he]
    · simp [h, he, Ne.symm he]

theorem size_pop : (c.pop stop).size = c.size := by
  unfold pop
  split <;> rfl

theorem stack_pop : (c.pop stop).stack = c.stack.tail := by
  unfold pop
  split
  · next h => simp [h]
  · next h => simp [h]

theorem Valid.push (H : c.Valid) : (c.push never start).Valid := by
  have hlinked : (c.push never start).Linked c.stack := by
    refine H.linked.congr (fun d hd => ?_) fun d hd => ?_
    · rw [node_push_of_ne (Nat.ne_of_lt (H.stack_lt hd))]
    · rw [node_push_of_ne (Nat.ne_of_lt (H.stack_lt hd))]
  have hlinked' : (c.push never start).Linked (c.size :: c.stack) := by
    refine ⟨?_, ?_, hlinked⟩ <;> rw [node_push_self]
  refine ⟨fun {e p} he hp => ?_, fun {e} he => ?_, hlinked', fun {r} hr => ?_⟩
  · by_cases hlast : e = c.size
    · rw [hlast, node_push_self] at hp
      rw [hlast]
      exact H.stack_lt (List.mem_of_head? hp)
    · have hlt : e < c.size := by
        simp only [CallTree.push] at he
        omega
      rw [node_push_of_ne hlast] at hp
      exact H.parent_lt hlt hp
  · rcases List.mem_cons.1 he with rfl | he
    · exact Nat.lt_succ_self _
    · exact Nat.lt_succ_of_lt (H.stack_lt he)
  · obtain ⟨r', hlast, hroot⟩ := hlinked'.root
    obtain rfl := Option.some.inj (hlast.symm.trans hr)
    exact hroot

theorem Valid.pop (H : c.Valid) : (c.pop stop).Valid := by
  have hparent : ∀ d, ((c.pop stop).node d).parent = (c.node d).parent := fun d => by rw [node_pop]
  refine ⟨fun {e p} he hp => ?_, fun {e} he => ?_, ?_, fun {r} hr => ?_⟩
  · rw [size_pop] at he
    rw [hparent] at hp
    exact H.parent_lt he hp
  · rw [stack_pop] at he
    rw [size_pop]
    exact H.stack_lt (List.mem_of_mem_tail he)
  · rw [stack_pop]
    refine Linked.congr (c := c) ?_ (fun d _ => hparent d) fun d _ => by rw [node_pop]
    cases hs : c.stack with
    | nil => trivial
    | cons top rest =>
      have h := H.linked
      rw [hs] at h
      exact h.2.2
  · rw [stack_pop] at hr
    rw [size_pop]
    cases hs : c.stack with
    | nil => simp [hs] at hr
    | cons top rest =>
      cases rest with
      | nil => simp [hs] at hr
      | cons p rest =>
        have hr' : c.stack.getLast? = some r := by
          rw [hs] at hr ⊢
          simpa using hr
        have htop : top < c.size := H.stack_lt (by simp [hs])
        exact H.root_congr (by omega) (fun d _ => hparent d) (H.root hr')

/-! ### Times -/

section
variable [LinearOrder τ]

/-- The times of a recording that was made until `now`. -/
structure Timed (c : CallTree τ) (never now : τ) : Prop where
  start_mono : ∀ {d e}, d ≤ e → e < c.size → (c.node d).start ≤ (c.node e).start
  start_le : ∀ {e}, e < c.size → (c.node e).start ≤ now
  stop_open : ∀ {e}, e ∈ c.stack → (c.node e).stop = never
  start_le_stop : ∀ {e}, e < c.size → (c.node e).start ≤ (c.node e).stop
  stop_le : ∀ {e}, e < c.size → e ∉ c.stack → (c.node e).stop ≤ now
  stop_le_parent : ∀ {e p}, e < c.size → (c.node e).parent = some p →
    (c.node e).stop ≤ (c.node p).stop

variable {never now now' since : τ}

/-- Time goes on. -/
theorem Timed.mono (H : c.Timed never now) (hle : now ≤ now') : c.Timed never now' where
  start_mono := H.start_mono
  start_le he := (H.start_le he).trans hle
  stop_open := H.stop_open
  start_le_stop := H.start_le_stop
  stop_le he ho := (H.stop_le he ho).trans hle
  stop_le_parent := H.stop_le_parent

theorem Timed.push (HV : c.Valid) (H : c.Timed never now) (hle : now ≤ start)
    (hnever : start ≤ never) : (c.push never start).Timed never start := by
  have hcases : ∀ {e}, e < (c.push never start).size → e = c.size ∨ (e < c.size ∧ e ≠ c.size) := by
    intro e he
    simp only [CallTree.push] at he
    omega
  refine ⟨fun {d e} hde he => ?_, fun {e} he => ?_, fun {e} he => ?_, fun {e} he => ?_,
    fun {e} he ho => ?_, fun {e p} he hp => ?_⟩
  · rcases hcases he with rfl | ⟨he, hne⟩
    · rw [node_push_self]
      rcases Nat.eq_or_lt_of_le hde with rfl | hlt
      · rw [node_push_self]
      · rw [node_push_of_ne (Nat.ne_of_lt hlt)]
        exact (H.start_le hlt).trans hle
    · rw [node_push_of_ne hne, node_push_of_ne (by omega)]
      exact H.start_mono hde he
  · rcases hcases he with rfl | ⟨he, hne⟩
    · rw [node_push_self]
    · rw [node_push_of_ne hne]
      exact (H.start_le he).trans hle
  · rcases List.mem_cons.1 he with rfl | he
    · rw [node_push_self]
    · rw [node_push_of_ne (Nat.ne_of_lt (HV.stack_lt he))]
      exact H.stop_open he
  · rcases hcases he with rfl | ⟨he, hne⟩
    · rw [node_push_self]
      exact hnever
    · rw [node_push_of_ne hne]
      exact H.start_le_stop he
  · obtain ⟨hne, ho⟩ := not_or.1 (mt List.mem_cons.2 ho)
    rcases hcases he with rfl | ⟨he, -⟩
    · exact absurd rfl hne
    · rw [node_push_of_ne hne]
      exact (H.stop_le he ho).trans hle
  · rcases hcases he with rfl | ⟨he, hne⟩
    · rw [node_push_self] at hp ⊢
      have hmem := List.mem_of_head? hp
      rw [node_push_of_ne (Nat.ne_of_lt (HV.stack_lt hmem)), H.stop_open hmem]
    · rw [node_push_of_ne hne] at hp ⊢
      have hlt := HV.parent_lt he hp
      rw [node_push_of_ne (by omega)]
      exact H.stop_le_parent he hp

theorem Timed.pop (HV : c.Valid) (H : c.Timed never now) (hle : now ≤ stop)
    (hnever : stop ≤ never) : (c.pop stop).Timed never stop := by
  cases hs : c.stack with
  | nil =>
    have : c.pop stop = c := by simp [CallTree.pop, hs]
    rw [this]
    exact H.mono hle
  | cons top rest =>
    have hlinked := HV.linked
    rw [hs] at hlinked
    have htop : top < c.size := HV.stack_lt (by simp [hs])
    have hstop : ∀ {e}, ((c.pop stop).node e).stop = if top = e then stop else (c.node e).stop := by
      intro e
      rw [node_pop, hs]
      simp
    have hrest : ∀ {e}, e ∈ rest → e < top := HV.lt_of_mem_tail hlinked htop
    refine ⟨fun {d e} hde he => ?_, fun {e} he => ?_, fun {e} he => ?_, fun {e} he => ?_,
      fun {e} he ho => ?_, fun {e p} he hp => ?_⟩
    · rw [size_pop] at he
      simpa only [node_pop] using H.start_mono hde he
    · rw [size_pop] at he
      simpa only [node_pop] using (H.start_le he).trans hle
    · rw [stack_pop, hs] at he
      rw [hstop, if_neg (by have := hrest he; omega)]
      exact H.stop_open (by rw [hs]; exact List.mem_cons_of_mem _ he)
    · rw [size_pop] at he
      rw [hstop]
      simp only [node_pop]
      split
      · exact (H.start_le he).trans hle
      · exact H.start_le_stop he
    · rw [size_pop] at he
      rw [stack_pop, hs, List.tail_cons] at ho
      rw [hstop]
      split
      · exact le_rfl
      · next hne =>
        refine (H.stop_le he ?_).trans hle
        rw [hs, List.mem_cons, not_or]
        exact ⟨Ne.symm hne, ho⟩
    · rw [size_pop] at he
      simp only [node_pop] at hp
      have hlt := HV.parent_lt he hp
      rw [hstop, hstop]
      by_cases hep : top = e
      · -- the parent of the call that ends is open
        subst hep
        rw [if_pos rfl, if_neg (by omega)]
        have hmem : p ∈ c.stack := by
          rw [hs]
          exact List.mem_cons_of_mem _ (List.mem_of_head? (hlinked.1.symm.trans hp))
        rw [H.stop_open hmem]
        exact hnever
      · rw [if_neg hep]
        split
        · next hpp =>
          -- the calls made in the one that ends have ended
          subst hpp
          refine (H.stop_le he ?_).trans hle
          rw [hs, List.mem_cons, not_or]
          refine ⟨Ne.symm hep, fun hmem => ?_⟩
          have := hrest hmem
          omega
        · exact H.stop_le_parent he hp

/-! ### Looking at a recording from some time on -/

/-- Of the calls up to `a`, those that end after `since` do not precede the outermost call
around `a`. -/
def Covers (c : CallTree τ) (a : Nat) (since : τ) : Prop :=
  ∀ r e, c.Root a r → e ≤ a → since < (c.node e).stop → r ≤ e

/-- The last call of the recording as it is now. -/
theorem Timed.covers (HV : c.Valid) (H : c.Timed never now) (hpos : 0 < c.size) :
    c.Covers (c.size - 1) now := by
  intro r e hroot hle hstop
  have he : e < c.size := by omega
  have hopen : e ∈ c.stack := by
    by_contra ho
    exact absurd (H.stop_le he ho) (not_le.2 hstop)
  obtain ⟨r', hr'⟩ : ∃ r', c.stack.getLast? = some r' :=
    Option.ne_none_iff_exists'.1 (by simpa using List.ne_nil_of_mem hopen)
  obtain rfl := hroot.unique (HV.root hr')
  exact HV.getLast_le HV.linked (fun _ => HV.stack_lt) hr' hopen

theorem Covers.push (HV : c.Valid) (H : c.Covers a since) (ha : a < c.size) :
    (c.push never start).Covers a since := by
  intro r e hroot hle hstop
  rw [node_push_of_ne (by omega)] at hstop
  refine H r e (HV.root_of_congr ha (fun d hd => ?_) hroot) hle hstop
  rw [node_push_of_ne (by omega)]

/-- A call ends no later than `never`, which was its end before. -/
theorem Covers.pop (HV : c.Valid) (HT : c.Timed never now) (H : c.Covers a since) (ha : a < c.size)
    (hnever : stop ≤ never) : (c.pop stop).Covers a since := by
  intro r e hroot hle hstop
  refine H r e (HV.root_of_congr ha (fun d _ => by rw [node_pop]) hroot) hle ?_
  simp only [node_pop] at hstop
  split at hstop
  · next htop =>
    rw [HT.stop_open (List.mem_of_head? htop)]
    exact hstop.trans_le hnever
  · exact hstop

end

end CallTree

end MUtils
