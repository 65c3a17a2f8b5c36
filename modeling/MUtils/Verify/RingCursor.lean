import MUtils.Algorithm.RingIterator
import MUtils.Theory.Ring

/-!
# The ring iterator as a cursor in a circular list

An iterator *designates* a ring if its cursor is the position of the current element, and the
container holds the others from there on, round its end (`Designates`). Every operation keeps this,
except that `erase` at the last position of the container returns an iterator at its end, where the
element that follows is the first one of the container (`Designates.apply`, `not_designates_erase`).
So a run stays on the ring just if it never erases at the last position (`run_stays_iff`).
-/

namespace MUtils.RingIterator
open Outcome

inductive Op (α : Type) where
  | increment
  | decrement
  | postIncrement
  | postDecrement
  | plus (count : Nat)
  | minus (count : Nat)
  | insert (x : α)
  | insertAfter (x : α)
  | erase

variable {α : Type} {it it' : RingIterator α} {r r' : Ring α} {op : Op α} {ops : List (Op α)}
  {before after : List α} {a : α}

/-- The iterator that an operation returns. -/
def apply (it : RingIterator α) : Op α → Outcome (RingIterator α)
  | .increment => it.increment
  | .decrement => it.decrement
  | .postIncrement => do return (← it.postIncrement).1
  | .postDecrement => do return (← it.postDecrement).1
  | .plus count => it.plus count
  | .minus count => it.minus count
  | .insert x => it.insert x
  | .insertAfter x => it.insertAfter x
  | .erase => it.erase

/-- Each operation is applied to the iterator that the one before has returned. -/
def run (it : RingIterator α) (ops : List (Op α)) : Outcome (RingIterator α) := ops.foldlM apply it

/-- What an operation is for: `none` if it erases the only element. A postfix operator returns the
iterator as it was. -/
def ringApply (r : Ring α) : Op α → Option (Ring α)
  | .increment => some r.next
  | .decrement => some r.prev
  | .postIncrement | .postDecrement => some r
  | .plus count => some (Ring.next^[count] r)
  | .minus count => some (Ring.prev^[count] r)
  | .insert x => some (r.insert x)
  | .insertAfter x => some (r.insertAfter x)
  | .erase => r.erase

def ringRun (r : Ring α) (ops : List (Op α)) : Option (Ring α) := ops.foldlM ringApply r

/-- The cursor is at the current element of the ring, and the container holds the others from there
on. -/
inductive Designates : RingIterator α → Ring α → Prop
  | intro (before : List α) (a : α) (after : List α) :
    Designates (ofPosition (before ++ a :: after) before.length) ⟨a, after ++ before⟩

/-! ### The operations -/

namespace Designates

/-- An iterator for the whole container, at a position where it is cut. -/
theorem of_cut (before : List α) (a : α) (after : List α) (hdata : it.data = before ++ a :: after)
    (hcursor : it.cursor = before.length) (hbegin : it.begin = 0)
    (hend : it.end = it.data.length) (hr : r = ⟨a, after ++ before⟩) : it.Designates r := by
  obtain ⟨data, cursor, begin, _⟩ := it
  simp only at hdata hcursor hbegin hend
  subst hdata hcursor hbegin hend hr
  exact .intro before a after

theorem cursor_lt (h : it.Designates r) : it.cursor < it.data.length := by
  cases h with
  | intro before a after => simp [ofPosition]

/-- The cursor is in the container, at the current element. -/
theorem deref (h : it.Designates r) :
    it.begin ≤ it.cursor ∧ it.cursor < it.end ∧ it.deref = .ok r.current := by
  cases h with
  | intro before a after => simp [ofPosition, RingIterator.deref]

theorem increment (h : it.Designates r) :
    ∃ it', it.increment = .ok it' ∧ it'.Designates r.next := by
  have hlt := h.cursor_lt
  cases h with
  | intro before a after =>
    rw [RingIterator.increment, if_pos hlt]
    refine ⟨_, rfl, ?_⟩
    cases after with
    | cons b after =>
      -- one further in the container
      apply of_cut (before ++ [a]) b after <;> simp [ofPosition, Ring.next]
    | nil =>
      -- round the end
      cases before with
      | nil => exact .intro [] a []
      | cons b before => apply of_cut [] b (before ++ [a]) <;> simp [ofPosition, Ring.next]

theorem decrement (h : it.Designates r) :
    ∃ it', it.decrement = .ok it' ∧ it'.Designates r.prev := by
  cases h with
  | intro before a after =>
    rcases List.eq_nil_or_concat' before with rfl | ⟨before, b, rfl⟩
    · -- round the begin
      have hend : (ofPosition ([] ++ a :: after) 0).decrement =
          .ok (ofPosition (a :: after) after.length) := by
        simp [RingIterator.decrement, ofPosition]
      refine ⟨_, hend, ?_⟩
      rcases List.eq_nil_or_concat' after with rfl | ⟨after, b, rfl⟩
      · exact .intro [] a []
      · apply of_cut (a :: after) b [] <;> simp [ofPosition, Ring.prev]
    · have hprev : (⟨a, after ++ (before ++ [b])⟩ : Ring α).prev = ⟨b, a :: after ++ before⟩ := by
        rw [← List.append_assoc, Ring.prev_append]
        rfl
      have hmoved : (ofPosition (before ++ [b] ++ a :: after) (before ++ [b]).length).decrement =
          .ok (ofPosition (before ++ [b] ++ a :: after) before.length) := by
        simp [RingIterator.decrement, ofPosition]
      exact ⟨_, hmoved, of_cut before b (a :: after) (by simp [ofPosition]) rfl rfl rfl hprev⟩

theorem postIncrement (h : it.Designates r) :
    ∃ it', it.postIncrement = .ok (it, it') ∧ it'.Designates r.next := by
  obtain ⟨it', hmoved, hit'⟩ := h.increment
  refine ⟨it', ?_, hit'⟩
  rw [RingIterator.postIncrement, hmoved]
  rfl

theorem postDecrement (h : it.Designates r) :
    ∃ it', it.postDecrement = .ok (it, it') ∧ it'.Designates r.prev := by
  obtain ⟨it', hmoved, hit'⟩ := h.decrement
  refine ⟨it', ?_, hit'⟩
  rw [RingIterator.postDecrement, hmoved]
  rfl

theorem plus (h : it.Designates r) (count : Nat) :
    ∃ it', it.plus count = .ok it' ∧ it'.Designates (Ring.next^[count] r) := by
  induction count generalizing it r with
  | zero => exact ⟨it, rfl, h⟩
  | succ count ih =>
    obtain ⟨it₁, hmoved, hit₁⟩ := h.postIncrement
    rw [RingIterator.plus, hmoved]
    exact ih hit₁

theorem minus (h : it.Designates r) (count : Nat) :
    ∃ it', it.minus count = .ok it' ∧ it'.Designates (Ring.prev^[count] r) := by
  induction count generalizing it r with
  | zero => exact ⟨it, rfl, h⟩
  | succ count ih =>
    obtain ⟨it₁, hmoved, hit₁⟩ := h.postDecrement
    rw [RingIterator.minus, hmoved]
    exact ih hit₁

theorem insert (h : it.Designates r) (x : α) :
    ∃ it', it.insert x = .ok it' ∧ it'.Designates (r.insert x) := by
  cases h with
  | intro before a after =>
    have hinsert : insertAt (before ++ a :: after) before.length x =
        .ok (before ++ x :: a :: after, before.length) := by
      rw [insertAt, if_pos (by simp), List.take_left, List.drop_left]
    rw [RingIterator.insert, ofPosition, hinsert]
    exact ⟨_, rfl, .intro before x (a :: after)⟩

theorem insertAfter (h : it.Designates r) (x : α) :
    ∃ it', it.insertAfter x = .ok it' ∧ it'.Designates (r.insertAfter x) := by
  cases h with
  | intro before a after =>
    have hcut : before ++ a :: after = (before ++ [a]) ++ after := by simp
    have hlen : before.length + 1 = (before ++ [a]).length := by simp
    have hinsert : insertAt (before ++ a :: after) (before.length + 1) x =
        .ok ((before ++ [a]) ++ x :: after, (before ++ [a]).length) := by
      rw [insertAt, hcut, hlen, if_pos (by simp), List.take_left, List.drop_left]
    have hne : before.length ≠ (before ++ a :: after).length := by simp
    rw [RingIterator.insertAfter, ofPosition, if_pos hne, hinsert]
    refine ⟨_, rfl, ?_⟩
    apply of_cut (before ++ [a]) x after <;> simp [ofPosition, Ring.insertAfter]

/-- Before the last position of the container. -/
theorem erase (h : it.Designates r) (hlast : it.cursor + 1 < it.data.length) :
    ∃ it' r', it.erase = .ok it' ∧ r.erase = some r' ∧ it'.Designates r' := by
  have hlt := h.cursor_lt
  cases h with
  | intro before a after =>
    cases after with
    | nil => simp [ofPosition] at hlast
    | cons b after =>
      refine ⟨_, _, if_pos hlt, rfl, ?_⟩
      apply of_cut before b after <;>
        simp [ofPosition, List.eraseIdx_append_of_length_le (Nat.le_refl _)]

/-- What an operation returns, unless it erases at the last position. -/
theorem apply (h : it.Designates r) (hr : ringApply r op = some r')
    (hlast : op = .erase → it.cursor + 1 < it.data.length) :
    ∃ it', it.apply op = .ok it' ∧ it'.Designates r' := by
  cases op with
  | increment =>
    cases hr
    exact h.increment
  | decrement =>
    cases hr
    exact h.decrement
  | postIncrement =>
    cases hr
    obtain ⟨it', hmoved, -⟩ := h.postIncrement
    exact ⟨it, by rw [RingIterator.apply, hmoved]; rfl, h⟩
  | postDecrement =>
    cases hr
    obtain ⟨it', hmoved, -⟩ := h.postDecrement
    exact ⟨it, by rw [RingIterator.apply, hmoved]; rfl, h⟩
  | plus count =>
    cases hr
    exact h.plus count
  | minus count =>
    cases hr
    exact h.minus count
  | insert x =>
    cases hr
    exact h.insert x
  | insertAfter x =>
    cases hr
    exact h.insertAfter x
  | erase =>
    obtain ⟨it', r₁, hit', hr₁, hdes⟩ := h.erase (hlast rfl)
    cases hr₁.symm.trans hr
    exact ⟨it', hit', hdes⟩

end Designates

theorem ofContainer_designates (a : α) (v : List α) : (ofContainer (a :: v)).Designates ⟨a, v⟩ := by
  have h := Designates.intro [] a v
  rwa [List.append_nil] at h

theorem ofIndex_designates {v : List α} {i k : Nat} (hi : i % v.length = k)
    (hlt : k < v.length) : (ofIndex v i).Designates ⟨v[k], v.drop (k + 1) ++ v.take k⟩ := by
  subst hi
  apply Designates.of_cut (v.take (i % v.length)) v[i % v.length] (v.drop (i % v.length + 1))
  · rw [← List.drop_eq_getElem_cons hlt, List.take_append_drop]
    rfl
  · rw [List.length_take, Nat.min_eq_left hlt.le]
    rfl
  · rfl
  · rfl
  · rfl

/-- Erasing at the last position leaves the cursor at the end, where there is no element. -/
theorem not_designates_erase (hlast : it.cursor + 1 = it.data.length)
    (herase : it.erase = .ok it') :
    ¬it'.Designates r := by
  intro h
  have hlt := h.cursor_lt
  rw [erase, if_pos (by omega)] at herase
  cases herase
  simp only [ofPosition, List.length_eraseIdx] at hlt
  split at hlt <;> omega

/-! ### Runs -/

/-- After every part of the run, the iterator designates the ring that the operations are for. -/
def Stays (it : RingIterator α) (r : Ring α) (ops : List (Op α)) : Prop :=
  ∀ part, part <+: ops →
    ∃ it' r', it.run part = .ok it' ∧ ringRun r part = some r' ∧ it'.Designates r'

/-- No element is erased at the last position of the container. -/
def ErasesInside (it : RingIterator α) (ops : List (Op α)) : Prop :=
  ∀ part, part ++ [.erase] <+: ops → ∀ it', it.run part = .ok it' →
    it'.cursor + 1 ≠ it'.data.length

theorem run_cons (hit : it.apply op = .ok it') : it.run (op :: ops) = it'.run ops := by
  rw [run, List.foldlM_cons, hit]
  rfl

theorem ringRun_cons (hr : ringApply r op = some r') :
    ringRun r (op :: ops) = ringRun r' ops := by
  rw [ringRun, List.foldlM_cons, hr]
  rfl

theorem stays_cons (h : it.Designates r) (hit : it.apply op = .ok it')
    (hr : ringApply r op = some r') : it.Stays r (op :: ops) ↔ it'.Stays r' ops := by
  constructor
  · intro hstays part hpart
    have hfirst := hstays (op :: part) ((List.prefix_cons_inj op).mpr hpart)
    rwa [run_cons hit, ringRun_cons hr] at hfirst
  · intro hstays part hpart
    cases part with
    | nil => exact ⟨it, r, rfl, rfl, h⟩
    | cons op' part =>
      obtain ⟨rfl, hrest⟩ := List.cons_prefix_cons.mp hpart
      rw [run_cons hit, ringRun_cons hr]
      exact hstays part hrest

theorem erasesInside_nil : it.ErasesInside [] :=
  fun _ hpart => absurd (List.prefix_nil.mp hpart) (by simp)

theorem erasesInside_cons (hit : it.apply op = .ok it') : it.ErasesInside (op :: ops) ↔
    (op = .erase → it.cursor + 1 ≠ it.data.length) ∧ it'.ErasesInside ops := by
  constructor
  · intro hinside
    refine ⟨?_, fun part hpart it₁ hit₁ => ?_⟩
    · rintro rfl
      exact hinside [] (List.cons_prefix_cons.mpr ⟨rfl, List.nil_prefix⟩) it rfl
    · apply hinside (op :: part) ((List.prefix_cons_inj op).mpr hpart)
      rwa [run_cons hit]
  · rintro ⟨hfirst, hrest⟩ part hpart it₁ hit₁
    cases part with
    | nil =>
      obtain ⟨rfl, -⟩ := List.cons_prefix_cons.mp hpart
      cases hit₁
      exact hfirst rfl
    | cons op' part =>
      obtain ⟨rfl, hpart'⟩ := List.cons_prefix_cons.mp hpart
      rw [run_cons hit] at hit₁
      exact hrest part hpart' it₁ hit₁

theorem stays_iff_erasesInside (h : it.Designates r) (hallowed : (ringRun r ops).isSome) :
    it.Stays r ops ↔ it.ErasesInside ops := by
  induction ops generalizing it r with
  | nil =>
    refine iff_of_true (fun part hpart => ?_) erasesInside_nil
    rw [List.prefix_nil.mp hpart]
    exact ⟨it, r, rfl, rfl, h⟩
  | cons op ops ih =>
    obtain ⟨r', hr, hallowed⟩ : ∃ r', ringApply r op = some r' ∧ (ringRun r' ops).isSome := by
      rw [ringRun, List.foldlM_cons] at hallowed
      cases hr : ringApply r op with
      | none =>
        rw [hr] at hallowed
        cases hallowed
      | some r' =>
        rw [hr] at hallowed
        exact ⟨r', rfl, hallowed⟩
    by_cases hlast : op = .erase ∧ it.cursor + 1 = it.data.length
    · obtain ⟨rfl, hlast⟩ := hlast
      have hone : [Op.erase] <+: .erase :: ops :=
        List.cons_prefix_cons.mpr ⟨rfl, List.nil_prefix⟩
      apply iff_of_false
      · intro hstays
        obtain ⟨it', r', hit', -, hdes⟩ := hstays [.erase] hone
        have herase : it.erase = .ok it' := by
          obtain ⟨it₁, hit₁, hrun⟩ := bind_eq_ok.mp hit'
          cases hrun
          exact hit₁
        exact not_designates_erase hlast herase hdes
      · intro hinside
        exact hinside [] hone it rfl hlast
    · have hinside : op = .erase → it.cursor + 1 ≠ it.data.length :=
        fun hop hcursor => hlast ⟨hop, hcursor⟩
      have hlt := h.cursor_lt
      obtain ⟨it', hit, hdes⟩ := h.apply hr fun hop => by
        have := hinside hop
        omega
      rw [stays_cons h hit hr, erasesInside_cons hit, ih hdes hallowed, and_iff_right hinside]

/-- **A run stays on the ring just if it never erases at the last position of the container.** The
operations never erase the only element. An iterator that is on the ring has its cursor in the
container, at the current element. -/
theorem run_stays_iff (h : it.Designates r) (hallowed : (ringRun r ops).isSome) :
    (it.Stays r ops ↔ it.ErasesInside ops) ∧
    ∀ (it' : RingIterator α) (r' : Ring α), it'.Designates r' →
      it'.begin ≤ it'.cursor ∧ it'.cursor < it'.end ∧ it'.deref = .ok r'.current :=
  ⟨stays_iff_erasesInside h hallowed, fun _ _ hdes => hdes.deref⟩

/-- Round the begin, past a new last element, and back to the first one, which is erased; and from
the second element, to which index 3 comes round, to the first one. -/
theorem run_stays_iff_round :
    (ofContainer [1, 2]).Stays ⟨1, [2]⟩ [.decrement, .insertAfter 3, .increment, .erase] ∧
      (ofIndex [1, 2] 3).Stays ⟨2, [1]⟩ [.increment, .erase] := by
  constructor
  · apply (run_stays_iff (ofContainer_designates 1 [2]) rfl).1.mpr
    refine (erasesInside_cons rfl).mpr ⟨nofun, ?_⟩
    refine (erasesInside_cons rfl).mpr ⟨nofun, ?_⟩
    refine (erasesInside_cons rfl).mpr ⟨nofun, ?_⟩
    exact (erasesInside_cons rfl).mpr ⟨fun _ => by decide, erasesInside_nil⟩
  · have hsecond : (ofIndex [1, 2] 3).Designates ⟨2, [1]⟩ := ofIndex_designates rfl (by decide)
    apply (run_stays_iff hsecond rfl).1.mpr
    refine (erasesInside_cons rfl).mpr ⟨nofun, ?_⟩
    exact (erasesInside_cons rfl).mpr ⟨fun _ => by decide, erasesInside_nil⟩

/-- Erasing the second of two elements leaves the iterator at the end of the container. -/
theorem run_leaves_ring : (ringRun ⟨1, [2]⟩ [.increment, .erase]).isSome ∧
    (ofContainer [1, 2]).run [.increment, .erase] = .ok (ofPosition [1] 1) ∧
    (ofPosition [1] 1).deref = .error (.outOfRange "data") ∧
    ¬(ofContainer [1, 2]).Stays ⟨1, [2]⟩ [.increment, .erase] := by
  have hend : (ofContainer [1, 2]).run [.increment, .erase] = .ok (ofPosition [1] 1) := rfl
  refine ⟨rfl, hend, rfl, ?_⟩
  intro hstays
  obtain ⟨it', r', hit', -, hdes⟩ := hstays _ List.prefix_rfl
  cases hend.symm.trans hit'
  exact absurd hdes.cursor_lt (by decide)

end MUtils.RingIterator
