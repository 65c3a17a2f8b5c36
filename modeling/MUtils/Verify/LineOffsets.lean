import MUtils.String.StringUtils

/-!
# From an index to a line and an offset

A line ends with `\r\n`, `\r` or `\n`, and the terminator belongs to the line. `TerminatorEnds`
says where lines end; the line of an index (`lineOf`) is the number of lines that end at or before
it, and starts where the last of them ends (`lineStart`).

`string_convert_index_to_line_offset` returns at the first line end that the index is not before,
so it only ever finds the first two lines. At the `\n` of the first `\r\n`, it has skipped the
index (`lineOffsetFrom_skipped`). In all other cases it is right
(`string_convert_index_to_line_offset_right`).
-/

namespace MUtils
open Text

/-! ### Lines -/

/-- A line ends before the position. -/
def TerminatorEnds (str : Text) : Nat → Prop
  | 0 => False
  | i + 1 => str[i]? = some '\n' ∨ (str[i]? = some '\r' ∧ str[i + 1]? ≠ some '\n')

instance (str : Text) : DecidablePred (TerminatorEnds str)
  | 0 => inferInstanceAs (Decidable False)
  | _ + 1 => inferInstanceAs (Decidable (_ ∨ _))

/-- The number of lines that end at or before the index. -/
def lineOf (str : Text) (index : Nat) : Nat := Nat.count (TerminatorEnds str) (index + 1)

/-- Where the line of the index starts. -/
def lineStart (str : Text) (index : Nat) : Nat := Nat.findGreatest (TerminatorEnds str) index

/-- The index is that of the second half of a `\r\n`. -/
def InsideTerminator (str : Text) : Nat → Prop
  | 0 => False
  | i + 1 => str[i]? = some '\r' ∧ str[i + 1]? = some '\n'

/-- A terminator, in front of `v`. -/
inductive Terminator (v : Text) : Text → Prop
  | crlf : Terminator v ['\r', '\n']
  | lf : Terminator v ['\n']
  | cr : v.head? ≠ some '\n' → Terminator v ['\r']

/-- No character of the text is part of a terminator. -/
def Plain (u : Text) : Prop := ∀ c ∈ u, c ≠ '\r' ∧ c ≠ '\n'

theorem plain_or_terminator (str : Text) :
    Plain str ∨ ∃ u t v, str = u ++ (t ++ v) ∧ Plain u ∧ Terminator v t := by
  have hplain : ∀ {c : Char}, (['\r', '\n'].contains c) = false → c ≠ '\r' ∧ c ≠ '\n' := by simp
  rcases exists_cut (['\r', '\n'].contains ·) str with h | ⟨u, c, v, rfl, hu, hc⟩
  · exact .inl fun c hmem => hplain (h c hmem)
  · have hu : Plain u := fun c hmem => hplain (hu c hmem)
    have hc : c = '\r' ∨ c = '\n' := by simpa using hc
    refine .inr ?_
    rcases hc with rfl | rfl
    · by_cases hv : v.head? = some '\n'
      · obtain ⟨v, rfl⟩ := List.head?_eq_some_iff.1 hv
        exact ⟨u, ['\r', '\n'], v, rfl, hu, .crlf⟩
      · exact ⟨u, ['\r'], v, rfl, hu, .cr hv⟩
    · exact ⟨u, ['\n'], v, rfl, hu, .lf⟩

theorem Terminator.length_pos {t v : Text} (ht : Terminator v t) : 0 < t.length := by
  cases ht <;> exact Nat.succ_pos _

/-- A text is empty, or starts with a character that ends no line, or with a terminator. -/
theorem terminator_induction {motive : Text → Prop} (nil : motive [])
    (cons : ∀ c str, c ≠ '\r' ∧ c ≠ '\n' → motive str → motive (c :: str))
    (terminator : ∀ t v, Terminator v t → motive v → motive (t ++ v)) (str : Text) :
    motive str := by
  induction hn : str.length using Nat.strong_induction_on generalizing str with
  | _ n ih =>
    rcases plain_or_terminator str with h | ⟨u, t, v, rfl, hu, ht⟩
    · cases str with
      | nil => exact nil
      | cons c str => exact cons c str (h c List.mem_cons_self) (ih _ (by simp [← hn]) _ rfl)
    · cases u with
      | nil =>
        have hpos := ht.length_pos
        exact terminator t v ht (ih v.length (by simp [← hn, hpos]) v rfl)
      | cons c u =>
        exact cons c _ (hu c List.mem_cons_self) (ih _ (by simp [← hn]) _ rfl)

section
variable {str u t v : Text} {e n : Nat}

/-- Within a text without line ends, no line ends. -/
theorem not_terminatorEnds_plain (hu : Plain u) (he : e ≤ u.length) :
    ¬TerminatorEnds (u ++ v) e := by
  cases e with
  | zero => exact id
  | succ i =>
    have hi : (u ++ v)[i]? = some u[i] := by
      rw [List.getElem?_append_left he, List.getElem?_eq_getElem he]
    obtain ⟨hr, hn⟩ := hu u[i] (List.getElem_mem he)
    rw [TerminatorEnds, hi]
    rintro (h | ⟨h, -⟩)
    · exact hn (Option.some.inj h)
    · exact hr (Option.some.inj h)

theorem getElem?_after (u v : Text) (i : Nat) : (u ++ v)[u.length + i]? = v[i]? := by
  rw [List.getElem?_append_right (Nat.le_add_right _ _), Nat.add_sub_cancel_left]

/-- The first line ends behind its terminator. -/
theorem terminatorEnds_first (ht : Terminator v t) :
    TerminatorEnds (u ++ (t ++ v)) (u.length + t.length) := by
  cases ht with
  | crlf => exact .inl (getElem?_after u _ 1)
  | lf => exact .inl (getElem?_after u _ 0)
  | cr hv =>
    refine .inr ⟨getElem?_after u _ 0, ?_⟩
    have hnext : (u ++ (['\r'] ++ v))[u.length + 0 + 1]? = v[0]? := getElem?_after u _ 1
    rw [hnext, ← List.head?_eq_getElem?]
    exact hv

theorem not_terminatorEnds_first (hu : Plain u) (ht : Terminator v t)
    (he : e < u.length + t.length) : ¬TerminatorEnds (u ++ (t ++ v)) e := by
  rcases Nat.lt_or_ge u.length e with hlt | hle
  · cases ht with
    | crlf =>
      -- between `\r` and `\n`
      obtain rfl : e = u.length + 1 := by
        simp only [List.length_cons, List.length_nil] at he
        omega
      have hr : (u ++ (['\r', '\n'] ++ v))[u.length]? = some '\r' := getElem?_after u _ 0
      have hn : (u ++ (['\r', '\n'] ++ v))[u.length + 1]? = some '\n' := getElem?_after u _ 1
      rintro (h | ⟨-, h⟩)
      · cases hr.symm.trans h
      · exact h hn
    | lf | cr =>
      simp only [List.length_cons, List.length_nil] at he
      omega
  · exact not_terminatorEnds_plain hu hle

theorem lineOf_eq_zero (h : ∀ e ≤ n, ¬TerminatorEnds str e) : lineOf str n = 0 := by
  rw [lineOf, Nat.count_iff_forall_not]
  intro e he
  exact h e (Nat.le_of_lt_succ he)

theorem lineStart_eq_zero (h : ∀ e ≤ n, ¬TerminatorEnds str e) : lineStart str n = 0 :=
  Nat.findGreatest_eq_zero_iff.2 fun _ _ hle => h _ hle

/-- In the first line. -/
theorem lineOf_first (hu : Plain u) (ht : Terminator v t) (hn : n < u.length + t.length) :
    lineOf (u ++ (t ++ v)) n = 0 ∧ lineStart (u ++ (t ++ v)) n = 0 := by
  have hnone : ∀ e ≤ n, ¬TerminatorEnds (u ++ (t ++ v)) e :=
    fun e he => not_terminatorEnds_first hu ht (Nat.lt_of_le_of_lt he hn)
  exact ⟨lineOf_eq_zero hnone, lineStart_eq_zero hnone⟩

/-- If only one line has ended, it is the first. -/
theorem lineStart_second (ht : Terminator v t) (hn : u.length + t.length ≤ n)
    (hone : lineOf (u ++ (t ++ v)) n = 1) :
    lineStart (u ++ (t ++ v)) n = u.length + t.length := by
  rw [lineOf, Nat.count_eq_card_filter_range, Finset.card_eq_one] at hone
  obtain ⟨e, he⟩ := hone
  have honly : ∀ k ≤ n, TerminatorEnds (u ++ (t ++ v)) k → k = e := by
    intro k hk hends
    have hmem : k ∈ ({e} : Finset Nat) := by
      rw [← he, Finset.mem_filter, Finset.mem_range]
      exact ⟨Nat.lt_succ_of_le hk, hends⟩
    exact Finset.mem_singleton.1 hmem
  have hfirst := @terminatorEnds_first u t v ht
  have hstart := Nat.findGreatest_spec hn hfirst
  rw [lineStart, honly _ (Nat.findGreatest_le n) hstart, honly _ hn hfirst]

end

/-! ### The loop -/

section
variable {index line first currentIndex : UInt32} {c : Char} {str u t v : Text} {pos : Nat}

theorem lineOffsetFrom_found (h : first ≤ index ∧ index ≤ currentIndex) :
    lineOffsetFrom index line first currentIndex (c :: str) = (line, index - first) := by
  rw [lineOffsetFrom.eq_def]
  exact if_pos h

theorem lineOffsetFrom_plain (hc : c ≠ '\r' ∧ c ≠ '\n')
    (h : ¬(first ≤ index ∧ index ≤ currentIndex)) :
    lineOffsetFrom index line first currentIndex (c :: str) =
      lineOffsetFrom index line first (currentIndex + 1) str := by
  rw [lineOffsetFrom.eq_def]
  exact (if_neg h).trans (if_neg (not_or.2 hc))

theorem lineOffsetFrom_terminator (ht : Terminator v t)
    (h : ¬(first ≤ index ∧ index ≤ currentIndex)) :
    lineOffsetFrom index line first currentIndex (t ++ v) =
      if currentIndex + .ofNat t.length ≤ index then
        (line + 1, index - (currentIndex + .ofNat t.length))
      else lineOffsetFrom index (line + 1) (currentIndex + .ofNat t.length)
        (currentIndex + .ofNat t.length) v := by
  cases ht with
  | crlf =>
    have hadd : currentIndex + 1 + 1 = currentIndex + .ofNat 2 := UInt32.add_assoc ..
    rw [lineOffsetFrom.eq_def]
    refine (if_neg h).trans ((if_pos (.inl rfl)).trans ?_)
    simp only [hadd]
    rfl
  | lf =>
    rw [lineOffsetFrom.eq_def]
    exact (if_neg h).trans (if_pos (.inr rfl))
  | cr hv =>
    rw [lineOffsetFrom.eq_def]
    refine (if_neg h).trans ((if_pos (.inl rfl)).trans ?_)
    cases v with
    | nil => rfl
    | cons d v =>
      split
      · next heq =>
        cases heq
        exact (hv rfl).elim
      · rfl

theorem ofNat_le_iff (h : pos < 2 ^ 32) : UInt32.ofNat pos ≤ index ↔ pos ≤ index.toNat := by
  rw [UInt32.le_iff_toNat_le, UInt32.toNat_ofNat_of_lt' h]

theorem le_ofNat_iff (h : pos < 2 ^ 32) : index ≤ UInt32.ofNat pos ↔ index.toNat ≤ pos := by
  rw [UInt32.le_iff_toNat_le, UInt32.toNat_ofNat_of_lt' h]

theorem lt_ofNat_iff (h : pos < 2 ^ 32) : index < UInt32.ofNat pos ↔ index.toNat < pos := by
  rw [UInt32.lt_iff_toNat_lt, UInt32.toNat_ofNat_of_lt' h]

/-- Before the index, the loop runs over text without line ends. -/
theorem lineOffsetFrom_append (hu : Plain u) (hle : pos + u.length ≤ index.toNat) :
    lineOffsetFrom index line first (.ofNat pos) (u ++ v) =
      lineOffsetFrom index line first (.ofNat (pos + u.length)) v := by
  have hlt := index.toNat_lt
  induction u generalizing pos with
  | nil => rfl
  | cons c u ih =>
    rw [List.length_cons] at hle
    have hbefore : ¬(first ≤ index ∧ index ≤ UInt32.ofNat pos) := by
      rw [le_ofNat_iff (by omega)]
      omega
    rw [List.cons_append, lineOffsetFrom_plain (hu c List.mem_cons_self) hbefore,
      ← UInt32.ofNat_one, ← UInt32.ofNat_add,
      ih (fun x hx => hu x (List.mem_cons_of_mem _ hx)) (by omega), List.length_cons,
      Nat.add_assoc, Nat.add_comm 1]

/-- Once the loop is past the index, it goes on to the end and never finds line 0, which the index
is in. -/
theorem lineOffsetFrom_skipped {l : Nat} (hfirst : index < first) (hpos : index.toNat < pos)
    (hl : 0 < l) (hle : l ≤ pos) (hlen : pos + str.length < 2 ^ 32) :
    (lineOffsetFrom index (.ofNat l) first (.ofNat pos) str).1 ≠ 0 := by
  have hne : ∀ {l : Nat}, 0 < l → l < 2 ^ 32 → UInt32.ofNat l ≠ 0 := by
    intro l hl hlt h
    have := congrArg UInt32.toNat h
    rw [UInt32.toNat_ofNat_of_lt' hlt, UInt32.toNat_zero] at this
    omega
  have hpast : ∀ {first cur : UInt32}, index < first → ¬(first ≤ index ∧ index ≤ cur) :=
    fun hlt h => absurd h.1 (UInt32.not_le.2 hlt)
  induction str using terminator_induction generalizing l first pos with
  | nil => exact hne hl (by omega)
  | cons c str hc ih =>
    rw [List.length_cons] at hlen
    rw [lineOffsetFrom_plain hc (hpast hfirst), ← UInt32.ofNat_one, ← UInt32.ofNat_add]
    exact ih hfirst (by omega) hl (by omega) (by omega)
  | terminator t v ht ih =>
    have htpos := ht.length_pos
    rw [List.length_append] at hlen
    have hnext : index < UInt32.ofNat (pos + t.length) :=
      (lt_ofNat_iff (by omega)).2 (by omega)
    rw [lineOffsetFrom_terminator ht (hpast hfirst), ← UInt32.ofNat_add,
      if_neg (UInt32.not_le.2 hnext), ← UInt32.ofNat_one, ← UInt32.ofNat_add]
    exact ih hnext (by omega) (by omega) (by omega) (by omega)

/-! ### The function -/

theorem convert_append (hu : Plain u) (hle : u.length ≤ index.toNat) :
    string_convert_index_to_line_offset (u ++ v) index =
      lineOffsetFrom index 0 0 (.ofNat u.length) v := by
  have hrun : lineOffsetFrom index 0 0 (.ofNat 0) (u ++ v) = _ :=
    lineOffsetFrom_append hu (by omega)
  rw [Nat.zero_add] at hrun
  exact hrun

/-- In the first line, up to the first character of its terminator. -/
theorem convert_first (hu : Plain u) (hle : index.toNat ≤ u.length)
    (hlt : index.toNat < (u ++ v).length) :
    string_convert_index_to_line_offset (u ++ v) index = (0, index) := by
  have hcut : u ++ v = u.take index.toNat ++ (u ++ v).drop index.toNat := by
    rw [← List.take_append_of_le_length hle, List.take_append_drop]
  have hplain : Plain (u.take index.toNat) := fun c hc => hu c (List.mem_of_mem_take hc)
  have hlen : (u.take index.toNat).length = index.toNat := by
    rw [List.length_take, Nat.min_eq_left hle]
  rw [hcut, convert_append hplain hlen.le, hlen, UInt32.ofNat_toNat,
    List.drop_eq_getElem_cons hlt, lineOffsetFrom_found ⟨UInt32.zero_le, UInt32.le_refl _⟩,
    UInt32.sub_zero]

/-- At the first terminator. -/
theorem convert_terminator (hu : Plain u) (ht : Terminator v t) (hlt : u.length < index.toNat) :
    string_convert_index_to_line_offset (u ++ (t ++ v)) index =
      if UInt32.ofNat (u.length + t.length) ≤ index then
        (1, index - .ofNat (u.length + t.length))
      else lineOffsetFrom index 1 (.ofNat (u.length + t.length))
        (.ofNat (u.length + t.length)) v := by
  have hindex := index.toNat_lt
  have hbefore : ¬((0 : UInt32) ≤ index ∧ index ≤ .ofNat u.length) := by
    rw [le_ofNat_iff (by omega)]
    omega
  rw [convert_append hu hlt.le, lineOffsetFrom_terminator ht hbefore, ← UInt32.ofNat_add]
  rfl

/-- Behind the terminator of the first line. -/
theorem convert_behind (hu : Plain u) (ht : Terminator v t)
    (hle : u.length + t.length ≤ index.toNat) :
    string_convert_index_to_line_offset (u ++ (t ++ v)) index =
      (1, index - .ofNat (u.length + t.length)) := by
  have hindex := index.toNat_lt
  have hpos := ht.length_pos
  rw [convert_terminator hu ht (by omega), if_pos ((ofNat_le_iff (by omega)).2 hle)]

/-- At the `\n` of the terminator of the first line. -/
theorem convert_inside (hu : Plain u) (ht : Terminator v t) (hlt : u.length < index.toNat)
    (hinside : index.toNat < u.length + t.length) (hlen : (u ++ (t ++ v)).length < 2 ^ 32) :
    (string_convert_index_to_line_offset (u ++ (t ++ v)) index).1 ≠ 0 := by
  rw [List.length_append, List.length_append] at hlen
  have hnext : index < UInt32.ofNat (u.length + t.length) :=
    (lt_ofNat_iff (by omega)).2 hinside
  rw [convert_terminator hu ht hlt, if_neg (UInt32.not_le.2 hnext)]
  exact lineOffsetFrom_skipped (l := 1) hnext hinside Nat.one_pos (by omega) (by omega)

end

/-- The result is the line of the index and the offset in it. -/
def FindsLine (str : Text) (index : UInt32) : Prop :=
  (string_convert_index_to_line_offset str index).1.toNat = lineOf str index.toNat ∧
    (string_convert_index_to_line_offset str index).2.toNat =
      index.toNat - lineStart str index.toNat

/-- The indices that the function finds. -/
def Findable (str : Text) (index : Nat) : Prop :=
  (lineOf str index = 0 ∧ ¬InsideTerminator str index) ∨ lineOf str index = 1

section
variable {index : UInt32} {str u t v : Text}

theorem not_insideTerminator {n : Nat} (hu : Plain u) (hle : n ≤ u.length) :
    ¬InsideTerminator (u ++ v) n := by
  cases n with
  | zero => exact id
  | succ i =>
    rintro ⟨hr, -⟩
    rw [List.getElem?_append_left hle, List.getElem?_eq_getElem hle] at hr
    exact (hu u[i] (List.getElem_mem hle)).1 (Option.some.inj hr)

theorem findsLine_first (hu : Plain u) (hle : index.toNat ≤ u.length)
    (hlt : index.toNat < (u ++ v).length) :
    FindsLine (u ++ v) index ∧ Findable (u ++ v) index.toNat := by
  have hnone : ∀ e ≤ index.toNat, ¬TerminatorEnds (u ++ v) e :=
    fun e he => not_terminatorEnds_plain hu (he.trans hle)
  have hline := lineOf_eq_zero hnone
  refine ⟨?_, .inl ⟨hline, not_insideTerminator hu hle⟩⟩
  rw [FindsLine, convert_first hu hle hlt, hline, lineStart_eq_zero hnone]
  exact ⟨UInt32.toNat_zero, rfl⟩

theorem not_findable_inside (hu : Plain u) (ht : Terminator v t) (hlt : u.length < index.toNat)
    (hinside : index.toNat < u.length + t.length) : ¬Findable (u ++ (t ++ v)) index.toNat := by
  obtain ⟨hline, -⟩ := lineOf_first hu ht hinside
  cases ht with
  | crlf =>
    have hindex : index.toNat = u.length + 1 := by
      simp only [List.length_cons, List.length_nil] at hinside
      omega
    rw [Findable, hline, hindex]
    rintro (⟨-, h⟩ | h)
    · exact h ⟨getElem?_after u _ 0, getElem?_after u _ 1⟩
    · cases h
  | lf | cr =>
    simp only [List.length_cons, List.length_nil] at hinside
    omega

/-- Behind the first line, the function takes the index to be in the second. -/
theorem findsLine_behind (hu : Plain u) (ht : Terminator v t)
    (hle : u.length + t.length ≤ index.toNat) :
    FindsLine (u ++ (t ++ v)) index ↔ Findable (u ++ (t ++ v)) index.toNat := by
  have hindex := index.toNat_lt
  have hended : lineOf (u ++ (t ++ v)) index.toNat ≠ 0 := by
    rw [lineOf, Ne, Nat.count_iff_forall_not]
    intro hnone
    exact hnone _ (Nat.lt_succ_of_le hle) (terminatorEnds_first ht)
  rw [FindsLine, Findable, convert_behind hu ht hle]
  constructor
  · rintro ⟨h, -⟩
    exact .inr h.symm
  · rintro (⟨h, -⟩ | h)
    · exact (hended h).elim
    · refine ⟨h.symm, ?_⟩
      rw [lineStart_second ht hle h]
      change (index - UInt32.ofNat (u.length + t.length)).toNat = _
      rw [UInt32.toNat_sub_of_le _ _ ((ofNat_le_iff (by omega)).2 hle),
        UInt32.toNat_ofNat_of_lt' (show u.length + t.length < 2 ^ 32 by omega)]

end

/-- **The function is right in the first two lines**, apart from the `\n` of a `\r\n` that ends the
first one; and, in texts whose length is a `uint32_t`, nowhere else. -/
theorem string_convert_index_to_line_offset_right {str : Text} {index : UInt32}
    (hindex : index.toNat < str.length) :
    (Findable str index.toNat → FindsLine str index) ∧
      (str.length < 2 ^ 32 → FindsLine str index → Findable str index.toNat) := by
  rcases plain_or_terminator str with hplain | ⟨u, t, v, rfl, hu, ht⟩
  · have hfirst := @findsLine_first index str [] hplain hindex.le (by simpa using hindex)
    rw [List.append_nil] at hfirst
    exact ⟨fun _ => hfirst.1, fun _ _ => hfirst.2⟩
  · rcases Nat.lt_or_ge u.length index.toNat with hlt | hle
    · rcases Nat.lt_or_ge index.toNat (u.length + t.length) with hinside | hbehind
      · have hnot := not_findable_inside hu ht hlt hinside
        refine ⟨fun h => (hnot h).elim, fun hlen h => ?_⟩
        have hzero := h.1
        rw [(lineOf_first hu ht hinside).1, ← UInt32.toNat_zero] at hzero
        exact (convert_inside hu ht hlt hinside hlen (UInt32.toNat.inj hzero)).elim
      · have hiff := findsLine_behind hu ht hbehind
        exact ⟨hiff.2, fun _ => hiff.1⟩
    · have hfirst := findsLine_first hu hle hindex
      exact ⟨fun _ => hfirst.1, fun _ _ => hfirst.2⟩

/-- The `c` of `ab`, `cd`. -/
theorem string_convert_index_to_line_offset_right_second :
    FindsLine ['a', 'b', '\r', '\n', 'c', 'd'] 4 :=
  (string_convert_index_to_line_offset_right (by decide)).1 (.inr (by decide))

/-- The `c` of `a`, `b`, `c` is taken for the third character of the second line, and the `\n` of
`a\r\n` is taken to be in front of the second line. -/
theorem string_convert_index_to_line_offset_wrong :
    (string_convert_index_to_line_offset ['a', '\n', 'b', '\n', 'c'] 4 = (1, 2) ∧
      ¬FindsLine ['a', '\n', 'b', '\n', 'c'] 4) ∧
    string_convert_index_to_line_offset ['a', '\r', '\n'] 2 = (1, 2 ^ 32 - 1) ∧
      ¬FindsLine ['a', '\r', '\n'] 2 := by
  refine ⟨⟨by decide, fun h => ?_⟩, by decide, fun h => ?_⟩
  · exact absurd h.1 (by decide)
  · exact absurd h.1 (by decide)

end MUtils
