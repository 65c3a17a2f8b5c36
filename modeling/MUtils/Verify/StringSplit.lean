import MUtils.String.StringUtils

/-!
# The tokenizers return the runs between delimiters

All loops go from run to run in the same way: the first delimiter ends a run
(`runsAt_findFirstOf`), and the first character after it that is no delimiter starts the next
(`runsAt_findFirstNotOf`). `string_split` collects the runs, the two `string_split_each` call back
with their positions until the callback has had enough (`CallsFor`).
-/

namespace MUtils
open Text

variable {delims text : Text} {start i : Nat} {c : Char} {w : Text}

/-! ### From run to run -/

/-- `start` is where a token starts. -/
def Starts (delims text : Text) (start : Nat) : Prop :=
  ∃ c w, text.drop start = c :: w ∧ c ∉ delims

theorem runsAt_findFirstOf_none (hs : Starts delims text start)
    (h : findFirstOf delims text start = none) :
    runsAt (delims.contains ·) start (text.drop start) = [(start, text.drop start)] := by
  obtain ⟨c, w, hs, -⟩ := hs
  have hruns : runsAt (delims.contains ·) start (text.drop start ++ []) = _ :=
    runsAt_append (findFrom_none.1 h) (by simp [hs]) (by simp)
  rwa [List.append_nil, runsAt_nil] at hruns

theorem runsAt_findFirstOf (hs : Starts delims text start)
    (h : findFirstOf delims text start = some i) :
    runsAt (delims.contains ·) start (text.drop start) =
      (start, (text.drop start).take (i - start)) ::
        runsAt (delims.contains ·) i (text.drop i) ∧
      ∃ d v, text.drop i = d :: v ∧ d ∈ delims := by
  obtain ⟨c, w, hs, hc⟩ := hs
  obtain ⟨u, d, v, hcut, rfl, hu, hd⟩ := findFrom_some h
  have hne : u ≠ [] := by
    rintro rfl
    rw [hs] at hcut
    obtain ⟨rfl, -⟩ := List.cons.inj hcut
    simp_all
  have hrest : text.drop (start + u.length) = d :: v := by
    rw [← List.drop_drop, hcut, List.drop_left]
  refine ⟨?_, d, v, hrest, by simpa using hd⟩
  rw [hrest, hcut, Nat.add_sub_cancel_left, List.take_left]
  exact runsAt_append hu hne (by simpa using hd)

theorem runsAt_findFirstNotOf_none (h : findFirstNotOf delims text i = none) :
    runsAt (delims.contains ·) i (text.drop i) = [] := by
  rw [findFirstNotOf, findFrom_none] at h
  rw [← List.append_nil (text.drop i), runsAt_append_left (by simpa using h), runsAt_nil]

theorem runsAt_findFirstNotOf (h : findFirstNotOf delims text i = some start) :
    runsAt (delims.contains ·) i (text.drop i) =
      runsAt (delims.contains ·) start (text.drop start) ∧ Starts delims text start := by
  obtain ⟨u, c, v, hcut, rfl, hu, hc⟩ := findFrom_some h
  have hdrop : text.drop (i + u.length) = c :: v := by
    rw [← List.drop_drop, hcut, List.drop_left]
  refine ⟨?_, c, v, hdrop, by simpa using hc⟩
  rw [hdrop, hcut, runsAt_append_left (by simpa using hu)]

/-! ### string_split -/

theorem splitFrom_eq (hs : Starts delims text start) :
    splitFrom delims text start =
      (runsAt (delims.contains ·) start (text.drop start)).map Prod.snd := by
  induction hn : text.length - start using Nat.strong_induction_on generalizing start with
  | _ n ih =>
    rw [splitFrom]
    split
    · next hfind => rw [runsAt_findFirstOf_none hs hfind]; rfl
    · next «end» hfind =>
      rw [(runsAt_findFirstOf hs hfind).1, List.map_cons]
      congr 1
      split
      · next hnext => rw [runsAt_findFirstNotOf_none hnext]; rfl
      · next next hnext =>
        obtain ⟨hruns, hstarts⟩ := runsAt_findFirstNotOf hnext
        rw [hruns, ih _ (hn ▸ findFirstNotOf_after hfind hnext) hstarts rfl]

theorem string_split_eq :
    string_split text delims = (runsAt (delims.contains ·) 0 text).map Prod.snd := by
  have hzero : text.drop 0 = text := List.drop_zero
  rw [string_split]
  split
  · next hfind => rw [← hzero, runsAt_findFirstNotOf_none hfind]; rfl
  · next start hfind =>
    obtain ⟨hruns, hstarts⟩ := runsAt_findFirstNotOf hfind
    rw [hzero] at hruns
    rw [splitFrom_eq hstarts, hruns]

/-- The tokens of `string_split` are the maximal runs without a delimiter, in order. -/
theorem string_split_eq_runs : string_split text delims = runs (delims.contains ·) text := by
  rw [string_split_eq, runsAt_map_snd]

/-! ### string_split_each -/

/-- `calls` are the calls that are made to report `tokens`: in order, until the callback returns
false. -/
structure CallsFor (fn : List β → Bool) (tokens calls : List β) : Prop where
  inOrder : calls <+: tokens
  wentOn : ∀ done, done <+: calls → done ≠ [] → done ≠ calls → fn done = true
  stopped : calls = tokens ∨ fn calls = false

/-- Reports the tokens that are left after the calls `done`. -/
def report (fn : List β → Bool) (done : List β) : List β → List β
  | [] => done
  | t :: ts => if fn (done ++ [t]) then report fn (done ++ [t]) ts else done ++ [t]

@[simp] theorem report_singleton {fn : List β → Bool} {done : List β} {t : β} :
    report fn done [t] = done ++ [t] := by
  simp [report]

theorem callsFor_report {fn : List β → Bool} {done ts : List β}
    (hdone : ∀ d, d <+: done → d ≠ [] → fn d = true) :
    CallsFor fn (done ++ ts) (report fn done ts) := by
  induction ts generalizing done with
  | nil =>
    rw [List.append_nil, report]
    exact ⟨List.prefix_rfl, fun d hd hne _ => hdone d hd hne, .inl rfl⟩
  | cons t ts ih =>
    have hcut : done ++ t :: ts = (done ++ [t]) ++ ts := by simp
    rw [report, hcut]
    split
    · next hfn =>
      refine ih fun d hd hne => ?_
      rcases List.prefix_concat_iff.1 hd with rfl | hd
      · exact hfn
      · exact hdone d hd hne
    · next hfn =>
      refine ⟨List.prefix_append _ _, fun d hd hne hne' => ?_, .inr (by simpa using hfn)⟩
      exact hdone d ((List.prefix_concat_iff.1 hd).resolve_left hne') hne

/-- The start and the length of a run. -/
def startLength (r : Nat × Text) : Nat × Nat := (r.1, r.2.length)

/-- The start and the end of a run. -/
def startEnd (r : Nat × Text) : Nat × Nat := (r.1, r.1 + r.2.length)

theorem splitEachFrom_eq {fn : List (Nat × Nat) → Bool} {done : List (Nat × Nat)}
    (hs : Starts delims text start) :
    splitEachFrom fn delims text done start =
      report fn done ((runsAt (delims.contains ·) start (text.drop start)).map startLength) := by
  induction hn : text.length - start using Nat.strong_induction_on generalizing start done with
  | _ n ih =>
    rw [splitEachFrom]
    split
    · next hfind =>
      simp only [runsAt_findFirstOf_none hs hfind, List.map_cons, List.map_nil, startLength,
        List.length_drop, report_singleton]
    · next «end» hfind =>
      obtain ⟨hruns, d, v, hd, -⟩ := runsAt_findFirstOf hs hfind
      have hlen : ((text.drop start).take («end» - start)).length = «end» - start := by
        have := congrArg List.length hd
        simp only [List.length_drop, List.length_cons] at this
        rw [List.length_take, List.length_drop]
        omega
      rw [hruns, List.map_cons, startLength, hlen, report]
      by_cases hfn : fn (done ++ [(start, «end» - start)])
      · simp only [hfn, if_true]
        split
        · next hnext => rw [runsAt_findFirstNotOf_none hnext]; rfl
        · next next hnext =>
          obtain ⟨hruns, hstarts⟩ := runsAt_findFirstNotOf hnext
          rw [hruns, ih _ (hn ▸ findFirstNotOf_after hfind hnext) hstarts rfl]
      · simp only [hfn, Bool.false_eq_true, if_false]

theorem string_split_each_eq {fn : List (Nat × Nat) → Bool} :
    string_split_each text delims fn =
      report fn [] ((runsAt (delims.contains ·) 0 text).map startLength) := by
  have hzero : text.drop 0 = text := List.drop_zero
  rw [string_split_each]
  split
  · next hfind => rw [← hzero, runsAt_findFirstNotOf_none hfind]; rfl
  · next start hfind =>
    obtain ⟨hruns, hstarts⟩ := runsAt_findFirstNotOf hfind
    rw [hzero] at hruns
    rw [splitEachFrom_eq hstarts, hruns]

/-! ### string_split_each on a buffer -/

section
variable {endIndex : Nat}

theorem scan_eq_findFrom {p : Char → Bool} (hend : endIndex ≤ text.length) :
    scan p text (endIndex - i) i = findFrom p (text.take endIndex) i := by
  induction hn : endIndex - i generalizing i with
  | zero =>
    have : (text.take endIndex).drop i = [] := by
      rw [List.drop_eq_nil_iff, List.length_take]
      omega
    simp [scan, findFrom, this]
  | succ n ih =>
    have hi : i < (text.take endIndex).length := by
      rw [List.length_take]
      omega
    have hdrop := List.drop_eq_getElem_cons hi
    rw [List.getElem_take] at hdrop
    rw [scan, List.getElem?_eq_getElem (by omega), Option.any_some]
    split
    · next hp => rw [findFrom_append (u := []) hdrop (by simp) hp]; rfl
    · next hp => rw [ih (by omega), findFrom_succ hdrop (by simpa using hp)]

theorem written_drop {reply : EachReply} (h : i < start) :
    (reply.written text i).drop start = text.drop start := by
  unfold EachReply.written
  split
  · exact List.drop_set_of_lt h
  · rfl

@[simp] theorem written_length {reply : EachReply} :
    (reply.written text i).length = text.length := by
  unfold EachReply.written
  split
  · exact List.length_set
  · rfl

/-- Whether or not the callback has overwritten the delimiter, the search for the next token goes
on behind it. -/
theorem string_first_not_of_written {reply : EachReply} {d : Char} {v : Text}
    (hnul : '\x00' ∉ delims) (hend : endIndex ≤ text.length)
    (hi : (text.take endIndex).drop i = d :: v) (hd : d ∈ delims) :
    string_first_not_of (reply.written text i) (skipNul (reply.written text i) i endIndex) endIndex
      delims = findFirstNotOf delims (text.take endIndex) i := by
  have hlt : i < endIndex := by
    have := congrArg List.length hi
    simp only [List.length_drop, List.length_take, List.length_cons] at this
    omega
  rw [string_first_not_of, scan_eq_findFrom (by simpa using hend)]
  by_cases hr : reply.terminate
  · rw [skipNul_written hr (by omega) hlt, findFirstNotOf,
      ← findFrom_succ hi (by simpa using hd)]
    apply findFrom_congr
    rw [List.drop_take, List.drop_take, written_drop (Nat.lt_succ_self i)]
  · have hget : text[i]? = some d := by
      have := congrArg List.head? hi
      rwa [List.head?_drop, List.getElem?_take_of_lt hlt] at this
    have hne : ¬(text[i]? = some '\x00' ∧ i < endIndex) := by
      rintro ⟨h, -⟩
      cases hget.symm.trans h
      exact hnul hd
    rw [EachReply.written, if_neg hr, skipNul, if_neg hne, findFirstNotOf]

theorem splitEachCharsFrom_eq {fn : List (Nat × Nat) → EachReply} {done : List (Nat × Nat)}
    (hnul : '\x00' ∉ delims) (hend : endIndex ≤ text.length)
    (hs : Starts delims (text.take endIndex) start) :
    splitEachCharsFrom fn delims endIndex text done start =
      report (fun calls => (fn calls).more) done
        ((runsAt (delims.contains ·) start ((text.take endIndex).drop start)).map startEnd) := by
  induction hn : endIndex - start using Nat.strong_induction_on generalizing start done text with
  | _ n ih =>
    have hlt : start < endIndex := by
      obtain ⟨c, w, hs, -⟩ := hs
      have := congrArg List.length hs
      simp only [List.length_drop, List.length_take, List.length_cons] at this
      omega
    rw [splitEachCharsFrom]
    split
    · next hfind =>
      rw [string_first_of, scan_eq_findFrom hend] at hfind
      have hlen : start + ((text.take endIndex).drop start).length = endIndex := by
        rw [List.length_drop, List.length_take]
        omega
      simp only [runsAt_findFirstOf_none hs hfind, List.map_cons, List.map_nil, startEnd, hlen,
        report_singleton]
    · next «end» hfind =>
      have hfind' := hfind
      rw [string_first_of, scan_eq_findFrom hend] at hfind'
      obtain ⟨hruns, d, v, hi, hd⟩ := runsAt_findFirstOf hs hfind'
      obtain ⟨hle, hlt', -⟩ := scan_some hfind
      have hlen : start + (((text.take endIndex).drop start).take («end» - start)).length =
          «end» := by
        rw [List.length_take, List.length_drop, List.length_take]
        omega
      rw [hruns, List.map_cons, startEnd, hlen, report]
      by_cases hfn : (fn (done ++ [(start, «end»)])).more
      · simp only [hfn, if_true]
        split
        · next hnext =>
          rw [string_first_not_of_written hnul hend hi hd] at hnext
          rw [runsAt_findFirstNotOf_none hnext]; rfl
        · next next hnext =>
          have hafter := string_first_not_of_after hfind hnext
          rw [string_first_not_of_written hnul hend hi hd] at hnext
          -- what lies ahead of the next token is as it was
          have hahead : (((fn (done ++ [(start, «end»)])).written text «end»).take endIndex).drop
              next = (text.take endIndex).drop next := by
            have hlt := lt_of_findFrom hi (by simpa using hd) hnext
            rw [List.drop_take, List.drop_take, written_drop hlt]
          obtain ⟨hruns', c, w, hc, hcd⟩ := runsAt_findFirstNotOf hnext
          rw [hruns', ← hahead]
          exact ih _ (hn ▸ hafter) (by simpa using hend) ⟨c, w, hahead.trans hc, hcd⟩ rfl
      · simp only [hfn, Bool.false_eq_true, if_false]

theorem string_split_each_chars_eq {fn : List (Nat × Nat) → EachReply} (hnul : '\x00' ∉ delims)
    (hend : endIndex ≤ text.length) :
    string_split_each_chars text start endIndex delims fn =
      report (fun calls => (fn calls).more) []
        ((runsAt (delims.contains ·) start ((text.take endIndex).drop start)).map startEnd) := by
  rw [string_split_each_chars]
  split
  · next hfind =>
    rw [string_first_not_of, scan_eq_findFrom hend] at hfind
    rw [runsAt_findFirstNotOf_none hfind]; rfl
  · next start' hfind =>
    rw [string_first_not_of, scan_eq_findFrom hend] at hfind
    obtain ⟨hruns, hstarts⟩ := runsAt_findFirstNotOf hfind
    rw [splitEachCharsFrom_eq hnul hend hstarts, hruns]

end

/-- The three tokenizers go through the same runs. -/
theorem tokenizers_agree (hnul : '\x00' ∉ delims) :
    (∃ rs, RunsOf (delims.contains ·) 0 text rs ∧ string_split text delims = rs.map Prod.snd ∧
      ∀ fn, CallsFor fn (rs.map startLength) (string_split_each text delims fn)) ∧
    ∀ s e, e ≤ text.length → ∃ rs, RunsOf (delims.contains ·) s (text.extract s e) rs ∧
      ∀ fn, CallsFor (fun calls => (fn calls).more) (rs.map startEnd)
        (string_split_each_chars text s e delims fn) := by
  have hnone : ∀ {fn : List (Nat × Nat) → Bool} d, d <+: [] → d ≠ [] → fn d = true :=
    fun d hd hne => (hne (List.prefix_nil.1 hd)).elim
  refine ⟨⟨_, runsOf_runsAt _ 0 text, string_split_eq, fun fn => ?_⟩, fun s e he => ?_⟩
  · rw [string_split_each_eq]
    exact callsFor_report hnone
  · refine ⟨_, runsOf_runsAt _ s _, fun fn => ?_⟩
    rw [string_split_each_chars_eq hnul he, List.drop_take]
    exact callsFor_report hnone

theorem tokenizers_agree_words :
    ∃ rs, RunsOf ([' ', ','].contains ·) 0 "to, be".toList rs ∧
      string_split "to, be".toList [' ', ','] = rs.map Prod.snd := by
  obtain ⟨⟨rs, hrs, hsplit, -⟩, -⟩ := @tokenizers_agree [' ', ','] "to, be".toList (by decide)
  exact ⟨rs, hrs, hsplit⟩

end MUtils
