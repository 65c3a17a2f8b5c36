import MUtils.String.StringUtils

/-!
# Replacing and splitting at the occurrences of a text

`string_replace` edits the text that it searches. What lies ahead of its position is always the
rest of the original text, so its result is the pieces of the original text (`Cuts`) joined with
the replacement (`replaceLoop_eq`). With an empty search text, it never gets ahead
(`replaceLoop_nil`).

`string_split_delim_string` goes on one character behind the start of a delimiter. So it returns
the pieces just for delimiters of one character, and where there is nothing to cut
(`string_split_delim_string_cuts_iff`).
-/

namespace MUtils
open Text Outcome

variable {search replace str delim : Text} {ps : List Text} {fuel previous : Nat}

/-! ### string_replace -/

/-- `done` is what has been replaced already, and `ps` are the pieces of what lies ahead. -/
theorem replaceLoop_eq {done rest : Text} (h : Cuts search rest ps) (hne : search ≠ [])
    (hfuel : rest.length < fuel) :
    replaceLoop search replace fuel (done ++ rest) done.length =
      .ok (done ++ replace.intercalate ps) := by
  induction h generalizing done fuel with
  | @whole rest hnot =>
    obtain ⟨fuel, rfl⟩ := Nat.exists_eq_succ_of_ne_zero (Nat.ne_zero_of_lt hfuel)
    simp only [replaceLoop, findSubFrom_append_none hnot, List.intercalate_singleton]
  | @cut rest u v ps hocc hps ih =>
    obtain ⟨fuel, rfl⟩ := Nat.exists_eq_succ_of_ne_zero (Nat.ne_zero_of_lt hfuel)
    have hlt := hocc.length_lt hne
    have htake : (done ++ rest).take (done.length + u.length) = done ++ u := by
      rw [hocc.cut, List.take_length_add_append, List.append_assoc, List.take_left]
    have hdrop : (done ++ rest).drop (done.length + u.length + search.length) = v := by
      rw [hocc.cut, Nat.add_assoc, List.drop_length_add_append, ← List.length_append,
        List.drop_left]
    have hpos : done.length + u.length + replace.length = (done ++ u ++ replace).length := by
      simp only [List.length_append]
    simp only [replaceLoop, findSubFrom_append hocc, htake, hdrop, hpos]
    rw [ih (by omega), List.intercalate_cons_of_ne_nil hps.ne_nil]
    simp only [List.append_assoc]

/-- An empty text is found at once, and the position is behind what was inserted. -/
theorem replaceLoop_nil {pos : Nat} (hpos : pos ≤ str.length) :
    replaceLoop [] replace fuel str pos = .error .diverged := by
  induction fuel generalizing str pos with
  | zero => rfl
  | succ fuel ih =>
    have hfind : findSubFrom [] str pos = some pos := by
      rw [findSubFrom, if_pos hpos]
      cases str.drop pos <;> simp [findSub]
    simp only [replaceLoop, hfind]
    apply ih
    simp only [List.length_append, List.length_take, List.length_drop, List.length_nil]
    omega

theorem replaceLoop_start (h : Cuts search str ps) (hne : search ≠ [])
    (hfuel : str.length < fuel) :
    replaceLoop search replace fuel str 0 = .ok (replace.intercalate ps) := by
  have hloop : replaceLoop search replace fuel ([] ++ str) 0 = _ := replaceLoop_eq h hne hfuel
  exact hloop

/-- **`string_replace` cuts the original subject** at its leftmost occurrences of the search text
that do not overlap, and puts the replacement between the pieces. -/
theorem string_replace_cuts (subject replace : Text) (hne : search ≠ []) :
    ∃ ps, Cuts search subject ps ∧ search.intercalate ps = subject ∧
      string_replace subject search replace = .ok (replace.intercalate ps) ∧
      string_replace_in_place subject search replace = .ok (replace.intercalate ps) := by
  obtain ⟨ps, hps⟩ := Cuts.exists_of_ne_nil hne subject
  have hloop : string_replace subject search replace = _ :=
    replaceLoop_start hps hne (Nat.lt_succ_self _)
  exact ⟨ps, hps, hps.intercalate, hloop, hloop⟩

/-- A search text that overlaps itself and occurs in its replacement. -/
theorem string_replace_cuts_overlap : ∃ ps, Cuts ['a', 'a'] ['a', 'a', 'a'] ps ∧
    string_replace ['a', 'a', 'a'] ['a', 'a'] ['a', 'a', 'a'] =
      .ok (List.intercalate ['a', 'a', 'a'] ps) := by
  obtain ⟨ps, hps, -, hreplace, -⟩ :=
    string_replace_cuts ['a', 'a', 'a'] ['a', 'a', 'a'] (List.cons_ne_nil 'a' ['a'])
  exact ⟨ps, hps, hreplace⟩

/-- **Both functions end unless the search text is empty.** That they do not end in the model means
that no number of searches is enough. For `string_replace_in_place`, `search` and `replace` are not
the subject itself. -/
theorem string_replace_ends_iff (subject search replace : Text) :
    ((∃ r, string_replace subject search replace = .ok r) ↔ search ≠ []) ∧
    ((∃ r, string_replace_in_place subject search replace = .ok r) ↔ search ≠ []) ∧
    ∀ fuel, subject.length < fuel →
      replaceLoop search replace fuel subject 0 = string_replace subject search replace ∧
      replaceLoop search replace fuel subject 0 =
        string_replace_in_place subject search replace := by
  have hends : (∃ r, string_replace subject search replace = .ok r) ↔ search ≠ [] := by
    constructor
    · rintro ⟨r, hr⟩ rfl
      rw [string_replace, replaceLoop_nil (Nat.zero_le _)] at hr
      cases hr
    · intro hne
      obtain ⟨ps, hps⟩ := Cuts.exists_of_ne_nil hne subject
      exact ⟨_, replaceLoop_start hps hne (Nat.lt_succ_self _)⟩
  have hfuel : ∀ fuel, subject.length < fuel →
      replaceLoop search replace fuel subject 0 = string_replace subject search replace := by
    intro fuel hlt
    by_cases hne : search = []
    · subst hne
      rw [string_replace, replaceLoop_nil (Nat.zero_le _), replaceLoop_nil (Nat.zero_le _)]
    · obtain ⟨ps, hps⟩ := Cuts.exists_of_ne_nil hne subject
      rw [string_replace, replaceLoop_start hps hne hlt,
        replaceLoop_start hps hne (Nat.lt_succ_self _)]
  exact ⟨hends, hends, fun fuel hlt => ⟨hfuel fuel hlt, hfuel fuel hlt⟩⟩

/-- Nothing in place of nothing: the position stays at 0. -/
theorem string_replace_diverges : string_replace ['a'] [] [] = .error .diverged ∧
    string_replace_in_place ['a'] [] [] = .error .diverged ∧
    ∀ fuel, replaceLoop [] [] fuel ['a'] 0 = .error .diverged :=
  ⟨replaceLoop_nil (Nat.zero_le _), replaceLoop_nil (Nat.zero_le _),
    fun _ => replaceLoop_nil (Nat.zero_le _)⟩

/-! ### string_split_delim_string -/

theorem substr_eq_ok {pos count : Nat} (h : pos ≤ str.length) :
    substr str pos count = .ok ((str.drop pos).take count) := if_pos h

theorem splitDelimFrom_none (hle : previous ≤ str.length)
    (h : findSubFrom delim str previous = none) :
    splitDelimFrom str delim previous = .ok [str.drop previous] := by
  have htake : (str.drop previous).take str.length = str.drop previous :=
    List.take_of_length_le (List.drop_suffix _ _).length_le
  rw [splitDelimFrom]
  split
  · rw [substr_eq_ok hle, htake]
    rfl
  · next hsome => cases h.symm.trans hsome

theorem splitDelimFrom_some {current : Nat} (hle : previous ≤ str.length)
    (h : findSubFrom delim str previous = some current)
    (hps : splitDelimFrom str delim (current + 1) = .ok ps) :
    splitDelimFrom str delim previous =
      .ok ((str.drop previous).take (current - previous) :: ps) := by
  rw [splitDelimFrom]
  split
  · next hnone => cases h.symm.trans hnone
  · next hsome =>
    cases h.symm.trans hsome
    rw [substr_eq_ok hle, hps]
    rfl

/-- A delimiter of one character is skipped as a whole. -/
theorem splitDelimFrom_singleton {c : Char} {done rest : Text} (h : Cuts [c] rest ps) :
    splitDelimFrom (done ++ rest) [c] done.length = .ok ps := by
  induction h generalizing done with
  | whole hnot =>
    rw [splitDelimFrom_none (by simp) (findSubFrom_append_none hnot), List.drop_left]
  | @cut rest u v ps hocc _ ih =>
    have hnext : splitDelimFrom (done ++ rest) [c] (done.length + u.length + 1) = .ok ps := by
      have := @ih (done ++ u ++ [c])
      simpa [hocc.cut, Nat.add_assoc] using this
    rw [splitDelimFrom_some (by simp) (findSubFrom_append hocc) hnext, List.drop_left,
      Nat.add_sub_cancel_left, hocc.cut, List.append_assoc, List.take_left]

/-- Every cut loses one character, whatever the length of the delimiter. -/
theorem splitDelimFrom_length (hne : delim ≠ []) (hle : previous ≤ str.length) :
    ∃ ps, splitDelimFrom str delim previous = .ok ps ∧ ps ≠ [] ∧
      (ps.map List.length).sum + ps.length = str.length - previous + 1 := by
  induction hn : str.length - previous using Nat.strong_induction_on generalizing previous with
  | _ n ih =>
    cases h : findSubFrom delim str previous with
    | none => exact ⟨_, splitDelimFrom_none hle h, List.cons_ne_nil _ _, by simp [hn]⟩
    | some current =>
      obtain ⟨hprev, hcur⟩ := findSubFrom_bounds h
      have hpos := List.length_pos_iff.2 hne
      obtain ⟨ps, hps, -, hsum⟩ :=
        ih (str.length - (current + 1)) (by omega) (by omega) rfl
      refine ⟨_, splitDelimFrom_some hle h hps, List.cons_ne_nil _ _, ?_⟩
      simp only [List.map_cons, List.sum_cons, List.length_cons, List.length_take,
        List.length_drop]
      omega

theorem length_intercalate (hne : ps ≠ []) :
    (delim.intercalate ps).length + delim.length =
      (ps.map List.length).sum + ps.length * delim.length := by
  induction ps with
  | nil => exact (hne rfl).elim
  | cons p ps ih =>
    cases ps with
    | nil => simp
    | cons q ps =>
      have := ih (List.cons_ne_nil q ps)
      rw [List.intercalate_cons_cons, List.map_cons, List.sum_cons, List.length_cons,
        Nat.succ_mul]
      simp only [List.length_append]
      omega

/-- What the function is for. -/
structure SplitsAt (delim str : Text) (pieces : List Text) : Prop where
  clean : ∀ p ∈ pieces, ¬delim <:+: p
  joined : delim.intercalate pieces = str
  leftmost : Cuts delim str pieces

theorem Text.Cuts.splitsAt (h : Cuts delim str ps) (hne : delim ≠ []) : SplitsAt delim str ps :=
  ⟨h.not_infix hne, h.intercalate, h⟩

/-- **The function returns the pieces only if there is nothing to cut or the delimiter is a single
character.** -/
theorem string_split_delim_string_cuts_iff (str : Text) (hne : delim ≠ []) :
    (∃ pieces, string_split_delim_string str delim = .ok pieces ∧ SplitsAt delim str pieces) ↔
      delim.length = 1 ∨ ¬delim <:+: str := by
  constructor
  · rintro ⟨pieces, hok, hsplits⟩
    obtain ⟨ps, hps, hnil, hsum⟩ := splitDelimFrom_length hne (Nat.zero_le str.length)
    rw [string_split_delim_string, hps] at hok
    obtain rfl : ps = pieces := Except.ok.inj hok
    have hjoin := @length_intercalate delim _ hnil
    rw [hsplits.joined] at hjoin
    -- between two pieces, one character is missing and `delim` is put in
    have hlen : (ps.length - 1) * (delim.length - 1) = 0 := by
      obtain ⟨n, hn⟩ := Nat.exists_eq_succ_of_ne_zero (List.length_pos_iff.2 hnil).ne'
      obtain ⟨m, hm⟩ := Nat.exists_eq_succ_of_ne_zero (List.length_pos_iff.2 hne).ne'
      rw [hn, hm] at hjoin ⊢
      rw [hn] at hsum
      simp only [Nat.succ_eq_add_one, Nat.add_sub_cancel, Nat.sub_zero] at hjoin hsum ⊢
      linarith
    rcases Nat.mul_eq_zero.1 hlen with h | h
    · refine .inr ?_
      obtain ⟨p, rfl⟩ : ∃ p, ps = [p] := by
        have := List.length_pos_iff.2 hnil
        exact List.length_eq_one_iff.1 (by omega)
      have hp := hsplits.joined
      rw [List.intercalate_singleton] at hp
      exact hp ▸ hsplits.clean p (List.mem_singleton_self p)
    · have := List.length_pos_iff.2 hne
      exact .inl (by omega)
  · intro h
    obtain ⟨ps, hps⟩ := Cuts.exists_of_ne_nil hne str
    refine ⟨ps, ?_, hps.splitsAt hne⟩
    rcases h with h | h
    · obtain ⟨c, rfl⟩ := List.length_eq_one_iff.1 h
      exact @splitDelimFrom_singleton _ c [] str hps
    · have hnone : findSubFrom delim ([] ++ str) 0 = none := findSubFrom_append_none h
      rw [hps.unique (.whole h)]
      exact splitDelimFrom_none (Nat.zero_le _) hnone

/-- Delimiters of one character at both ends and side by side. -/
theorem string_split_delim_string_cuts_iff_commas : ∃ pieces,
    string_split_delim_string [',', 'a', ',', ','] [','] = .ok pieces ∧
      SplitsAt [','] [',', 'a', ',', ','] pieces :=
  (string_split_delim_string_cuts_iff [',', 'a', ',', ','] (List.cons_ne_nil ',' [])).2 (.inl rfl)

/-- The second dash of the delimiter is left in the second piece. -/
theorem string_split_delim_string_rest :
    string_split_delim_string ['a', '-', '-', 'b'] ['-', '-'] = .ok [['a'], ['-', 'b']] ∧
      ¬SplitsAt ['-', '-'] ['a', '-', '-', 'b'] [['a'], ['-', 'b']] := by
  constructor
  · have hend : splitDelimFrom ['a', '-', '-', 'b'] ['-', '-'] 2 = .ok [['-', 'b']] :=
      splitDelimFrom_none (by decide) (by decide)
    have hfind : findSubFrom ['-', '-'] ['a', '-', '-', 'b'] 0 = some 1 := by decide
    exact splitDelimFrom_some (by decide) hfind hend
  · intro h
    exact absurd h.joined (by decide)

end MUtils
