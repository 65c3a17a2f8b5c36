import MUtils.Shader.GLShader

/-!
# Which fragment a line is in

The loop of `gl_compile_shader` looks for the first fragment up to whose end there are more newlines
than the line of the message. For a line whose end is in the same fragment as the rest of it, that
is the right one. A line without an end, or with its end in a later fragment, is not found there.
-/

namespace MUtils

/-- Line `line` of the joined sources lies in `source`, after `n` newlines of it: all its characters
are there, and if it has none then the newline that ends it. -/
structure LineIn (earlier : List Text) (source : Text) (later : List Text) (line n : Nat) :
    Prop where
  cut : ∃ before chars after, source = before ++ chars ++ after ∧ '\n' ∉ chars ∧
    (∀ c ∈ (earlier.flatten ++ before).getLast?, c = '\n') ∧
    (∀ c ∈ (after ++ later.flatten).head?, c = '\n') ∧
    (chars ≠ [] ∨ after.head? = some '\n') ∧
    line = (earlier.flatten ++ before).count '\n' ∧ n = before.count '\n'

variable {earlier later sources : List Text} {source : Text} {line n s : Nat} {m : CompileMessage}
  {fragment : UInt32} {path infoLog : Text}

/-- The newlines of sources one behind the other. -/
def newlines (sources : List Text) : Nat := sources.flatten.count '\n'

@[simp] theorem newlines_nil : newlines [] = 0 := rfl

@[simp] theorem newlines_cons :
    newlines (source :: sources) = source.count '\n' + newlines sources := by
  simp [newlines]

@[simp] theorem newlines_append :
    newlines (earlier ++ later) = newlines earlier + newlines later := by
  simp [newlines]

/-! ### The loop -/

/-- The test of the loop, after `s` newlines in the fragments before. -/
theorem fixUpLine_test (hm : m.line = line) (hline : line < 2 ^ 31) :
    m.line % 2 ^ 32 < ((source.count '\n' % 2 ^ 32 + s % 2 ^ 32) % 2 ^ 32 : Nat) ↔
      line < (s + source.count '\n') % 2 ^ 32 := by
  rw [hm]
  omega

section
variable (hm : m.line = line) (hline : line < 2 ^ 31)
include hm hline

theorem fixUpLine_hit (h : line < (s + source.count '\n') % 2 ^ 32) :
    fixUpLine m (s % 2 ^ 32) fragment (newlineCounts (source :: later)) =
      { m with
        line := (m.line - (s % 2 ^ 32 : Nat)).bmod (2 ^ 32)
        fragmentIndex := fragment } := by
  rw [newlineCounts, List.map_cons, fixUpLine, if_pos ((fixUpLine_test hm hline).2 h)]

theorem fixUpLine_pass (h : (s + source.count '\n') % 2 ^ 32 ≤ line) :
    fixUpLine m (s % 2 ^ 32) fragment (newlineCounts (source :: later)) =
      fixUpLine m ((s + source.count '\n') % 2 ^ 32) (fragment + 1) (newlineCounts later) := by
  rw [newlineCounts, List.map_cons, fixUpLine,
    if_neg fun hlt => Nat.not_lt.2 h ((fixUpLine_test hm hline).1 hlt), ← Nat.add_mod]
  rfl

/-- Fragments up to whose end there are not enough newlines are passed. -/
theorem fixUpLine_skip (h : s + newlines earlier ≤ line) :
    fixUpLine m (s % 2 ^ 32) fragment (newlineCounts (earlier ++ later)) =
      fixUpLine m ((s + newlines earlier) % 2 ^ 32) (fragment + UInt32.ofNat earlier.length)
        (newlineCounts later) := by
  induction earlier generalizing s fragment with
  | nil => simp
  | cons source earlier ih =>
    rw [newlines_cons, ← Nat.add_assoc] at h
    rw [List.cons_append, fixUpLine_pass hm hline (by omega), ih h, newlines_cons, Nat.add_assoc,
      List.length_cons, UInt32.add_assoc, Nat.add_comm earlier.length, UInt32.ofNat_add]
    rfl

/-- A line that is passed everywhere stays as it is. -/
theorem fixUpLine_none
    (h : ∀ k < sources.length, (s + newlines (sources.take (k + 1))) % 2 ^ 32 ≤ line) :
    fixUpLine m (s % 2 ^ 32) fragment (newlineCounts sources) = m := by
  induction sources generalizing s fragment with
  | nil => rfl
  | cons source sources ih =>
    rw [fixUpLine_pass hm hline (by simpa using h 0 (by simp))]
    refine ih fun k hk => ?_
    have := h (k + 1) (by simpa using hk)
    rwa [List.take_succ_cons, newlines_cons, ← Nat.add_assoc] at this

/-- A line that is not passed everywhere is put in a fragment of the list. -/
theorem fixUpLine_some
    (h : ∃ k < sources.length, line < (s + newlines (sources.take (k + 1))) % 2 ^ 32) :
    ∃ k < sources.length,
      (fixUpLine m (s % 2 ^ 32) fragment (newlineCounts sources)).fragmentIndex =
        fragment + UInt32.ofNat k := by
  induction sources generalizing s fragment with
  | nil =>
    obtain ⟨k, hk, -⟩ := h
    cases hk
  | cons source sources ih =>
    by_cases hhit : line < (s + source.count '\n') % 2 ^ 32
    · exact ⟨0, by simp, by rw [fixUpLine_hit hm hline hhit]; simp⟩
    · rw [fixUpLine_pass hm hline (Nat.not_lt.1 hhit)]
      obtain ⟨k, hk, hlt⟩ := h
      cases k with
      | zero => exact (hhit (by simpa using hlt)).elim
      | succ k =>
        rw [List.take_succ_cons, newlines_cons, ← Nat.add_assoc] at hlt
        obtain ⟨j, hj, hindex⟩ := ih ⟨k, by simpa using hk, hlt⟩
        refine ⟨j + 1, by simpa using hj, ?_⟩
        rw [hindex, UInt32.add_assoc, Nat.add_comm j, UInt32.ofNat_add]
        rfl

/-- Past a fragment, a message ends up there only if nothing is done to it. -/
theorem fixUpLine_behind_iff (hfits : fragment.toNat + sources.length < 2 ^ 32) :
    let m' := fixUpLine m (s % 2 ^ 32) (fragment + 1) (newlineCounts sources)
    (m'.fragmentIndex.toNat = fragment.toNat ∧ m'.line = n) ↔
      (∀ k < sources.length, (s + newlines (sources.take (k + 1))) % 2 ^ 32 ≤ line) ∧
        line = n ∧ m.fragmentIndex.toNat = fragment.toNat := by
  intro m'
  by_cases hnone : ∀ k < sources.length, (s + newlines (sources.take (k + 1))) % 2 ^ 32 ≤ line
  · have hm' : m' = m := fixUpLine_none hm hline hnone
    rw [hm', hm, and_iff_right hnone, and_comm, Nat.cast_inj]
  · refine iff_of_false (fun h => ?_) (fun h => hnone h.1)
    simp only [not_forall, Nat.not_le, exists_prop] at hnone
    obtain ⟨k, hk, hfound⟩ := fixUpLine_some hm hline hnone
    have hindex : m'.fragmentIndex.toNat = fragment.toNat + 1 + k := by
      rw [hfound, UInt32.toNat_add, UInt32.toNat_add, UInt32.toNat_one,
        UInt32.toNat_ofNat_of_lt' (show k < 2 ^ 32 by omega)]
      omega
    omega

end

/-! ### The fragment of a line -/

/-- It is a line of the source that is compiled. -/
theorem LineIn.shader_eq {package : ShaderPackage} (h : LineIn earlier source later line n)
    (hsources : package.fragments.map (·.source) = earlier ++ source :: later) :
    ∃ before chars after, package.shader = before ++ chars ++ after ∧ '\n' ∉ chars ∧
      (∀ c ∈ before.getLast?, c = '\n') ∧ (∀ c ∈ after.head?, c = '\n') ∧
      line = before.count '\n' := by
  obtain ⟨before, chars, after, rfl, hchars, hbefore, hafter, -, hline, -⟩ := h.cut
  exact ⟨_, chars, _, by simp [ShaderPackage.shader, hsources], hchars, hbefore, hafter, hline⟩

theorem LineIn.line_eq (h : LineIn earlier source later line n) : line = newlines earlier + n := by
  obtain ⟨before, chars, after, -, -, -, -, -, hline, hn⟩ := h.cut
  rw [hline, hn, List.count_append, newlines]

theorem fixUpMessage_skip (hm : m.line = line) (hline : line < 2 ^ 31)
    (h : newlines earlier ≤ line) :
    fixUpMessage path (newlineCounts (earlier ++ later)) m =
      fixUpLine { m with filePath := path } (newlines earlier % 2 ^ 32)
        (UInt32.ofNat earlier.length) (newlineCounts later) := by
  have hskip : fixUpLine { m with filePath := path } (0 % 2 ^ 32) 0
      (newlineCounts (earlier ++ later)) = _ :=
    fixUpLine_skip hm hline (by rwa [Nat.zero_add])
  rwa [Nat.zero_add, UInt32.zero_add] at hskip

/-- What `gl_compile_shader` does to the messages of the parser. -/
theorem gl_compile_shader_messages (package : ShaderPackage) (h : infoLog ≠ []) :
    (gl_compile_shader package infoLog).messages =
      (compile_parse_shader_errors { fileSource := package.path, messages := [] }
        infoLog).messages.map
          (fixUpMessage package.path (newlineCounts (package.fragments.map (·.source)))) := by
  have hsource (pResult : CompileResult) :
      (compile_parse_shader_errors pResult infoLog).fileSource = pResult.fileSource := by
    rw [compile_parse_shader_errors]
    dsimp only
    split <;> rfl
  rw [gl_compile_shader, if_neg (by simpa using h)]
  dsimp only
  rw [hsource]

/-- A line that is in one fragment is found there if there is a newline behind it, and otherwise
only if no later fragment takes it and the message is right as it is. -/
theorem fixUpMessage_found_iff (package : ShaderPackage)
    (hsources : package.fragments.map (·.source) = earlier ++ source :: later)
    (hin : LineIn earlier source later line n) (hm : m.line = line) (hline : line < 2 ^ 31) :
    let m' := fixUpMessage package.path (newlineCounts (package.fragments.map (·.source))) m
    m'.fragmentIndex.toNat = earlier.length ∧ m'.line = n ↔
      line < newlines (earlier ++ [source]) % 2 ^ 32 ∨
        (∀ k ≤ later.length, newlines (earlier ++ source :: later.take k) % 2 ^ 32 ≤ line) ∧
          newlines earlier = 0 ∧ m.fragmentIndex.toNat = earlier.length := by
  intro m'
  have hn := hin.line_eq
  have hfits : earlier.length + (later.length + 1) ≤ 2 ^ 32 := by
    have := package.fits
    rwa [← List.length_map (f := (·.source)), hsources, List.length_append,
      List.length_cons] at this
  have hindex : (UInt32.ofNat earlier.length).toNat = earlier.length :=
    UInt32.toNat_ofNat_of_lt' (show earlier.length < 2 ^ 32 by omega)
  have hm' : m' = fixUpLine { m with filePath := package.path } (newlines earlier % 2 ^ 32)
      (UInt32.ofNat earlier.length) (newlineCounts (source :: later)) := by
    simp only [m', hsources]
    exact fixUpMessage_skip hm hline (by omega)
  have hend : newlines (earlier ++ [source]) = newlines earlier + source.count '\n' := by simp
  generalize UInt32.ofNat earlier.length = fragment at hindex hm'
  rw [hend, hm', ← hindex]
  by_cases hhit : line < (newlines earlier + source.count '\n') % 2 ^ 32
  · rw [fixUpLine_hit (by exact hm) hline hhit]
    refine iff_of_true ⟨rfl, ?_⟩ (.inl hhit)
    dsimp only
    rw [hm, Nat.mod_eq_of_lt (by omega), hn, Nat.cast_add, add_sub_cancel_left]
    exact Int.bmod_eq_of_le (by omega) (by omega)
  · rw [or_iff_right hhit, fixUpLine_pass (by exact hm) hline (Nat.not_lt.1 hhit)]
    refine (fixUpLine_behind_iff (by exact hm) hline (by omega)).trans ?_
    have hfirst : line = n ↔ newlines earlier = 0 := by omega
    refine and_congr ?_ (and_congr_left' hfirst)
    simp only [newlines_append, newlines_cons, ← Nat.add_assoc]
    refine ⟨fun h k hk => ?_, fun h k hk => h (k + 1) hk⟩
    cases k with
    | zero => simpa using hhit
    | succ k => exact h k hk

/-- `gl_compile_shader` looks up the line of each message that the parser finds. A line of the
source that lies in one fragment is found there if there is a newline behind it in that fragment.
Otherwise it is left to a later fragment, and only if there is none either and the line is in the
first fragment with newlines, the message keeps a line and a fragment that may be right. -/
theorem fixUpMessage_line_iff (package : ShaderPackage)
    (hsources : package.fragments.map (·.source) = earlier ++ source :: later)
    (hin : LineIn earlier source later line n) (hm : m.line = line) (hline : line < 2 ^ 31) :
    let m' := fixUpMessage package.path (newlineCounts (package.fragments.map (·.source))) m
    (∀ infoLog ≠ [], (gl_compile_shader package infoLog).messages =
      (compile_parse_shader_errors { fileSource := package.path, messages := [] }
        infoLog).messages.map
          (fixUpMessage package.path (newlineCounts (package.fragments.map (·.source))))) ∧
    (∃ before chars after, package.shader = before ++ chars ++ after ∧ '\n' ∉ chars ∧
      (∀ c ∈ before.getLast?, c = '\n') ∧ (∀ c ∈ after.head?, c = '\n') ∧
      line = before.count '\n') ∧
    (m'.fragmentIndex.toNat = earlier.length ∧ m'.line = n ↔
      line < newlines (earlier ++ [source]) % 2 ^ 32 ∨
        (∀ k ≤ later.length, newlines (earlier ++ source :: later.take k) % 2 ^ 32 ≤ line) ∧
          newlines earlier = 0 ∧ m.fragmentIndex.toNat = earlier.length) := by
  exact ⟨fun infoLog => gl_compile_shader_messages package, hin.shader_eq hsources,
    fixUpMessage_found_iff package hsources hin hm hline⟩

/-- The second line of `"a\n"` and `"b\n"` is the first one of the second fragment. -/
theorem fixUpMessage_line_iff_second :
    let package : ShaderPackage := ⟨[⟨[], ['a', '\n']⟩, ⟨[], ['b', '\n']⟩], [], by decide⟩
    let m : CompileMessage := { line := 1 }
    let m' := fixUpMessage package.path (newlineCounts (package.fragments.map (·.source))) m
    m'.fragmentIndex.toNat = 1 ∧ m'.line = 0 :=
  have hin : LineIn [['a', '\n']] ['b', '\n'] [] 1 0 := ⟨[], ['b'], ['\n'], by simp⟩
  (fixUpMessage_line_iff ⟨[⟨[], ['a', '\n']⟩, ⟨[], ['b', '\n']⟩], [], by decide⟩ rfl hin
    (m := { line := 1 }) rfl (by decide)).2.2.2 (.inl (by decide))

/-- Without the newline at the end of the second fragment the message stays where it was. -/
theorem fixUpMessage_line_lost :
    let package : ShaderPackage := ⟨[⟨[], ['a', '\n']⟩, ⟨[], ['b']⟩], [], by decide⟩
    let m : CompileMessage := { line := 1 }
    let m' := fixUpMessage package.path (newlineCounts (package.fragments.map (·.source))) m
    LineIn [['a', '\n']] ['b'] [] 1 0 ∧ m'.fragmentIndex.toNat = 0 ∧ m'.line = 1 :=
  ⟨⟨[], ['b'], [], by simp⟩, by decide, by decide⟩

end MUtils
