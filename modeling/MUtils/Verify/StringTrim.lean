import MUtils.File.TomlUtils

/-!
# What trimming leaves

`string_left_trim` and `string_right_trim` drop the characters of a set from the one and from the
other end of a text. Neither gets past a character that is not in the set, so the two ends of a text
are trimmed independently (`string_trim_append`). A set that is given as a C string cannot have a
NUL, so `toml_sanitize` trims nothing (`toml_sanitize_trims_iff`).
-/

namespace MUtils
open Text

variable {s u v t : Text} {c : Char}

theorem string_left_trim_eq (s t : Text) : string_left_trim s t = s.dropWhile (t.contains ·) := by
  rw [string_left_trim]
  split
  · next hnone =>
    have hall : ∀ x ∈ s, t.contains x = true := by simpa using findFrom_none.1 hnone
    exact (List.dropWhile_eq_nil_iff.2 hall).symm
  · next i hsome =>
    obtain ⟨u, c, v, hs, rfl, hu, hc⟩ := findFrom_some hsome
    have hu : ∀ x ∈ u, t.contains x = true := by simpa using hu
    rw [List.drop_zero] at hs
    rw [hs, Nat.zero_add, List.drop_left, List.dropWhile_append_of_pos hu,
      List.dropWhile_cons_of_neg (by simpa using hc)]

/-- The one end of a text is the other end of its reverse. -/
theorem string_right_trim_eq (s t : Text) :
    string_right_trim s t = (string_left_trim s.reverse t).reverse := by
  rw [string_right_trim, string_left_trim, findLastNotOf, findLast, findFirstNotOf, findFrom,
    List.drop_zero]
  cases h : s.reverse.findIdx? (!t.contains ·) with
  | none => rfl
  | some i =>
    have hlt : i < s.length := by
      simpa using (List.findIdx?_eq_some_iff_getElem.1 h).1
    simp only [Option.map_some, Nat.add_zero, List.drop_reverse, List.reverse_reverse]
    congr 1
    omega

/-- Characters of the set at the front do not count. -/
theorem string_left_trim_append_of_forall (hu : ∀ x ∈ u, x ∈ t) :
    string_left_trim (u ++ v) t = string_left_trim v t := by
  have hu : ∀ x ∈ u, t.contains x = true := by simpa using hu
  rw [string_left_trim_eq, string_left_trim_eq, List.dropWhile_append_of_pos hu]

theorem string_left_trim_eq_nil : string_left_trim s t = [] ↔ ∀ x ∈ s, x ∈ t := by
  rw [string_left_trim_eq, List.dropWhile_eq_nil_iff]
  simp

/-- Trimming on the left stops at a character that is not in the set. -/
theorem string_left_trim_append (hu : ∃ x ∈ u, x ∉ t) :
    string_left_trim (u ++ v) t = string_left_trim u t ++ v := by
  have hne : string_left_trim u t ≠ [] := by
    obtain ⟨x, hx, hxt⟩ := hu
    exact fun h => hxt (string_left_trim_eq_nil.1 h x hx)
  rw [string_left_trim_eq] at hne
  rw [string_left_trim_eq, string_left_trim_eq, List.dropWhile_append, if_neg]
  simpa using hne

theorem string_left_trim_cons (hc : c ∉ t) : string_left_trim (c :: s) t = c :: s := by
  rw [string_left_trim_eq, List.dropWhile_cons_of_neg (by simpa using hc)]

theorem string_left_trim_eq_self : string_left_trim s t = s ↔ ∀ c ∈ s.head?, c ∉ t := by
  cases s with
  | nil => simp [string_left_trim_eq]
  | cons c s =>
    simp only [List.head?_cons, Option.mem_some_iff, forall_eq']
    constructor
    · intro h hc
      have hlen := congrArg List.length h
      rw [string_left_trim_eq, List.dropWhile_cons_of_pos (by simpa using hc)] at hlen
      have := (List.dropWhile_sublist (t.contains ·) (l := s)).length_le
      rw [List.length_cons] at hlen
      omega
    · exact string_left_trim_cons

theorem string_right_trim_append (hv : ∃ x ∈ v, x ∉ t) :
    string_right_trim (u ++ v) t = u ++ string_right_trim v t := by
  have hv : ∃ x ∈ v.reverse, x ∉ t := by simpa using hv
  rw [string_right_trim_eq, string_right_trim_eq, List.reverse_append,
    string_left_trim_append hv, List.reverse_append, List.reverse_reverse]

theorem string_right_trim_append_of_forall (hv : ∀ x ∈ v, x ∈ t) :
    string_right_trim (u ++ v) t = string_right_trim u t := by
  have hv : ∀ x ∈ v.reverse, x ∈ t := by simpa using hv
  rw [string_right_trim_eq, string_right_trim_eq, List.reverse_append,
    string_left_trim_append_of_forall hv]

theorem string_right_trim_eq_nil : string_right_trim s t = [] ↔ ∀ x ∈ s, x ∈ t := by
  rw [string_right_trim_eq, List.reverse_eq_nil_iff, string_left_trim_eq_nil]
  simp

theorem string_right_trim_eq_self : string_right_trim s t = s ↔ ∀ c ∈ s.getLast?, c ∉ t := by
  rw [string_right_trim_eq, List.reverse_eq_iff, string_left_trim_eq_self, List.head?_reverse]

/-! ### Both ends -/

theorem string_trim_append (hu : ∃ x ∈ u, x ∉ t) (hv : ∃ x ∈ v, x ∉ t) :
    string_trim (u ++ v) t = string_left_trim u t ++ string_right_trim v t := by
  rw [string_trim, string_right_trim_append hv, string_left_trim_append hu]

theorem string_trim_append_of_forall (hu : ∀ x ∈ u, x ∈ t) :
    string_trim (u ++ v) t = string_trim v t := by
  rw [string_trim, string_trim]
  by_cases hv : ∃ x ∈ v, x ∉ t
  · rw [string_right_trim_append hv, string_left_trim_append_of_forall hu]
  · have hv : ∀ x ∈ v, x ∈ t := by simpa using hv
    rw [string_right_trim_append_of_forall hv, string_right_trim_eq_nil.2 hu,
      string_right_trim_eq_nil.2 hv]

theorem string_right_trim_isPrefix (s t : Text) : string_right_trim s t <+: s := by
  rw [string_right_trim_eq, string_left_trim_eq, ← List.reverse_suffix, List.reverse_reverse]
  exact List.dropWhile_suffix _

theorem string_left_trim_isSuffix (s t : Text) : string_left_trim s t <:+ s := by
  rw [string_left_trim_eq]
  exact List.dropWhile_suffix _

theorem string_trim_isInfix (s t : Text) : string_trim s t <:+: s :=
  (string_left_trim_isSuffix _ t).isInfix.trans (string_right_trim_isPrefix s t).isInfix

/-- A text is left alone if neither end is in the set. -/
theorem string_trim_eq_self :
    string_trim s t = s ↔ (∀ c ∈ s.head?, c ∉ t) ∧ ∀ c ∈ s.getLast?, c ∉ t := by
  constructor
  · intro h
    -- a text that loses something at one end does not get it back at the other
    have hright : string_right_trim s t = s := by
      refine (string_right_trim_isPrefix s t).eq_of_length_le ?_
      have hlen := (string_left_trim_isSuffix (string_right_trim s t) t).length_le
      rwa [← string_trim, h] at hlen
    rw [string_trim, hright] at h
    exact ⟨string_left_trim_eq_self.1 h, string_right_trim_eq_self.1 hright⟩
  · rintro ⟨hfirst, hlast⟩
    rw [string_trim, string_right_trim_eq_self.2 hlast, string_left_trim_eq_self.2 hfirst]

/-! ### toml_sanitize -/

theorem string_right_trim_nil (s : Text) : string_right_trim s [] = s :=
  string_right_trim_eq_self.2 fun _ _ => List.not_mem_nil

theorem toml_sanitize_eq (text : Text) : toml_sanitize text = text ++ ['\n'] := by
  have hset : cString ['\x00'] = [] := rfl
  rw [toml_sanitize, hset, string_right_trim_nil]

/-- **Trailing NULs are removed** just if there are none, and no other NULs are either. -/
theorem toml_sanitize_trims_iff (text : Text) :
    (toml_sanitize text = text.rdropWhile (· == '\x00') ++ ['\n'] ↔
        text.getLast? ≠ some '\x00') ∧
      ('\x00' ∉ toml_sanitize text ↔ '\x00' ∉ text) := by
  rw [toml_sanitize_eq]
  constructor
  · rw [List.append_cancel_right_eq, eq_comm, List.rdropWhile_eq_self_iff]
    constructor
    · intro h hlast
      have hne : text ≠ [] := by
        rintro rfl
        cases hlast
      rw [List.getLast?_eq_some_getLast hne, Option.some_inj] at hlast
      exact h hne (beq_iff_eq.2 hlast)
    · intro h hne hlast
      rw [List.getLast?_eq_some_getLast hne, beq_iff_eq.1 hlast] at h
      exact h rfl
  · rw [List.mem_append, not_or, and_iff_left (by decide)]

/-- A letter and a NUL. -/
theorem toml_sanitize_keeps_nul :
    toml_sanitize ['a', '\x00'] = ['a', '\x00', '\n'] ∧
      toml_sanitize ['a', '\x00'] ≠ ['a', '\x00'].rdropWhile (· == '\x00') ++ ['\n'] := by
  have heq : toml_sanitize ['a', '\x00'] = ['a', '\x00', '\n'] := toml_sanitize_eq _
  refine ⟨heq, ?_⟩
  rw [heq]
  decide

end MUtils
