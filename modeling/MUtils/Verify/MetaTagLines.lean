import MUtils.Compile.MetaTags
import MUtils.Verify.StringSplit

/-!
# The line numbers of the tags

`parse_meta_tags` counts the tokens of `string_split_lines`, and an empty line is not a token. What
it keeps for a tag is the value on the last line that carries the tag, and the number of lines
before that one that are not empty.
-/

namespace MUtils
open Text

variable {text line tag value : Text} {v : TagValue}

/-! ### Physical lines -/

/-- The lines of a text, each ended by `\n`, `\r` or `\r\n`; after the last end there is one more,
perhaps empty. -/
def physicalLines : Text → List Text
  | [] => [[]]
  | '\r' :: '\n' :: s => [] :: physicalLines s
  | c :: s =>
    if c = '\n' ∨ c = '\r' then [] :: physicalLines s else (physicalLines s).modifyHead (c :: ·)

/-- Cutting at every end, of which `\r\n` has two, gives the same first line and, apart from empty
ones, the same other lines. -/
theorem physicalLines_splitOnP (text : Text) : ∃ l ls ls',
    physicalLines text = l :: ls ∧ text.splitOnP (['\r', '\n'].contains ·) = l :: ls' ∧
      ls.filter (!·.isEmpty) = ls'.filter (!·.isEmpty) := by
  fun_induction physicalLines text with
  | case1 => exact ⟨[], [], [], rfl, rfl, rfl⟩
  | case2 s ih =>
    obtain ⟨l, ls, ls', hp, hs, hf⟩ := ih
    refine ⟨[], physicalLines s, [] :: l :: ls', rfl, ?_, ?_⟩
    · rw [List.splitOnP_cons_eq_if_modifyHead, if_pos (by simp),
        List.splitOnP_cons_eq_if_modifyHead, if_pos (by simp), hs]
    · simp [hp, hf, List.filter_cons]
  | case3 c s _ hc ih =>
    obtain ⟨l, ls, ls', hp, hs, hf⟩ := ih
    refine ⟨[], physicalLines s, l :: ls', rfl, ?_, ?_⟩
    · rw [List.splitOnP_cons_eq_if_modifyHead, if_pos (by simpa [or_comm] using hc), hs]
    · simp [hp, hf, List.filter_cons]
  | case4 c s _ hc ih =>
    obtain ⟨l, ls, ls', hp, hs, hf⟩ := ih
    refine ⟨c :: l, ls, ls', by rw [hp]; rfl, ?_, hf⟩
    rw [List.splitOnP_cons_eq_if_modifyHead, if_neg (by simpa [and_comm] using hc), hs]
    rfl

/-- The tokens of `string_split_lines` are the lines that are not empty. -/
theorem string_split_lines_eq :
    string_split_lines text = (physicalLines text).filter (!·.isEmpty) := by
  obtain ⟨l, ls, ls', hp, hs, hf⟩ := physicalLines_splitOnP text
  rw [string_split_lines, string_split_eq_runs, runs, hs, hp, List.filter_cons, List.filter_cons,
    hf]

/-! ### Lines that carry a tag -/

/-- The words are a tag and at most one value. -/
def TagWords (tokens : List Text) (tag value : Text) : Prop :=
  tokens = [tag] ∧ value = [] ∨ tokens = [tag, value]

theorem tokensTag_eq_some {tokens : List Text} :
    tokensTag tokens = some (tag, value) ↔ TagWords tokens tag value ∧ tag.head? = some '#' := by
  unfold tokensTag TagWords
  constructor
  · intro h
    split at h
    · cases h
    · split at h
      · next hhash =>
        split at h
        · cases h
          exact ⟨.inl ⟨rfl, rfl⟩, hhash⟩
        · cases h
          exact ⟨.inr rfl, hhash⟩
        · cases h
      · cases h
  · rintro ⟨⟨rfl, rfl⟩ | rfl, hhash⟩
    · simp only [hhash, if_true]
    · simp only [hhash, if_true]

/-- The line has a comment that consists of the tag and at most one value. -/
def Carries (line tag value : Text) : Prop :=
  ∃ before comment, OccursFirst ['/', '/'] line before comment ∧
    TagWords ((runs ([' ', '\t', ','].contains ·) comment).map string_tolower) tag value

theorem lineTag_eq_some :
    lineTag line = some (tag, value) ↔ Carries line tag value ∧ tag.head? = some '#' := by
  have hcomment : ∀ {before comment}, OccursFirst ['/', '/'] line before comment →
      line.drop (before.length + 2) = comment := by
    intro before comment h
    rw [h.cut]
    exact List.drop_left' (by simp)
  unfold lineTag
  constructor
  · intro h
    split at h
    · cases h
    · next pos hpos =>
      obtain ⟨before, comment, hfirst, rfl⟩ := findSub_eq_some.1 hpos
      rw [hcomment hfirst, string_split_eq_runs, tokensTag_eq_some] at h
      exact ⟨⟨before, comment, hfirst, h.1⟩, h.2⟩
  · rintro ⟨⟨before, comment, hfirst, htokens⟩, hhash⟩
    rw [findSub_eq_some.2 ⟨before, comment, hfirst, rfl⟩]
    simp only [hcomment hfirst, string_split_eq_runs]
    exact tokensTag_eq_some.2 ⟨htokens, hhash⟩

theorem Carries.ne_nil (h : Carries line tag value) : line ≠ [] := by
  obtain ⟨before, comment, hfirst, -⟩ := h
  rw [hfirst.cut]
  simp

/-! ### The loop over the lines -/

/-- An `int32_t` that has counted to `n`. -/
@[irreducible] def lineCount (n : Nat) : Int := (n : Int).bmod (2 ^ 32)

theorem nextLine_lineCount (n : Nat) : nextLine (lineCount n) = lineCount (n + 1) := by
  unfold nextLine lineCount
  rw [Int.bmod_add_bmod, Nat.cast_add, Nat.cast_one]

/-- The counter says where a line is as long as it has not wrapped. -/
theorem lineCount_eq {k n : Nat} (h : k ≤ n) : lineCount k = n ↔ k = n ∧ n < 2 ^ 31 := by
  unfold lineCount
  have hlt : (k : Int).bmod (2 ^ 32) < 2 ^ 31 := Int.bmod_lt (by decide)
  constructor
  · intro heq
    have hn : (n : Int) < 2 ^ 31 := heq ▸ hlt
    rw [Int.bmod_eq_of_le (by omega) (by omega)] at heq
    exact ⟨by omega, by omega⟩
  · rintro ⟨rfl, hn⟩
    exact Int.bmod_eq_of_le (by omega) (by omega)

section
variable {lines : List Text}

/-- The state of the loop after `lines`. -/
def tagsOf (lines : List Text) : MetaTags × Int := lines.foldl parseTags (fun _ => none, 0)

theorem tagsOf_concat :
    tagsOf (lines ++ [line]) = parseTags (tagsOf lines) line := by
  rw [tagsOf, List.foldl_append]
  rfl

theorem tagsOf_line : (tagsOf lines).2 = lineCount lines.length := by
  induction lines using List.reverseRecOn with
  | nil => unfold lineCount; rfl
  | append_singleton lines line ih =>
    rw [tagsOf_concat, parseTags, ih, nextLine_lineCount, List.length_append, List.length_singleton]

/-- What is kept for a tag comes from the last line that has it. -/
theorem tagsOf_eq_some (h : (tagsOf lines).1 tag = some v) :
    ∃ before line after, lines = before ++ line :: after ∧ lineTag line = some (tag, v.value) ∧
      v.line = lineCount before.length ∧
      ∀ l ∈ after, ∀ value, lineTag l ≠ some (tag, value) := by
  induction lines using List.reverseRecOn with
  | nil => cases h
  | append_singleton lines line ih =>
    rw [tagsOf_concat, parseTags, tagsOf_line] at h
    -- the new line is after all others: either it has the tag, or they decide
    by_cases hline : ∃ value, lineTag line = some (tag, value)
    · obtain ⟨value, hline⟩ := hline
      simp only [hline, Function.update_self, Option.some.injEq] at h
      subst h
      exact ⟨lines, line, [], rfl, hline, rfl, by simp⟩
    · have h' : (tagsOf lines).1 tag = some v := by
        cases htag : lineTag line with
        | none => simpa only [htag] using h
        | some found =>
          have hne : tag ≠ found.1 := by
            rintro rfl
            exact hline ⟨found.2, htag⟩
          simpa only [htag, Function.update_of_ne hne] using h
      obtain ⟨before, found, after, rfl, hfound, hcount, hafter⟩ := ih h'
      refine ⟨before, found, after ++ [line], by simp, hfound, hcount, fun l hl value hl' => ?_⟩
      rcases List.mem_append.1 hl with hl | hl
      · exact hafter l hl value hl'
      · obtain rfl := List.mem_singleton.1 hl
        exact hline ⟨value, hl'⟩

end

/-! ### Line numbers -/

/-- Physical line `p` is the last one that carries the tag. -/
def LastCarrying (text tag : Text) (p : Nat) (value : Text) : Prop :=
  ∃ before line after, physicalLines text = before ++ line :: after ∧ before.length = p ∧
    Carries line tag value ∧ ∀ l ∈ after, ∀ value', ¬Carries l tag value'

theorem LastCarrying.le {p p' : Nat} {value' : Text} (h : LastCarrying text tag p value)
    (h' : LastCarrying text tag p' value') : p' ≤ p := by
  obtain ⟨before, line, after, hcut, rfl, -, hafter⟩ := h
  obtain ⟨before', line', after', hcut', rfl, hcarries, -⟩ := h'
  by_contra hlt
  refine hafter line' ?_ value' hcarries
  -- a later line would stand after the last one
  rw [hcut] at hcut'
  rcases List.append_eq_append_iff.1 hcut' with ⟨x, rfl, hx⟩ | ⟨x, rfl, hx⟩
  · cases x with
    | nil => simp at hlt
    | cons y x =>
      obtain ⟨rfl, rfl⟩ := List.cons.inj hx
      simp
  · simp at hlt

/-- The value is the one of the last line that carries the tag; the number counts the lines before
that are not empty. -/
theorem parse_meta_tags_eq_some (h : parse_meta_tags text tag = some v) :
    ∃ p, LastCarrying text tag p v.value ∧
      v.line = lineCount (((physicalLines text).take p).filter (!·.isEmpty)).length := by
  have hlines : (tagsOf (string_split_lines text)).1 tag = some v := h
  obtain ⟨before', line, after', hcut, hline, hcount, hafter⟩ := tagsOf_eq_some hlines
  obtain ⟨hcarries, hhash⟩ := lineTag_eq_some.1 hline
  rw [string_split_lines_eq, List.filter_eq_append_iff] at hcut
  obtain ⟨before, rest, htext, rfl, hrest⟩ := hcut
  obtain ⟨empty, after, rfl, hempty, -, rfl⟩ := List.filter_eq_cons_iff.1 hrest
  have hblank : ∀ l ∈ empty, l = [] := by
    intro l hl
    simpa using hempty l hl
  refine ⟨(before ++ empty).length, ⟨before ++ empty, line, after, by simp [htext], rfl, hcarries,
    fun l hl value hl' => ?_⟩, ?_⟩
  · refine hafter l (List.mem_filter.2 ⟨hl, by simpa using hl'.ne_nil⟩) value ?_
    exact lineTag_eq_some.2 ⟨hl', hhash⟩
  · have htake : (physicalLines text).take (before ++ empty).length = before ++ empty := by
      rw [htext, ← List.append_assoc, List.take_left]
    have hnone : empty.filter (!·.isEmpty) = [] := by
      rw [List.filter_eq_nil_iff]
      intro l hl
      simp [hblank l hl]
    rw [hcount, htake, List.filter_append, hnone, List.append_nil]

/-- The line number of a tag is that of the last line that carries it exactly when no line before
that one is empty, and it fits the counter. -/
theorem parse_meta_tags_line_iff (h : parse_meta_tags text tag = some v) :
    (∃ p : Nat, LastCarrying text tag p v.value ∧ v.line = p) ↔
      ∃ p value, LastCarrying text tag p value ∧ [] ∉ (physicalLines text).take p ∧
        p < 2 ^ 31 := by
  obtain ⟨p, hlast, hline⟩ := parse_meta_tags_eq_some h
  have hunique : ∀ {q value}, LastCarrying text tag q value → q = p := fun hq =>
    Nat.le_antisymm (hlast.le hq) (hq.le hlast)
  have hp : p ≤ (physicalLines text).length := by
    obtain ⟨before, line, after, hcut, rfl, -⟩ := hlast
    simp [hcut]
  -- the lines before are all counted if and only if none is empty
  have hall : (((physicalLines text).take p).filter (!·.isEmpty)).length = p ↔
      [] ∉ (physicalLines text).take p := by
    have hlen : ((physicalLines text).take p).length = p := by simpa using hp
    constructor
    · intro hcount hmem
      have := List.length_filter_eq_length_iff.1 (hcount.trans hlen.symm) [] hmem
      simp at this
    · intro hnone
      refine (List.length_filter_eq_length_iff.2 fun l hl => ?_).trans hlen
      have hne : l ≠ [] := fun hh => hnone (hh ▸ hl)
      simpa using hne
  have hle : (((physicalLines text).take p).filter (!·.isEmpty)).length ≤ p :=
    (List.length_filter_le _ _).trans (List.length_take_le _ _)
  rw [hline]
  constructor
  · rintro ⟨q, hq, hcount⟩
    obtain rfl := hunique hq
    obtain ⟨hfilter, hlt⟩ := (lineCount_eq hle).1 hcount
    exact ⟨q, v.value, hlast, hall.1 hfilter, hlt⟩
  · rintro ⟨q, value, hq, hnone, hlt⟩
    obtain rfl := hunique hq
    exact ⟨q, hlast, (lineCount_eq hle).2 ⟨hall.2 hnone, hlt⟩⟩

section
variable {before : List Text}

/-- A text whose last line is tagged `#a`. -/
theorem parse_hash_a (h : physicalLines text = before ++ ["//#a".toList]) :
    parse_meta_tags text "#a".toList =
        some ⟨[], lineCount (before.filter (!·.isEmpty)).length⟩ ∧
      LastCarrying text "#a".toList before.length [] := by
  have hcarries : Carries "//#a".toList "#a".toList [] :=
    ⟨[], "#a".toList, ⟨rfl, fun _ _ _ => Nat.zero_le _⟩, .inl ⟨rfl, rfl⟩⟩
  have hlines : string_split_lines text = before.filter (!·.isEmpty) ++ ["//#a".toList] := by
    rw [string_split_lines_eq, h, List.filter_append]
    rfl
  have htags : parse_meta_tags text = (tagsOf (string_split_lines text)).1 := rfl
  refine ⟨?_, before, "//#a".toList, [], h, rfl, hcarries, by simp⟩
  rw [htags, hlines, tagsOf_concat, parseTags, lineTag_eq_some.2 ⟨hcarries, rfl⟩, tagsOf_line]
  simp only [Function.update_self]

end

/-- The tag is on the third line, after a line of code and one with another tag. -/
theorem parse_meta_tags_line_iff_third :
    ∃ v, parse_meta_tags "x\r\n//#b 2\n//#a".toList "#a".toList = some v ∧
      ∃ p : Nat, LastCarrying "x\r\n//#b 2\n//#a".toList "#a".toList p v.value ∧ v.line = p := by
  obtain ⟨hparse, hlast⟩ := @parse_hash_a "x\r\n//#b 2\n//#a".toList
    ["x".toList, "//#b 2".toList] rfl
  refine ⟨_, hparse, (parse_meta_tags_line_iff hparse).2 ⟨2, [], hlast, ?_, by decide⟩⟩
  have hlines : (physicalLines "x\r\n//#b 2\n//#a".toList).take 2 =
      ["x".toList, "//#b 2".toList] := rfl
  rw [hlines]
  exact List.not_mem_cons_of_ne_of_not_mem (List.cons_ne_nil _ _).symm
    (List.not_mem_cons_of_ne_of_not_mem (List.cons_ne_nil _ _).symm List.not_mem_nil)

/-- After an empty line the number is one too small. -/
theorem parse_meta_tags_empty_line :
    ∃ v, parse_meta_tags "\n//#a".toList "#a".toList = some v ∧ v.line = 0 ∧
      LastCarrying "\n//#a".toList "#a".toList 1 [] ∧
      ¬∃ p : Nat, LastCarrying "\n//#a".toList "#a".toList p v.value ∧ v.line = p := by
  obtain ⟨hparse, hlast⟩ := @parse_hash_a "\n//#a".toList [[]] rfl
  have hzero : lineCount (([[]] : List Text).filter (!·.isEmpty)).length = 0 :=
    (lineCount_eq (Nat.le_refl 0)).2 ⟨rfl, by decide⟩
  refine ⟨_, hparse, hzero, hlast, ?_⟩
  rintro ⟨p, hp, hline⟩
  have hle : 1 ≤ p := hp.le hlast
  have hp₀ : (0 : Int) = p := hzero.symm.trans hline
  omega

end MUtils
