import MUtils.Verify.Diagnostics

/-!
# The messages for the lines of a compiler's output

Every line with a bracket gives one message, in order (`compile_parse_shader_errors_appends`). A
line `path(L,A-B)tail` gives its path, line and columns whatever lines come before it
(`compile_parse_shader_errors_location`). Its path and text come back as they were written just if
the path has no bracket of its own and the text neither starts nor ends with a bracket or a colon
(`compile_parse_shader_errors_survive_iff`).
-/

namespace MUtils
open Text Outcome

/-! ### One message for each line with a bracket -/

variable {fileSource strUnknown line u v : Text}

/-- Whether or not its numbers can be read, a line with a bracket becomes a message with the path
before the bracket. -/
theorem parseError_cut (fileSource strUnknown v : Text) (hu : '(' ∉ u) :
    ∃ m buffer, parseError fileSource strUnknown (u ++ '(' :: v) = (some m, buffer) ∧
      m.rawText = u ++ '(' :: v ∧ m.filePath = string_trim u ∧ 0 ≤ m.line := by
  simp only [parseError, find_bracket hu]
  by_cases hv : ')' ∈ v
  · obtain ⟨w, v', rfl, hw⟩ := List.eq_append_cons_of_mem hv
    rw [parseBracketed_eq hw]
    set pMsg := located _ strUnknown u v'
    have hnum := parseNumbers_renumbered pMsg (string_trim ('(' :: w) ['(', ' ', ')'])
    cases hparse : parseNumbers pMsg (string_trim ('(' :: w) ['(', ' ', ')']) with
    | ok m =>
      rw [hparse] at hnum
      exact ⟨m, [], rfl, hnum.rawText, hnum.filePath, hnum.nonneg (Int.le_refl 0)⟩
    | error m =>
      rw [hparse] at hnum
      exact ⟨_, [], rfl, hnum.rawText, hnum.filePath, Int.le_refl 0⟩
  · have hfind : findFirstOf [')'] (u ++ '(' :: v) u.length = none :=
      findFirstOf_singleton_none (by simpa using hv)
    simp only [parseBracketed, hfind, List.take_left]
    exact ⟨_, strUnknown, rfl, rfl, rfl, Int.le_refl 0⟩

/-- The messages that the loop appends. -/
def appended (fileSource : Text) : Text → List Text → List CompileMessage
  | _, [] => []
  | strUnknown, line :: lines =>
    (parseError fileSource strUnknown line).1.toList ++
      appended fileSource (parseError fileSource strUnknown line).2 lines

theorem parseErrors_appended {lines : List Text} {messages : List CompileMessage} :
    (parseErrors fileSource lines strUnknown messages).1 =
      messages ++ appended fileSource strUnknown lines := by
  induction lines generalizing strUnknown messages with
  | nil => rw [parseErrors, appended, List.append_nil]
  | cons line lines ih => rw [parseErrors, ih, appended, List.append_assoc]

/-- A line with a bracket gives a message, and no other line does. -/
theorem appended_rawText (strUnknown : Text) (lines : List Text) :
    (appended fileSource strUnknown lines).map (·.rawText) = lines.filter ('(' ∈ ·) ∧
      ∀ m ∈ appended fileSource strUnknown lines, 0 ≤ m.line := by
  induction lines generalizing strUnknown with
  | nil => exact ⟨rfl, by simp [appended]⟩
  | cons line lines ih =>
    rw [appended]
    by_cases hmem : '(' ∈ line
    · obtain ⟨u, v, rfl, hu⟩ := List.eq_append_cons_of_mem hmem
      obtain ⟨m, buffer, hm, hraw, -, hnonneg⟩ := parseError_cut fileSource strUnknown v hu
      obtain ⟨hmap, hall⟩ := ih buffer
      rw [hm, Option.toList_some, List.filter_cons_of_pos (by simp), List.map_append,
        hmap]
      refine ⟨by simp [hraw], fun m' hm' => ?_⟩
      rcases List.mem_append.1 hm' with hm' | hm'
      · rwa [List.mem_singleton.1 hm']
      · exact hall m' hm'
    · rw [parseError_plain hmem, Option.toList_none, List.nil_append,
        List.filter_cons_of_neg (by simpa using hmem)]
      exact ih _

theorem linesOf_eq (output : Text) :
    linesOf output = (output.splitOn '\n').filter (· ≠ []) := by
  have hdelim : (fun c => ['\n'].contains c) = (· == '\n') := by
    funext c
    rw [List.contains_cons, List.contains_nil, Bool.or_false]
  rw [linesOf, runs, List.splitOn_eq_splitOnP, hdelim]
  congr 1
  funext line
  cases line <;> rfl

theorem compile_parse_shader_errors_appended {pResult : CompileResult} {output : Text}
    (h : ¬(pResult.messages = [] ∧ ∀ line, IsLine output line → '(' ∉ line)) :
    (compile_parse_shader_errors pResult output).messages =
      pResult.messages ++ appended pResult.fileSource [] (linesOf output) := by
  rw [compile_parse_shader_errors_messages]
  simp only
  rw [if_neg fun hnil => h (parseErrors_linesOf_eq_nil.1 hnil), parseErrors_appended]

theorem compile_parse_shader_errors_none {pResult : CompileResult} {output : Text}
    (h : pResult.messages = [] ∧ ∀ line, IsLine output line → '(' ∉ line) :
    ∃ m, (compile_parse_shader_errors pResult output).messages = [m] ∧ m.line = 0 := by
  rw [compile_parse_shader_errors_messages]
  simp only
  rw [if_pos (parseErrors_linesOf_eq_nil.2 h)]
  exact ⟨_, rfl, rfl⟩

/-- **One message for each line with a bracket**, in order, behind the messages that were there; or
a single one if there are no such lines and no messages. -/
theorem compile_parse_shader_errors_appends (pResult : CompileResult) (output : Text) :
    ∃ new, (compile_parse_shader_errors pResult output).messages = pResult.messages ++ new ∧
      (∀ m ∈ new, 0 ≤ m.line) ∧
      ((∃ line ∈ output.splitOn '\n', '(' ∈ line) → new.map (·.rawText) =
        (output.splitOn '\n').filter fun line => line ≠ [] ∧ '(' ∈ line) ∧
      ((∀ line ∈ output.splitOn '\n', '(' ∉ line) →
        new.length = if pResult.messages = [] then 1 else 0) := by
  have hlines : (linesOf output).filter ('(' ∈ ·) =
      (output.splitOn '\n').filter fun line => line ≠ [] ∧ '(' ∈ line := by
    rw [linesOf_eq, List.filter_filter]
    congr 1
    funext line
    simp [Bool.and_comm]
  have hmem : ∀ {line}, '(' ∈ line → (IsLine output line ↔ line ∈ output.splitOn '\n') := by
    intro line hline
    rw [← mem_linesOf, linesOf_eq, List.mem_filter]
    simp [List.ne_nil_of_mem hline]
  obtain ⟨hraw, hnonneg⟩ := @appended_rawText pResult.fileSource [] (linesOf output)
  by_cases h : pResult.messages = [] ∧ ∀ line, IsLine output line → '(' ∉ line
  · obtain ⟨m, hm, hzero⟩ := compile_parse_shader_errors_none h
    refine ⟨[m], by rw [hm, h.1, List.nil_append], by simp [hzero], ?_, fun _ => by simp [h.1]⟩
    rintro ⟨line, hline, hbracket⟩
    exact (h.2 line ((hmem hbracket).2 hline) hbracket).elim
  · refine ⟨_, compile_parse_shader_errors_appended h, hnonneg, fun _ => hraw.trans hlines, ?_⟩
    intro hnone
    have hne : pResult.messages ≠ [] := fun hnil =>
      h ⟨hnil, fun line hline hbracket => hnone line ((hmem hbracket).1 hline) hbracket⟩
    have hnil : (output.splitOn '\n').filter (fun line => line ≠ [] ∧ '(' ∈ line) = [] := by
      rw [List.filter_eq_nil_iff]
      intro line hline
      simp [hnone line hline]
    rw [if_neg hne, ← List.length_map, hraw, hlines, hnil, List.length_nil]

/-! ### Locations -/

/-- The decimal number `n`, which is a positive `int`, with spaces around it. -/
structure Spells (n : Nat) (num : Text) : Prop where
  pos : 1 ≤ n
  lt : n < 2 ^ 31
  digits : ∃ a b digits, num = List.replicate a ' ' ++ digits ++ List.replicate b ' ' ∧
    digits ≠ [] ∧ (∀ c ∈ digits, c.isDigit) ∧ decimal digits = n

/-- What stands between the brackets: a line, a line and a column, or a line and a range of columns;
with the range of the message. -/
inductive Location (L : Nat) : Text → Int × Int → Prop
  | line : Spells L l → Location L l (-1, -1)
  | column : Spells L l → Spells A a → Location L (l ++ ',' :: a) (A - 1, A)
  | range : Spells L l → Spells A a → Spells B b →
      Location L (l ++ ',' :: (a ++ '-' :: b)) (A - 1, B)

namespace Spells
variable {n : Nat} {num : Text}

/-- Numbers are spelt with their digits. -/
theorem toDigits (hpos : 1 ≤ n) (hlt : n < 2 ^ 31) : Spells n (Nat.toDigits 10 n) where
  pos := hpos
  lt := hlt
  digits := by
    refine ⟨0, 0, Nat.toDigits 10 n, by simp, ?_, ?_, ?_⟩
    · exact Nat.toDigits_ne_nil
    · exact fun c hc => Nat.isDigit_of_mem_toDigits (by decide) (by decide) hc
    · exact Nat.ofDigitChars_toDigits (by decide) (by decide)

theorem mem (h : Spells n num) {c : Char} (hc : c ∈ num) : c = ' ' ∨ c.isDigit := by
  obtain ⟨a, b, digits, rfl, -, hdigits, -⟩ := h.digits
  rcases List.mem_append.1 hc with hc | hc
  · rcases List.mem_append.1 hc with hc | hc
    · exact .inl (List.eq_of_mem_replicate hc)
    · exact .inr (hdigits c hc)
  · exact .inl (List.eq_of_mem_replicate hc)

/-- A character that is neither a space nor a digit is not part of a number. -/
theorem not_mem (h : Spells n num) {c : Char} (hspace : c ≠ ' ') (hdigit : c.isDigit = false) :
    c ∉ num := by
  intro hc
  rcases h.mem hc with rfl | hd
  · exact hspace rfl
  · rw [hdigit] at hd
    cases hd

theorem exists_digit (h : Spells n num) : ∃ c ∈ num, c.isDigit := by
  obtain ⟨a, b, digits, rfl, hne, hdigits, -⟩ := h.digits
  obtain ⟨d, ds, rfl⟩ := List.exists_cons_of_ne_nil hne
  exact ⟨d, by simp, hdigits d List.mem_cons_self⟩

theorem ne_nil (h : Spells n num) : num ≠ [] := by
  obtain ⟨c, hc, -⟩ := h.exists_digit
  exact List.ne_nil_of_mem hc

end Spells

theorem ne_of_isDigit {c d : Char} (hd : d.isDigit) (hc : c.isDigit = false) : d ≠ c := by
  rintro rfl
  rw [hc] at hd
  cases hd

theorem isspace_digit {d : Char} (hd : d.isDigit) : isspace d = false := by
  by_contra h
  have hmem : d ∈ whitespace := by simpa [isspace] using h
  have hall : ∀ c ∈ whitespace, c.isDigit = false := by simp [whitespace, Char.isDigit]
  exact ne_of_isDigit hd (hall d hmem) rfl

theorem stoi_spells {n : Nat} {num : Text} (h : Spells n num) : stoi num = .ok n := by
  have hlt := h.lt
  obtain ⟨a, b, digits, rfl, hne, hdigits, rfl⟩ := h.digits
  obtain ⟨d, ds, rfl⟩ := List.exists_cons_of_ne_nil hne
  have hd := hdigits d List.mem_cons_self
  have hspaces : ∀ c ∈ List.replicate a ' ', isspace c = true := by
    intro c hc
    rw [List.eq_of_mem_replicate hc]
    decide
  have hskip : (List.replicate a ' ' ++ (d :: ds) ++ List.replicate b ' ').dropWhile isspace =
      d :: (ds ++ List.replicate b ' ') := by
    rw [List.append_assoc, List.dropWhile_append_of_pos hspaces, List.cons_append,
      List.dropWhile_cons_of_neg (by simp [isspace_digit hd])]
  have htake : (d :: (ds ++ List.replicate b ' ')).takeWhile Char.isDigit = d :: ds := by
    rw [← List.cons_append, List.takeWhile_append_of_pos hdigits]
    cases b with
    | zero => simp
    | succ b => rw [List.replicate_succ, List.takeWhile_cons_of_neg (by decide), List.append_nil]
  rw [stoi, hskip]
  split
  next negative str heq =>
  split at heq
  · next hcons => exact (ne_of_isDigit hd (by decide) (List.cons.inj hcons).1).elim
  · next hcons => exact (ne_of_isDigit hd (by decide) (List.cons.inj hcons).1).elim
  · cases heq
    simp only [htake, List.isEmpty_cons, Bool.false_eq_true, if_false]
    exact if_neg (by omega)

/-- The characters that the numbers are trimmed of are no digits. -/
theorem not_mem_trim {d : Char} (hd : d.isDigit) : d ∉ ['(', ' ', ')'] := by
  intro hmem
  have hall : ∀ c ∈ ['(', ' ', ')'], c.isDigit = false := by simp [Char.isDigit]
  exact ne_of_isDigit hd (hall d hmem) rfl

theorem space_mem_trim (n : Nat) : ∀ c ∈ List.replicate n ' ', c ∈ ['(', ' ', ')'] := by
  intro c hc
  simp [List.eq_of_mem_replicate hc]

/-- Trimmed on either side, a number is still the number. -/
theorem Spells.left_trim {n : Nat} {num u : Text} (h : Spells n num)
    (hu : ∀ c ∈ u, c ∈ ['(', ' ', ')']) :
    Spells n (string_left_trim (u ++ num) ['(', ' ', ')']) where
  pos := h.pos
  lt := h.lt
  digits := by
    obtain ⟨a, b, digits, rfl, hne, hdigits, hn⟩ := h.digits
    obtain ⟨d, ds, rfl⟩ := List.exists_cons_of_ne_nil hne
    have hd := not_mem_trim (hdigits d List.mem_cons_self)
    refine ⟨0, b, d :: ds, ?_, hne, hdigits, hn⟩
    rw [string_left_trim_append_of_forall hu, List.append_assoc,
      string_left_trim_append_of_forall (space_mem_trim a), List.cons_append,
      string_left_trim_cons hd]
    rfl

theorem Spells.right_trim {n : Nat} {num : Text} (h : Spells n num) :
    Spells n (string_right_trim num ['(', ' ', ')']) where
  pos := h.pos
  lt := h.lt
  digits := by
    obtain ⟨a, b, digits, rfl, hne, hdigits, hn⟩ := h.digits
    have hlast : ∀ c ∈ (List.replicate a ' ' ++ digits).getLast?, c ∉ ['(', ' ', ')'] := by
      intro c hc
      rw [List.getLast?_append_of_ne_nil _ hne] at hc
      exact not_mem_trim (hdigits c (List.mem_of_getLast? hc))
    refine ⟨a, 0, digits, ?_, hne, hdigits, hn⟩
    rw [string_right_trim_append_of_forall (space_mem_trim b), string_right_trim_eq_self.2 hlast,
      List.replicate_zero, List.append_nil]

theorem Spells.exists_not_mem_trim {n : Nat} {num : Text} (h : Spells n num) :
    ∃ c ∈ num, c ∉ ['(', ' ', ')'] := by
  obtain ⟨c, hc, hd⟩ := h.exists_digit
  exact ⟨c, hc, not_mem_trim hd⟩

section
variable {d : Char}

theorem string_split_one (hu : d ∉ u) (hne : u ≠ []) : string_split u [d] = [u] := by
  rw [string_split_eq_runs, runs_of_forall _ hne]
  intro x hx
  simpa using forall_bne hu x hx

theorem string_split_two (hu : d ∉ u) (hune : u ≠ []) (hv : d ∉ v) (hvne : v ≠ []) :
    string_split (u ++ d :: v) [d] = [u, v] := by
  have hcut : string_split (u ++ d :: v) [d] = string_split u [d] ++ string_split v [d] := by
    simp only [string_split_eq_runs]
    exact runs_append_cons (by simp)
  rw [hcut, string_split_one hu hune, string_split_one hv hvne]
  rfl

end

section
variable {pMsg : CompileMessage} {L A B : Nat} {l a b inside : Text} {range : Int × Int}

theorem max_intSub {n : Nat} (hpos : 1 ≤ n) (hlt : n < 2 ^ 31) : max 0 (intSub n 1) = n - 1 := by
  rw [intSub, Int.bmod_def]
  split_ifs <;> omega

theorem parseLine_spells (hl : Spells L l) (rest : List Text) :
    parseLine pMsg (l :: rest) = .ok { pMsg with line := L - 1 } := by
  rw [parseLine, stoi_spells hl, mapError_ok, ok_bind, max_intSub hl.pos hl.lt]
  rfl

theorem parseColumns_one (ha : Spells A a) :
    parseColumns pMsg [a] = .ok { pMsg with range := (A - 1, A) } := by
  rw [parseColumns, stoi_spells ha, mapError_ok, ok_bind]
  simp only [max_intSub ha.pos ha.lt, sub_add_cancel]
  rfl

theorem parseColumns_two (ha : Spells A a) (hb : Spells B b) :
    parseColumns pMsg [a, b] = .ok { pMsg with range := (A - 1, B) } := by
  rw [parseColumns, stoi_spells ha, mapError_ok, ok_bind, stoi_spells hb]
  simp only [max_intSub ha.pos ha.lt, mapError_ok, ok_bind]
  rfl

theorem trim_location (hl : Spells L l) (hv : ∃ c ∈ v, c ∉ ['(', ' ', ')']) :
    string_trim ('(' :: (l ++ ',' :: v)) ['(', ' ', ')'] =
      string_left_trim (['('] ++ l) ['(', ' ', ')'] ++
        ',' :: string_right_trim v ['(', ' ', ')'] := by
  have hcut : '(' :: (l ++ ',' :: v) = (['('] ++ l) ++ ([','] ++ v) := by simp
  have hl' : ∃ c ∈ ['('] ++ l, c ∉ ['(', ' ', ')'] := by
    obtain ⟨c, hc, hnot⟩ := hl.exists_not_mem_trim
    exact ⟨c, List.mem_append_right _ hc, hnot⟩
  have hv' : ∃ c ∈ [','] ++ v, c ∉ ['(', ' ', ')'] := ⟨',', by simp, by decide⟩
  rw [hcut, string_trim_append hl' hv', string_right_trim_append hv]
  rfl

/-- The numbers between the brackets are read as what they spell. -/
theorem parseNumbers_location (hloc : Location L inside range) (hrange : pMsg.range = (-1, -1)) :
    parseNumbers pMsg (string_trim ('(' :: inside) ['(', ' ', ')']) =
      .ok { pMsg with line := L - 1, range } := by
  have hopen : ∀ c ∈ ['('], c ∈ ['(', ' ', ')'] := by simp
  have hcomma : ∀ {n num}, Spells n num → ',' ∉ num := fun h => h.not_mem (by decide) (by decide)
  have hdash : ∀ {n num}, Spells n num → '-' ∉ num := fun h => h.not_mem (by decide) (by decide)
  cases hloc with
  | line hl =>
    have hnum := hl.right_trim.left_trim hopen
    have htrim : string_trim ('(' :: inside) ['(', ' ', ')'] =
        string_left_trim (['('] ++ string_right_trim inside ['(', ' ', ')']) ['(', ' ', ')'] := by
      rw [string_trim, ← List.singleton_append, string_right_trim_append hl.exists_not_mem_trim]
    rw [htrim, parseNumbers, string_split_one (hcomma hnum) hnum.ne_nil]
    simp only [parseLine_spells hnum, ok_bind]
    rw [← hrange]
    rfl
  | @column l A a hl ha =>
    have hl' := hl.left_trim hopen
    have ha' := ha.right_trim
    rw [trim_location hl ha.exists_not_mem_trim, parseNumbers,
      string_split_two (hcomma hl') hl'.ne_nil (hcomma ha') ha'.ne_nil]
    simp only [parseLine_spells hl', ok_bind, string_split_one (hdash ha') ha'.ne_nil,
      parseColumns_one ha']
  | @range l A a B b hl ha hb =>
    have hl' := hl.left_trim hopen
    have hb' := hb.right_trim
    have hv : ∃ c ∈ a ++ '-' :: b, c ∉ ['(', ' ', ')'] := ⟨'-', by simp, by decide⟩
    have hright : string_right_trim (a ++ '-' :: b) ['(', ' ', ')'] =
        a ++ '-' :: string_right_trim b ['(', ' ', ')'] := by
      rw [← List.singleton_append, ← List.append_assoc,
        string_right_trim_append hb.exists_not_mem_trim, List.append_assoc]
      rfl
    have hcols : ',' ∉ a ++ '-' :: string_right_trim b ['(', ' ', ')'] := by
      simp [hcomma ha, hcomma hb']
    rw [trim_location hl hv, parseNumbers, hright,
      string_split_two (hcomma hl') hl'.ne_nil hcols (by simp)]
    simp only [parseLine_spells hl', ok_bind,
      string_split_two (hdash ha) ha.ne_nil (hdash hb') hb'.ne_nil, parseColumns_two ha hb']

/-- A location has no other characters than digits, spaces and its two delimiters. -/
theorem Location.not_mem (hloc : Location L inside range) {c : Char}
    (hc : c ∉ [' ', ',', '-']) (hdigit : c.isDigit = false) : c ∉ inside := by
  simp only [List.mem_cons, List.not_mem_nil, or_false, not_or] at hc
  obtain ⟨hspace, hcomma, hdash⟩ := hc
  have hnum : ∀ {n num}, Spells n num → c ∉ num := fun h => h.not_mem hspace hdigit
  cases hloc with
  | line hl => exact hnum hl
  | column hl ha => simp [hnum hl, hnum ha, hcomma]
  | range hl ha hb => simp [hnum hl, hnum ha, hnum hb, hcomma, hdash]

/-- The message for a line with a location. -/
theorem parseError_location (fileSource strUnknown tail : Text) {path : Text} (hpath : '(' ∉ path)
    (hloc : Location L inside range) :
    ∃ m, parseError fileSource strUnknown (path ++ '(' :: (inside ++ ')' :: tail)) =
        (some m, []) ∧
      m.rawText = path ++ '(' :: (inside ++ ')' :: tail) ∧ m.filePath = string_trim path ∧
      m.text = strUnknown ++ string_trim (')' :: tail) textTrim ∧ m.line = L - 1 ∧
      m.range = range := by
  simp only [parseError, find_bracket hpath]
  rw [parseBracketed_eq (hloc.not_mem (by decide) (by decide)), parseNumbers_location hloc rfl]
  exact ⟨_, rfl, rfl, rfl, rfl, rfl, rfl⟩

theorem mem_appended (fileSource : Text) {lines : List Text} (hline : line ∈ lines)
    (strUnknown : Text) : ∃ buffer, ∀ m, (parseError fileSource buffer line).1 = some m →
      m ∈ appended fileSource strUnknown lines := by
  induction lines generalizing strUnknown with
  | nil => cases hline
  | cons line' lines ih =>
    rw [appended]
    rcases List.mem_cons.1 hline with rfl | hline
    · refine ⟨strUnknown, fun m hm => List.mem_append_left _ ?_⟩
      rw [hm]
      exact List.mem_singleton_self m
    · obtain ⟨buffer, hbuffer⟩ := ih hline (parseError fileSource strUnknown line').2
      exact ⟨buffer, fun m hm => List.mem_append_right _ (hbuffer m hm)⟩

/-- **The location of a line**, wherever it stands in the output: the message for it has the path
without white space around it, the line counted from 0 and the range of the columns. -/
theorem compile_parse_shader_errors_location (pResult : CompileResult) {output path tail : Text}
    (hpath : '(' ∉ path) (hloc : Location L inside range)
    (hline : IsLine output (path ++ '(' :: (inside ++ ')' :: tail))) :
    ∃ m ∈ (compile_parse_shader_errors pResult output).messages.drop pResult.messages.length,
      m.rawText = path ++ '(' :: (inside ++ ')' :: tail) ∧ m.filePath = string_trim path ∧
      m.line = L - 1 ∧ m.range = range := by
  have hbracket : ¬(pResult.messages = [] ∧ ∀ line, IsLine output line → '(' ∉ line) :=
    fun h => h.2 _ hline (by simp)
  obtain ⟨buffer, hmem⟩ := mem_appended pResult.fileSource (mem_linesOf.2 hline) []
  obtain ⟨m, hm, hraw, hfile, -, hnum, hrange⟩ :=
    parseError_location pResult.fileSource buffer tail hpath hloc
  refine ⟨m, ?_, hraw, hfile, hnum, hrange⟩
  rw [compile_parse_shader_errors_appended hbracket, List.drop_left]
  exact hmem m (by rw [hm])

/-- `1,2-3` -/
theorem location_digits : Location 1 ['1', ',', '2', '-', '3'] (1, 3) := by
  have h1 : Spells 1 ['1'] := Spells.toDigits (by decide) (by decide)
  have h2 : Spells 2 ['2'] := Spells.toDigits (by decide) (by decide)
  have h3 : Spells 3 ['3'] := Spells.toDigits (by decide) (by decide)
  exact .range h1 h2 h3

/-- A location after a line without one. -/
theorem compile_parse_shader_errors_location_second :
    ∃ m ∈ (compile_parse_shader_errors ⟨[], []⟩
        ['x', '\n', 'a', ' ', '(', '1', ',', '2', '-', '3', ')', ':']).messages,
      m.filePath = string_trim ['a', ' '] ∧ m.line = 0 ∧ m.range = (1, 3) := by
  have hline : IsLine ['x', '\n', 'a', ' ', '(', '1', ',', '2', '-', '3', ')', ':']
      ['a', ' ', '(', '1', ',', '2', '-', '3', ')', ':'] := mem_linesOf.1 (by decide)
  have hpath : '(' ∉ ['a', ' '] := by decide
  obtain ⟨m, hm, -, hfile, hnum, hrange⟩ :=
    compile_parse_shader_errors_location ⟨[], []⟩ hpath location_digits hline
  exact ⟨m, hm, hfile, hnum, hrange⟩

/-! ### Paths and texts that come back -/

theorem linesOf_line (hnl : '\n' ∉ line) (hne : line ≠ []) : linesOf line = [line] := by
  rw [linesOf, ← string_split_eq_runs, string_split_one hnl hne]

/-- A single line with a bracket is a single message. -/
theorem compile_parse_shader_errors_line {m : CompileMessage} {buffer : Text}
    (hnl : '\n' ∉ line) (hbracket : '(' ∈ line)
    (hm : parseError fileSource [] line = (some m, buffer)) :
    (compile_parse_shader_errors ⟨fileSource, []⟩ line).messages = [m] := by
  have hlines := linesOf_line hnl (List.ne_nil_of_mem hbracket)
  have hline : IsLine line line := mem_linesOf.1 (by rw [hlines]; exact List.mem_singleton_self _)
  rw [compile_parse_shader_errors_appended fun h => h.2 line hline hbracket, hlines, appended, hm]
  rfl

theorem mem_textTrim {c : Char} : c ∈ textTrim ↔ c ∈ whitespace ∨ c ∈ ['(', ')', ':'] := by
  simp only [textTrim, whitespace, List.mem_cons, List.not_mem_nil, or_false]
  simp only [or_comm, or_left_comm, or_assoc]

/-- Of a text without white space around it, brackets and colons at its ends are lost. -/
theorem trim_text_eq_self {text : Text} (htrim : string_trim text = text) :
    string_trim text textTrim = text ↔
      (∀ c ∈ text.head?, c ∉ ['(', ')', ':']) ∧ ∀ c ∈ text.getLast?, c ∉ ['(', ')', ':'] := by
  obtain ⟨hfirst, hlast⟩ := string_trim_eq_self.1 htrim
  rw [string_trim_eq_self]
  simp only [mem_textTrim, not_or]
  constructor
  · rintro ⟨h, h'⟩
    exact ⟨fun c hc => (h c hc).2, fun c hc => (h' c hc).2⟩
  · rintro ⟨h, h'⟩
    exact ⟨fun c hc => ⟨hfirst c hc, h c hc⟩, fun c hc => ⟨hlast c hc, h' c hc⟩⟩

/-- The message for the one line gives back the path and the text. -/
def Survive (fileSource path inside text : Text) : Prop :=
  ∃ m, (compile_parse_shader_errors ⟨fileSource, []⟩
      (path ++ '(' :: (inside ++ ')' :: ':' :: ' ' :: text))).messages = [m] ∧
    m.filePath = path ∧ m.text = text

section
variable {path text : Text} (hpath : '\n' ∉ path) (htext : '\n' ∉ text)
include hpath htext

theorem line_clean (hloc : Location L inside range) :
    '\n' ∉ path ++ '(' :: (inside ++ ')' :: ':' :: ' ' :: text) := by
  have hinside : '\n' ∉ inside := hloc.not_mem (by decide) (by decide)
  simp [hpath, hinside, htext]

/-- What stands before the first bracket is shorter than the path. -/
theorem not_survive (hloc : Location L inside range) (hopen : '(' ∈ path) :
    ¬Survive fileSource path inside text := by
  rintro ⟨m', hm', hfile', -⟩
  obtain ⟨u, v, hcut, hu⟩ := List.eq_append_cons_of_mem hopen
  obtain ⟨m, buffer, hm, -, hfile, -⟩ :=
    parseError_cut fileSource [] (v ++ '(' :: (inside ++ ')' :: ':' :: ' ' :: text)) hu
  have hline : u ++ '(' :: (v ++ '(' :: (inside ++ ')' :: ':' :: ' ' :: text)) =
      path ++ '(' :: (inside ++ ')' :: ':' :: ' ' :: text) := by
    rw [hcut, List.append_assoc, List.cons_append]
  rw [hline] at hm
  rw [compile_parse_shader_errors_line (line_clean hpath htext hloc) (by simp) hm] at hm'
  cases hm'
  have hlen := (string_trim_isInfix u whitespace).length_le
  rw [← hfile, hfile', hcut, List.length_append, List.length_cons] at hlen
  omega

theorem survive_plain_iff (hloc : Location L inside range) (hopen : '(' ∉ path)
    (htrim : string_trim path = path) :
    Survive fileSource path inside text ↔ string_trim text textTrim = text := by
  obtain ⟨m, hm, -, hfile, hm_text, -⟩ :=
    parseError_location fileSource [] (':' :: ' ' :: text) hopen hloc
  have hset : ∀ c ∈ [')', ':', ' '], c ∈ textTrim := by simp [textTrim]
  have hcut : string_trim (')' :: ':' :: ' ' :: text) textTrim = string_trim text textTrim :=
    string_trim_append_of_forall (u := [')', ':', ' ']) (v := text) hset
  rw [List.nil_append, hcut] at hm_text
  rw [Survive, compile_parse_shader_errors_line (line_clean hpath htext hloc) (by simp) hm]
  constructor
  · rintro ⟨m', hm', -, htext⟩
    cases hm'
    exact hm_text.symm.trans htext
  · intro h
    exact ⟨m, rfl, hfile.trans htrim, hm_text.trans h⟩

/-- **Path and text come back** from `path(L,A-B): text` just if the path has no bracket, and the
text neither starts nor ends with a bracket or a colon. -/
theorem compile_parse_shader_errors_survive_iff (fileSource : Text)
    (hloc : Location L inside range) (hpath' : string_trim path = path)
    (htext' : string_trim text = text) :
    Survive fileSource path inside text ↔
      '(' ∉ path ∧ (∀ c ∈ text.head?, c ∉ ['(', ')', ':']) ∧
        ∀ c ∈ text.getLast?, c ∉ ['(', ')', ':'] := by
  by_cases hopen : '(' ∈ path
  · exact iff_of_false (not_survive hpath htext hloc hopen) fun h => h.1 hopen
  · rw [survive_plain_iff hpath htext hloc hopen hpath', trim_text_eq_self htext',
      and_iff_right hopen]

end

theorem compile_parse_shader_errors_survive_iff_error :
    Survive [] ['a'] ['1', ',', '2', '-', '3'] ['x', ':', 'y'] :=
  (compile_parse_shader_errors_survive_iff (by decide) (by decide) [] location_digits (by decide)
    (by decide)).2 (by simp)

/-- The bracket that ends the text `f(x)` is lost. -/
theorem compile_parse_shader_errors_bracket_lost :
    string_trim ['a'] = ['a'] ∧ string_trim ['f', '(', 'x', ')'] = ['f', '(', 'x', ')'] ∧
      ¬Survive [] ['a'] ['1', ',', '2', '-', '3'] ['f', '(', 'x', ')'] := by
  refine ⟨by decide, by decide, ?_⟩
  rw [survive_plain_iff (by decide) (by decide) location_digits (by decide) (by decide)]
  decide

end

end MUtils
