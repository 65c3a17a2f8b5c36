import MUtils.Compile.CompileMessages
import MUtils.Theory.Outcome
import MUtils.Verify.StringSplit
import MUtils.Verify.StringTrim

/-!
# Which lines of a compiler's output are reported

A line with a bracket always becomes a message with that line as its raw text. A line without one
waits in the buffer until a later line closes its bracket, and is reported only if the numbers
between the brackets of that line can be read (`Reported`): otherwise the handler replaces the text
of the message after the buffer has been emptied. What is in the buffer at the end is reported only
when there is no message at all. `compile_parse_shader_errors_reports_iff` puts this together.
-/

namespace MUtils
open Text Outcome

/-- The first opening bracket of the line has a closing one after it. -/
def Closes (line : Text) : Prop := ')' ∈ line.dropWhile (· != '(')

instance : DecidablePred Closes := fun _ => inferInstanceAs (Decidable (_ ∈ _))

/-- The text between the first opening bracket and the next closing one. -/
def numbersOf (line : Text) : Text :=
  string_trim ((line.dropWhile (· != '(')).takeWhile (· != ')')) ['(', ' ', ')']

/-- `std::stoi` reads a number. -/
def IsInt (num : Text) : Prop := (stoi num).isOk

/-- The line and the columns in `numbers`, as far as they are there, can be read. -/
def Readable (numbers : Text) : Prop :=
  (∀ num ∈ (string_split numbers [',']).head?, IsInt num) ∧
    ∀ cols ∈ (string_split numbers [','])[1]?, ∀ num ∈ (string_split cols ['-']).take 2, IsInt num

/-- The line has its brackets and the numbers between them can be read. -/
def Parses (line : Text) : Prop := Closes line ∧ Readable (numbersOf line)

/-- `line`, which has no bracket, is reported with the next line that closes its bracket. -/
def Reported (lines : List Text) (line : Text) : Prop :=
  '(' ∉ line ∧ ∃ before after, lines = before ++ line :: after ∧
    ∃ closing, after.find? Closes = some closing ∧ Parses closing

/-- `l` occurs in the text or the raw text of a message. -/
def Occurs (l : Text) (messages : List CompileMessage) : Prop :=
  ∃ m ∈ messages, l <:+: m.text ∨ l <:+: m.rawText

/-! ### Numbers -/

/-- `m` is `pMsg` with other numbers, of which the line does not become negative. -/
structure Renumbered (pMsg m : CompileMessage) : Prop where
  rawText : m.rawText = pMsg.rawText
  text : m.text = pMsg.text
  filePath : m.filePath = pMsg.filePath
  nonneg : 0 ≤ pMsg.line → 0 ≤ m.line

theorem Renumbered.refl (pMsg : CompileMessage) : Renumbered pMsg pMsg := ⟨rfl, rfl, rfl, id⟩

theorem Renumbered.trans {m₁ m₂ m₃ : CompileMessage} (h : Renumbered m₁ m₂)
    (h' : Renumbered m₂ m₃) : Renumbered m₁ m₃ where
  rawText := h'.rawText.trans h.rawText
  text := h'.text.trans h.text
  filePath := h'.filePath.trans h.filePath
  nonneg h₁ := h'.nonneg (h.nonneg h₁)

/-- The message that was returned, or that an exception was thrown with. -/
def outcomeOf : Except CompileMessage CompileMessage → CompileMessage
  | .ok m | .error m => m

theorem parseLine_renumbered (pMsg : CompileMessage) (numVec : List Text) :
    Renumbered pMsg (outcomeOf (parseLine pMsg numVec)) := by
  cases numVec with
  | nil => exact .refl pMsg
  | cons num _ =>
    rw [parseLine]
    cases stoi num with
    | error => exact .refl pMsg
    | ok n => exact ⟨rfl, rfl, rfl, fun _ => le_max_left 0 _⟩

theorem parseColumns_renumbered (pMsg : CompileMessage) (columnVec : List Text) :
    Renumbered pMsg (outcomeOf (parseColumns pMsg columnVec)) := by
  rcases columnVec with _ | ⟨first, _ | ⟨second, _⟩⟩
  · exact .refl pMsg
  · rw [parseColumns]
    cases stoi first with
    | error => exact .refl pMsg
    | ok n => exact ⟨rfl, rfl, rfl, id⟩
  · rw [parseColumns]
    cases stoi first with
    | error => exact .refl pMsg
    | ok n =>
      cases stoi second with
      | error => exact ⟨rfl, rfl, rfl, id⟩
      | ok n' => exact ⟨rfl, rfl, rfl, id⟩

theorem parseNumbers_renumbered (pMsg : CompileMessage) (numbers : Text) :
    Renumbered pMsg (outcomeOf (parseNumbers pMsg numbers)) := by
  have hline := parseLine_renumbered pMsg (string_split numbers [','])
  rw [parseNumbers]
  cases hparse : parseLine pMsg (string_split numbers [',']) with
  | error m =>
    rw [hparse] at hline
    exact hline
  | ok m =>
    rw [hparse] at hline
    rcases string_split numbers [','] with _ | ⟨num, _ | ⟨cols, _⟩⟩
    · exact hline
    · exact hline
    · exact hline.trans (parseColumns_renumbered m _)

section
variable (pMsg : CompileMessage)

theorem parseLine_isOk (numVec : List Text) :
    (parseLine pMsg numVec).isOk ↔ ∀ num ∈ numVec.head?, IsInt num := by
  cases numVec with
  | nil => exact iff_of_true rfl (by simp)
  | cons num _ =>
    simp only [List.head?_cons, Option.mem_some_iff, forall_eq', IsInt, parseLine]
    cases stoi num <;> exact Iff.rfl

theorem parseColumns_isOk (columnVec : List Text) :
    (parseColumns pMsg columnVec).isOk ↔ ∀ num ∈ columnVec.take 2, IsInt num := by
  rcases columnVec with _ | ⟨first, _ | ⟨second, _⟩⟩
  · exact iff_of_true rfl (by simp)
  · simp only [List.take_succ_cons, List.take_nil, List.forall_mem_singleton, IsInt, parseColumns]
    cases stoi first <;> exact Iff.rfl
  · rw [List.take_succ_cons, List.take_succ_cons, List.take_zero, List.forall_mem_cons,
      List.forall_mem_singleton, IsInt, IsInt, parseColumns]
    cases stoi first with
    | error => exact iff_of_false Bool.false_ne_true fun h => Bool.false_ne_true h.1
    | ok n =>
      have hfirst : (Except.ok n : Except StdException Int).isOk := rfl
      rw [and_iff_right hfirst]
      cases stoi second <;> exact Iff.rfl

theorem parseNumbers_isOk (numbers : Text) :
    (parseNumbers pMsg numbers).isOk ↔ Readable numbers := by
  rw [Readable, ← parseLine_isOk pMsg, parseNumbers]
  cases parseLine pMsg (string_split numbers [',']) with
  | error m => exact iff_of_false Bool.false_ne_true fun h => Bool.false_ne_true h.1
  | ok m =>
    rcases string_split numbers [','] with _ | ⟨num, _ | ⟨cols, _⟩⟩
    · exact iff_of_true rfl ⟨rfl, by simp⟩
    · exact iff_of_true rfl ⟨rfl, by simp⟩
    · refine (parseColumns_isOk m _).trans ?_
      simp [Except.isOk, Except.toBool]

end

/-- The message keeps its raw text and text, and an exception its raw text. -/
def Keeps (pMsg : CompileMessage) (ok : Prop) (r : Except CompileMessage CompileMessage) : Prop :=
  (ok ∧ ∃ m, r = .ok m ∧ m.rawText = pMsg.rawText ∧ m.text = pMsg.text) ∨
    (¬ok ∧ ∃ m, r = .error m ∧ m.rawText = pMsg.rawText)

/-- Reading the numbers changes only the line and the range. -/
theorem parseNumbers_keeps (pMsg : CompileMessage) (numbers : Text) :
    Keeps pMsg (Readable numbers) (parseNumbers pMsg numbers) := by
  have hnum := parseNumbers_renumbered pMsg numbers
  rw [← parseNumbers_isOk pMsg]
  generalize parseNumbers pMsg numbers = r at hnum
  cases r with
  | ok m => exact .inl ⟨rfl, m, rfl, hnum.rawText, hnum.text⟩
  | error m => exact .inr ⟨Bool.false_ne_true, m, rfl, hnum.rawText⟩

/-! ### One line -/

theorem forall_bne {c : Char} {u : Text} (hu : c ∉ u) : ∀ x ∈ u, (x != c) = true := by
  intro x hx
  have : x ≠ c := fun h => hu (h ▸ hx)
  simpa using this

/-- The cut of a line at its first bracket and the next closing one. -/
theorem dropWhile_bracket {u v : Text} (hu : '(' ∉ u) :
    (u ++ '(' :: v).dropWhile (· != '(') = '(' :: v := by
  rw [List.dropWhile_append_of_pos (forall_bne hu)]
  simp

theorem takeWhile_bracket {w v : Text} (hw : ')' ∉ w) :
    ('(' :: (w ++ ')' :: v)).takeWhile (· != ')') = '(' :: w := by
  rw [List.takeWhile_cons_of_pos (by decide), List.takeWhile_append_of_pos (forall_bne hw)]
  simp

theorem find_bracket {u : Text} (hu : '(' ∉ u) (v : Text) :
    findFirstOf ['('] (u ++ '(' :: v) 0 = some u.length := by
  simpa using findFirstOf_singleton (show (u ++ '(' :: v).drop 0 = _ from rfl) hu

theorem parseError_plain {fileSource strUnknown line : Text} (h : '(' ∉ line) :
    parseError fileSource strUnknown line = (none, strUnknown ++ line ++ ['\n']) := by
  have hfind : findFirstOf ['('] line 0 = none := findFirstOf_singleton_none h
  simp [parseError, hfind]

/-- A bracket that is not closed throws before the buffer is looked at. -/
theorem parseBracketed_unclosed {pMsg : CompileMessage} {strUnknown u v : Text} (hv : ')' ∉ v) :
    ∃ m, parseBracketed pMsg strUnknown (u ++ '(' :: v) u.length = .error (m, strUnknown) ∧
      m.rawText = pMsg.rawText := by
  have hfind : findFirstOf [')'] (u ++ '(' :: v) u.length = none :=
    findFirstOf_singleton_none (by simpa using hv)
  simp [parseBracketed, hfind]

/-- The characters that the text of a message is trimmed of. -/
def textTrim : Text := [' ', '\t', '(', ')', ':', '\r', '\n', '\x0c', '\x0b']

/-- The message before its numbers are read, where `u` stands before the brackets and `v` behind
them. -/
def located (pMsg : CompileMessage) (strUnknown u v : Text) : CompileMessage :=
  let text := strUnknown ++ string_trim (')' :: v) textTrim
  { pMsg with
    filePath := string_trim u
    text
    msgType := if strUnknown.isEmpty then pMsg.msgType else preambleType text pMsg.msgType }

/-- A line with its brackets, cut at them. -/
theorem parseBracketed_eq {pMsg : CompileMessage} {strUnknown u w v : Text} (hw : ')' ∉ w) :
    parseBracketed pMsg strUnknown (u ++ '(' :: (w ++ ')' :: v)) u.length =
      match parseNumbers (located pMsg strUnknown u v) (string_trim ('(' :: w) ['(', ' ', ')']) with
      | .ok m => .ok (m, [])
      | .error m => .error (m, []) := by
  set line := u ++ '(' :: (w ++ ')' :: v) with hline
  have hdrop : line.drop u.length = ('(' :: w) ++ ')' :: v := by simp [hline]
  have hfind : findFirstOf [')'] line u.length = some (u.length + (w.length + 1)) :=
    findFirstOf_singleton hdrop (by simpa using hw)
  have htake : line.take u.length = u := by rw [hline, List.take_left]
  have hnumbers : (line.drop u.length).take (w.length + 1) = '(' :: w := by simp [hdrop]
  have hrest : line.drop (u.length + (w.length + 1)) = ')' :: v := by
    rw [← List.drop_drop, hdrop, ← List.length_cons, List.drop_left]
  have hmsg : (if strUnknown.isEmpty then
        { pMsg with filePath := string_trim u, text := string_trim (')' :: v) textTrim }
      else
        { pMsg with
          filePath := string_trim u
          text := strUnknown ++ string_trim (')' :: v) textTrim
          msgType := preambleType (strUnknown ++ string_trim (')' :: v) textTrim) pMsg.msgType }) =
      located pMsg strUnknown u v := by
    unfold located
    split
    · next hempty => simp [List.isEmpty_iff.1 hempty]
    · rfl
  simp only [parseBracketed, hfind, htake, hrest, Nat.add_sub_cancel_left, hnumbers]
  rw [← textTrim, hmsg]
  cases parseNumbers (located pMsg strUnknown u v) (string_trim ('(' :: w) ['(', ' ', ')']) <;> rfl

/-- A bracket that is closed empties the buffer; the buffer is in the text unless the numbers
cannot be read. -/
theorem parseBracketed_closed {pMsg : CompileMessage} {strUnknown u w v line : Text}
    (hline : line = u ++ '(' :: (w ++ ')' :: v)) (hu : '(' ∉ u) (hw : ')' ∉ w) :
    (Readable (numbersOf line) ∧
        ∃ m t, parseBracketed pMsg strUnknown line u.length = .ok (m, []) ∧
          m.rawText = pMsg.rawText ∧ t <:+: line ∧ m.text = strUnknown ++ t) ∨
      (¬Readable (numbersOf line) ∧
        ∃ m, parseBracketed pMsg strUnknown line u.length = .error (m, []) ∧
          m.rawText = pMsg.rawText) := by
  have hnumbers : string_trim ('(' :: w) ['(', ' ', ')'] = numbersOf line := by
    rw [numbersOf, hline, dropWhile_bracket hu, takeWhile_bracket hw]
  have hinfix : string_trim (')' :: v) textTrim <:+: line := by
    refine (string_trim_isInfix _ _).trans ⟨u ++ '(' :: w, [], ?_⟩
    rw [hline, List.append_nil, List.append_assoc, List.cons_append]
  have hparse := @parseBracketed_eq pMsg strUnknown u w v hw
  rw [← hline, hnumbers] at hparse
  rcases parseNumbers_keeps (located pMsg strUnknown u v) (numbersOf line) with
    ⟨hok, m, hm, hraw, htext⟩ | ⟨hbad, m, hm, hraw⟩
  · rw [hm] at hparse
    exact .inl ⟨hok, m, _, hparse, hraw, hinfix, htext⟩
  · rw [hm] at hparse
    exact .inr ⟨hbad, m, hparse, hraw⟩

/-- What becomes of a line with a bracket and of the buffer. -/
theorem parseError_bracketed (fileSource strUnknown : Text) {line : Text} (h : '(' ∈ line) :
    ∃ m buffer, parseError fileSource strUnknown line = (some m, buffer) ∧ m.rawText = line ∧
      ((Parses line ∧ buffer = [] ∧ ∃ t, t <:+: line ∧ m.text = strUnknown ++ t) ∨
        (¬Parses line ∧ buffer = (if Closes line then [] else strUnknown) ∧
          m.text = failedHeader ++ '\n' :: line)) := by
  obtain ⟨u, v, hline, hu⟩ := List.eq_append_cons_of_mem h
  have hfind : findFirstOf ['('] line 0 = some u.length := by rw [hline, find_bracket hu]
  have hcloses : Closes line ↔ ')' ∈ v := by
    rw [Closes, hline, dropWhile_bracket hu]
    simp
  simp only [parseError, hfind]
  by_cases hv : ')' ∈ v
  · obtain ⟨w, v', rfl, hw⟩ := List.eq_append_cons_of_mem hv
    have hclosed := hcloses.2 hv
    rcases parseBracketed_closed hline hu hw with ⟨hok, m, t, hm, hraw, ht, htext⟩ |
      ⟨hbad, m, hm, hraw⟩
    · rw [hm]
      exact ⟨m, [], rfl, hraw, .inl ⟨⟨hclosed, hok⟩, rfl, t, ht, htext⟩⟩
    · rw [hm]
      exact ⟨_, [], rfl, hraw, .inr ⟨fun h => hbad h.2, by rw [if_pos hclosed], rfl⟩⟩
  · have hopen : ¬Closes line := fun h => hv (hcloses.1 h)
    obtain ⟨m, hm, hraw⟩ := parseBracketed_unclosed hv
    rw [hline, hm]
    exact ⟨_, strUnknown, rfl, by simpa [hline] using hraw,
      .inr ⟨fun h => hopen (hline ▸ h.1), by rw [if_neg (hline ▸ hopen)], rfl⟩⟩

/-! ### All lines -/

/-- The buffer that holds the given lines. -/
def buffered (lines : List Text) : Text := lines.flatMap (· ++ ['\n'])

theorem infix_buffered {l t : Text} (hl : '\n' ∉ l) {lines : List Text} :
    l <:+: buffered lines ++ t ↔ (∃ b ∈ lines, l <:+: b) ∨ l <:+: t := by
  induction lines with
  | nil => simp [buffered]
  | cons b lines ih =>
    have hcons : buffered (b :: lines) ++ t = b ++ '\n' :: (buffered lines ++ t) := by
      simp [buffered]
    rw [hcons, infix_append_cons hl, ih]
    simp [or_assoc]

/-- The pieces of text that the messages for `lines` are made of, when the lines of `buffer` are in
the buffer. -/
inductive Piece (buffer lines : List Text) : Text → Prop
  | bracketed : line ∈ lines → '(' ∈ line → Piece buffer lines line
  | failed : line ∈ lines → '(' ∈ line → ¬Parses line → Piece buffer lines failedHeader
  | waiting : line ∈ buffer → lines.find? Closes = some closing → Parses closing →
      Piece buffer lines line
  | reported : Reported lines line → Piece buffer lines line

variable {buffer lines : List Text} {line piece : Text}

theorem not_closes (h : '(' ∉ line) : ¬Closes line := by
  intro hc
  rw [Closes, List.dropWhile_eq_nil_iff.2 (forall_bne h)] at hc
  exact absurd hc (List.not_mem_nil)

theorem reported_cons (h : '(' ∉ line) : Reported (line :: lines) piece ↔
    (piece = line ∧ ∃ closing, lines.find? Closes = some closing ∧ Parses closing) ∨
      Reported lines piece := by
  constructor
  · rintro ⟨hp, before, after, heq, closing, hfind, hparses⟩
    cases before with
    | nil =>
      obtain ⟨rfl, rfl⟩ := List.cons.inj heq
      exact .inl ⟨rfl, closing, hfind, hparses⟩
    | cons b before =>
      obtain ⟨rfl, rfl⟩ := List.cons.inj heq
      exact .inr ⟨hp, before, after, rfl, closing, hfind, hparses⟩
  · rintro (⟨rfl, closing, hfind, hparses⟩ | ⟨hp, before, after, rfl, hclosing⟩)
    · exact ⟨h, [], lines, rfl, closing, hfind, hparses⟩
    · exact ⟨hp, line :: before, after, rfl, hclosing⟩

theorem reported_cons_bracketed (h : '(' ∈ line) :
    Reported (line :: lines) piece ↔ Reported lines piece := by
  constructor
  · rintro ⟨hp, before, after, heq, hclosing⟩
    cases before with
    | nil =>
      obtain ⟨rfl, rfl⟩ := List.cons.inj heq
      exact (hp h).elim
    | cons b before =>
      obtain ⟨rfl, rfl⟩ := List.cons.inj heq
      exact ⟨hp, before, after, rfl, hclosing⟩
  · rintro ⟨hp, before, after, rfl, hclosing⟩
    exact ⟨hp, line :: before, after, rfl, hclosing⟩

/-- A line without a bracket goes into the buffer. -/
theorem piece_plain (h : '(' ∉ line) :
    Piece buffer (line :: lines) piece ↔ Piece (buffer ++ [line]) lines piece := by
  have hfind : (line :: lines).find? Closes = lines.find? Closes := by
    simp [not_closes h]
  constructor
  · rintro (⟨hmem, hb⟩ | ⟨hmem, hb, hp⟩ | ⟨hmem, hf, hp⟩ | hr)
    · rcases List.mem_cons.1 hmem with rfl | hmem
      · exact (h hb).elim
      · exact .bracketed hmem hb
    · rcases List.mem_cons.1 hmem with rfl | hmem
      · exact (h hb).elim
      · exact .failed hmem hb hp
    · exact .waiting (List.mem_append_left _ hmem) (hfind ▸ hf) hp
    · rcases (reported_cons h).1 hr with ⟨rfl, closing, hf, hp⟩ | hr
      · exact .waiting (List.mem_append_right _ List.mem_cons_self) hf hp
      · exact .reported hr
  · rintro (⟨hmem, hb⟩ | ⟨hmem, hb, hp⟩ | ⟨hmem, hf, hp⟩ | hr)
    · exact .bracketed (List.mem_cons_of_mem _ hmem) hb
    · exact .failed (List.mem_cons_of_mem _ hmem) hb hp
    · rcases List.mem_append.1 hmem with hmem | hmem
      · exact .waiting hmem (hfind.trans hf) hp
      · obtain rfl := List.mem_singleton.1 hmem
        exact .reported ((reported_cons h).2 (.inl ⟨rfl, _, hf, hp⟩))
    · exact .reported ((reported_cons h).2 (.inr hr))

/-- A line with a bracket is a piece; so is the buffer if the line parses, and the header of the
handler's text if it does not. -/
theorem piece_bracketed (h : '(' ∈ line) : Piece buffer (line :: lines) piece ↔
    piece = line ∨ (Parses line ∧ piece ∈ buffer) ∨ (¬Parses line ∧ piece = failedHeader) ∨
      Piece (if Closes line then [] else buffer) lines piece := by
  constructor
  · rintro (⟨hmem, hb⟩ | ⟨hmem, hb, hp⟩ | ⟨hmem, hf, hp⟩ | hr)
    · rcases List.mem_cons.1 hmem with rfl | hmem
      · exact .inl rfl
      · exact .inr (.inr (.inr (.bracketed hmem hb)))
    · rcases List.mem_cons.1 hmem with rfl | hmem
      · exact .inr (.inr (.inl ⟨hp, rfl⟩))
      · exact .inr (.inr (.inr (.failed hmem hb hp)))
    · by_cases hc : Closes line
      · obtain rfl : line = _ := by simpa [hc] using hf
        exact .inr (.inl ⟨hp, hmem⟩)
      · rw [if_neg hc]
        exact .inr (.inr (.inr (.waiting hmem (by simpa [hc] using hf) hp)))
    · exact .inr (.inr (.inr (.reported ((reported_cons_bracketed h).1 hr))))
  · rintro (rfl | ⟨hp, hmem⟩ | ⟨hp, rfl⟩ | hpiece)
    · exact .bracketed List.mem_cons_self h
    · exact .waiting hmem (by simp [hp.1]) hp
    · exact .failed List.mem_cons_self h hp
    · rcases hpiece with ⟨hmem, hb⟩ | ⟨hmem, hb, hp⟩ | ⟨hmem, hf, hp⟩ | hr
      · exact .bracketed (List.mem_cons_of_mem _ hmem) hb
      · exact .failed (List.mem_cons_of_mem _ hmem) hb hp
      · by_cases hc : Closes line
        · rw [if_pos hc] at hmem
          cases hmem
        · rw [if_neg hc] at hmem
          exact .waiting hmem (by simpa [hc] using hf) hp
      · exact .reported ((reported_cons_bracketed h).2 hr)

theorem occurs_append {l : Text} {ms ms' : List CompileMessage} :
    Occurs l (ms ++ ms') ↔ Occurs l ms ∨ Occurs l ms' := by
  simp [Occurs, or_and_right, exists_or]

theorem not_piece_nil : ¬Piece buffer [] piece := by
  rintro (⟨hmem, -⟩ | ⟨hmem, -, -⟩ | ⟨-, hf, -⟩ | ⟨-, before, after, heq, -⟩)
  · cases hmem
  · cases hmem
  · cases hf
  · simp at heq

/-- What occurs in the message of a line with a bracket. -/
theorem occurs_bracketed (fileSource : Text) (buffer : List Text) {l : Text} (hl : '\n' ∉ l)
    (h : '(' ∈ line) :
    ∃ m, parseError fileSource (buffered buffer) line =
        (some m, buffered (if Closes line then [] else buffer)) ∧
      (Occurs l [m] ↔ l <:+: line ∨ (Parses line ∧ ∃ b ∈ buffer, l <:+: b) ∨
        (¬Parses line ∧ l <:+: failedHeader)) := by
  obtain ⟨m, buffer', hm, hraw, ⟨hp, rfl, t, ht, htext⟩ | ⟨hp, hbuffer, htext⟩⟩ :=
    parseError_bracketed fileSource (buffered buffer) h
  · refine ⟨m, by rw [hm, if_pos hp.1]; rfl, ?_⟩
    simp only [Occurs, List.mem_singleton, exists_eq_left, hraw, htext, infix_buffered hl, hp,
      true_and, not_true_eq_false, false_and, or_false]
    constructor
    · rintro ((h | h) | h)
      · exact .inr h
      · exact .inl (h.trans ht)
      · exact .inl h
    · rintro (h | h)
      · exact .inr h
      · exact .inl (.inl h)
  · refine ⟨m, by rw [hm, hbuffer, apply_ite buffered]; rfl, ?_⟩
    simp only [Occurs, List.mem_singleton, exists_eq_left, hraw, htext, infix_append_cons hl, hp,
      false_and, not_false_eq_true, true_and, false_or]
    constructor
    · rintro ((h | h) | h)
      · exact .inr h
      · exact .inl h
      · exact .inl h
    · rintro (h | h)
      · exact .inr h
      · exact .inl (.inl h)

/-- What occurs in the messages after the loop. -/
theorem parseErrors_occurs (buffer : List Text) {fileSource l : Text} (hl : '\n' ∉ l)
    {messages : List CompileMessage} :
    Occurs l (parseErrors fileSource lines (buffered buffer) messages).1 ↔
      Occurs l messages ∨ ∃ piece, Piece buffer lines piece ∧ l <:+: piece := by
  induction lines generalizing buffer messages with
  | nil => simp [parseErrors, not_piece_nil]
  | cons line lines ih =>
    by_cases h : '(' ∈ line
    · obtain ⟨m, hm, hocc⟩ := occurs_bracketed fileSource buffer hl h
      simp only [parseErrors, hm, ih, Option.toList_some, occurs_append, hocc, piece_bracketed h,
        or_and_right, exists_or, exists_eq_left, and_assoc, exists_and_left, or_assoc]
    · have hbuffer : buffered buffer ++ line ++ ['\n'] = buffered (buffer ++ [line]) := by
        simp [buffered]
      simp only [parseErrors, parseError_plain h, hbuffer, ih, Option.toList_none, List.append_nil,
        piece_plain h]

theorem parseErrors_isEmpty {fileSource strUnknown : Text} {messages : List CompileMessage} :
    (parseErrors fileSource lines strUnknown messages).1 = [] ↔
      messages = [] ∧ ∀ line ∈ lines, '(' ∉ line := by
  induction lines generalizing strUnknown messages with
  | nil => simp [parseErrors]
  | cons line lines ih =>
    rw [parseErrors, ih]
    by_cases h : '(' ∈ line
    · obtain ⟨m, buffer, hm, -⟩ := parseError_bracketed fileSource strUnknown h
      simp [hm, h]
    · simp [parseError_plain h, h]

/-! ### The whole output -/

/-- A line of the output: a maximal non-empty text without a line break. -/
def IsLine (output line : Text) : Prop := IsRun (['\n'].contains ·) output line

/-- The lines of the output, in order. -/
def linesOf (output : Text) : List Text := runs (['\n'].contains ·) output

theorem mem_linesOf {output : Text} : line ∈ linesOf output ↔ IsLine output line := mem_runs

theorem IsLine.clean {output : Text} (h : IsLine output line) : '\n' ∉ line := by
  intro hmem
  simpa using IsRun.clean h _ hmem

theorem IsLine.isInfix {output : Text} (h : IsLine output line) : line <:+: output := by
  obtain ⟨a, b, rfl, -⟩ := h.cut
  exact ⟨a, b, rfl⟩

/-- `line`, which has no bracket, is to be found in the messages: it occurs in one that was there
before, in a line with a bracket, in a reported line, or in what the handler of a failed line
prints. -/
def Survives (pResult : CompileResult) (lines : List Text) (line : Text) : Prop :=
  Occurs line pResult.messages ∨ (∃ e ∈ lines, '(' ∈ e ∧ line <:+: e) ∨
    (∃ e, Reported lines e ∧ line <:+: e) ∨
    ((∃ e ∈ lines, '(' ∈ e ∧ ¬Parses e) ∧ line <:+: failedHeader)

theorem survives_iff {pResult : CompileResult} : Survives pResult lines line ↔
    Occurs line pResult.messages ∨ ∃ piece, Piece [] lines piece ∧ line <:+: piece := by
  refine or_congr_right ?_
  constructor
  · rintro (⟨e, hmem, hb, hi⟩ | ⟨e, hr, hi⟩ | ⟨⟨e, hmem, hb, hp⟩, hi⟩)
    · exact ⟨e, .bracketed hmem hb, hi⟩
    · exact ⟨e, .reported hr, hi⟩
    · exact ⟨_, .failed hmem hb hp, hi⟩
  · rintro ⟨piece, ⟨hmem, hb⟩ | ⟨hmem, hb, hp⟩ | ⟨hmem, -, -⟩ | hr, hi⟩
    · exact .inl ⟨_, hmem, hb, hi⟩
    · exact .inr (.inr ⟨⟨_, hmem, hb, hp⟩, hi⟩)
    · cases hmem
    · exact .inr (.inl ⟨_, hr, hi⟩)

theorem parseErrors_linesOf_eq_nil {pResult : CompileResult} {output : Text} :
    (parseErrors pResult.fileSource (linesOf output) [] pResult.messages).1 = [] ↔
      pResult.messages = [] ∧ ∀ line, IsLine output line → '(' ∉ line := by
  simp only [parseErrors_isEmpty, mem_linesOf]

theorem compile_parse_shader_errors_messages (pResult : CompileResult) (output : Text) :
    (compile_parse_shader_errors pResult output).messages =
      let parsed := parseErrors pResult.fileSource (linesOf output) [] pResult.messages
      if parsed.1 = [] then [{
        filePath := pResult.fileSource
        rawText := output
        msgType := .Error
        text := if parsed.2.isEmpty then output else parsed.2 }]
      else parsed.1 := by
  rw [compile_parse_shader_errors, string_split_eq_runs]
  simp only [List.isEmpty_iff, linesOf]
  split <;> rfl

/-- When a message was there before or a line has a bracket, the lines without brackets have to
survive. -/
theorem occurs_iff_survives {pResult : CompileResult} {output : Text}
    (h : ¬(pResult.messages = [] ∧ ∀ line, IsLine output line → '(' ∉ line))
    (hline : IsLine output line) :
    Occurs line (compile_parse_shader_errors pResult output).messages ↔
      Survives pResult (linesOf output) line := by
  rw [compile_parse_shader_errors_messages, survives_iff]
  simp only
  rw [if_neg fun hnil => h (parseErrors_linesOf_eq_nil.1 hnil)]
  exact parseErrors_occurs [] hline.clean

/-- **Which lines of the output are lost.** Every line of the output is to be found in a message
just in two cases: there was no message before and no line has a bracket; or every line without a
bracket survives. -/
theorem compile_parse_shader_errors_reports_iff (pResult : CompileResult) (output : Text) :
    (∀ line, IsLine output line →
        Occurs line (compile_parse_shader_errors pResult output).messages) ↔
      (pResult.messages = [] ∧ ∀ line, IsLine output line → '(' ∉ line) ∨
        ∀ line, IsLine output line → '(' ∉ line → Survives pResult (linesOf output) line := by
  by_cases h : pResult.messages = [] ∧ ∀ line, IsLine output line → '(' ∉ line
  · -- the one message holds the whole output
    refine iff_of_true (fun line hline => ?_) (.inl h)
    rw [compile_parse_shader_errors_messages]
    simp only
    rw [if_pos (parseErrors_linesOf_eq_nil.2 h)]
    exact ⟨_, List.mem_singleton_self _, .inr hline.isInfix⟩
  · rw [or_iff_right h]
    constructor
    · intro hall line hline _
      exact (occurs_iff_survives h hline).1 (hall line hline)
    · intro hall line hline
      apply (occurs_iff_survives h hline).2
      by_cases hb : '(' ∈ line
      · exact .inr (.inl ⟨line, mem_linesOf.2 hline, hb, List.infix_rfl⟩)
      · exact hall line hline hb

/-- The line `b` of the output `a(1)`, `b` is lost: it is in the buffer at the end, and there is a
message. -/
theorem compile_parse_shader_errors_loses : ∃ line,
    IsLine ['a', '(', '1', ')', '\n', 'b'] line ∧
      ¬Occurs line
        (compile_parse_shader_errors ⟨[], []⟩ ['a', '(', '1', ')', '\n', 'b']).messages := by
  have hlines : linesOf ['a', '(', '1', ')', '\n', 'b'] = [['a', '(', '1', ')'], ['b']] := by decide
  have ha : IsLine ['a', '(', '1', ')', '\n', 'b'] ['a', '(', '1', ')'] :=
    mem_linesOf.1 (by simp [hlines])
  have hb : IsLine ['a', '(', '1', ')', '\n', 'b'] ['b'] := mem_linesOf.1 (by simp [hlines])
  refine ⟨['b'], hb, ?_⟩
  rw [occurs_iff_survives (fun h => h.2 _ ha (by decide)) hb, hlines]
  rintro (⟨m, hm, -⟩ | ⟨e, hmem, hbracket, hi⟩ |
    ⟨e, ⟨he, before, after, heq, closing, hfind, -⟩, -⟩ | ⟨-, hi⟩)
  · cases hm
  · simp only [List.mem_cons, List.not_mem_nil, or_false] at hmem
    rcases hmem with rfl | rfl
    · revert hi; decide
    · revert hbracket; decide
  · -- nothing follows `b`, and the other line has a bracket
    rcases before with _ | ⟨_, _ | ⟨_, before⟩⟩
    · obtain ⟨rfl, -⟩ := List.cons.inj heq
      exact he (by decide)
    · obtain ⟨-, heq⟩ := List.cons.inj heq
      obtain ⟨-, rfl⟩ := List.cons.inj heq
      cases hfind
    · simp at heq
  · revert hi
    decide

end MUtils
