import MUtils.Theory.Occurrences
import MUtils.Theory.Outcome

/-!
# The text functions of `string_utils.h`

The tokenizers, trimming, replacing, the conversion of an index into a line and the reading of
grids, with the `std::stoi` that their callers use. A delimiter set, a C string in the source, is
the list of its characters. `string_url_encode` and `string_utf8_length` look at the bytes of a
string; for them a string is a list of bytes.
-/

namespace MUtils
open Text

/-- The exceptions that the standard library throws here. -/
inductive StdException where
  | invalid_argument
  | out_of_range
  deriving DecidableEq, Repr

/-! ### Splitting -/

theorem findFirstNotOf_after {delims text : Text} {start i next : Nat}
    (h : findFirstOf delims text start = some i) (h' : findFirstNotOf delims text i = some next) :
    text.length - next < text.length - start := by
  obtain ⟨u, c, v, hs, rfl, -, hc⟩ := findFrom_some h
  have hdrop : text.drop (start + u.length) = c :: v := by
    rw [← List.drop_drop, hs, List.drop_left]
  -- the position of a delimiter is not that of a non-delimiter
  have hlt := lt_of_findFrom hdrop (by simpa using hc) h'
  have hlen := congrArg List.length hs
  simp only [List.length_drop, List.length_append, List.length_cons] at hlen
  omega

/-- The loop of `string_split`, where `start` is not `npos`. -/
def splitFrom (delims text : Text) (start : Nat) : List Text :=
  match _h : findFirstOf delims text start with
  | none => [text.drop start]
  | some «end» =>
    (text.drop start).take («end» - start) ::
      match _h' : findFirstNotOf delims text «end» with
      | none => []
      | some start => splitFrom delims text start
termination_by text.length - start
decreasing_by exact findFirstNotOf_after _h _h'

def string_split (text delims : Text) : List Text :=
  match findFirstNotOf delims text 0 with
  | none => []
  | some start => splitFrom delims text start

def string_split_lines (text : Text) : List Text := string_split text ['\r', '\n']

/-! ### Searching for a text -/

/-- `substr` throws if it starts behind the end. -/
def substr (str : Text) (pos count : Nat) : Except StdException Text :=
  if pos ≤ str.length then .ok ((str.drop pos).take count) else .error .out_of_range

/-- The loop of `string_split_delim_string`. At its end `current` is `npos`, and `substr` is asked
for more characters than there are. -/
def splitDelimFrom (str delim : Text) (previous : Nat) : Except StdException (List Text) :=
  match _h : findSubFrom delim str previous with
  | none => do
    let piece ← substr str previous str.length
    return [piece]
  | some current => do
    let piece ← substr str previous (current - previous)
    let pieces ← splitDelimFrom str delim (current + 1)
    return piece :: pieces
termination_by str.length + 1 - previous
decreasing_by
  have := findSubFrom_bounds _h
  omega

def string_split_delim_string (str delim : Text) : Except StdException (List Text) :=
  splitDelimFrom str delim 0

/-- The loop that `string_replace` and `string_replace_in_place` have in common, for at most `fuel`
searches. -/
def replaceLoop (search replace : Text) : Nat → Text → Nat → Outcome Text
  | 0, _, _ => .error .diverged
  | fuel + 1, subject, pos =>
    match findSubFrom search subject pos with
    | none => .ok subject
    | some pos =>
      replaceLoop search replace fuel
        (subject.take pos ++ replace ++ subject.drop (pos + search.length)) (pos + replace.length)

/-- Every search but the last takes something of the subject, unless `search` is empty, in which
case the loop never ends. -/
def string_replace (subject search replace : Text) : Outcome Text :=
  replaceLoop search replace (subject.length + 1) subject 0

/-- The value that `subject` is left with. The other arguments are references too: they are taken to
refer to strings other than `subject`, which do not change while it is edited. -/
def string_replace_in_place (subject search replace : Text) : Outcome Text :=
  replaceLoop search replace (subject.length + 1) subject 0

/-! ### Splitting with a callback

A callback may do anything with what it is told, so its reply is a function of all that it has been
told so far, the latest last. The result of the model is the list of the calls. -/

/-- The loop of `string_split_each` on a `std::string`, after the calls `done`. -/
def splitEachFrom (fn : List (Nat × Nat) → Bool) (delims text : Text) (done : List (Nat × Nat))
    (start : Nat) : List (Nat × Nat) :=
  match _h : findFirstOf delims text start with
  | none => done ++ [(start, text.length - start)]
  | some «end» =>
    let done := done ++ [(start, «end» - start)]
    if fn done then
      match _h' : findFirstNotOf delims text «end» with
      | none => done
      | some start => splitEachFrom fn delims text done start
    else done
termination_by text.length - start
decreasing_by exact findFirstNotOf_after _h _h'

/-- Calls back with the start and the length of each token. -/
def string_split_each (text delims : Text) (fn : List (Nat × Nat) → Bool) : List (Nat × Nat) :=
  match findFirstNotOf delims text 0 with
  | none => []
  | some start => splitEachFrom fn delims text [] start

/-- `for (auto index = start; index < end; index++)`, with `rounds` left, in search of a character
that satisfies `p`. -/
def scan (p : Char → Bool) (text : Text) : Nat → Nat → Option Nat
  | 0, _ => none
  | rounds + 1, index =>
    if text[index]?.any p then some index else scan p text rounds (index + 1)

def string_first_not_of (text : Text) (start «end» : Nat) (delims : Text) : Option Nat :=
  scan (!delims.contains ·) text («end» - start) start

def string_first_of (text : Text) (start «end» : Nat) (delims : Text) : Option Nat :=
  scan (delims.contains ·) text («end» - start) start

theorem scan_some {p : Char → Bool} {text : Text} {rounds index i : Nat}
    (h : scan p text rounds index = some i) :
    index ≤ i ∧ i < index + rounds ∧ ∃ c, text[i]? = some c ∧ p c := by
  induction rounds generalizing index with
  | zero => cases h
  | succ rounds ih =>
    rw [scan] at h
    split at h
    · next hp =>
      cases h
      rw [Option.any_eq_true] at hp
      exact ⟨Nat.le_refl _, by omega, hp⟩
    · obtain ⟨hle, hlt, hp⟩ := ih h
      exact ⟨by omega, by omega, hp⟩

/-- What a callback does that is given a buffer: it returns `more`, and it may have overwritten the
character at `end` with a NUL. -/
structure EachReply where
  more : Bool
  terminate : Bool

/-- The buffer after the callback. -/
def EachReply.written (reply : EachReply) (text : Text) («end» : Nat) : Text :=
  if reply.terminate then text.set «end» '\x00' else text

/-- `if (text[end] == 0 && end < endIndex) end++;` -/
def skipNul (text : Text) («end» endIndex : Nat) : Nat :=
  if text[«end»]? = some '\x00' ∧ «end» < endIndex then «end» + 1 else «end»

theorem le_skipNul (text : Text) (i endIndex : Nat) : i ≤ skipNul text i endIndex := by
  unfold skipNul
  split
  · exact Nat.le_succ i
  · exact Nat.le_refl i

theorem skipNul_written {reply : EachReply} {text : Text} {i endIndex : Nat}
    (hr : reply.terminate) (hi : i < text.length) (hlt : i < endIndex) :
    skipNul (reply.written text i) i endIndex = i + 1 := by
  rw [skipNul, EachReply.written, if_pos hr, if_pos ⟨by simp [hi], hlt⟩]

theorem string_first_not_of_after {reply : EachReply} {delims text : Text}
    {start i next endIndex : Nat} (h : string_first_of text start endIndex delims = some i)
    (h' : string_first_not_of (reply.written text i) (skipNul (reply.written text i) i endIndex)
      endIndex delims = some next) :
    endIndex - next < endIndex - start := by
  obtain ⟨hle, hlt, c, hc, hdelim⟩ := scan_some h
  obtain ⟨hle', hlt', d, hd, hnot⟩ := scan_some h'
  have hstep := le_skipNul (reply.written text i) i endIndex
  -- a delimiter that is still there is not where the next token starts
  have hne : next ≠ i := by
    rintro rfl
    by_cases hr : reply.terminate
    · have hskip : skipNul (reply.written text next) next endIndex = next + 1 :=
        skipNul_written hr (List.getElem?_eq_some_iff.1 hc).1 (by omega)
      omega
    · rw [EachReply.written, if_neg hr, hc] at hd
      cases hd
      simp_all
  omega

/-- The loop of `string_split_each` on a buffer, after the calls `done`. -/
def splitEachCharsFrom (fn : List (Nat × Nat) → EachReply) (delims : Text) (endIndex : Nat)
    (text : Text) (done : List (Nat × Nat)) (start : Nat) : List (Nat × Nat) :=
  match _h : string_first_of text start endIndex delims with
  -- Return the last one
  | none => done ++ [(start, endIndex)]
  | some «end» =>
    -- Callback with string between delims
    let done := done ++ [(start, «end»)]
    if (fn done).more then
      match _h' : string_first_not_of ((fn done).written text «end»)
        (skipNul ((fn done).written text «end») «end» endIndex) endIndex delims with
      | none => done
      | some start =>
        splitEachCharsFrom fn delims endIndex ((fn done).written text «end») done start
    else done
termination_by endIndex - start
decreasing_by exact string_first_not_of_after _h _h'

/-- The overload for a part of a buffer, which calls back with the start and the end of each
token. -/
def string_split_each_chars (text : Text) (startIndex endIndex : Nat) (delims : Text)
    (fn : List (Nat × Nat) → EachReply) : List (Nat × Nat) :=
  -- Skip delims (start now at first thing that is not a delim)
  match string_first_not_of text startIndex endIndex delims with
  | none => []
  | some start => splitEachCharsFrom fn delims endIndex text [] start

/-! ### Lines -/

/-- The loop of `string_convert_index_to_line_offset`, where `str` is what lies ahead of the
iterator and `first` the start of the line. -/
def lineOffsetFrom (index : UInt32) (line first currentIndex : UInt32) : Text → UInt32 × UInt32
  | [] => (line, index - first)
  | c :: str =>
    -- Found it
    if first ≤ index ∧ index ≤ currentIndex then (line, index - first)
    -- Find line end
    else if c = '\r' ∨ c = '\n' then
      match c, str with
      -- Skip another
      | '\r', '\n' :: str =>
        let currentIndex := currentIndex + 1 + 1
        if currentIndex ≤ index then (line + 1, index - currentIndex)
        else lineOffsetFrom index (line + 1) currentIndex currentIndex str
      | _, str =>
        let currentIndex := currentIndex + 1
        if currentIndex ≤ index then (line + 1, index - currentIndex)
        else lineOffsetFrom index (line + 1) currentIndex currentIndex str
    else lineOffsetFrom index line first (currentIndex + 1) str

def string_convert_index_to_line_offset (str : Text) (index : UInt32) : UInt32 × UInt32 :=
  lineOffsetFrom index 0 0 0 str

/-! ### Trimming -/

/-- `" \t\n\r\f\v"` -/
def whitespace : Text := [' ', '\t', '\n', '\r', '\x0c', '\x0b']

/-- What is read through a `const char*` to these characters, which ends at the first NUL. -/
def cString (chars : Text) : Text := chars.takeWhile (· != '\x00')

def string_left_trim (s t : Text) : Text :=
  match findFirstNotOf t s 0 with
  | none => []
  | some i => s.drop i

def string_right_trim (s t : Text) : Text :=
  match findLastNotOf t s with
  | none => []
  | some i => s.take (i + 1)

def string_trim (s : Text) (t : Text := whitespace) : Text :=
  string_left_trim (string_right_trim s t) t

/-! ### Characters and numbers -/

/-- `::tolower` in the C locale. -/
def tolower (c : Char) : Char :=
  if 'A' ≤ c ∧ c ≤ 'Z' then Char.ofNat (c.toNat + 32) else c

def string_tolower (str : Text) : Text := str.map tolower

/-- `std::isspace` in the C locale. -/
def isspace (c : Char) : Bool := whitespace.contains c

/-- The value of a sequence of decimal digits. -/
def decimal (digits : Text) : Nat := digits.foldl (fun n c => 10 * n + (c.toNat - '0'.toNat)) 0

/-- `std::stoi`: white space, a sign, digits, and anything after them. -/
def stoi (str : Text) : Except StdException Int :=
  let (negative, str) :=
    match str.dropWhile isspace with
    | '-' :: str => (true, str)
    | '+' :: str => (false, str)
    | str => (false, str)
  let digits := str.takeWhile Char.isDigit
  if digits.isEmpty then .error .invalid_argument
  else
    let n : Int := decimal digits
    let n := if negative then -n else n
    if n < -2 ^ 31 ∨ 2 ^ 31 ≤ n then .error .out_of_range else .ok n

/-! ### Grids -/

/-- A `char`, which is signed, as the `int` that it is promoted to. -/
def promote (c : UInt8) : Int := c.toInt8.toInt

/-- The lines of a text, each as the list of its fields; lines without fields are dropped. -/
def string_get_string_grid (str : Text) : List (List Text) :=
  let arrayLines := (string_split_lines str).map fun line => string_split line ['\t', ',', ' ']
  arrayLines.filter (!·.isEmpty)

/-- `c_str` ends at the first NUL. Without delimiters, every character of a line is a digit of its
own. -/
def string_get_integer_grid (str delim : Text) : Except StdException (List (List Int)) := do
  let arrayLines ← (string_split_lines str).mapM fun line =>
    if delim.isEmpty then pure (line.map fun c => promote c.toUInt8 - '0'.toNat)
    else (string_split line (delim.takeWhile (· != '\x00'))).mapM stoi
  return arrayLines.filter (!·.isEmpty)

def string_get_integers (str : Text) : Except StdException (List Int) :=
  (string_split str ['\t', '\n', '\r', ' ', ',']).mapM stoi

/-! ### Bytes -/

/-- An `std::ostringstream` with the state that its formatted output depends on. -/
structure OStringStream where
  str : List UInt8 := []
  fillChar : UInt8 := ' '.toUInt8
  hex : Bool := false
  uppercase : Bool := false
  width : Nat := 0

namespace OStringStream

/-- Formatted output fills up to the width, which holds for one output only. -/
def put (os : OStringStream) (chars : List UInt8) : OStringStream :=
  { os with
    str := os.str ++ List.replicate (os.width - chars.length) os.fillChar ++ chars
    width := 0 }

def putChar (os : OStringStream) (c : UInt8) : OStringStream := os.put [c]

/-- The digits of a number in the base and the case of the stream. -/
def digits (os : OStringStream) (n : Nat) : List UInt8 :=
  (Nat.toDigits (if os.hex then 16 else 10) n).map fun c =>
    (if os.uppercase then c.toUpper else c).toUInt8

def putInt (os : OStringStream) (n : Nat) : OStringStream := os.put (os.digits n)

end OStringStream

/-- `std::isalnum` in the C locale. -/
def isalnum (c : Int) : Bool :=
  let between (first last : Char) : Bool := first.toNat ≤ c && c ≤ last.toNat
  between '0' '9' || between 'A' 'Z' || between 'a' 'z'

/-- The body of the loop of `string_url_encode`. -/
def urlEncodeChar (escaped : OStringStream) (c : UInt8) : OStringStream :=
  -- Keep alphanumeric and other accepted characters intact
  if isalnum (promote c) || c == '-'.toUInt8 || c == '_'.toUInt8 || c == '.'.toUInt8 ||
      c == '~'.toUInt8 then
    escaped.putChar c
  else
    -- Any other characters are percent-encoded
    let escaped := { escaped with uppercase := true }
    let escaped := { escaped.putChar '%'.toUInt8 with width := 2 }
    { escaped.putInt c.toNat with uppercase := false }

def string_url_encode (value : List UInt8) : List UInt8 :=
  let escaped : OStringStream := { fillChar := '0'.toUInt8, hex := true }
  (value.foldl urlEncodeChar escaped).str

def string_count_utf8_bytes (c : Nat) : Nat :=
  if c < 0x80 then 1
  else if c < 0x800 then 2
  else if c ≥ 0xdc00 ∧ c < 0xe000 then 0
  else if c ≥ 0xd800 ∧ c < 0xdc00 then 4
  else 3

/-- The inner loop of `string_utf8_length`, from `len` on, where `s` is the memory from the pointer
on; with what lies ahead of the pointer after it. -/
def utf8Group (len : Nat) : List UInt8 → Outcome (Nat × List UInt8)
  | [] => if len ≤ 4 then .error (.outOfRange "s") else .ok (len, [])
  | c :: s =>
    if len ≤ 4 ∧ c ≠ 0 then
      if c &&& 0xc0 ≠ 0x80 then .ok (len, s) else utf8Group (len + 1) s
    else .ok (len, c :: s)

theorem utf8Group_length {len len' : Nat} {s s' : List UInt8}
    (h : utf8Group len s = .ok (len', s')) : s'.length ≤ s.length := by
  induction s generalizing len with
  | nil =>
    rw [utf8Group] at h
    split at h <;> cases h
    exact Nat.le_refl _
  | cons c s ih =>
    rw [utf8Group] at h
    split at h
    · split at h
      · cases h
        exact Nat.le_succ _
      · exact Nat.le_succ_of_le (ih h)
    · cases h
      exact Nat.le_refl _

theorem utf8Group_length_lt {len : Nat} {c : UInt8} {s s' : List UInt8} (hc : c ≠ 0)
    (h : utf8Group 1 (c :: s) = .ok (len, s')) : s'.length < (c :: s).length := by
  rw [utf8Group, if_pos ⟨by decide, hc⟩] at h
  split at h
  · cases h
    exact Nat.lt_succ_self _
  · exact Nat.lt_succ_of_le (utf8Group_length h)

/-- The outer loop of `string_utf8_length`. -/
def utf8LengthFrom (stringLength : Nat) : List UInt8 → Outcome Nat
  | [] => .error (.outOfRange "s")
  | c :: s =>
    if _hc : c = 0 then .ok stringLength
    else
      match _h : utf8Group 1 (c :: s) with
      | .error e => .error e
      | .ok (len, s') => utf8LengthFrom (stringLength + len) s'
termination_by s => s.length
decreasing_by exact utf8Group_length_lt _hc _h

/-- `s` is the memory from the pointer on. -/
def string_utf8_length (s : List UInt8) : Outcome Nat := utf8LengthFrom 0 s

end MUtils
