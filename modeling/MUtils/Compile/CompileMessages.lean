import MUtils.String.StringUtils

/-!
# Parsing the output of a shader compiler: `compile_messages.cpp`

`compile_parse_shader_errors` turns the lines of a driver's output into messages with a file, a
line and a range of columns. A line with a bracket is parsed; the parser works inside a `try` whose
handler keeps what had been done when an exception came, so an exception is modelled with the
message and the buffer of that moment (`Except (CompileMessage × Text)`). A line without a bracket
is put in the buffer `strUnknown`.
-/

namespace MUtils
open Text

inductive CompileMessageType where
  | Warning
  | Error
  | Info
  deriving DecidableEq, Repr

/-- A path is the text that `fs::path` was made from. -/
structure CompileMessage where
  rawText : Text := []
  text : Text := []
  filePath : Text := []
  line : Int := 0
  fragmentIndex : UInt32 := 0
  range : Int × Int := (-1, -1)
  msgType : CompileMessageType := .Error
  deriving DecidableEq

structure CompileResult where
  fileSource : Text
  messages : List CompileMessage

/-- Subtraction of `int`s, which wraps around. -/
def intSub (a b : Int) : Int := (a - b).bmod (2 ^ 32)

/-- The line number is the first of the numbers. The message of an exception is the one before the
`std::stoi` that threw. -/
def parseLine (pMsg : CompileMessage) : List Text → Except CompileMessage CompileMessage
  | [] => .ok pMsg
  | num :: _ => do
    let n ← (stoi num).mapError fun _ => pMsg
    return { pMsg with line := max 0 (intSub n 1) }

/-- The columns, of which the second may be left out. -/
def parseColumns (pMsg : CompileMessage) : List Text → Except CompileMessage CompileMessage
  | [] => .ok pMsg
  | [first] => do
    let n ← (stoi first).mapError fun _ => pMsg
    let column := max 0 (intSub n 1)
    return { pMsg with range := (column, column + 1) }
  | first :: second :: _ => do
    let n ← (stoi first).mapError fun _ => pMsg
    let pMsg := { pMsg with range := (max 0 (intSub n 1), pMsg.range.2) }
    let n ← (stoi second).mapError fun _ => pMsg
    return { pMsg with range := (pMsg.range.1, n) }

/-- `(3, 5 - 3)`: the line and the columns between the brackets. -/
def parseNumbers (pMsg : CompileMessage) (numbers : Text) :
    Except CompileMessage CompileMessage := do
  let numVec := string_split numbers [',']
  let pMsg ← parseLine pMsg numVec
  match numVec with
  | _ :: cols :: _ => parseColumns pMsg (string_split cols ['-'])
  | _ => return pMsg

/-- The message type that the preamble of a message asks for. -/
def preambleType (text : Text) (msgType : CompileMessageType) : CompileMessageType :=
  let str := string_tolower text
  if hasSub "info".toList str || hasSub "warning".toList str then .Warning
  else if hasSub "error".toList str then .Error
  else msgType

/-- The body of the `try` for a line whose first bracket is at `bracketPos`. A closing bracket that
is not found is `npos`, which `if (lastBracket)` lets through and `substr` throws at. -/
def parseBracketed (pMsg : CompileMessage) (strUnknown error : Text) (bracketPos : Nat) :
    Except (CompileMessage × Text) (CompileMessage × Text) := do
  let pMsg := { pMsg with filePath := string_trim (error.take bracketPos) }
  match findFirstOf [')'] error bracketPos with
  | none => .error (pMsg, strUnknown)
  | some lastBracket =>
    let pMsg := { pMsg with
      text := string_trim (error.drop lastBracket)
        [' ', '\t', '(', ')', ':', '\r', '\n', '\x0c', '\x0b'] }
    -- the preamble is taken into this message, and the buffer starts again
    let pMsg :=
      if strUnknown.isEmpty then pMsg
      else
        let text := strUnknown ++ pMsg.text
        { pMsg with text, msgType := preambleType text pMsg.msgType }
    let numbers :=
      string_trim ((error.drop bracketPos).take (lastBracket - bracketPos)) ['(', ' ', ')']
    let pMsg ← (parseNumbers pMsg numbers).mapError fun pMsg => (pMsg, [])
    return (pMsg, [])

/-- `"Failed to parse compiler error:"` -/
def failedHeader : Text := "Failed to parse compiler error:".toList

/-- The body of the loop over the lines: the message for the line, if it has a bracket, and the
buffer. -/
def parseError (fileSource strUnknown error : Text) : Option CompileMessage × Text :=
  let pMsg : CompileMessage := {
    filePath := fileSource
    rawText := error
    msgType := if hasSub "warning".toList (string_tolower error) then .Warning else .Error }
  match findFirstOf ['('] error 0 with
  | none => (none, strUnknown ++ error ++ ['\n'])
  | some bracketPos =>
    match parseBracketed pMsg strUnknown error bracketPos with
    | .ok (pMsg, strUnknown) => (some pMsg, strUnknown)
    | .error (pMsg, strUnknown) =>
      (some { pMsg with text := failedHeader ++ '\n' :: error, line := 0, msgType := .Error },
        strUnknown)

/-- The loop over the lines. -/
def parseErrors (fileSource : Text) : List Text → Text → List CompileMessage →
    List CompileMessage × Text
  | [], strUnknown, messages => (messages, strUnknown)
  | error :: errors, strUnknown, messages =>
    let (pMsg, strUnknown) := parseError fileSource strUnknown error
    parseErrors fileSource errors strUnknown (messages ++ pMsg.toList)

def compile_parse_shader_errors (pResult : CompileResult) (messages : Text) : CompileResult :=
  let errors := string_split messages ['\n']
  let (parsed, strUnknown) := parseErrors pResult.fileSource errors [] pResult.messages
  if parsed.isEmpty then
    { pResult with messages := [{
        filePath := pResult.fileSource
        rawText := messages
        msgType := .Error
        text := if strUnknown.isEmpty then messages else strUnknown }] }
  else { pResult with messages := parsed }

end MUtils
