import MUtils.Theory.Outcome

/-!
# The message store of `ui_manager.h`

`UIManager` keeps the messages it was given by id (`m_taskMessages`) and, for those about a file,
the ids by file (`m_fileMessages`). `fs::path` is a type with equality whose `default` is the empty
path; a `std::map` is a function to `Option`.
-/

namespace MUtils
open Outcome

namespace MessageType

def Info : UInt32 := 1
def Warning : UInt32 := 2
def Error : UInt32 := 4
def Task : UInt32 := 8
def System : UInt32 := 16

end MessageType

structure ColumnRange where
  start : Int
  «end» : Int
  deriving DecidableEq, Repr

structure UIMessage (Path : Type) where
  m_type : UInt32
  m_message : String
  m_file : Path
  m_line : Int
  m_columnRange : ColumnRange
  m_id : UInt64

instance : LT ColumnRange where
  lt lhs rhs := if lhs.start = rhs.start then lhs.end < rhs.end else lhs.start < rhs.start

theorem ColumnRange.lt_def {lhs rhs : ColumnRange} :
    lhs < rhs ↔ if lhs.start = rhs.start then lhs.end < rhs.end else lhs.start < rhs.start :=
  .rfl

instance (lhs rhs : ColumnRange) : Decidable (lhs < rhs) :=
  decidable_of_iff _ ColumnRange.lt_def.symm

section
variable {Path : Type} [DecidableEq Path]

instance : LT (UIMessage Path) where
  lt lhs rhs :=
    if lhs.m_file = rhs.m_file ∧ lhs.m_line ≠ -1 ∧ rhs.m_line ≠ -1 then
      if lhs.m_line = rhs.m_line then lhs.m_columnRange < rhs.m_columnRange
      else lhs.m_line < rhs.m_line
    else lhs.m_id < rhs.m_id

theorem UIMessage.lt_def {lhs rhs : UIMessage Path} :
    lhs < rhs ↔
      if lhs.m_file = rhs.m_file ∧ lhs.m_line ≠ -1 ∧ rhs.m_line ≠ -1 then
        if lhs.m_line = rhs.m_line then lhs.m_columnRange < rhs.m_columnRange
        else lhs.m_line < rhs.m_line
      else lhs.m_id < rhs.m_id :=
  .rfl

instance (lhs rhs : UIMessage Path) : Decidable (lhs < rhs) :=
  decidable_of_iff _ UIMessage.lt_def.symm

end

/-- A box shown by `tinyfd_messageBox`. -/
structure MessageBox where
  title : String
  message : String
  iconType : String

structure UIManager (Path : Type) where
  /-- The static counter of `UIMessage`. -/
  CurrentID : UInt64
  m_taskMessages : UInt64 → Option (UIMessage Path)
  m_fileMessages : Path → Option (List UInt64)

namespace UIManager
variable {Path : Type} [DecidableEq Path] [Inhabited Path]

def new : UIManager Path where
  CurrentID := 1
  m_taskMessages _ := none
  m_fileMessages _ := none

/-- `m_fileMessages[path]`, where an absent key is an empty list. -/
def fileIds (ui : UIManager Path) (path : Path) : List UInt64 := (ui.m_fileMessages path).getD []

/-- Reading `m_fileMessages[path]` makes the key. -/
def touch (ui : UIManager Path) (path : Path) : UIManager Path :=
  { ui with m_fileMessages := Function.update ui.m_fileMessages path (some (ui.fileIds path)) }

/-- The box that `AddMessage` shows for a message of the given type. -/
def systemBox (type : UInt32) (message : String) : Option MessageBox :=
  if type &&& MessageType.System ≠ 0 then
    if type &&& MessageType.Error ≠ 0 then some ⟨"Error", message, "error"⟩
    else if type &&& MessageType.Warning ≠ 0 then some ⟨"Warning", message, "warning"⟩
    else if type &&& MessageType.Info ≠ 0 then some ⟨"Info", message, "info"⟩
    else none
  else none

/-- `AddMessage` returns the id of the message. -/
def AddMessage (ui : UIManager Path) (type : UInt32) (message : String) (file : Path)
    (line : Int) (column : ColumnRange) : UInt64 × Option MessageBox × UIManager Path :=
  let spMessage : UIMessage Path := ⟨type, message, file, line, column, ui.CurrentID⟩
  let ui := { ui with CurrentID := ui.CurrentID + 1 }
  let ui :=
    if type &&& MessageType.Task ≠ 0 ∨ file ≠ default then
      { ui with
        m_taskMessages := Function.update ui.m_taskMessages spMessage.m_id (some spMessage) }
    else ui
  let ui :=
    if file ≠ default then
      { ui with
        m_fileMessages := Function.update ui.m_fileMessages spMessage.m_file
          (some (ui.fileIds spMessage.m_file ++ [spMessage.m_id])) }
    else ui
  (spMessage.m_id, systemBox type message, ui)

/-- `RemoveMessage` erases the whole list of the message's file. -/
def RemoveMessage (ui : UIManager Path) (id : UInt64) : UIManager Path :=
  match ui.m_taskMessages id with
  | some m =>
    if m.m_file ≠ default then
      { ui with m_fileMessages := Function.update ui.m_fileMessages m.m_file none }
    else ui
  | none => ui

/-- The loop of `ClearFileMessages`. -/
def clearLoop (path : Path) : Nat → UIManager Path → Outcome (UIManager Path)
  | 0, _ => .error .diverged
  | fuel + 1, ui =>
    match ui.fileIds path with
    | [] => .ok (ui.touch path)
    | id :: _ => clearLoop path fuel ((ui.touch path).RemoveMessage id)

/-- An iteration empties the list of `path` or leaves it as it was, so the loop ends within two
iterations or never. -/
def ClearFileMessages (ui : UIManager Path) (path : Path) : Outcome (UIManager Path) :=
  clearLoop path 2 ui

end UIManager

end MUtils
