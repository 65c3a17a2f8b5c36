import MUtils.Theory.Outcome

/-!
# The virtual machine of `vm.h`

`VM<TValue>` runs functions of seven kinds of instructions over a register file and a stack whose
top is the front of a deque. `TValue` is the client's `std::variant`; the machine itself looks only
for its `std::string`, `int` and `VM_Reg` alternatives. The client also provides `Add` and the
function that prints a value, and its native functions, which read their arguments from the
registers and leave the machine alone.

A `VFunction*` is modelled by the function it points to: no method changes a function that exists.
-/

namespace MUtils
open Outcome

/-- A register by its number: `VM_Reg` names `R0` to `R8`, and `RegisterByIndex` makes the other
registers of `m_registers`. -/
abbrev VM_Reg := Fin 1024

def VM_Reg.R0 : VM_Reg := 0

def VM_Reg.R1 : VM_Reg := 1

inductive VM_IType where
  | Push
  | Pop
  | PopArgs
  | Ret
  | Call
  | Add
  | Mov
  deriving DecidableEq, Repr

/-- The client's variant; `ω` is the sum of its alternatives that the machine does not know. -/
inductive TValue (ω : Type) where
  | string (s : String)
  | int (i : Int)
  | reg (r : VM_Reg)
  | other (v : ω)
  deriving DecidableEq, Repr

namespace TValue

/-- `std::get<std::string>` -/
def getString : TValue ω → Outcome String
  | string s => .ok s
  | _ => .error (.uncaught "std::bad_variant_access")

/-- `std::get<int>` -/
def getInt : TValue ω → Outcome Int
  | int i => .ok i
  | _ => .error (.uncaught "std::bad_variant_access")

/-- `std::get<VM_Reg>` -/
def getReg : TValue ω → Outcome VM_Reg
  | reg r => .ok r
  | _ => .error (.uncaught "std::bad_variant_access")

/-- `std::holds_alternative<std::string>` -/
def holdsString : TValue ω → Bool
  | string _ => true
  | _ => false

/-- `std::holds_alternative<VM_Reg>` -/
def holdsReg : TValue ω → Bool
  | reg _ => true
  | _ => false

end TValue

structure VInstruction (ω : Type) where
  type : VM_IType
  arg1 : TValue ω
  arg2 : TValue ω

structure VFunction (ω : Type) where
  name : String
  instructions : List (VInstruction ω) := []
  /-- Called with the registers and the argument count. -/
  pFnNative : Option ((VM_Reg → TValue ω) → Int → Outcome (TValue ω)) := none

/-- What the client of the machine provides. -/
structure VMClient (ω : Type) where
  /-- The `Add` that `vm.h` declares `extern`. -/
  Add : TValue ω → TValue ω → Outcome (TValue ω)
  /-- What `DumpArgFn` prints. -/
  dumpArg : TValue ω → String

structure VM (ω : Type) where
  m_functionMap : String → Option Nat
  m_functions : List (VFunction ω)
  m_pc : Int
  m_stack : List (TValue ω)
  m_callStack : List (VFunction ω)
  m_registers : VM_Reg → TValue ω
  m_log : String

/-- `front()` of a deque. -/
def front (container : String) : List α → Outcome α
  | [] => .error (.outOfRange container)
  | a :: _ => .ok a

namespace VM

def setRegister (vm : VM ω) (r : VM_Reg) (v : TValue ω) : VM ω :=
  { vm with m_registers := Function.update vm.m_registers r v }

/-- `GetFunction` makes an empty function when there is none of that name. -/
def GetFunction (vm : VM ω) (name : String) : Outcome (VFunction ω × VM ω) :=
  match vm.m_functionMap name with
  | none =>
    let pFn : VFunction ω := { name }
    .ok (pFn, { vm with
      m_functions := vm.m_functions ++ [pFn]
      m_functionMap := Function.update vm.m_functionMap name (some vm.m_functions.length) })
  | some i =>
    match vm.m_functions[i]? with
    | some pFn => .ok (pFn, vm)
    | none => .error (.outOfRange "m_functions")

/-- `AddFunction`, where the name of the function given is not read. -/
def AddFunction (vm : VM ω) (name : String) (spFunction : VFunction ω) : Outcome (VM ω) := do
  assert (vm.m_functionMap name = none) "m_functionMap.find(name) == m_functionMap.end()"
  return { vm with
    m_functions := vm.m_functions ++ [{ spFunction with name }]
    m_functionMap := Function.update vm.m_functionMap name (some vm.m_functions.length) }

def AddNativeFunction (vm : VM ω) (name : String)
    (fn : (VM_Reg → TValue ω) → Int → Outcome (TValue ω)) : Outcome (VM ω) :=
  vm.AddFunction name { name, pFnNative := some fn }

/-! ### Execute -/

/-- The loop of `Call` that pops `count` values into the registers, the last one first. -/
def popIntoRegisters : Nat → VM ω → Outcome (VM ω)
  | 0, vm => .ok vm
  | count + 1, vm => do
    let v ← front "m_stack" vm.m_stack
    let i ← index count 1024 "m_registers"
    popIntoRegisters count
      { vm.setRegister (Fin.ofNat 1024 i) v with m_stack := vm.m_stack.tail }

def executeCall (vm : VM ω) (arg1 : TValue ω) : Outcome (VM ω) := do
  assert arg1.holdsString "std::holds_alternative<std::string>(instruction.arg1)"
  let fnName ← arg1.getString
  let (fn, vm) ← vm.GetFunction fnName
  let count ← (← front "m_stack" vm.m_stack).getInt
  let vm ← popIntoRegisters count.toNat { vm with m_stack := vm.m_stack.tail }
  match fn.pFnNative with
  | some pFnNative =>
    let result ← pFnNative vm.m_registers count
    return vm.setRegister 0 result
  | none =>
    return { vm with
      m_stack := .int (vm.m_pc + 1) :: vm.m_stack
      m_pc := 0
      m_callStack := fn :: vm.m_callStack }

/-- The return address is read at the front of the stack; what is removed is its back. -/
def executeRet (vm : VM ω) : Outcome (VM ω) := do
  assert (vm.m_callStack ≠ []) "!m_callStack.empty()"
  let pc ← (← front "m_stack" vm.m_stack).getInt
  return { vm with
    m_pc := pc
    m_stack := vm.m_stack.dropLast
    m_callStack := vm.m_callStack.tail }

def executePush (vm : VM ω) (arg1 : TValue ω) : VM ω :=
  match arg1 with
  | .reg r => { vm with m_stack := vm.m_registers r :: vm.m_stack }
  | v => { vm with m_stack := v :: vm.m_stack }

def executePop (vm : VM ω) (arg1 : TValue ω) : Outcome (VM ω) := do
  assert arg1.holdsReg "std::holds_alternative<VM_Reg>(instruction.arg1)"
  let r ← arg1.getReg
  let v ← front "m_stack" vm.m_stack
  return { vm.setRegister r v with m_stack := vm.m_stack.tail }

/-- The loop of `PopArgs` starts with an assert of a constant that is false. -/
def executePopArgs (vm : VM ω) : Outcome (VM ω) := do
  let count ← (← front "m_stack" vm.m_stack).getInt
  if 0 < count then assert False "!\"\""
  return { vm with m_stack := vm.m_stack.tail }

/-- The loop of `PopArgs` where asserts are compiled out, for at most `fuel` iterations. -/
def popArgsLoop (args count : Int) : Nat → VM ω → Outcome (VM ω)
  | 0, _ => .error .diverged
  | fuel + 1, vm =>
    if 0 < count then do
      let v ← front "m_stack" vm.m_stack
      let i ← index (args - count) 1024 "m_registers"
      popArgsLoop args count fuel
        { vm.setRegister (Fin.ofNat 1024 i) v with m_stack := vm.m_stack.tail }
    else .ok vm

/-- `PopArgs` where asserts are compiled out. -/
def executePopArgsUnchecked (fuel : Nat) (vm : VM ω) : Outcome (VM ω) := do
  let count ← (← front "m_stack" vm.m_stack).getInt
  popArgsLoop count count fuel { vm with m_stack := vm.m_stack.tail }

def executeMov (vm : VM ω) (arg1 arg2 : TValue ω) : Outcome (VM ω) := do
  assert arg1.holdsReg "std::holds_alternative<VM_Reg>(instruction.arg1)"
  let r ← arg1.getReg
  return vm.setRegister r arg2

variable (client : VMClient ω)

/-- The source of `Add` is taken from `arg1`, whichever alternative `arg2` holds. -/
def executeAdd (vm : VM ω) (arg1 arg2 : TValue ω) : Outcome (VM ω) := do
  assert arg1.holdsReg "std::holds_alternative<VM_Reg>(instruction.arg1)"
  let r ← arg1.getReg
  let source := if arg2.holdsReg then vm.m_registers r else arg1
  let v ← client.Add (vm.m_registers r) source
  return vm.setRegister r v

def Execute (vm : VM ω) (i : VInstruction ω) : Outcome (VM ω) :=
  match i.type with
  | .Call => vm.executeCall i.arg1
  | .Ret => vm.executeRet
  | .Push => .ok (vm.executePush i.arg1)
  | .Pop => vm.executePop i.arg1
  | .PopArgs => vm.executePopArgs
  | .Mov => vm.executeMov i.arg1 i.arg2
  | .Add => vm.executeAdd client i.arg1 i.arg2

/-! ### Run -/

/-- The text of an instruction in the log of `Run`. `GetFunction` is asked again whether the
function of a `Call` is native. -/
def describe (vm : VM ω) (i : VInstruction ω) : Outcome (String × VM ω) :=
  match i.type with
  | .Call => do
    let (fn, vm) ← vm.GetFunction (← i.arg1.getString)
    return ("CALL " ++ client.dumpArg i.arg1 ++ if fn.pFnNative.isSome then " (native)" else "", vm)
  | .Ret => .ok ("RET", vm)
  | .Push => .ok ("PUSH " ++ client.dumpArg i.arg1, vm)
  | .Pop => .ok ("POP " ++ client.dumpArg i.arg1, vm)
  | .PopArgs => .ok ("POPARGS", vm)
  | .Mov => .ok ("MOV " ++ client.dumpArg i.arg1 ++ ", " ++ client.dumpArg i.arg2, vm)
  | .Add => .ok ("Add " ++ client.dumpArg i.arg1 ++ ", " ++ client.dumpArg i.arg2, vm)

/-- `std::setw(20) << std::left` -/
def padTo20 (s : String) : String := s ++ String.ofList (List.replicate (20 - s.length) ' ')

/-- The line that `Run` logs after it has executed `i`. -/
def logInstruction (vm : VM ω) (i : VInstruction ω) : Outcome (VM ω) := do
  let (inst, vm) ← vm.describe client i
  let stack := String.join (vm.m_stack.map fun s => " [" ++ client.dumpArg s ++ "]")
  return { vm with m_log := vm.m_log ++ padTo20 inst ++ "Stack:" ++ stack ++ "\n" }

/-- The instruction at `m_pc`, if the condition of the loop of `Run` holds: `m_pc` is compared as
an unsigned number, so a negative one ends the loop. -/
def fetch (vm : VM ω) : Outcome (Option (VInstruction ω)) := do
  let fn ← front "m_callStack" vm.m_callStack
  return if vm.m_pc < 0 then none else fn.instructions[vm.m_pc.toNat]?

/-- One iteration of the loop of `Run`, or nothing when the loop ends. -/
def step (vm : VM ω) : Outcome (Option (VM ω)) := do
  match ← vm.fetch with
  | none => return none
  | some i =>
    let vm ← vm.Execute client i
    let vm ← vm.logInstruction client i
    return some { vm with m_pc := vm.m_pc + 1 }

def runLoop : Nat → VM ω → Outcome (VM ω)
  | 0, _ => .error .diverged
  | fuel + 1, vm => do
    match ← vm.step client with
    | none => return vm
    | some vm => runLoop fuel vm

/-- The state in which `Run(pFn)` enters its loop. -/
def enter (vm : VM ω) (pFn : VFunction ω) : VM ω :=
  { vm with
    m_callStack := pFn :: vm.m_callStack
    m_pc := 0
    m_log := vm.m_log ++ "\nRunning " ++ pFn.name ++ "\n" }

/-- `Run`; the loop of a program that calls itself for ever uses up any `fuel`. -/
def Run (fuel : Nat) (vm : VM ω) (pFn : VFunction ω) : Outcome (VM ω) :=
  runLoop client fuel (vm.enter pFn)

/-! ### Dump -/

/-- `m_log << text` -/
def log (vm : VM ω) (text : String) : VM ω := { vm with m_log := vm.m_log ++ text }

/-- The text of an instruction in `Dump`, which differs from that in the log of `Run`: `Ret` has a
line of its own and `Add` no text. -/
def dumpText (vm : VM ω) (i : VInstruction ω) : Outcome (String × VM ω) :=
  match i.type with
  | .Call => do
    let (fn, vm) ← vm.GetFunction (← i.arg1.getString)
    return ("CALL " ++ client.dumpArg i.arg1 ++ if fn.pFnNative.isSome then " (native)" else "", vm)
  | .Ret => .ok ("RET\n", vm)
  | .Push => .ok ("PUSH " ++ client.dumpArg i.arg1, vm)
  | .Pop => .ok ("POP " ++ client.dumpArg i.arg1, vm)
  | .PopArgs => .ok ("POPARGS", vm)
  | .Mov => .ok ("MOV " ++ client.dumpArg i.arg1 ++ ", " ++ client.dumpArg i.arg2, vm)
  | .Add => .ok ("", vm)

/-- The loop over the instructions of a function, the first of which is printed as number
`index`, a `uint32_t`. -/
def dumpInstructions : Nat → List (VInstruction ω) → VM ω → Outcome (VM ω)
  | _, [], vm => .ok vm
  | index, i :: is, vm => do
    let (text, vm) ← vm.dumpText client i
    dumpInstructions (index + 1) is
      (vm.log (toString (index % 2 ^ 32) ++ ": " ++ text ++ "\n"))

def dumpFunction (vm : VM ω) (fn : VFunction ω) : Outcome (VM ω) := do
  let vm ← dumpInstructions client 0 fn.instructions (vm.log ("\n" ++ fn.name ++ ":\n"))
  return vm.log "\n"

/-- The loop runs over the functions that are there when it starts. A function that `GetFunction`
adds meanwhile ends the life of its iterators when the vector has to move; this is the better
case, in which it has room. -/
def Dump (vm : VM ω) : Outcome (VM ω) :=
  vm.m_functions.foldlM (dumpFunction client) (vm.log "\nVM:\n")

end VM

end MUtils
