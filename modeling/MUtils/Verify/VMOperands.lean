import MUtils.Theory.Lockstep
import MUtils.Verify.VMCalls

/-!
# Operands of straight-line code

`Operation.eval` states what `Push`, `Pop`, `Mov` and `Add` are for: a source operand denotes the
content of the register that it names, if it names one, and itself otherwise. `Operation.execute`
is what `Execute` does instead, operation by operation (`Execute_encodes`), and `Run` on
straight-line code is its fold over the program (`Run_encodes`).

`Mov` stores its operand without looking at it, and `Add` takes the second summand from its target:
the content of the target if the operand is a register, and otherwise the name of the target. So
`Run` computes what it should as long as every `Mov` and `Add` comes to a state in which that makes
no difference (`Operation.Faithful`).
-/

namespace MUtils
open Outcome

/-- What the operand `v` denotes. -/
def TValue.value (registers : VM_Reg → TValue ω) : TValue ω → TValue ω
  | .reg r => registers r
  | v => v

namespace VM

/-- What the machine computes on: all but the log, the program counter and the call stack. -/
@[ext] structure Machine (ω : Type) where
  m_functionMap : String → Option Nat
  m_functions : List (VFunction ω)
  m_stack : List (TValue ω)
  m_registers : VM_Reg → TValue ω

def machine (vm : VM ω) : Machine ω :=
  ⟨vm.m_functionMap, vm.m_functions, vm.m_stack, vm.m_registers⟩

def withMachine (vm : VM ω) (m : Machine ω) : VM ω :=
  { vm with
    m_functionMap := m.m_functionMap
    m_functions := m.m_functions
    m_stack := m.m_stack
    m_registers := m.m_registers }

def Machine.setRegister (m : Machine ω) (r : VM_Reg) (v : TValue ω) : Machine ω :=
  { m with m_registers := Function.update m.m_registers r v }

/-- The operations of straight-line code. -/
inductive Operation (ω : Type) where
  | push (v : TValue ω)
  | pop (r : VM_Reg)
  | mov (r : VM_Reg) (s : TValue ω)
  | add (r : VM_Reg) (s : TValue ω)

namespace Operation

/-- The instruction `i` stands for the operation. The second operand of `Push` and `Pop` is not
used. -/
def Encodes : Operation ω → VInstruction ω → Prop
  | push v, i => i.type = .Push ∧ i.arg1 = v
  | pop r, i => i.type = .Pop ∧ i.arg1 = .reg r
  | mov r s, i => i.type = .Mov ∧ i.arg1 = .reg r ∧ i.arg2 = s
  | add r s, i => i.type = .Add ∧ i.arg1 = .reg r ∧ i.arg2 = s

variable (client : VMClient ω) (m : Machine ω)

/-- The meaning of an operation. -/
def eval : Operation ω → Outcome (Machine ω)
  | push v => .ok { m with m_stack := v.value m.m_registers :: m.m_stack }
  | pop r => do
    let v ← front "m_stack" m.m_stack
    return { m.setRegister r v with m_stack := m.m_stack.tail }
  | mov r s => .ok (m.setRegister r (s.value m.m_registers))
  | add r s => do
    let v ← client.Add (m.m_registers r) (s.value m.m_registers)
    return m.setRegister r v

/-- The second summand that `Execute` takes for an `Add` to `r`. -/
def source (r : VM_Reg) (s : TValue ω) : TValue ω :=
  if s.holdsReg then m.m_registers r else .reg r

/-- What `Execute` does. -/
def execute : Operation ω → Outcome (Machine ω)
  | mov r s => .ok (m.setRegister r s)
  | add r s => do
    let v ← client.Add (m.m_registers r) (source m r s)
    return m.setRegister r v
  | op => op.eval client m

/-- `Execute` does what the operation means in this state. -/
def Faithful : Operation ω → Prop
  | mov _ s => s = s.value m.m_registers
  | add r s => client.Add (m.m_registers r) (source m r s) =
      client.Add (m.m_registers r) (s.value m.m_registers)
  | _ => True

end Operation

/-- The meaning of a program. -/
def evalAll (client : VMClient ω) (ops : List (Operation ω)) (m : Machine ω) :
    Outcome (Machine ω) :=
  ops.foldlM (fun m op => op.eval client m) m

variable {client : VMClient ω} {vm vm' : VM ω} {m m' : Machine ω} {fn : VFunction ω}
  {i : VInstruction ω} {op : Operation ω} {ops : List (Operation ω)} {fuel k : Nat}

/-! ### One operation -/

theorem Machine.setRegister_injective (r : VM_Reg) : Function.Injective (m.setRegister r) := by
  intro v w h
  have hr := congrFun (congrArg Machine.m_registers h) r
  simpa [setRegister] using hr

theorem Operation.execute_eq_eval_iff :
    op.execute client m = op.eval client m ↔ op.Faithful client m := by
  cases op with
  | push v => exact iff_of_true rfl trivial
  | pop r => exact iff_of_true rfl trivial
  | mov r s =>
    simp only [execute, eval, Faithful, Except.ok.injEq]
    exact (Machine.setRegister_injective r).eq_iff
  | add r s =>
    simp only [execute, eval, Faithful]
    cases client.Add (m.m_registers r) (source m r s) <;>
      cases client.Add (m.m_registers r) (s.value m.m_registers) <;>
      simp [(Machine.setRegister_injective r).eq_iff]

theorem Execute_encodes (h : op.Encodes i) :
    vm.Execute client i = (op.execute client vm.machine).map vm.withMachine := by
  obtain ⟨type, arg1, arg2⟩ := i
  cases op with
  | push v =>
    obtain ⟨rfl, rfl⟩ := h
    cases arg1 <;> rfl
  | pop r =>
    obtain ⟨rfl, rfl⟩ := h
    change vm.executePop (.reg r) = _
    cases hs : vm.m_stack with
    | nil => simp [executePop, Operation.execute, Operation.eval, machine, hs]; rfl
    | cons v vs => simp [executePop, Operation.execute, Operation.eval, machine, hs]; rfl
  | mov r s =>
    obtain ⟨rfl, rfl, rfl⟩ := h
    rfl
  | add r s =>
    obtain ⟨rfl, rfl, rfl⟩ := h
    change (do
      let v ← client.Add (vm.m_registers r) (Operation.source vm.machine r arg2)
      return vm.setRegister r v) = _
    simp only [Operation.execute, machine]
    cases client.Add (vm.m_registers r) _ <;> rfl

theorem Operation.Encodes.type_ne_call (h : op.Encodes i) : i.type ≠ .Call := by
  cases op <;> simp [h.1]

/-! ### The loop -/

theorem runLoop_at (hat : vm.At fn i) :
    runLoop client (fuel + 1) vm = (do
      let vm ← vm.Execute client i
      let vm ← vm.logInstruction client i
      runLoop client fuel { vm with m_pc := vm.m_pc + 1 }) := by
  simp only [runLoop, step, fetch_eq_some.2 ⟨fn, hat⟩, ok_bind, bind_assoc, pure_eq_ok]

/-- The loop ends at the end of the function. -/
theorem runLoop_end (hcs : vm.m_callStack.head? = some fn)
    (hend : fn.instructions.length ≤ vm.m_pc) : runLoop client (fuel + 1) vm = .ok vm := by
  have hnone : fn.instructions[vm.m_pc.toNat]? = none := List.getElem?_eq_none (by omega)
  have hfetch : vm.fetch = .ok none := by
    rw [fetch, front_eq_ok.2 hcs, ok_bind, hnone, ite_self, pure_eq_ok]
  rw [runLoop, step, hfetch]
  rfl

variable (client vm) in
/-- Only a `Call` is logged with a look at the functions. -/
theorem logInstruction_of_ne_call (h : i.type ≠ .Call) :
    ∃ text, vm.logInstruction client i = .ok (vm.log text) := by
  obtain ⟨type, arg1, arg2⟩ := i
  cases type with
  | Call => exact absurd rfl h
  | _ => exact ⟨_, by simp only [logInstruction, describe, ok_bind, log, String.append_assoc]; rfl⟩

/-- The rest `ops` of a program, from instruction `k` on. -/
theorem runLoop_encodes {is : List (VInstruction ω)} (h : List.Forall₂ Operation.Encodes ops is)
    (hcode : fn.instructions.drop k = is) (hcs : vm.m_callStack.head? = some fn)
    (hpc : vm.m_pc = k) (hfuel : ops.length < fuel) :
    (runLoop client fuel vm).map machine =
      ops.foldlM (fun m op => op.execute client m) vm.machine := by
  induction h generalizing vm k fuel with
  | nil =>
    obtain ⟨fuel, rfl⟩ : ∃ n, fuel = n + 1 := ⟨fuel - 1, by omega⟩
    have hlen := List.drop_eq_nil_iff.1 hcode
    rw [runLoop_end hcs (by omega)]
    rfl
  | @cons op i ops is hop _ ih =>
    obtain ⟨fuel, rfl⟩ : ∃ n, fuel = n + 1 := ⟨fuel - 1, by omega⟩
    have hi : fn.instructions[k]? = some i := by rw [← List.head?_drop, hcode, List.head?_cons]
    have hat : vm.At fn i := ⟨hcs, by omega, by rw [hpc, Int.toNat_natCast, hi]⟩
    have hrest : fn.instructions.drop (k + 1) = is := by
      rw [← List.tail_drop, hcode, List.tail_cons]
    rw [runLoop_at hat, Execute_encodes hop, List.foldlM_cons]
    cases hex : op.execute client vm.machine with
    | error e => rfl
    | ok m =>
      obtain ⟨text, hlog⟩ :=
        logInstruction_of_ne_call client (vm.withMachine m) hop.type_ne_call
      simp only [Except.map, ok_bind, hlog]
      refine ih hrest hcs ?_ (Nat.lt_of_succ_lt_succ hfuel)
      change vm.m_pc + 1 = _
      rw [hpc, Nat.cast_succ]

/-- `Run` executes the operations of a straight-line function one after another. -/
theorem Run_encodes (h : List.Forall₂ Operation.Encodes ops fn.instructions)
    (hfuel : ops.length < fuel) : (vm.Run client fuel fn).map machine =
      ops.foldlM (fun m op => op.execute client m) vm.machine :=
  runLoop_encodes (k := 0) h rfl rfl rfl hfuel

/-! ### Straight-line programs -/

/-- `Run` computes what a straight-line program means, and so for every part that the program
begins with, exactly if each `Mov` and `Add` comes to a state in which the mix-up of its operands
makes no difference. -/
theorem Run_straightLine_iff (h : List.Forall₂ Operation.Encodes ops fn.instructions)
    (hfuel : ops.length < fuel) :
    (∀ k, (vm.Run client fuel { fn with instructions := fn.instructions.take k }).map machine =
        evalAll client (ops.take k) vm.machine) ↔
      ∀ k op m, ops[k]? = some op → evalAll client (ops.take k) vm.machine = .ok m →
        op.Faithful client m := by
  have hrun (k : Nat) :
      (vm.Run client fuel { fn with instructions := fn.instructions.take k }).map machine =
        (ops.take k).foldlM (fun m op => op.execute client m) vm.machine := by
    refine Run_encodes (List.forall₂_take k h) ?_
    rw [List.length_take]
    omega
  simp only [hrun, evalAll, Lockstep.agree_iff, Operation.execute_eq_eval_iff]

/-- A function that copies a number from `R0` to `R1` through the stack. -/
def copiesSix : VFunction Empty where
  name := "main"
  instructions := [⟨.Mov, .reg .R0, .int 6⟩, ⟨.Push, .reg .R0, .int 0⟩, ⟨.Pop, .reg .R1, .int 0⟩]

theorem Run_straightLine_iff_copiesSix : (loaded.Run testClient 4 copiesSix).map machine =
    evalAll testClient [.mov .R0 (.int 6), .push (.reg .R0), .pop .R1] loaded.machine := by
  have hops : List.Forall₂ Operation.Encodes [.mov .R0 (.int 6), .push (.reg .R0), .pop .R1]
      copiesSix.instructions :=
    .cons ⟨rfl, rfl, rfl⟩ (.cons ⟨rfl, rfl⟩ (.cons ⟨rfl, rfl⟩ .nil))
  refine (Run_straightLine_iff hops (by decide)).2 (fun k op m hop _ => ?_) 3
  rcases k with _ | _ | _ | k
  · cases hop
    rfl
  · cases hop
    trivial
  · cases hop
    trivial
  · cases hop

/-- `Mov R0, R1` stores the name of the register, and `Add R0, 2` adds the name of its target. -/
theorem Run_straightLine_mixed_up :
    (∃ vm, loaded.Run testClient 2 ⟨"main", [⟨.Mov, .reg .R0, .reg .R1⟩], none⟩ = .ok vm ∧
      vm.m_registers .R0 = .reg .R1) ∧
    (∃ m, evalAll testClient [.mov .R0 (.reg .R1)] loaded.machine = .ok m ∧
      m.m_registers .R0 = .int 0) ∧
    loaded.Run testClient 2 ⟨"main", [⟨.Add, .reg .R0, .int 2⟩], none⟩ =
      .error (.uncaught "std::invalid_argument") ∧
    ∃ m, evalAll testClient [.add .R0 (.int 2)] loaded.machine = .ok m ∧
      m.m_registers .R0 = .int 2 := by
  refine ⟨⟨_, rfl, rfl⟩, ⟨_, rfl, rfl⟩, rfl, _, rfl, rfl⟩

end VM

end MUtils
