import MUtils.Verify.VMOperands

/-!
# Arguments on the stack

A caller pushes the arguments in order and then their number; `Call` pops the number and fills the
registers from the last argument down to the first (`popIntoRegisters_eq`). So a native function
finds its arguments in the registers, and the caller finds its stack as it was
(`runLoop_native_call`).

`PopArgs` is to unpack arguments in the same way, but its loop begins with an assert that always
fires, and does not count: without asserts it empties the stack and reads on.
-/

namespace MUtils.VM
open Outcome

variable {client : VMClient ω} {vm vm' : VM ω} {f fn : VFunction ω} {i call : VInstruction ω}
  {vs args rest : List (TValue ω)} {is : List (VInstruction ω)} {name : String} {k : Nat}

/-- The registers with `args` in the first of them. -/
def loadRegisters (registers : VM_Reg → TValue ω) (args : List (TValue ω)) : VM_Reg → TValue ω :=
  fun r => args[r.val]?.getD (registers r)

theorem loadRegisters_of_getElem? {registers : VM_Reg → TValue ω} {r : VM_Reg} {v : TValue ω}
    (h : args[r.val]? = some v) : loadRegisters registers args r = v := by
  rw [loadRegisters, h, Option.getD_some]

theorem loadRegisters_of_le {registers : VM_Reg → TValue ω} {r : VM_Reg}
    (h : args.length ≤ r.val) : loadRegisters registers args r = registers r := by
  rw [loadRegisters, List.getElem?_eq_none h, Option.getD_none]

/-- The last of the arguments is loaded first. -/
theorem loadRegisters_concat {registers : VM_Reg → TValue ω} {v : TValue ω}
    (h : args.length < 1024) :
    loadRegisters (Function.update registers (Fin.ofNat 1024 args.length) v) args =
      loadRegisters registers (args ++ [v]) := by
  funext r
  have hval : (Fin.ofNat 1024 args.length).val = args.length := Nat.mod_eq_of_lt h
  rcases Nat.lt_trichotomy r.val args.length with hr | hr | hr
  · rw [loadRegisters, loadRegisters, List.getElem?_append_left hr, List.getElem?_eq_getElem hr,
      Option.getD_some, Option.getD_some]
  · have heq : r = Fin.ofNat 1024 args.length := Fin.ext (hr.trans hval.symm)
    rw [loadRegisters_of_le hr.ge, heq, Function.update_self]
    exact (loadRegisters_of_getElem? (by rw [hval, List.getElem?_concat_length])).symm
  · have hne : r ≠ Fin.ofNat 1024 args.length := fun heq => by
      rw [heq, hval] at hr
      exact Nat.lt_irrefl _ hr
    rw [loadRegisters_of_le hr.le, Function.update_of_ne hne, loadRegisters_of_le]
    rw [List.length_append, List.length_singleton]
    exact hr

/-- The arguments are on the stack, the last one at the front. -/
theorem popIntoRegisters_eq (hstack : vm.m_stack = args.reverse ++ rest)
    (hlen : args.length ≤ 1024) :
    popIntoRegisters args.length vm =
      .ok { vm with m_stack := rest, m_registers := loadRegisters vm.m_registers args } := by
  induction args using List.reverseRecOn generalizing vm with
  | nil =>
    obtain rfl : vm.m_stack = rest := hstack
    rfl
  | append_singleton args v ih =>
    rw [List.length_append, List.length_singleton] at hlen ⊢
    rw [List.reverse_append, List.reverse_singleton, List.singleton_append,
      List.cons_append] at hstack
    simp only [popIntoRegisters, hstack, front, ok_bind, List.tail_cons]
    rw [index_ofNat (by omega), ok_bind, ih rfl (by omega)]
    simp only [setRegister, loadRegisters_concat (Nat.lt_of_succ_le hlen)]

/-! ### Calls of native functions -/

theorem Execute_push {v : TValue ω} (h : (Operation.push v).Encodes i) :
    vm.Execute client i =
      .ok { vm with m_stack := v.value vm.m_registers :: vm.m_stack } := by
  rw [Execute_encodes h]
  rfl

/-- `AddNativeFunction` defines the function that a `Call` of the name finds. -/
theorem AddNativeFunction_defines {g : (VM_Reg → TValue ω) → Int → Outcome (TValue ω)}
    (h : vm.AddNativeFunction name g = .ok vm') :
    ∃ f, vm'.Defines name f ∧ f.pFnNative = some g :=
  ⟨_, AddFunction_defines h, rfl⟩

theorem executeCall_native {g : (VM_Reg → TValue ω) → Int → Outcome (TValue ω)}
    (hf : vm.Defines name f) (hnative : f.pFnNative = some g)
    (hstack : vm.m_stack = .int args.length :: (args.reverse ++ rest))
    (hlen : args.length ≤ 1024) :
    vm.executeCall (.string name) = (do
      let result ← g (loadRegisters vm.m_registers args) args.length
      return setRegister { vm with
        m_stack := rest
        m_registers := loadRegisters vm.m_registers args } 0 result) := by
  simp only [executeCall, TValue.holdsString, TValue.getString, assert_pos, ok_bind,
    hf.getFunction, hstack, front, TValue.getInt, List.tail_cons, Int.toNat_natCast]
  rw [popIntoRegisters_eq rfl hlen, ok_bind, hnative]

variable (client vm) in
/-- The line of a `Call` is logged without a change when the function is there. -/
theorem logInstruction_call (hf : vm.Defines name f) (htype : call.type = .Call)
    (hname : call.arg1 = .string name) :
    ∃ log, vm.logInstruction client call = .ok { vm with m_log := log } := by
  simp only [logInstruction, describe, htype, hname, TValue.getString, ok_bind, hf.getFunction,
    pure_eq_ok]
  exact ⟨_, rfl⟩

variable (client) in
/-- The operands are pushed one after another; no register changes meanwhile. -/
theorem runLoop_pushes (h : List.Forall₂ (fun v i => (Operation.push v).Encodes i) vs is)
    (hcode : is <+: fn.instructions.drop k) (hcs : vm.m_callStack.head? = some fn)
    (hpc : vm.m_pc = k) :
    ∃ log, ∀ fuel, runLoop client (fuel + vs.length) vm = runLoop client fuel
      { vm with
        m_stack := (vs.map (·.value vm.m_registers)).reverse ++ vm.m_stack
        m_pc := vm.m_pc + vs.length
        m_log := log } := by
  induction h generalizing vm k with
  | nil => exact ⟨vm.m_log, fun fuel => by simp⟩
  | @cons v i vs is hpush _ ih =>
    obtain ⟨more, hmore⟩ := hcode
    have hi : fn.instructions[k]? = some i := by
      rw [← List.head?_drop, ← hmore, List.cons_append, List.head?_cons]
    have hat : vm.At fn i := ⟨hcs, by omega, by rw [hpc, Int.toNat_natCast, hi]⟩
    have hrest : is <+: fn.instructions.drop (k + 1) := by
      rw [← List.tail_drop, ← hmore]
      exact List.prefix_append is more
    let vm₁ : VM ω := { vm with m_stack := v.value vm.m_registers :: vm.m_stack }
    obtain ⟨text, hlog⟩ := logInstruction_of_ne_call client vm₁ hpush.type_ne_call
    obtain ⟨log, hloop⟩ :=
      @ih { vm₁.log text with m_pc := vm.m_pc + 1 } (k + 1) hrest hcs (by simp [hpc])
    refine ⟨log, fun fuel => ?_⟩
    have hlength : vm.m_pc + 1 + vs.length = vm.m_pc + (vs.length + 1 : Nat) := by omega
    rw [List.length_cons, ← Nat.add_assoc, runLoop_at hat, Execute_push hpush, ok_bind, hlog,
      ok_bind]
    refine (hloop fuel).trans ?_
    simp only [vm₁, VM.log, hlength, List.map_cons, List.reverse_cons, List.append_assoc,
      List.singleton_append]

variable (client vs) in
/-- **Calling convention of native functions.** From a state in which the code goes on with pushes
of the operands `vs` and of their number and a call of the native function `g`, the machine calls
`g` with that number, in a state in which the first registers hold what the operands denoted and
the others are unchanged. It goes on behind the call, with the stack that it started with and the
result in register 0. -/
theorem runLoop_native_call {g : (VM_Reg → TValue ω) → Int → Outcome (TValue ω)}
    (hlen : vs.length ≤ 1024)
    (hpush : List.Forall₂ (fun v i => (Operation.push v).Encodes i) (vs ++ [.int vs.length]) is)
    (htype : call.type = .Call) (hname : call.arg1 = .string name)
    (hcs : vm.m_callStack.head? = some fn) (hpc : 0 ≤ vm.m_pc)
    (hcode : is ++ [call] <+: fn.instructions.drop vm.m_pc.toNat)
    (hf : vm.Defines name f) (hnative : f.pFnNative = some g) :
    ∃ (registers : VM_Reg → TValue ω) (log : TValue ω → String),
      (∀ (r : VM_Reg) v, vs[r.val]? = some v → registers r = v.value vm.m_registers) ∧
      (∀ r : VM_Reg, vs.length ≤ r.val → registers r = vm.m_registers r) ∧
      ∀ fuel, runLoop client (fuel + (vs.length + 2)) vm = (do
        let result ← g registers vs.length
        runLoop client fuel { vm with
          m_registers := Function.update registers 0 result
          m_pc := vm.m_pc + (vs.length + 2)
          m_log := log result }) := by
  have hpc' : vm.m_pc = vm.m_pc.toNat := (Int.toNat_of_nonneg hpc).symm
  obtain ⟨more, hmore⟩ := hcode
  rw [List.append_assoc] at hmore
  obtain ⟨log₁, hloop⟩ := runLoop_pushes client hpush ⟨_, hmore⟩ hcs hpc'
  let args := vs.map (·.value vm.m_registers)
  let registers := loadRegisters vm.m_registers args
  let vm₁ : VM ω := { vm with
    m_stack := .int args.length :: (args.reverse ++ vm.m_stack)
    m_pc := vm.m_pc + (vs.length + 1)
    m_log := log₁ }
  let vm₂ (result : TValue ω) : VM ω := setRegister { vm₁ with
    m_stack := vm.m_stack
    m_registers := registers } 0 result
  have hlen' : args.length = vs.length := List.length_map _
  have hstart (fuel : Nat) :
      runLoop client (fuel + (vs.length + 2)) vm = runLoop client (fuel + 1) vm₁ := by
    have hlength : fuel + (vs.length + 2) = fuel + 1 + (vs ++ [TValue.int vs.length]).length := by
      rw [List.length_append, List.length_singleton]
      omega
    rw [hlength, hloop]
    simp [vm₁, args, TValue.value]
  have hat : vm₁.At fn call := by
    refine ⟨hcs, by simp only [vm₁]; omega, ?_⟩
    have hpos : vm₁.m_pc.toNat = vm.m_pc.toNat + is.length := by
      have := hpush.length_eq
      simp only [List.length_append, List.length_singleton] at this
      simp only [vm₁]
      omega
    rw [hpos, ← List.getElem?_drop, ← hmore, List.getElem?_append_right le_rfl, Nat.sub_self]
    rfl
  have hexec : vm₁.Execute client call = (do return vm₂ (← g registers vs.length)) := by
    have hcall := @executeCall_native ω vm₁ f args vm.m_stack name g hf hnative rfl
    simp only [Execute, htype, hname]
    rw [hcall (hlen'.trans_le hlen), hlen']
  have hlog (result : TValue ω) :
      ∃ log, (vm₂ result).logInstruction client call = .ok { vm₂ result with m_log := log } :=
    logInstruction_call client (vm₂ result) hf htype hname
  choose log hlog using hlog
  refine ⟨registers, log, fun r v hv => ?_, fun r hr => ?_, fun fuel => ?_⟩
  · exact loadRegisters_of_getElem? (by rw [List.getElem?_map, hv, Option.map_some])
  · exact loadRegisters_of_le (hlen'.trans_le hr)
  · rw [hstart, runLoop_at hat, hexec]
    cases g registers vs.length with
    | error e => rfl
    | ok result =>
      simp only [ok_bind, pure_eq_ok, hlog]
      simp only [vm₂, vm₁, setRegister, add_assoc]
      rfl

/-- A native function that adds its two arguments. -/
def addsRegisters (registers : VM_Reg → TValue Empty) (_ : Int) : Outcome (TValue Empty) :=
  testClient.Add (registers .R0) (registers .R1)

def addsFiveToR0 : VFunction Empty where
  name := "main"
  instructions :=
    [⟨.Push, .int 5, .int 0⟩, ⟨.Push, .reg .R0, .int 0⟩, ⟨.Push, .int 2, .int 0⟩,
      ⟨.Call, .string "add", .int 0⟩]

/-- A machine in `addsFiveToR0`, with 7 in every register, before the function is added. -/
def withoutFunctions : VM Empty where
  m_functionMap _ := none
  m_functions := []
  m_pc := 0
  m_stack := []
  m_callStack := [addsFiveToR0]
  m_registers _ := .int 7
  m_log := ""

def inAddsFiveToR0 : VM Empty :=
  { withoutFunctions with
    m_functionMap := Function.update (fun _ => none) "add" (some 0)
    m_functions := [{ name := "add", pFnNative := some addsRegisters }] }

theorem runLoop_native_call_adder : ∃ vm, runLoop testClient 5 inAddsFiveToR0 = .ok vm ∧
    vm.m_registers 0 = .int 12 ∧ vm.m_registers 2 = .int 7 ∧ vm.m_stack = [] ∧ vm.m_pc = 4 := by
  have hpush : List.Forall₂ (fun v i => (Operation.push v).Encodes i)
      [.int 5, .reg .R0, .int 2] (addsFiveToR0.instructions.take 3) :=
    .cons ⟨rfl, rfl⟩ (.cons ⟨rfl, rfl⟩ (.cons ⟨rfl, rfl⟩ .nil))
  have hcs : inAddsFiveToR0.m_callStack.head? = some addsFiveToR0 := rfl
  have hadded : withoutFunctions.AddNativeFunction "add" addsRegisters = .ok inAddsFiveToR0 := rfl
  obtain ⟨f, hf, hnative⟩ := AddNativeFunction_defines hadded
  obtain ⟨registers, log, hargs, hother, hloop⟩ := runLoop_native_call testClient
    [.int 5, .reg .R0] (by decide) hpush rfl rfl hcs le_rfl List.prefix_rfl hf hnative
  have hadd (count : Int) : addsRegisters registers count = .ok (.int 12) := by
    rw [addsRegisters, hargs .R0 (.int 5) rfl, hargs .R1 (.reg .R0) rfl]
    rfl
  have hrun := hloop 1
  rw [hadd, ok_bind] at hrun
  exact ⟨_, hrun.trans (runLoop_end hcs le_rfl), rfl, hother 2 (by decide), rfl, rfl⟩

/-! ### PopArgs -/

theorem executePopArgs_pos {count : Int} (hstack : vm.m_stack.head? = some (.int count))
    (hpos : 0 < count) : vm.executePopArgs = .error (.assertion "!\"\"") := by
  simp only [executePopArgs, front_eq_ok.2 hstack, ok_bind, TValue.getInt, hpos, if_true]
  rfl

theorem executePopArgs_zero (hstack : vm.m_stack = .int 0 :: rest) :
    vm.executePopArgs = .ok { vm with m_stack := rest } := by
  simp only [executePopArgs, hstack, front, ok_bind, TValue.getInt, List.tail_cons]
  rfl

/-- Without its assert the loop pops into one register until the stack is empty. -/
theorem popArgsLoop_pos {count : Int} (hpos : 0 < count) {fuel : Nat}
    (hfuel : vm.m_stack.length < fuel) :
    popArgsLoop count count fuel vm = .error (.outOfRange "m_stack") := by
  induction fuel generalizing vm with
  | zero => omega
  | succ fuel ih =>
    rw [popArgsLoop, if_pos hpos]
    cases hstack : vm.m_stack with
    | nil => rfl
    | cons v rest =>
      rw [Int.sub_self]
      rw [hstack] at hfuel
      exact ih (Nat.lt_of_succ_lt_succ hfuel)

theorem executePopArgsUnchecked_pos {count : Int} (hstack : vm.m_stack = .int count :: rest)
    (hpos : 0 < count) {fuel : Nat} (hfuel : rest.length < fuel) :
    executePopArgsUnchecked fuel vm = .error (.outOfRange "m_stack") := by
  simp only [executePopArgsUnchecked, hstack, front, ok_bind, TValue.getInt, List.tail_cons]
  exact popArgsLoop_pos hpos hfuel

variable (client) in
/-- `PopArgs` unpacks its arguments only if there are none. In a build without its assert it reads
from an empty stack instead. -/
theorem Execute_popArgs_iff (htype : i.type = .PopArgs)
    (hstack : vm.m_stack = .int vs.length :: (vs ++ rest)) :
    ((∃ vm', vm.Execute client i = .ok vm' ∧ vm'.m_stack = rest ∧
      (∀ (r : VM_Reg) v, vs[r.val]? = some v → vm'.m_registers r = v) ∧
      ∀ r : VM_Reg, vs.length ≤ r.val → vm'.m_registers r = vm.m_registers r) ↔ vs = []) ∧
    (vs ≠ [] → ∀ fuel, (vs ++ rest).length < fuel →
      executePopArgsUnchecked fuel vm = .error (.outOfRange "m_stack")) := by
  have hpos (hne : vs ≠ []) : (0 : Int) < vs.length := by exact_mod_cast List.length_pos_iff.2 hne
  refine ⟨?_, fun hne fuel hfuel => executePopArgsUnchecked_pos hstack (hpos hne) hfuel⟩
  simp only [Execute, htype]
  constructor
  · rintro ⟨vm', hok, -⟩
    by_contra hne
    rw [executePopArgs_pos (by rw [hstack]; rfl) (hpos hne)] at hok
    cases hok
  · rintro rfl
    exact ⟨_, executePopArgs_zero hstack, rfl, fun r v hv => by simp at hv, fun _ _ => rfl⟩

def popArgs : VInstruction Empty := ⟨.PopArgs, .int 0, .int 0⟩

theorem Execute_popArgs_iff_nil :
    ∃ vm, Execute testClient { loaded with m_stack := [.int 0, .int 3] } popArgs = .ok vm ∧
      vm.m_stack = [.int 3] ∧ vm.m_registers .R0 = .int 0 := by
  let vm : VM Empty := { loaded with m_stack := [.int 0, .int 3] }
  have hstack : vm.m_stack = .int ([] : List (TValue Empty)).length :: ([] ++ [.int 3]) := rfl
  have htype : popArgs.type = .PopArgs := rfl
  obtain ⟨vm', hok, hrest, -, hother⟩ := (Execute_popArgs_iff testClient htype hstack).1.2 rfl
  exact ⟨vm', hok, hrest, hother .R0 (Nat.zero_le _)⟩

/-- One argument, with the assert and without it. -/
theorem Execute_popArgs_one :
    Execute testClient { loaded with m_stack := [.int 1, .int 3] } popArgs =
      .error (.assertion "!\"\"") ∧
    executePopArgsUnchecked 2 { loaded with m_stack := [.int 1, .int 3] } =
      .error (.outOfRange "m_stack") := ⟨rfl, rfl⟩

end MUtils.VM
