import MUtils.VM.VM

/-!
# Calls and returns of the virtual machine

`Disciplined` states what `Call`, `Ret` and `Run` are for: a call runs the whole body of the
function and comes back to the instruction after it, with the stack and the call stack as they
were, and `Run` leaves the call stack as it found it.

The loop of `Run` adds one to `m_pc` after every instruction, those that have just set it
included: a function is entered at instruction 1 (`Step.call`) and a `Ret` resumes one instruction
past the return address (`Step.ret`), which stays on the stack while the value at the back of the
deque is dropped. So no run that calls a function is disciplined
(`call_return_never_disciplined`). `Run` does not take its own function off the call stack either: a
run that calls nothing leaves the call stack as it found it only with a `Ret` (`Path.callStack_eq`).
-/

namespace MUtils.VM
open Outcome

variable {client : VMClient ω} {vm vm' s s' s₁ : VM ω} {f fn : VFunction ω} {i : VInstruction ω}

theorem front_eq_ok {container : String} {xs : List α} {a : α} :
    front container xs = .ok a ↔ xs.head? = some a := by
  cases xs <;> simp [front]

theorem getInt_eq_ok {v : TValue ω} {n : Int} : v.getInt = .ok n ↔ v = .int n := by
  cases v <;> simp [TValue.getInt]

theorem getString_eq_ok {v : TValue ω} {name : String} :
    v.getString = .ok name ↔ v = .string name := by
  cases v <;> simp [TValue.getString]

/-- One iteration of the loop of `Run`. -/
def Step (client : VMClient ω) (vm vm' : VM ω) : Prop := vm.step client = .ok (some vm')

/-- The state that the next iteration executes the instruction `i` of `fn` in. -/
structure At (vm : VM ω) (fn : VFunction ω) (i : VInstruction ω) : Prop where
  current : vm.m_callStack.head? = some fn
  nonneg : 0 ≤ vm.m_pc
  instruction : fn.instructions[vm.m_pc.toNat]? = some i

theorem fetch_eq_some : vm.fetch = .ok (some i) ↔ ∃ fn, vm.At fn i := by
  cases hc : vm.m_callStack with
  | nil =>
    simp only [fetch, hc, front, error_bind, reduceCtorEq, false_iff, not_exists]
    intro fn h
    simpa [hc] using h.current
  | cons fn cs =>
    simp only [fetch, hc, front, ok_bind, pure_eq_ok, Except.ok.injEq]
    constructor
    · intro h
      split_ifs at h with hneg
      exact ⟨fn, by simp [hc], not_lt.1 hneg, h⟩
    · rintro ⟨fn', h⟩
      obtain rfl : fn = fn' := by simpa [hc] using h.current
      rw [if_neg (not_lt.2 h.nonneg), h.instruction]

/-- An iteration fetches, executes, logs and goes on to the next instruction. -/
theorem step_iff : Step client vm vm' ↔ ∃ fn i vm₁ vm₂, vm.At fn i ∧
    vm.Execute client i = .ok vm₁ ∧ vm₁.logInstruction client i = .ok vm₂ ∧
    vm' = { vm₂ with m_pc := vm₂.m_pc + 1 } := by
  unfold Step step
  rw [bind_eq_ok]
  constructor
  · rintro ⟨i?, hf, h⟩
    cases i? with
    | none => cases h
    | some i =>
      obtain ⟨fn, hat⟩ := fetch_eq_some.1 hf
      obtain ⟨vm₁, hex, h⟩ := bind_eq_ok.1 h
      obtain ⟨vm₂, hlog, h⟩ := bind_eq_ok.1 h
      cases h
      exact ⟨fn, i, vm₁, vm₂, hat, hex, hlog, rfl⟩
  · rintro ⟨fn, i, vm₁, vm₂, hat, hex, hlog, rfl⟩
    exact ⟨some i, fetch_eq_some.2 ⟨fn, hat⟩, by simp [hex, hlog]⟩

/-! ### What stays when functions are looked up, arguments popped and lines logged -/

/-- The two states agree but for the functions, the registers and the log. -/
structure SameControl (vm vm' : VM ω) : Prop where
  pc : vm'.m_pc = vm.m_pc
  stack : vm'.m_stack = vm.m_stack
  callStack : vm'.m_callStack = vm.m_callStack

theorem GetFunction_sameControl {name : String} (h : vm.GetFunction name = .ok (fn, vm')) :
    SameControl vm vm' := by
  unfold GetFunction at h
  split at h
  · cases h; exact ⟨rfl, rfl, rfl⟩
  · split at h
    · cases h; exact ⟨rfl, rfl, rfl⟩
    · cases h

/-- There is a function of that name, which is `f`. -/
def Defines (vm : VM ω) (name : String) (f : VFunction ω) : Prop :=
  ∃ k, vm.m_functionMap name = some k ∧ vm.m_functions[k]? = some f

theorem Defines.getFunction {name : String} (h : vm.Defines name f) :
    vm.GetFunction name = .ok (f, vm) := by
  obtain ⟨k, hk, hf⟩ := h
  simp only [GetFunction, hk, hf]

theorem AddFunction_defines {name : String} (h : vm.AddFunction name f = .ok vm') :
    vm'.Defines name { f with name } := by
  obtain ⟨-, -, h⟩ := bind_eq_ok.1 h
  cases h
  exact ⟨vm.m_functions.length, Function.update_self .., by simp⟩

theorem logInstruction_sameControl (h : vm.logInstruction client i = .ok vm') :
    SameControl vm vm' := by
  obtain ⟨⟨inst, vm₁⟩, hd, h⟩ := bind_eq_ok.1 h
  cases h
  suffices SameControl vm vm₁ from ⟨this.pc, this.stack, this.callStack⟩
  unfold describe at hd
  split at hd
  case h_1 =>
    obtain ⟨name, -, hd⟩ := bind_eq_ok.1 hd
    obtain ⟨⟨fn, vm₂⟩, hfn, hd⟩ := bind_eq_ok.1 hd
    cases hd
    exact GetFunction_sameControl hfn
  all_goals cases hd; exact ⟨rfl, rfl, rfl⟩

theorem popIntoRegisters_spec {count : Nat} (h : popIntoRegisters count vm = .ok vm') :
    vm'.m_pc = vm.m_pc ∧ vm'.m_callStack = vm.m_callStack ∧
      vm'.m_stack = vm.m_stack.drop count := by
  induction count generalizing vm with
  | zero => cases h; exact ⟨rfl, rfl, rfl⟩
  | succ count ih =>
    obtain ⟨v, -, h⟩ := bind_eq_ok.1 h
    obtain ⟨j, -, h⟩ := bind_eq_ok.1 h
    obtain ⟨hpc, hcs, hst⟩ := ih h
    exact ⟨hpc, hcs, by rw [hst, ← List.drop_one, List.drop_drop, Nat.add_comm]⟩

/-! ### One iteration -/

/-- `vm` is about to call the function `f`. -/
def AtCall (vm : VM ω) (f : VFunction ω) : Prop :=
  ∃ fn i name vm₁, vm.At fn i ∧ i.type = .Call ∧ i.arg1 = .string name ∧
    vm.GetFunction name = .ok (f, vm₁)

/-- `vm` is about to execute a `Ret`. -/
def AtRet (vm : VM ω) : Prop := ∃ fn i, vm.At fn i ∧ i.type = .Ret

theorem At.unique {fn₁ fn₂ : VFunction ω} {i₁ i₂ : VInstruction ω} (h₁ : vm.At fn₁ i₁)
    (h₂ : vm.At fn₂ i₂) : i₁ = i₂ := by
  have hfn := h₁.current.symm.trans h₂.current
  simp only [Option.some.injEq] at hfn
  subst hfn
  simpa using h₁.instruction.symm.trans h₂.instruction

theorem executeCall_cases {arg1 : TValue ω} (h : vm.executeCall arg1 = .ok vm') :
    ∃ name fn vm₁ count, arg1 = .string name ∧ vm.GetFunction name = .ok (fn, vm₁) ∧
      vm.m_stack.head? = some (.int count) ∧
      ((fn.pFnNative = none ∧ vm'.m_pc = 0 ∧ vm'.m_callStack = fn :: vm.m_callStack ∧
          vm'.m_stack = .int (vm.m_pc + 1) :: vm.m_stack.tail.drop count.toNat) ∨
        (fn.pFnNative ≠ none ∧ vm'.m_pc = vm.m_pc ∧ vm'.m_callStack = vm.m_callStack ∧
          vm'.m_stack = vm.m_stack.tail.drop count.toNat)) := by
  obtain ⟨-, -, h⟩ := bind_eq_ok.1 h
  obtain ⟨name, hname, h⟩ := bind_eq_ok.1 h
  obtain ⟨⟨fn, vm₁⟩, hfn, h⟩ := bind_eq_ok.1 h
  obtain ⟨top, htop, h⟩ := bind_eq_ok.1 h
  obtain ⟨count, hcount, h⟩ := bind_eq_ok.1 h
  obtain ⟨vm₂, hpop, h⟩ := bind_eq_ok.1 h
  have hsame := GetFunction_sameControl hfn
  obtain ⟨hpc, hcs, hst⟩ := popIntoRegisters_spec hpop
  rw [front_eq_ok, getInt_eq_ok.1 hcount, hsame.stack] at htop
  simp only [hsame.pc, hsame.callStack, hsame.stack] at hpc hcs hst
  refine ⟨name, fn, vm₁, count, getString_eq_ok.1 hname, hfn, htop, ?_⟩
  split at h
  · next hnative =>
    obtain ⟨result, -, h⟩ := bind_eq_ok.1 h
    cases h
    exact .inr ⟨by simp [hnative], hpc, hcs, hst⟩
  · next hnative =>
    cases h
    exact .inl ⟨hnative, rfl, by simp [hcs], by simp [hpc, hst]⟩

theorem executeRet_cases (h : vm.executeRet = .ok vm') :
    ∃ pc, vm.m_stack.head? = some (.int pc) ∧ vm.m_callStack ≠ [] ∧ vm'.m_pc = pc ∧
      vm'.m_callStack = vm.m_callStack.tail ∧ vm'.m_stack = vm.m_stack.dropLast := by
  obtain ⟨_, hne, h⟩ := bind_eq_ok.1 h
  obtain ⟨top, htop, h⟩ := bind_eq_ok.1 h
  obtain ⟨pc, hpc, h⟩ := bind_eq_ok.1 h
  cases h
  rw [front_eq_ok, getInt_eq_ok.1 hpc] at htop
  exact ⟨pc, htop, assert_eq_ok.1 hne, rfl, rfl, rfl⟩

/-- Apart from `Call` and `Ret` no instruction changes `m_pc` or the call stack. -/
theorem Execute_other (h : vm.Execute client i = .ok vm') (hcall : i.type ≠ .Call)
    (hret : i.type ≠ .Ret) : vm'.m_pc = vm.m_pc ∧ vm'.m_callStack = vm.m_callStack := by
  unfold Execute at h
  split at h
  case h_1 ht => exact (hcall ht).elim
  case h_2 ht => exact (hret ht).elim
  case h_3 =>
    cases h
    unfold executePush
    split <;> exact ⟨rfl, rfl⟩
  case h_4 =>
    obtain ⟨-, -, h⟩ := bind_eq_ok.1 h
    obtain ⟨r, -, h⟩ := bind_eq_ok.1 h
    obtain ⟨v, -, h⟩ := bind_eq_ok.1 h
    cases h
    exact ⟨rfl, rfl⟩
  case h_5 =>
    obtain ⟨top, -, h⟩ := bind_eq_ok.1 h
    obtain ⟨count, -, h⟩ := bind_eq_ok.1 h
    split at h
    · cases h
    · cases h
      exact ⟨rfl, rfl⟩
  case h_6 =>
    obtain ⟨-, -, h⟩ := bind_eq_ok.1 h
    obtain ⟨r, -, h⟩ := bind_eq_ok.1 h
    cases h
    exact ⟨rfl, rfl⟩
  case h_7 =>
    obtain ⟨-, -, h⟩ := bind_eq_ok.1 h
    obtain ⟨r, -, h⟩ := bind_eq_ok.1 h
    obtain ⟨v, -, h⟩ := bind_eq_ok.1 h
    cases h
    exact ⟨rfl, rfl⟩

/-- A `Call` of a function that is not native pushes the address of the next instruction and goes
on with instruction 1 of the function. -/
theorem Step.call (h : Step client s s') (hf : s.AtCall f) (hn : f.pFnNative = none) :
    ∃ count, s.m_stack.head? = some (.int count) ∧ s'.m_pc = 1 ∧
      s'.m_callStack = f :: s.m_callStack ∧
      s'.m_stack = .int (s.m_pc + 1) :: s.m_stack.tail.drop count.toNat := by
  obtain ⟨fn, i, vm₁, vm₂, hat, hex, hlog, rfl⟩ := step_iff.1 h
  obtain ⟨fn', i', name, vm₃, hat', htype, harg, hget⟩ := hf
  obtain rfl := hat.unique hat'
  simp only [Execute, htype] at hex
  obtain ⟨name', f', vm₄, count, harg', hget', hcount, hcase⟩ := executeCall_cases hex
  obtain rfl : name = name' := by simpa [harg] using harg'
  obtain ⟨rfl, -⟩ : f = f' ∧ vm₃ = vm₄ := by simpa [hget] using hget'
  have hsame := logInstruction_sameControl hlog
  rcases hcase with ⟨-, hpc, hcs, hst⟩ | ⟨hne, -⟩
  · exact ⟨count, hcount, by simp [hsame.pc, hpc], hsame.callStack.trans hcs, hsame.stack.trans hst⟩
  · exact (hne hn).elim

/-- A `Ret` resumes the caller one past the return address, and drops the back of the stack. -/
theorem Step.ret (h : Step client s s') (hr : s.AtRet) :
    ∃ pc, s.m_stack.head? = some (.int pc) ∧ s.m_callStack ≠ [] ∧ s'.m_pc = pc + 1 ∧
      s'.m_callStack = s.m_callStack.tail ∧ s'.m_stack = s.m_stack.dropLast := by
  obtain ⟨fn, i, vm₁, vm₂, hat, hex, hlog, rfl⟩ := step_iff.1 h
  obtain ⟨fn', i', hat', htype⟩ := hr
  obtain rfl := hat.unique hat'
  simp only [Execute, htype] at hex
  obtain ⟨pc, hstack, hne, hpc, hcs, hst⟩ := executeRet_cases hex
  have hsame := logInstruction_sameControl hlog
  exact ⟨pc, hstack, hne, by simp [hsame.pc, hpc], hsame.callStack.trans hcs,
    hsame.stack.trans hst⟩

theorem Step.mov (h : Step client s s') (hat : s.At fn i) (ht : i.type = .Mov) :
    s'.m_pc = s.m_pc + 1 ∧ s'.m_callStack = s.m_callStack ∧ s'.m_stack = s.m_stack := by
  obtain ⟨fn', i', vm₁, vm₂, hat', hex, hlog, rfl⟩ := step_iff.1 h
  obtain rfl := hat.unique hat'
  have hsame := logInstruction_sameControl hlog
  simp only [Execute, ht] at hex
  obtain ⟨-, -, hex⟩ := bind_eq_ok.1 hex
  obtain ⟨r, -, hex⟩ := bind_eq_ok.1 hex
  cases hex
  exact ⟨by simp [hsame.pc, setRegister], hsame.callStack, hsame.stack⟩

/-- An iteration calls a function that is not native, or executes a `Ret`, or goes on to the next
instruction of the same function. -/
theorem Step.cases (h : Step client s s') :
    (∃ f, s.AtCall f ∧ f.pFnNative = none) ∨ s.AtRet ∨
      (s'.m_pc = s.m_pc + 1 ∧ s'.m_callStack = s.m_callStack) := by
  obtain ⟨fn, i, vm₁, vm₂, hat, hex, hlog, rfl⟩ := step_iff.1 h
  have hsame := logInstruction_sameControl hlog
  by_cases hcall : i.type = .Call
  · simp only [Execute, hcall] at hex
    obtain ⟨name, f, vm₃, count, harg, hget, -, hcase⟩ := executeCall_cases hex
    rcases hcase with ⟨hn, -⟩ | ⟨-, hpc, hcs, -⟩
    · exact .inl ⟨f, ⟨fn, i, name, vm₃, hat, hcall, harg, hget⟩, hn⟩
    · exact .inr (.inr ⟨by simp [hsame.pc, hpc], hsame.callStack.trans hcs⟩)
  · by_cases hret : i.type = .Ret
    · exact .inr (.inl ⟨fn, i, hat, hret⟩)
    · obtain ⟨hpc, hcs⟩ := Execute_other hex hcall hret
      exact .inr (.inr ⟨by simp [hsame.pc, hpc], hsame.callStack.trans hcs⟩)

/-! ### Whole runs -/

/-- Iterations of the loop of `Run`, of which `calls` enter a function and `rets` execute a
`Ret`. -/
inductive Path (client : VMClient ω) : VM ω → Nat → Nat → VM ω → Prop
  | refl {s : VM ω} : Path client s 0 0 s
  | call {s s₁ s' : VM ω} {f : VFunction ω} : Step client s s₁ → s.AtCall f →
      f.pFnNative = none → Path client s₁ calls rets s' → Path client s (calls + 1) rets s'
  | ret {s s₁ s' : VM ω} : Step client s s₁ → s.AtRet → Path client s₁ calls rets s' →
      Path client s calls (rets + 1) s'
  | next {s s₁ s' : VM ω} : Step client s s₁ → s₁.m_pc = s.m_pc + 1 →
      s₁.m_callStack = s.m_callStack → Path client s₁ calls rets s' → Path client s calls rets s'

/-- The call stack grows by one with each call and shrinks by one with each `Ret`. -/
theorem Path.depth {calls rets : Nat} (h : Path client s calls rets s') :
    s'.m_callStack.length + rets = s.m_callStack.length + calls := by
  induction h with
  | refl => rfl
  | call hstep hf hn _ ih =>
    obtain ⟨_, -, -, hcs, -⟩ := hstep.call hf hn
    simp only [hcs, List.length_cons] at ih
    omega
  | ret hstep hr _ ih =>
    obtain ⟨_, -, hne, -, hcs, -⟩ := hstep.ret hr
    have := List.length_pos_iff.2 hne
    simp only [hcs, List.length_tail] at ih
    omega
  | next _ _ hcs _ ih => rwa [hcs] at ih

theorem runLoop_path {fuel : Nat} (h : runLoop client fuel s = .ok s') :
    ∃ calls rets, Path client s calls rets s' := by
  induction fuel generalizing s with
  | zero => cases h
  | succ fuel ih =>
    obtain ⟨next, hstep, h⟩ := bind_eq_ok.1 h
    cases next with
    | none =>
      cases h
      exact ⟨0, 0, .refl⟩
    | some s₁ =>
      have hstep : Step client s s₁ := hstep
      obtain ⟨calls, rets, hpath⟩ := ih h
      rcases hstep.cases with ⟨f, hf, hn⟩ | hr | ⟨hpc, hcs⟩
      · exact ⟨_, _, .call hstep hf hn hpath⟩
      · exact ⟨_, _, .ret hstep hr hpath⟩
      · exact ⟨_, _, .next hstep hpc hcs hpath⟩

/-- Without calls, functions are taken off one by one. -/
theorem Path.callStack_drop {calls rets : Nat} (h : Path client s calls rets s')
    (hcalls : calls = 0) : s'.m_callStack = s.m_callStack.drop rets := by
  induction h with
  | refl => rfl
  | call => cases hcalls
  | ret hstep hr _ ih =>
    obtain ⟨_, -, -, -, hcs, -⟩ := hstep.ret hr
    rw [ih hcalls, hcs, List.drop_tail]
  | next _ _ hcs _ ih => rw [ih hcalls, hcs]

/-- `Run` does not take its own function off: the call stack is as it was only after one `Ret` more
than functions were entered, and if none were entered, always then. -/
theorem Path.callStack_eq {calls rets : Nat} {pFn : VFunction ω}
    (h : Path client (vm.enter pFn) calls rets vm') :
    (vm'.m_callStack = vm.m_callStack → rets = calls + 1) ∧
      (calls = 0 → (vm'.m_callStack = vm.m_callStack ↔ rets = 1)) := by
  have hone (heq : vm'.m_callStack = vm.m_callStack) : rets = calls + 1 := by
    have hdepth : vm'.m_callStack.length + rets = vm.m_callStack.length + 1 + calls := h.depth
    rw [heq] at hdepth
    omega
  refine ⟨hone, fun hcalls => ⟨fun heq => ?_, ?_⟩⟩
  · rw [hone heq, hcalls]
  · rintro rfl
    exact h.callStack_drop hcalls

/-! ### The discipline of calls -/

/-- A function entered above `d` frames runs from `s` until its frame is left; `pcs` are the
instructions of its own that it executes, in order. -/
inductive Body (client : VMClient ω) (d : Nat) : VM ω → List Int → VM ω → Prop
  | done {s : VM ω} : s.m_callStack.length = d → Body client d s [] s
  | own {s s₁ s' : VM ω} : s.m_callStack.length = d + 1 → Step client s s₁ →
      Body client d s₁ pcs s' → Body client d s (s.m_pc :: pcs) s'
  | callee {s s₁ s' : VM ω} : d + 1 < s.m_callStack.length → Step client s s₁ →
      Body client d s₁ pcs s' → Body client d s pcs s'

end VM

/-- The last instruction of the function is a `Ret`. -/
def VFunction.EndsInRet (f : VFunction ω) : Prop :=
  ∃ i, f.instructions.getLast? = some i ∧ i.type = .Ret

namespace VM

/-- The body of `f` leaves the stack as it found it: when `f`, entered at instruction 0, comes to
its last instruction, the stack is the one it started with. -/
def Balanced (client : VMClient ω) (f : VFunction ω) : Prop :=
  ∀ s s' cs, s.m_callStack = f :: cs → s.m_pc = 0 →
    Relation.ReflTransGen (fun s s' => Step client s s' ∧ cs.length < s'.m_callStack.length) s s' →
    s'.m_callStack = f :: cs → s'.m_pc + 1 = f.instructions.length → s'.m_stack = s.m_stack

/-- What a call of `f` from the state `s` is to do: start `f` at its instruction 0; execute all the
instructions of `f` in order; resume after the call, with the return address taken off the front
of the stack, what is beneath it untouched, and the call stack of before. -/
structure CallReturns (client : VMClient ω) (s : VM ω) (f : VFunction ω) : Prop where
  starts : ∀ s₁, Step client s s₁ → s₁.m_callStack = f :: s.m_callStack ∧ s₁.m_pc = 0
  resumes : ∀ s₁ pcs s', Step client s s₁ → Body client s.m_callStack.length s₁ pcs s' →
    pcs = (List.range f.instructions.length).map Int.ofNat ∧ s'.m_pc = s.m_pc + 1 ∧
      s₁.m_stack = .int (s.m_pc + 1) :: s'.m_stack ∧ s'.m_callStack = s.m_callStack

/-- The discipline of calls and returns in `Run(pFn)`. -/
structure Disciplined (client : VMClient ω) (vm : VM ω) (pFn : VFunction ω) : Prop where
  calls : ∀ s s₁ f, Relation.ReflTransGen (Step client) (vm.enter pFn) s → s.AtCall f →
    f.pFnNative = none → f.EndsInRet → Balanced client f → Step client s s₁ →
    CallReturns client s f
  callStack : ∀ fuel vm', vm.Run client fuel pFn = .ok vm' → vm'.m_callStack = vm.m_callStack

/-! ### No call is disciplined -/

/-- The client of the unit test. -/
def testClient : VMClient Empty where
  Add lhs rhs :=
    match lhs, rhs with
    | .int a, .int b => .ok (.int (a + b))
    | _, _ => .error (.uncaught "std::invalid_argument")
  dumpArg
    | .int i => toString i
    | _ => ""

def setsR0 : VFunction Empty where
  name := "f"
  instructions := [⟨.Mov, .reg .R0, .int 5⟩, ⟨.Ret, .int 0, .int 0⟩]

def callsThenSetsR1 : VFunction Empty where
  name := "main"
  instructions := [⟨.Push, .int 0, .int 0⟩, ⟨.Call, .string "f", .int 0⟩, ⟨.Mov, .reg .R1, .int 6⟩]

def loaded : VM Empty where
  m_functionMap := Function.update (fun _ => none) "f" (some 0)
  m_functions := [setsR0]
  m_pc := 0
  m_stack := []
  m_callStack := []
  m_registers _ := .int 0
  m_log := ""

theorem setsR0_balanced : Balanced testClient setsR0 := by
  intro s s' cs hcs hpc hrun hcs' hpc'
  rcases hrun.cases_head with rfl | ⟨s₁, ⟨hstep, -⟩, hrun⟩
  · rfl
  · have hat : s.At setsR0 ⟨.Mov, .reg .R0, .int 5⟩ :=
      ⟨by simp [hcs], by simp [hpc], by simp [hpc]; rfl⟩
    obtain ⟨hpc₁, hcs₁, hst₁⟩ := hstep.mov hat rfl
    rcases hrun.cases_head with rfl | ⟨s₂, ⟨hstep₁, hdepth⟩, -⟩
    · exact hst₁
    · -- the next instruction is the `Ret`, which leaves the frame
      have hret : s₁.AtRet := by
        refine ⟨setsR0, ⟨.Ret, .int 0, .int 0⟩, ⟨?_, ?_, ?_⟩, rfl⟩
        · simp [hcs₁, hcs]
        · simp [hpc₁, hpc]
        · simp [hpc₁, hpc]; rfl
      obtain ⟨_, -, -, -, hcs₂, -⟩ := hstep₁.ret hret
      simp [hcs₂, hcs₁, hcs] at hdepth

/-- **No call is disciplined.** In every run of every program, a `Call` of a function that is not
native and ends in `Ret` starts the function at its instruction 1. A run that enters no function
leaves the call stack as it was if it executes one `Ret`, and only then. -/
theorem call_return_never_disciplined {pFn : VFunction ω} :
    (∀ s s₁ f, Relation.ReflTransGen (Step client) (vm.enter pFn) s → s.AtCall f →
      f.pFnNative = none → f.EndsInRet → Balanced client f → Step client s s₁ →
      ¬Disciplined client vm pFn) ∧
    ∀ fuel vm', vm.Run client fuel pFn = .ok vm' →
      (∃ calls rets, Path client (vm.enter pFn) calls rets vm') ∧
      ∀ calls rets, Path client (vm.enter pFn) calls rets vm' →
        (vm'.m_callStack = vm.m_callStack → rets = calls + 1) ∧
        (calls = 0 → (vm'.m_callStack = vm.m_callStack ↔ rets = 1)) := by
  refine ⟨fun s s₁ f hreach hf hn hret hbal hstep H => ?_,
    fun fuel vm' h => ⟨runLoop_path h, fun calls rets hpath => hpath.callStack_eq⟩⟩
  obtain ⟨_, -, hpc, -⟩ := hstep.call hf hn
  have hstart := (H.calls s s₁ f hreach hf hn hret hbal hstep).starts s₁ hstep
  rw [hpc] at hstart
  exact absurd hstart.2 (by decide)

/-- The run with a call, and a run of `f` itself from within a function. -/
theorem call_return_never_disciplined_loaded :
    ¬Disciplined testClient loaded callsThenSetsR1 ∧
    ∃ vm', { loaded with m_stack := [.int 5], m_callStack := [callsThenSetsR1] }.Run testClient 3
        setsR0 = .ok vm' ∧ vm'.m_callStack = [callsThenSetsR1] := by
  constructor
  · have hpush : Step testClient (loaded.enter callsThenSetsR1) _ := rfl
    exact call_return_never_disciplined.1 _ _ _ (.single hpush)
      ⟨callsThenSetsR1, ⟨.Call, .string "f", .int 0⟩, "f", _, ⟨rfl, by decide, rfl⟩, rfl, rfl, rfl⟩
      rfl ⟨_, rfl, rfl⟩ setsR0_balanced rfl
  · have hrun : { loaded with m_stack := [.int 5], m_callStack := [callsThenSetsR1] }.Run
      testClient 3 setsR0 = .ok _ := rfl
    refine ⟨_, hrun, ((call_return_never_disciplined.2 _ _ hrun).2 0 1 ?_).2 rfl |>.2 rfl⟩
    exact .next rfl rfl rfl (.ret rfl ⟨setsR0, _, ⟨rfl, by decide, rfl⟩, rfl⟩ .refl)

/-- Neither the first instruction of the function nor the one after the call is executed, and
`main` is left on the call stack. -/
theorem call_skips_instructions : setsR0.EndsInRet ∧ Balanced testClient setsR0 ∧
    ∃ vm, loaded.Run testClient 5 callsThenSetsR1 = .ok vm ∧ vm.m_registers 0 = .int 0 ∧
      vm.m_registers 1 = .int 0 ∧ vm.m_callStack = [callsThenSetsR1] := by
  refine ⟨⟨_, rfl, rfl⟩, setsR0_balanced, _, rfl, rfl, rfl, rfl⟩

end MUtils.VM
