import MUtils.Verify.VMCalls

/-!
# What `Dump` changes

`Dump` is to print the machine and change nothing but the log. For every `Call` it asks
`GetFunction` for the function, which makes one when there is none of that name. So it is an
observation exactly when every name that is called is defined (`Dump_observes_iff`). The log itself
has no influence on what the machine computes (`Run_eraseLog`).
-/

namespace MUtils.VM
open Outcome

variable {client : VMClient ω} {vm vm' vm₁ : VM ω} {f fn pFn : VFunction ω} {i : VInstruction ω}
  {is : List (VInstruction ω)} {fns : List (VFunction ω)} {name text : String} {fuel : Nat}

/-- All of the machine but the log. -/
def eraseLog (vm : VM ω) : VM ω := { vm with m_log := "" }

@[simp] theorem eraseLog_log : (vm.log text).eraseLog = vm.eraseLog := rfl

theorem eraseLog_eq (h : vm.eraseLog = vm'.eraseLog) : vm' = { vm with m_log := vm'.m_log } := by
  cases vm
  cases vm'
  cases h
  rfl

/-! ### The log has no influence -/

section
variable (h : vm.eraseLog = vm'.eraseLog)
include h

theorem GetFunction_eraseLog : (vm.GetFunction name).map (Prod.map id eraseLog) =
    (vm'.GetFunction name).map (Prod.map id eraseLog) := by
  rw [eraseLog_eq h]
  simp only [GetFunction]
  split
  · rfl
  · split <;> rfl

theorem popIntoRegisters_eraseLog {count : Nat} :
    (popIntoRegisters count vm).map eraseLog = (popIntoRegisters count vm').map eraseLog := by
  induction count generalizing vm vm' with
  | zero => exact congrArg Except.ok h
  | succ count ih =>
    rw [eraseLog_eq h]
    refine map_bind_right fun v => map_bind_right fun k => ih ?_
    rfl

theorem executeCall_eraseLog {arg1 : TValue ω} :
    (vm.executeCall arg1).map eraseLog = (vm'.executeCall arg1).map eraseLog := by
  refine map_bind_right fun _ => map_bind_right fun name => ?_
  refine map_bind_congr (GetFunction_eraseLog h) ?_
  rintro ⟨fn, vm₁⟩ ⟨fn', vm₂⟩ hpair
  obtain ⟨rfl, heq⟩ : fn = fn' ∧ vm₁.eraseLog = vm₂.eraseLog := Prod.mk.inj hpair
  rw [eraseLog_eq heq]
  refine map_bind_right fun top => map_bind_right fun count => ?_
  refine map_bind_congr (popIntoRegisters_eraseLog ?_) fun vm₃ vm₄ heq => ?_
  · rfl
  · rw [eraseLog_eq heq]
    cases fn.pFnNative with
    | some g => exact map_bind_right fun result => rfl
    | none => rfl

theorem Execute_eraseLog :
    (vm.Execute client i).map eraseLog = (vm'.Execute client i).map eraseLog := by
  unfold Execute
  split
  case h_1 => exact executeCall_eraseLog h
  all_goals rw [eraseLog_eq h]
  case h_2 => exact map_bind_right fun _ => map_bind_right fun _ => map_bind_right fun _ => rfl
  case h_3 => cases i.arg1 <;> rfl
  case h_4 => exact map_bind_right fun _ => map_bind_right fun _ => map_bind_right fun _ => rfl
  case h_5 =>
    refine map_bind_right fun _ => map_bind_right fun count => ?_
    split <;> rfl
  case h_6 => exact map_bind_right fun _ => map_bind_right fun _ => rfl
  case h_7 => exact map_bind_right fun _ => map_bind_right fun _ => map_bind_right fun _ => rfl

theorem describe_eraseLog : (vm.describe client i).map (Prod.map id eraseLog) =
    (vm'.describe client i).map (Prod.map id eraseLog) := by
  unfold describe
  split
  case h_1 =>
    refine map_bind_right fun name => map_bind_congr (GetFunction_eraseLog h) ?_
    rintro ⟨fn, vm₁⟩ ⟨fn', vm₂⟩ hpair
    obtain ⟨rfl, heq⟩ : fn = fn' ∧ vm₁.eraseLog = vm₂.eraseLog := Prod.mk.inj hpair
    rw [eraseLog_eq heq]
    rfl
  all_goals
    rw [eraseLog_eq h]
    rfl

theorem logInstruction_eraseLog :
    (vm.logInstruction client i).map eraseLog = (vm'.logInstruction client i).map eraseLog := by
  refine map_bind_congr (describe_eraseLog h) ?_
  rintro ⟨text, vm₁⟩ ⟨text', vm₂⟩ hpair
  obtain ⟨rfl, heq⟩ : text = text' ∧ vm₁.eraseLog = vm₂.eraseLog := Prod.mk.inj hpair
  rw [eraseLog_eq heq]
  rfl

theorem step_eraseLog :
    (vm.step client).map (Option.map eraseLog) = (vm'.step client).map (Option.map eraseLog) := by
  have hfetch : vm'.fetch = vm.fetch := by
    rw [eraseLog_eq h]
    rfl
  rw [step, step, hfetch]
  refine map_bind_right fun i? => ?_
  cases i? with
  | none => rfl
  | some i =>
    refine map_bind_congr (Execute_eraseLog h) fun vm₁ vm₂ heq => ?_
    refine map_bind_congr (logInstruction_eraseLog heq) fun vm₃ vm₄ heq => ?_
    rw [eraseLog_eq heq]
    rfl

theorem runLoop_eraseLog :
    (runLoop client fuel vm).map eraseLog = (runLoop client fuel vm').map eraseLog := by
  induction fuel generalizing vm vm' with
  | zero => rfl
  | succ fuel ih =>
    refine map_bind_congr (step_eraseLog h) fun next next' hnext => ?_
    cases next with
    | none =>
      obtain rfl : next' = none := Option.map_eq_none_iff.1 hnext.symm
      exact congrArg Except.ok h
    | some vm₁ =>
      obtain ⟨vm₂, rfl, heq⟩ := Option.map_eq_some_iff.1 hnext.symm
      exact ih heq.symm

theorem Run_eraseLog :
    (vm.Run client fuel pFn).map eraseLog = (vm'.Run client fuel pFn).map eraseLog := by
  refine runLoop_eraseLog ?_
  rw [eraseLog_eq h]
  rfl

end

/-! ### Dump -/

/-- Every function that `i` calls is there. -/
def Resolved (vm : VM ω) (i : VInstruction ω) : Prop :=
  i.type = .Call → ∃ name f, i.arg1 = .string name ∧ vm.Defines name f

theorem Resolved.congr (h : vm.eraseLog = vm'.eraseLog) : vm.Resolved i ↔ vm'.Resolved i := by
  rw [eraseLog_eq h]
  rfl

/-- A lookup finds the function, or makes one. -/
theorem GetFunction_cases (h : vm.GetFunction name = .ok (f, vm')) :
    vm.Defines name f ∧ vm' = vm ∨ vm'.m_functions.length = vm.m_functions.length + 1 := by
  unfold GetFunction at h
  split at h
  · cases h
    exact .inr (by simp)
  · next k hk =>
    split at h
    · next pFn hf =>
      cases h
      exact .inl ⟨⟨k, hk, hf⟩, rfl⟩
    · cases h

theorem dumpText_cases (h : vm.dumpText client i = .ok (text, vm')) :
    vm.Resolved i ∧ vm' = vm ∨ vm'.m_functions.length = vm.m_functions.length + 1 := by
  unfold dumpText at h
  split at h
  case h_1 =>
    obtain ⟨name, hname, h⟩ := bind_eq_ok.1 h
    obtain ⟨⟨f, vm₁⟩, hget, h⟩ := bind_eq_ok.1 h
    cases h
    refine (GetFunction_cases hget).imp_left fun ⟨hf, heq⟩ => ⟨fun _ => ?_, heq⟩
    exact ⟨name, f, getString_eq_ok.1 hname, hf⟩
  all_goals
    next htype =>
    cases h
    exact .inl ⟨fun hcall => by simp [htype] at hcall, rfl⟩

variable (client) in
theorem Resolved.dumpText (h : vm.Resolved i) : ∃ text, vm.dumpText client i = .ok (text, vm) := by
  unfold VM.dumpText
  split
  case h_1 htype =>
    obtain ⟨name, f, hname, hf⟩ := h htype
    simp only [hname, TValue.getString, ok_bind, hf.getFunction, pure_eq_ok]
    exact ⟨_, rfl⟩
  all_goals exact ⟨_, rfl⟩

/-- From `vm` to `vm'` nothing but the log has changed and `p` holds, or functions were made. -/
def Observed (vm : VM ω) (p : Prop) (vm' : VM ω) : Prop :=
  p ∧ vm.eraseLog = vm'.eraseLog ∨ vm.m_functions.length < vm'.m_functions.length

theorem length_functions_of_eraseLog (h : vm.eraseLog = vm'.eraseLog) :
    vm'.m_functions.length = vm.m_functions.length := by
  rw [eraseLog_eq h]

/-- Functions that were made are never removed. -/
theorem Observed.trans {p q : Prop} (h : vm.Observed p vm₁) (h' : vm₁.Observed q vm')
    (hpq : vm.eraseLog = vm₁.eraseLog → p → q → r) : vm.Observed r vm' := by
  rcases h with ⟨hp, heq⟩ | hlt <;> rcases h' with ⟨hq, heq'⟩ | hlt'
  · exact .inl ⟨hpq heq hp hq, heq.trans heq'⟩
  · exact .inr (length_functions_of_eraseLog heq ▸ hlt')
  · exact .inr (length_functions_of_eraseLog heq' ▸ hlt)
  · exact .inr (hlt.trans hlt')

theorem Observed.log {p : Prop} (h : vm.Observed p vm') : vm.Observed p (vm'.log text) := h

theorem dumpInstructions_observed {index : Nat}
    (h : dumpInstructions client index is vm = .ok vm') :
    vm.Observed (∀ i ∈ is, vm.Resolved i) vm' := by
  induction is generalizing index vm with
  | nil =>
    cases h
    exact .inl ⟨by simp, rfl⟩
  | cons i is ih =>
    obtain ⟨⟨text, vm₁⟩, htext, h⟩ := bind_eq_ok.1 h
    have hfirst : vm.Observed (vm.Resolved i) vm₁ := by
      rcases dumpText_cases htext with ⟨hi, rfl⟩ | hlen
      · exact .inl ⟨hi, rfl⟩
      · exact .inr (by omega)
    refine hfirst.log.trans (ih h) fun heq hi his => ?_
    rw [List.forall_mem_cons]
    exact ⟨hi, fun j hj => (Resolved.congr heq).2 (his j hj)⟩

theorem dumpFunctions_observed (h : fns.foldlM (dumpFunction client) vm = .ok vm') :
    vm.Observed (∀ fn ∈ fns, ∀ i ∈ fn.instructions, vm.Resolved i) vm' := by
  induction fns generalizing vm with
  | nil =>
    cases h
    exact .inl ⟨by simp, rfl⟩
  | cons fn fns ih =>
    rw [List.foldlM_cons] at h
    obtain ⟨vm₁, hfn, h⟩ := bind_eq_ok.1 h
    obtain ⟨vm₂, his, hfn⟩ := bind_eq_ok.1 hfn
    cases hfn
    refine (dumpInstructions_observed his).log.trans (ih h) fun heq hi hfns => ?_
    rw [List.forall_mem_cons]
    exact ⟨hi, fun fn' hfn' j hj => (Resolved.congr heq).2 (hfns fn' hfn' j hj)⟩

variable (client) in
theorem dumpInstructions_resolved (index : Nat) (h : ∀ i ∈ is, vm.Resolved i) :
    ∃ vm', dumpInstructions client index is vm = .ok vm' ∧ vm.eraseLog = vm'.eraseLog := by
  induction is generalizing index vm with
  | nil => exact ⟨vm, rfl, rfl⟩
  | cons i is ih =>
    obtain ⟨hi, his⟩ := List.forall_mem_cons.1 h
    obtain ⟨text, htext⟩ := hi.dumpText client
    obtain ⟨vm', hok, heq⟩ :=
      @ih (vm.log (toString (index % 2 ^ 32) ++ ": " ++ text ++ "\n")) (index + 1) his
    exact ⟨vm', by rw [dumpInstructions, htext]; exact hok, heq⟩

theorem dumpFunctions_resolved (h : ∀ fn ∈ fns, ∀ i ∈ fn.instructions, vm.Resolved i) :
    ∃ vm', fns.foldlM (dumpFunction client) vm = .ok vm' ∧ vm.eraseLog = vm'.eraseLog := by
  induction fns generalizing vm with
  | nil => exact ⟨vm, rfl, rfl⟩
  | cons fn fns ih =>
    obtain ⟨hfn, hfns⟩ := List.forall_mem_cons.1 h
    have hfn' : ∀ i ∈ fn.instructions, (vm.log ("\n" ++ fn.name ++ ":\n")).Resolved i := hfn
    obtain ⟨vm₁, hok₁, heq₁⟩ := dumpInstructions_resolved client 0 hfn'
    obtain ⟨vm', hok, heq⟩ := @ih (vm₁.log "\n") fun fn' hfn' i hi =>
      (Resolved.congr heq₁).1 (hfns fn' hfn' i hi)
    refine ⟨vm', ?_, heq₁.trans heq⟩
    rw [List.foldlM_cons, dumpFunction, hok₁]
    exact hok

/-- `Dump` ends and changes nothing but the log, and so nothing that a later run computes, exactly
if every function that is called is there. -/
theorem Dump_observes_iff : (∃ vm', vm.Dump client = .ok vm' ∧ vm.eraseLog = vm'.eraseLog ∧
      ∀ fuel pFn, (vm.Run client fuel pFn).map eraseLog = (vm'.Run client fuel pFn).map eraseLog) ↔
    ∀ fn ∈ vm.m_functions, ∀ i ∈ fn.instructions, vm.Resolved i := by
  constructor
  · rintro ⟨vm', hok, heq, -⟩
    rcases dumpFunctions_observed hok with ⟨hres, -⟩ | hlt
    · exact hres
    · exact absurd (length_functions_of_eraseLog heq) (Nat.ne_of_gt hlt)
  · intro h
    obtain ⟨vm', hok, heq⟩ := @dumpFunctions_resolved _ client (vm.log "\nVM:\n") _ h
    exact ⟨vm', hok, heq, fun fuel pFn => Run_eraseLog heq⟩

/-- `main` calls `f` before there is one. -/
def callsEarly : VM Empty where
  m_functionMap := Function.update (fun _ => none) "main" (some 0)
  m_functions := [callsThenSetsR1]
  m_pc := 0
  m_stack := []
  m_callStack := []
  m_registers _ := .int 0
  m_log := ""

/-- After `Dump` there is an empty function `f`, and `f` can no longer be added. -/
theorem Dump_adds_function : ∃ vm, callsEarly.Dump testClient = .ok vm ∧
    vm.m_functions.map (·.name) = ["main", "f"] ∧
    (∃ vm', callsEarly.AddFunction "f" setsR0 = .ok vm') ∧
    vm.AddFunction "f" setsR0 =
      .error (.assertion "m_functionMap.find(name) == m_functionMap.end()") :=
  ⟨_, rfl, rfl, ⟨_, rfl⟩, rfl⟩

end MUtils.VM
