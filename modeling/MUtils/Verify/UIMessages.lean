import MUtils.UI.UIManager

/-!
# The message store against the set of live messages

The history of the calls says which messages are live: `AddMessage` adds one, `RemoveMessage`
removes the one with the id, `ClearFileMessages` those of the file. `Refines` compares the two maps
of the manager with them.

`RemoveMessage` never takes a message out of `m_taskMessages`, so the store follows the history
just as long as no live message is removed and the 64-bit counter of ids does not come round
(`Run.refined_iff`).
-/

namespace MUtils.UIManager
open Outcome

variable {Path : Type}

/-- The live messages by id. -/
abbrev Live (Path : Type) := UInt64 → Option (UIMessage Path)

/-- A call of a client, with the id that `AddMessage` returned. -/
inductive Call (Path : Type) where
  | add (type : UInt32) (message : String) (file : Path) (line : Int) (column : ColumnRange)
      (id : UInt64)
  | remove (id : UInt64)
  | clear (path : Path)

variable [DecidableEq Path]

/-- The messages that are live after the calls of `h`, the latest first. -/
def live : List (Call Path) → Live Path
  | [] => fun _ => none
  | .add type message file line column id :: h =>
    Function.update (live h) id (some ⟨type, message, file, line, column, id⟩)
  | .remove id :: h => Function.update (live h) id none
  | .clear path :: h => fun id => (live h id).filter (·.m_file ≠ path)

section
variable {h : List (Call Path)} {id : UInt64} {path : Path}

theorem live_remove (hid : live h id = none) : live (.remove id :: h) = live h := by
  rw [live, ← hid, Function.update_eq_self]

theorem live_clear (hpath : ∀ id m, live h id = some m → m.m_file ≠ path) :
    live (.clear path :: h) = live h := by
  funext id
  simp only [live]
  cases hm : live h id with
  | none => rfl
  | some m => simp [hpath id m hm]

end

/-- The number of messages added. -/
def added : List (Call Path) → Nat
  | [] => 0
  | .add .. :: h => added h + 1
  | .remove _ :: h | .clear _ :: h => added h

variable [Inhabited Path]

/-- The call takes the manager from `ui` to `ui'`; a message added has a file or the `Task` bit. -/
inductive Performs (ui : UIManager Path) : Call Path → UIManager Path → Prop
  | add : type &&& MessageType.Task ≠ 0 ∨ file ≠ default →
      Performs ui
        (.add type message file line column (ui.AddMessage type message file line column).1)
        (ui.AddMessage type message file line column).2.2
  | remove {id : UInt64} : Performs ui (.remove id) (ui.RemoveMessage id)
  | clear : ui.ClearFileMessages path = .ok ui' → Performs ui (.clear path) ui'

/-- The runs of the manager: `h` is the calls made so far, the latest first. -/
inductive Run : List (Call Path) → UIManager Path → Prop
  | new : Run [] .new
  | call : Run h ui → Performs ui c ui' → Run (c :: h) ui'

/-- The runs with messages of any type and file. -/
inductive AnyRun : List (Call Path) → UIManager Path → Prop
  | new : AnyRun [] .new
  | add : AnyRun h ui →
      AnyRun (.add type message file line column
        (ui.AddMessage type message file line column).1 :: h)
        (ui.AddMessage type message file line column).2.2
  | remove {id : UInt64} : AnyRun h ui → AnyRun (.remove id :: h) (ui.RemoveMessage id)
  | clear : AnyRun h ui → ui.ClearFileMessages path = .ok ui' → AnyRun (.clear path :: h) ui'

/-- `m_taskMessages` holds exactly the live messages, and the list of each file exactly the ids of
the live messages of the file, each once. -/
structure Refines (ui : UIManager Path) (live : Live Path) : Prop where
  tasks : ui.m_taskMessages = live
  files : ∀ path, path ≠ default → ∀ id,
    id ∈ ui.fileIds path ↔ ∃ m, live id = some m ∧ m.m_file = path
  once : ∀ path, path ≠ default → (ui.fileIds path).Nodup

/-- The id that `AddMessage` returns is not that of a live message. -/
def Fresh (live : Live Path) : Call Path → Prop
  | .add _ _ _ _ _ id => live id = none
  | _ => True

/-- The runs in which every state refines the set of live messages. -/
inductive RefinedRun : List (Call Path) → UIManager Path → Prop
  | new : Refines (.new : UIManager Path) (live []) → RefinedRun [] .new
  | call : RefinedRun h ui → Performs ui c ui' → Fresh (live h) c → Refines ui' (live (c :: h)) →
      RefinedRun (c :: h) ui'

/-- What a call may be after the calls of `h`: a message is added while ids are left, and nothing
that is live is removed. -/
def Meets (h : List (Call Path)) : Call Path → Prop
  | .add .. => added h < 2 ^ 64
  | .remove id => live h id = none
  | .clear path => ∀ id m, live h id = some m → m.m_file ≠ path

/-- Every call of the history was one of those. -/
def Tame : List (Call Path) → Prop
  | [] => True
  | c :: h => Meets h c ∧ Tame h

variable {ui ui' : UIManager Path} {h : List (Call Path)} {c : Call Path} {path : Path}
  {id : UInt64}

theorem Run.anyRun (H : Run h ui) : AnyRun h ui := by
  induction H with
  | new => exact .new
  | call _ hstep ih =>
    cases hstep with
    | add => exact ih.add
    | remove => exact ih.remove
    | clear hok => exact ih.clear hok

/-! ### The loop of `ClearFileMessages` -/

omit [Inhabited Path] in
@[simp] theorem touch_fileIds {q : Path} : (ui.touch path).fileIds q = ui.fileIds q := by
  by_cases h : q = path
  · subst h; simp [touch, fileIds]
  · simp [touch, fileIds, h]

omit [Inhabited Path] in
@[simp] theorem touch_tasks : (ui.touch path).m_taskMessages = ui.m_taskMessages := rfl

omit [Inhabited Path] in
@[simp] theorem touch_currentID : (ui.touch path).CurrentID = ui.CurrentID := rfl

@[simp] theorem RemoveMessage_tasks : (ui.RemoveMessage id).m_taskMessages = ui.m_taskMessages := by
  unfold RemoveMessage
  split
  · split <;> rfl
  · rfl

@[simp] theorem RemoveMessage_currentID : (ui.RemoveMessage id).CurrentID = ui.CurrentID := by
  unfold RemoveMessage
  split
  · split <;> rfl
  · rfl

theorem clearLoop_frame {fuel : Nat} (h : clearLoop path fuel ui = .ok ui') :
    ui'.m_taskMessages = ui.m_taskMessages ∧ ui'.CurrentID = ui.CurrentID := by
  induction fuel generalizing ui with
  | zero => cases h
  | succ fuel ih =>
    rw [clearLoop] at h
    split at h
    · cases h; exact ⟨rfl, rfl⟩
    · simpa using ih h

/-- `RemoveMessage` empties the list of the message's file. -/
theorem RemoveMessage_fileIds_self {m : UIMessage Path} (hm : ui.m_taskMessages id = some m)
    (hne : m.m_file ≠ default) : (ui.RemoveMessage id).fileIds m.m_file = [] := by
  simp [RemoveMessage, hm, hne, fileIds]

/-- `RemoveMessage` leaves the lists of other files. -/
theorem RemoveMessage_fileIds_other
    (hfile : ∀ m, ui.m_taskMessages id = some m → m.m_file ≠ default → m.m_file ≠ path) :
    (ui.RemoveMessage id).fileIds path = ui.fileIds path := by
  unfold RemoveMessage
  split
  · next m hm =>
    split
    · next hne => simp [fileIds, Function.update_of_ne (hfile m hm hne).symm]
    · rfl
  · rfl

theorem RemoveMessage_fileIds_nil (hnil : ui.fileIds path = []) :
    (ui.RemoveMessage id).fileIds path = [] := by
  by_cases hfile : ∃ m, ui.m_taskMessages id = some m ∧ m.m_file ≠ default ∧ m.m_file = path
  · obtain ⟨m, hm, hne, rfl⟩ := hfile
    exact RemoveMessage_fileIds_self hm hne
  · rw [RemoveMessage_fileIds_other fun m hm hne heq => hfile ⟨m, hm, hne, heq⟩, hnil]

theorem clearLoop_fileIds_nil {q : Path} {fuel : Nat} (hnil : ui.fileIds q = [])
    (h : clearLoop path fuel ui = .ok ui') : ui'.fileIds q = [] := by
  induction fuel generalizing ui with
  | zero => cases h
  | succ fuel ih =>
    rw [clearLoop] at h
    split at h
    · cases h; simpa using hnil
    · exact ih (RemoveMessage_fileIds_nil (by simpa using hnil)) h

/-- A list that `RemoveMessage` of its first id leaves keeps the loop going for ever. -/
theorem clearLoop_stuck {rest : List UInt64} {fuel : Nat} (hlist : ui.fileIds path = id :: rest)
    (hfile : ∀ m, ui.m_taskMessages id = some m → m.m_file ≠ default → m.m_file ≠ path) :
    clearLoop path fuel ui = .error .diverged := by
  induction fuel generalizing ui with
  | zero => rfl
  | succ fuel ih =>
    rw [clearLoop]
    simp only [hlist]
    apply ih
    · rw [RemoveMessage_fileIds_other, touch_fileIds, hlist]
      exact hfile
    · simpa using hfile

/-- Two iterations are enough fuel: the loop is done then, or never will be. -/
theorem clearLoop_fuel {fuel : Nat} : clearLoop path (fuel + 2) ui = clearLoop path 2 ui := by
  cases hlist : ui.fileIds path with
  | nil => simp only [clearLoop, hlist]
  | cons id rest =>
    by_cases hfile : ∀ m, ui.m_taskMessages id = some m → m.m_file ≠ default → m.m_file ≠ path
    · rw [clearLoop_stuck hlist hfile, clearLoop_stuck hlist hfile]
    · push Not at hfile
      obtain ⟨m, hm, hne, rfl⟩ := hfile
      have hm : (ui.touch m.m_file).m_taskMessages id = some m := hm
      simp only [clearLoop, hlist, RemoveMessage_fileIds_self hm hne]

/-! ### Ids -/

theorem AddMessage_id {type : UInt32} {message : String} {file : Path} {line : Int}
    {column : ColumnRange} : (ui.AddMessage type message file line column).1 = ui.CurrentID := rfl

theorem AddMessage_currentID {type : UInt32} {message : String} {file : Path} {line : Int}
    {column : ColumnRange} :
    (ui.AddMessage type message file line column).2.2.CurrentID = ui.CurrentID + 1 := by
  simp only [AddMessage]
  split_ifs <;> rfl

theorem AnyRun.currentID (H : AnyRun h ui) : ui.CurrentID = UInt64.ofNat (added h + 1) := by
  induction H with
  | new => rfl
  | add _ ih => simp [AddMessage_currentID, ih, added, UInt64.ofNat_add]
  | remove _ ih => rw [RemoveMessage_currentID, ih, added]
  | clear _ hok ih => rw [(clearLoop_frame hok).2, ih, added]

/-- While nothing that is live is removed, the live messages are all that were added. -/
theorem Run.live_isSome (H : Run h ui) (ht : Tame h) :
    (live h id).isSome ↔ ∃ k < added h, id = UInt64.ofNat (k + 1) := by
  induction H generalizing id with
  | new => simp [live, added]
  | call H hstep ih =>
    obtain ⟨hmeets, ht⟩ := ht
    cases hstep with
    | add =>
      simp only [live, added, AddMessage_id, H.anyRun.currentID, Function.update_apply,
        Nat.lt_succ_iff_lt_or_eq]
      split_ifs with heq
      · simp only [Option.isSome_some, true_iff]
        exact ⟨_, .inr rfl, heq⟩
      · rw [ih ht]
        constructor
        · exact fun ⟨k, hk, hid⟩ => ⟨k, .inl hk, hid⟩
        · rintro ⟨k, hk | rfl, hid⟩
          · exact ⟨k, hk, hid⟩
          · exact (heq hid).elim
    | remove => rw [live_remove hmeets, ih ht, added]
    | clear => rw [live_clear hmeets, ih ht, added]

/-- The next id is fresh until all have been given out. -/
theorem Run.fresh_iff (H : Run h ui) (ht : Tame h) :
    live h ui.CurrentID = none ↔ added h < 2 ^ 64 := by
  rw [← Option.not_isSome_iff_eq_none, H.live_isSome ht, H.anyRun.currentID]
  constructor
  · intro hfresh
    by_contra hle
    refine hfresh ⟨added h % 2 ^ 64, by omega, ?_⟩
    apply UInt64.toNat.inj
    simp
  · rintro hlt ⟨k, hk, heq⟩
    have := congrArg UInt64.toNat heq
    simp only [UInt64.toNat_ofNat'] at this
    omega

/-! ### The calls -/

theorem Refines.new : Refines (.new : UIManager Path) (live []) where
  tasks := rfl
  files path _ id := by simp [fileIds, UIManager.new, live]
  once path _ := List.nodup_nil

/-- The id is listed for the file of the message, if it has one. -/
theorem AddMessage_fileIds_eq {type : UInt32} {message : String} {file : Path} {line : Int}
    {column : ColumnRange} :
    (ui.AddMessage type message file line column).2.2.fileIds path =
      if file ≠ default ∧ file = path then ui.fileIds path ++ [ui.CurrentID]
      else ui.fileIds path := by
  by_cases hfile : file = default
  · simp only [AddMessage, fileIds, hfile, ne_eq, not_true_eq_false, or_false, false_and, if_false]
    split_ifs <;> rfl
  · by_cases hpath : file = path
    · subst hpath
      simp [AddMessage, fileIds, hfile]
    · simp [AddMessage, fileIds, hfile, hpath, Function.update_of_ne (Ne.symm hpath)]

theorem AddMessage_fileIds {type : UInt32} {message : String} {file : Path} {line : Int}
    {column : ColumnRange} (hpath : path ≠ default) :
    (ui.AddMessage type message file line column).2.2.fileIds path =
      if file = path then ui.fileIds path ++ [ui.CurrentID] else ui.fileIds path := by
  have hiff : (file ≠ default ∧ file = path) ↔ file = path := by
    refine and_iff_right_of_imp ?_
    rintro rfl
    exact hpath
  simp only [AddMessage_fileIds_eq, hiff]

/-- A message with a fresh id is added to both maps. -/
theorem Refines.add {live : Live Path} {type : UInt32} {message : String} {file : Path} {line : Int}
    {column : ColumnRange} (H : Refines ui live) (hfresh : live ui.CurrentID = none)
    (hfile : type &&& MessageType.Task ≠ 0 ∨ file ≠ default) :
    Refines (ui.AddMessage type message file line column).2.2 (Function.update live ui.CurrentID
      (some ⟨type, message, file, line, column, ui.CurrentID⟩)) where
  tasks := by
    simp only [AddMessage, if_pos hfile]
    split_ifs <;> simp [H.tasks]
  files path hpath id := by
    rw [AddMessage_fileIds hpath]
    by_cases hid : id = ui.CurrentID
    · subst hid
      have hnew : ui.CurrentID ∉ ui.fileIds path := by simp [H.files path hpath, hfresh]
      split_ifs with hp <;> simp [hp, hnew]
    · split_ifs with hp <;> simp [hid, H.files path hpath]
  once path hpath := by
    rw [AddMessage_fileIds hpath]
    have hnew : ui.CurrentID ∉ ui.fileIds path := by simp [H.files path hpath, hfresh]
    split_ifs
    · exact List.nodup_append.2 ⟨H.once path hpath, List.nodup_singleton _, by
        rintro a ha b hb rfl
        exact hnew (List.mem_singleton.1 hb ▸ ha)⟩
    · exact H.once path hpath

theorem Refines.remove {live : Live Path} (H : Refines ui live) (hid : live id = none) :
    ui.RemoveMessage id = ui := by
  simp [RemoveMessage, H.tasks, hid]

/-- No call lists an id under the empty path. -/
theorem AnyRun.unfiled (H : AnyRun h ui) : ui.fileIds default = [] := by
  induction H with
  | new => rfl
  | add _ ih => rw [AddMessage_fileIds_eq, if_neg fun h => h.1 h.2, ih]
  | remove _ ih => exact RemoveMessage_fileIds_nil ih
  | clear _ hok ih => exact clearLoop_fileIds_nil ih hok

theorem Refines.clear {live : Live Path} (H : Refines ui live) (hunfiled : ui.fileIds default = [])
    (hlive : ∀ id m, live id = some m → m.m_file ≠ path) :
    ui.ClearFileMessages path = .ok (ui.touch path) := by
  have hnil : ui.fileIds path = [] := by
    by_cases hpath : path = default
    · rw [hpath, hunfiled]
    · rw [List.eq_nil_iff_forall_not_mem]
      intro id hid
      obtain ⟨m, hm, hfile⟩ := (H.files path hpath id).1 hid
      exact hlive id m hm hfile
  simp only [ClearFileMessages, clearLoop, hnil]

theorem Refines.touch {live : Live Path} (H : Refines ui live) : Refines (ui.touch path) live where
  tasks := H.tasks
  files := by simpa using H.files
  once := by simpa using H.once

/-! ### Runs -/

theorem RefinedRun.run (H : RefinedRun h ui) : Run h ui := by
  induction H with
  | new => exact .new
  | call _ hstep _ _ ih => exact .call ih hstep

theorem RefinedRun.refines (H : RefinedRun h ui) : Refines ui (live h) := by
  cases H with
  | new H => exact H
  | call _ _ _ H => exact H

/-- In a run that follows the live messages, nothing that is live is ever removed. -/
theorem RefinedRun.tame (H : RefinedRun h ui) : Tame h := by
  induction H with
  | new => trivial
  | call H hstep hfresh hrefines ih =>
    refine ⟨?_, ih⟩
    cases hstep with
    | add => exact (H.run.fresh_iff ih).1 hfresh
    | @remove id =>
      -- the message is still in `m_taskMessages`
      have htasks := hrefines.tasks
      rw [RemoveMessage_tasks, H.refines.tasks] at htasks
      exact (congrFun htasks id).trans (Function.update_self ..)
    | clear hok =>
      have htasks := hrefines.tasks
      rw [(clearLoop_frame hok).1, H.refines.tasks] at htasks
      intro id m hm hfile
      have := congrFun htasks id
      simp [live, hm, Option.filter, hfile] at this

/-- **The message store follows the live messages exactly in tame runs**: as long as
`RemoveMessage` is not given the id of a live message, `ClearFileMessages` not the file of one, and
at most 2^64 messages are added. -/
theorem Run.refined_iff (H : Run h ui) : RefinedRun h ui ↔ Tame h := by
  refine ⟨RefinedRun.tame, fun ht => ?_⟩
  induction H with
  | new => exact .new .new
  | call H hstep ih =>
    obtain ⟨hmeets, ht⟩ := ht
    have hrun := ih ht
    have hrefines := hrun.refines
    refine .call hrun hstep ?_ ?_
    · cases hstep with
      | add => exact (H.fresh_iff ht).2 hmeets
      | remove => trivial
      | clear => trivial
    · cases hstep with
      | add hfile => exact hrefines.add ((H.fresh_iff ht).2 hmeets) hfile
      | remove => rwa [live_remove hmeets, hrefines.remove hmeets]
      | clear hok =>
        rw [hrefines.clear H.anyRun.unfiled hmeets] at hok
        cases hok
        rw [live_clear hmeets]
        exact hrefines.touch

/-- A run that only adds two messages of one file. -/
theorem Run.refined_iff_add : ∃ ui : UIManager Bool,
    RefinedRun [.add 1 "b" true 2 ⟨-1, -1⟩ 2, .add 1 "a" true 1 ⟨-1, -1⟩ 1] ui :=
  have h₁ : Run [.add 1 "a" true 1 ⟨-1, -1⟩ 1] _ := .call .new (.add (.inr (by decide)))
  have h₂ : Run [.add 1 "b" true 2 ⟨-1, -1⟩ 2, .add 1 "a" true 1 ⟨-1, -1⟩ 1] _ :=
    .call h₁ (.add (.inr (by decide)))
  ⟨_, h₂.refined_iff.2 ⟨by simp [Meets, added], by simp [Meets, added], trivial⟩⟩

/-- Removing one of two messages of a file leaves both in `m_taskMessages` and neither in the list
of the file. -/
theorem Run.remove_not_refined : ∃ ui : UIManager Bool,
    Run [.remove 1, .add 1 "b" true 2 ⟨-1, -1⟩ 2, .add 1 "a" true 1 ⟨-1, -1⟩ 1] ui ∧
      (ui.m_taskMessages 1).isSome ∧ ui.fileIds true = [] ∧
      ¬Refines ui
        (live [.remove 1, .add 1 "b" true 2 ⟨-1, -1⟩ 2, .add 1 "a" true 1 ⟨-1, -1⟩ 1]) := by
  have h₁ : Run [.add 1 "a" true 1 ⟨-1, -1⟩ 1] _ := .call .new (.add (.inr (by decide)))
  have h₂ : Run [.add 1 "b" true 2 ⟨-1, -1⟩ 2, .add 1 "a" true 1 ⟨-1, -1⟩ 1] _ :=
    .call h₁ (.add (.inr (by decide)))
  refine ⟨_, .call h₂ .remove, by decide, by decide, fun H => ?_⟩
  have := congrArg Option.isSome (congrFun H.tasks 1)
  revert this
  decide

end MUtils.UIManager
