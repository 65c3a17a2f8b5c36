import MUtils.Verify.UIMessages

/-!
# When `ClearFileMessages` ends

The loop removes the first listed message of a file until there is none. `RemoveMessage` looks the
file up in the other map, so the loop ends just if the first listed id is still that of a message of
the file (`clears_iff_filedUnder`). This is so as long as no id is given twice (`AnyRun.listed`).
After 2^64 messages the ids come round, and a list may be left whose first id now belongs to another
message (`exists_stuck`).
-/

namespace MUtils.UIManager
open Outcome

variable {Path : Type} [DecidableEq Path] [Inhabited Path] {ui ui' : UIManager Path}
  {h : List (Call Path)} {path file : Path} {id : UInt64} {n : Nat}

/-- The loop ends, after which no id is listed for `path`, and the lists of the other paths are what
they were. -/
def Clears (ui : UIManager Path) (path : Path) : Prop :=
  ∃ ui', ui.ClearFileMessages path = .ok ui' ∧ ui'.fileIds path = [] ∧
    ∀ q ≠ path, ui'.fileIds q = ui.fileIds q

/-- The message with the id is one of the file. -/
def FiledUnder (ui : UIManager Path) (path : Path) (id : UInt64) : Prop :=
  ∃ m, ui.m_taskMessages id = some m ∧ m.m_file ≠ default ∧ m.m_file = path

omit [DecidableEq Path] in
theorem not_filedUnder : ¬ui.FiledUnder path id ↔
    ∀ m, ui.m_taskMessages id = some m → m.m_file ≠ default → m.m_file ≠ path := by
  simp [FiledUnder]

theorem clears_iff_filedUnder :
    ui.Clears path ↔ ∀ id ∈ (ui.fileIds path).head?, ui.FiledUnder path id := by
  cases hlist : ui.fileIds path with
  | nil =>
    refine iff_of_true ⟨ui.touch path, ?_, by simp [hlist], by simp⟩ (by simp)
    simp only [ClearFileMessages, clearLoop, hlist]
  | cons id rest =>
    simp only [List.head?_cons, Option.mem_some_iff, forall_eq']
    constructor
    · rintro ⟨ui', hok, -⟩
      by_contra hnot
      rw [ClearFileMessages, clearLoop_stuck hlist (not_filedUnder.1 hnot)] at hok
      cases hok
    · rintro ⟨m, hm, hne, rfl⟩
      have hm : (ui.touch m.m_file).m_taskMessages id = some m := hm
      have hempty := RemoveMessage_fileIds_self hm hne
      refine ⟨((ui.touch m.m_file).RemoveMessage id).touch m.m_file, ?_, ?_, fun q hq => ?_⟩
      · simp only [ClearFileMessages, clearLoop, hlist, hempty]
      · rw [touch_fileIds, hempty]
      · rw [touch_fileIds, RemoveMessage_fileIds_other, touch_fileIds]
        intro m' hm' _
        cases hm.symm.trans hm'
        exact hq.symm

/-! ### Ids that are given once -/

/-- The ids in the lists are among the first `n`, and belong to messages of the file. -/
structure Listed (ui : UIManager Path) (n : Nat) : Prop where
  given : ∀ path, ∀ id ∈ ui.fileIds path, ∃ k < n, id = UInt64.ofNat (k + 1)
  filed : ∀ path, ∀ id ∈ ui.fileIds path, ui.FiledUnder path id

theorem ofNat_succ_ne {k n : Nat} (hk : k < n) (hn : n < 2 ^ 64) :
    UInt64.ofNat (k + 1) ≠ UInt64.ofNat (n + 1) := by
  intro heq
  have := congrArg UInt64.toNat heq
  simp only [UInt64.toNat_ofNat'] at this
  omega

theorem AddMessage_tasks_of_ne {type : UInt32} {message : String} {line : Int}
    {column : ColumnRange} (hid : id ≠ ui.CurrentID) :
    (ui.AddMessage type message file line column).2.2.m_taskMessages id =
      ui.m_taskMessages id := by
  simp only [AddMessage]
  split_ifs <;> simp [hid]

theorem AddMessage_tasks_self {type : UInt32} {message : String} {line : Int}
    {column : ColumnRange} (hkept : type &&& MessageType.Task ≠ 0 ∨ file ≠ default) :
    (ui.AddMessage type message file line column).2.2.m_taskMessages ui.CurrentID =
      some ⟨type, message, file, line, column, ui.CurrentID⟩ := by
  simp only [AddMessage, if_pos hkept]
  split_ifs <;> simp

/-- Which ids a list has gained. -/
theorem mem_fileIds_AddMessage {type : UInt32} {message : String} {line : Int}
    {column : ColumnRange}
    (hid : id ∈ (ui.AddMessage type message file line column).2.2.fileIds path) :
    id ∈ ui.fileIds path ∨ (id = ui.CurrentID ∧ file ≠ default ∧ file = path) := by
  rw [AddMessage_fileIds_eq] at hid
  split_ifs at hid with hfile
  · rw [List.mem_append, List.mem_singleton] at hid
    exact hid.imp_right fun h => ⟨h, hfile⟩
  · exact .inl hid

namespace Listed

omit [DecidableEq Path] in
theorem new : Listed (.new : UIManager Path) 0 where
  given _ _ hid := absurd hid List.not_mem_nil
  filed _ _ hid := absurd hid List.not_mem_nil

theorem add {type : UInt32} {message : String} {line : Int} {column : ColumnRange}
    (H : Listed ui n) (hcur : ui.CurrentID = UInt64.ofNat (n + 1)) (hn : n < 2 ^ 64) :
    Listed (ui.AddMessage type message file line column).2.2 (n + 1) where
  given path id hid := by
    rcases mem_fileIds_AddMessage hid with hid | ⟨rfl, -, -⟩
    · obtain ⟨k, hk, rfl⟩ := H.given path id hid
      exact ⟨k, Nat.lt_succ_of_lt hk, rfl⟩
    · exact ⟨n, Nat.lt_succ_self n, hcur⟩
  filed path id hid := by
    rcases mem_fileIds_AddMessage hid with hid | ⟨rfl, hne, rfl⟩
    · -- the new id is not one of those in the lists
      obtain ⟨m, hm, hfile⟩ := H.filed path id hid
      obtain ⟨k, hk, rfl⟩ := H.given path id hid
      refine ⟨m, ?_, hfile⟩
      rw [AddMessage_tasks_of_ne (hcur ▸ ofNat_succ_ne hk hn), hm]
    · exact ⟨_, AddMessage_tasks_self (.inr hne), hne, rfl⟩

omit [DecidableEq Path] in
/-- A change that takes ids out of the lists only. -/
theorem mono (H : Listed ui n) (htasks : ui'.m_taskMessages = ui.m_taskMessages)
    (hlists : ∀ path, ∀ id ∈ ui'.fileIds path, id ∈ ui.fileIds path) : Listed ui' n where
  given path id hid := H.given path id (hlists path id hid)
  filed path id hid := by
    rw [FiledUnder, htasks]
    exact H.filed path id (hlists path id hid)

theorem clears (H : Listed ui n) (path : Path) : ui.Clears path :=
  clears_iff_filedUnder.2 fun id hid => H.filed path id (List.mem_of_mem_head? hid)

end Listed

theorem mem_fileIds_RemoveMessage {id' : UInt64} (hid : id' ∈ (ui.RemoveMessage id).fileIds path) :
    id' ∈ ui.fileIds path := by
  by_cases hfiled : ui.FiledUnder path id
  · obtain ⟨m, hm, hne, rfl⟩ := hfiled
    rw [RemoveMessage_fileIds_self hm hne] at hid
    cases hid
  · rwa [RemoveMessage_fileIds_other (not_filedUnder.1 hfiled)] at hid

/-- In every run with at most 2^64 messages. -/
theorem AnyRun.listed (H : AnyRun h ui) (hn : added h ≤ 2 ^ 64) : Listed ui (added h) := by
  induction H with
  | new => exact .new
  | add H ih => exact (ih (Nat.le_of_succ_le hn)).add H.currentID hn
  | remove _ ih => exact (ih hn).mono RemoveMessage_tasks fun _ _ => mem_fileIds_RemoveMessage
  | @clear h ui path ui' _ hok ih =>
    refine (ih hn).mono (clearLoop_frame hok).1 fun q id hid => ?_
    obtain ⟨ui'', hok', hempty, hothers⟩ := (ih hn).clears path
    obtain rfl : ui'' = ui' := Except.ok.inj (hok'.symm.trans hok)
    by_cases hq : q = path
    · subst hq
      rw [hempty] at hid
      cases hid
    · rwa [hothers q hq] at hid

/-! ### Ids that come round -/

/-- Messages that are not kept use up ids. -/
theorem AnyRun.use_ids (H : AnyRun h ui) (k : Nat) :
    ∃ (h' : List (Call Path)) (ui' : UIManager Path), AnyRun h' ui' ∧ added h' = added h + k ∧
      ui'.m_fileMessages = ui.m_fileMessages := by
  induction k with
  | zero => exact ⟨h, ui, H, rfl, rfl⟩
  | succ k ih =>
    obtain ⟨h', ui', H', hadded, hlists⟩ := ih
    refine ⟨_, (ui'.AddMessage 0 "" default (-1) ⟨-1, -1⟩).2.2, H'.add, ?_, ?_⟩
    · rw [added, hadded, Nat.add_assoc]
    · rw [← hlists]
      simp [AddMessage]

/-- After 2^64 messages, the first id is given to a message without a file, and stays in the list of
the file that it was first given for. -/
theorem exists_stuck (hfile : file ≠ default) : ∃ (h : List (Call Path)) (ui : UIManager Path),
    AnyRun h ui ∧ added h = 2 ^ 64 + 1 ∧ ∀ fuel, clearLoop file fuel ui = .error .diverged := by
  have hfirst : AnyRun _ ((.new : UIManager Path).AddMessage 0 "" file 0 ⟨0, 0⟩).2.2 :=
    AnyRun.new.add
  obtain ⟨h, ui, H, hadded, hlists⟩ := hfirst.use_ids (2 ^ 64 - 1)
  have hadded : added h = 2 ^ 64 := by
    rw [hadded, added, added]
    norm_num
  have hcur : ui.CurrentID = 1 := by
    rw [H.currentID, hadded]
    rfl
  have hlist : ui.fileIds file = [1] := by
    rw [fileIds, hlists, ← fileIds, AddMessage_fileIds hfile, if_pos rfl]
    rfl
  refine ⟨_, (ui.AddMessage MessageType.Task "" default 0 ⟨0, 0⟩).2.2, H.add, ?_, fun fuel => ?_⟩
  · rw [added, hadded]
  · have htask := @AddMessage_tasks_self _ _ _ ui default MessageType.Task "" 0 ⟨0, 0⟩
      (.inl (by decide))
    have hkept : (ui.AddMessage MessageType.Task "" default 0 ⟨0, 0⟩).2.2.fileIds file = [1] := by
      rw [AddMessage_fileIds hfile, if_neg hfile.symm, hlist]
    refine clearLoop_stuck hkept fun m hm hne => ?_
    rw [← hcur] at hm
    cases htask.symm.trans hm
    exact (hne rfl).elim

/-- **The loop of `ClearFileMessages` ends in every run with at most 2^64 messages**, and need not
with more. That it does not end in the model means that no number of iterations is enough. -/
theorem AnyRun.clears_iff (hfile : file ≠ default) (n : Nat) :
    ((∀ (h : List (Call Path)) (ui : UIManager Path), AnyRun h ui → added h ≤ n →
      ∀ path, ui.Clears path) ↔ n ≤ 2 ^ 64) ∧
    ∀ (ui : UIManager Path) (path : Path) (fuel : Nat),
      clearLoop path (fuel + 2) ui = ui.ClearFileMessages path := by
  refine ⟨?_, fun ui path fuel => clearLoop_fuel⟩
  constructor
  · intro hclears
    by_contra hlt
    obtain ⟨h, ui, H, hadded, hstuck⟩ := exists_stuck hfile
    obtain ⟨ui', hok, -⟩ := hclears h ui H (by omega) file
    cases (hstuck 2).symm.trans hok
  · intro hle h ui H hn path
    exact (H.listed (hn.trans hle)).clears path

/-- One message of a file. -/
theorem AnyRun.clears_iff_one :
    ((.new : UIManager Bool).AddMessage 1 "a" true 1 ⟨-1, -1⟩).2.2.Clears true :=
  (AnyRun.clears_iff (by decide : true ≠ default) 1).1.2 (by decide) _ _ AnyRun.new.add
    (Nat.le_refl 1) true

/-- With one message more than there are ids. -/
theorem AnyRun.not_clears : ∃ (h : List (Call Bool)) (ui : UIManager Bool),
    AnyRun h ui ∧ added h = 2 ^ 64 + 1 ∧ ¬ui.Clears true ∧
      ∀ fuel, clearLoop true fuel ui = .error .diverged := by
  obtain ⟨h, ui, H, hadded, hstuck⟩ := exists_stuck (by decide : true ≠ default)
  refine ⟨h, ui, H, hadded, ?_, hstuck⟩
  rintro ⟨ui', hok, -⟩
  cases (hstuck 2).symm.trans hok

end MUtils.UIManager
