import MUtils.Device.GLBuffer

/-!
# The ranges that a buffer hands out

Between two restarts the ranges of a `GLBuffer` lie one behind the other as long as the cursor is a
multiple of the element size whenever it is used: otherwise the offset in elements is rounded down
and the new range starts inside the one before. `Run.separate_iff_aligned` says that this is the
only way.
-/

namespace MUtils

/-- The bytes of a range. -/
def Mapped.bytes (r : Mapped) : Set Nat := Set.Ico r.start (r.start + r.length)

theorem Mapped.disjoint_bytes {r s : Mapped} : Disjoint r.bytes s.bytes ↔
    min (r.start + r.length) (s.start + s.length) ≤ max r.start s.start :=
  Set.Ico_disjoint_Ico

namespace GLBuffer
open Outcome

/-! ### One call -/

/-- Elements have a size, and the sums that the call computes are below `2 ^ 32`. (A buffer that
grows does not add to its cursor.) -/
structure Fits (b : GLBuffer) (num typeSize : Nat) : Prop where
  typeSize_pos : 0 < typeSize
  byteSize_lt : num * typeSize < 2 ^ 32
  end_lt : ¬b.m_size < num * typeSize → b.m_offset + num * typeSize < 2 ^ 32

/-- The storage is restarted: by request, because it grows, or because the range does not fit behind
the cursor. -/
def Restarts (b : GLBuffer) (num typeSize : Nat) : Prop :=
  b.m_reset = true ∨ b.m_size < num * typeSize ∨ b.m_size < b.m_offset + num * typeSize

/-- The range and the cursor after a call. -/
structure Hands (b : GLBuffer) (num typeSize : Nat) (r : Mapped) (b' : GLBuffer) : Prop where
  restart : b.Restarts num typeSize → r = ⟨0, 0, num * typeSize⟩ ∧ b'.m_offset = num * typeSize
  next : ¬b.Restarts num typeSize →
    r = ⟨b.m_offset / typeSize, b.m_offset / typeSize * typeSize, num * typeSize⟩ ∧
      b'.m_offset = b.m_offset + num * typeSize
  size : b'.m_size = max b.m_size (num * typeSize)
  bufferID : b'.m_bufferID = b.m_bufferID
  mapped : b'.m_mapped = b.m_mapped

section
variable {b b₁ b' : GLBuffer} {num typeSize : Nat} {r : Mapped}

/-- A buffer that grows has its cursor back at 0, and both branches hand out the same. -/
theorem takeRange_grown (hgrow : b.m_size < num * typeSize) (hlt : num * typeSize < 2 ^ 32) :
    b.Hands num typeSize ((b.EnsureSize (num * typeSize)).takeRange (num * typeSize) typeSize).1
      ((b.EnsureSize (num * typeSize)).takeRange (num * typeSize) typeSize).2 := by
  have hrestart : b.Restarts num typeSize := .inr (.inl hgrow)
  have hmod : (0 + num * typeSize) % 2 ^ 32 = num * typeSize := by
    rw [Nat.zero_add, Nat.mod_eq_of_lt hlt]
  simp only [EnsureSize, if_pos hgrow, takeRange, hmod, Nat.lt_irrefl, or_false, gt_iff_lt,
    Nat.zero_div, Nat.zero_mul, Nat.zero_mod]
  split <;>
    exact ⟨fun _ => ⟨rfl, rfl⟩, fun h => (h hrestart).elim, (max_eq_right hgrow.le).symm, rfl, rfl⟩

theorem takeRange_kept (hkept : ¬b.m_size < num * typeSize)
    (hlt : b.m_offset + num * typeSize < 2 ^ 32) :
    b.Hands num typeSize (b.takeRange (num * typeSize) typeSize).1
      (b.takeRange (num * typeSize) typeSize).2 := by
  have hmod := Nat.mod_eq_of_lt hlt
  have hsize : b.m_size = max b.m_size (num * typeSize) := (max_eq_left (by omega)).symm
  have hstart : b.m_offset / typeSize * typeSize % 2 ^ 32 = b.m_offset / typeSize * typeSize := by
    have := Nat.div_mul_le_self b.m_offset typeSize
    exact Nat.mod_eq_of_lt (by omega)
  simp only [takeRange, hmod, hstart]
  split
  · next h =>
    have hrestart : b.Restarts num typeSize := h.imp_right .inr
    exact ⟨fun _ => ⟨rfl, rfl⟩, fun h => (h hrestart).elim, hsize, rfl, rfl⟩
  · next h =>
    have hnext : ¬b.Restarts num typeSize := fun hr => h (hr.imp_right (·.resolve_left hkept))
    exact ⟨fun h => (hnext h).elim, fun _ => ⟨rfl, rfl⟩, hsize, rfl, rfl⟩

theorem takeRange_hands (hfits : b.Fits num typeSize) :
    b.Hands num typeSize ((b.EnsureSize (num * typeSize)).takeRange (num * typeSize) typeSize).1
      ((b.EnsureSize (num * typeSize)).takeRange (num * typeSize) typeSize).2 := by
  by_cases hgrow : b.m_size < num * typeSize
  · exact takeRange_grown hgrow hfits.byteSize_lt
  · rw [EnsureSize, if_neg hgrow]
    exact takeRange_kept hgrow (hfits.end_lt hgrow)

/-- A pair of `Map` and `UnMap` on a buffer that is not mapped. -/
theorem map_unMap (hfits : b.Fits num typeSize) (hidle : b.m_mapped = false)
    (hid : b.m_bufferID ≠ 0) : ∃ r b₁ b', b.Map num typeSize = .ok (some r, b₁) ∧
      b₁.UnMap = .ok b' ∧ b.Hands num typeSize r b' := by
  have hfits' : Fits { b with m_mapped := true } num typeSize :=
    ⟨hfits.typeSize_pos, hfits.byteSize_lt, hfits.end_lt⟩
  have h := takeRange_hands hfits'
  generalize ht : takeRange _ _ _ = taken at h
  refine ⟨taken.1, taken.2, { taken.2 with m_mapped := false }, ?_, ?_, h.restart, h.next, h.size,
    h.bufferID, hidle.symm⟩
  · rw [Map, assert_pos hidle, ok_bind, if_neg hid]
    simp only [Nat.mod_eq_of_lt hfits.byteSize_lt, ht]
    rfl
  · rw [UnMap, assert_pos h.mapped]
    rfl

theorem hands_of_map (hfits : b.Fits num typeSize) (hidle : b.m_mapped = false)
    (hid : b.m_bufferID ≠ 0) (hmap : b.Map num typeSize = .ok (some r, b₁))
    (hunmap : b₁.UnMap = .ok b') : b.Hands num typeSize r b' := by
  obtain ⟨r', b₁', b'', hmap', hunmap', hands⟩ := map_unMap hfits hidle hid
  cases hmap.symm.trans hmap'
  cases hunmap.symm.trans hunmap'
  exact hands

end

/-! ### Runs -/

/-- A call of `Map`: the buffer before it, its arguments and what it handed out. -/
structure MapCall where
  before : GLBuffer
  num : Nat
  typeSize : Nat
  range : Mapped

/-- The call restarted the storage. -/
def MapCall.Restarted (c : MapCall) : Prop := c.before.Restarts c.num c.typeSize

/-- The cursor is at a multiple of the size of the elements asked for. -/
def MapCall.Aligned (c : MapCall) : Prop := c.typeSize ∣ c.before.m_offset

/-- A run of pairs of `Map` and `UnMap`, with its calls, the latest first. The client may set the
public field `m_reset`. -/
inductive Run : List MapCall → GLBuffer → Prop
  | new : bufferID ≠ 0 → Run [] (.new size bufferID)
  | reset : Run h b → Run h { b with m_reset := true }
  | map : Run h b → b.Fits num typeSize → b.Map num typeSize = .ok (some r, b₁) →
      b₁.UnMap = .ok b' → Run (⟨b, num, typeSize, r⟩ :: h) b'

/-- The ranges handed out since the storage was last restarted. -/
def since : List MapCall → Set Mapped
  | [] => ∅
  | c :: h => {r | r = c.range ∨ ¬c.Restarted ∧ r ∈ since h}

/-- No range overlaps one that was handed out before it since the last restart. -/
def Separate : List MapCall → Prop
  | [] => True
  | c :: h => (¬c.Restarted → ∀ r ∈ since h, Disjoint c.range.bytes r.bytes) ∧ Separate h

/-- The bytes handed out are those of the elements, and they are inside the buffer. -/
structure MapCall.Exact (c : MapCall) : Prop where
  start_eq : c.range.start = c.range.offset * c.typeSize
  length_eq : c.range.length = c.num * c.typeSize
  end_le : c.range.start + c.range.length ≤ (c.before.EnsureSize (c.num * c.typeSize)).m_size

/-- The calls that were to hand out a range behind the others were aligned. -/
def AllAligned (h : List MapCall) : Prop := ∀ c ∈ h, ¬c.Restarted → 0 < c.num → c.Aligned

variable {h : List MapCall} {b b₁ b' : GLBuffer} {num typeSize : Nat} {r : Mapped}

theorem Run.idle (hrun : Run h b) : b.m_mapped = false ∧ b.m_bufferID ≠ 0 := by
  induction hrun with
  | new hid => exact ⟨rfl, hid⟩
  | reset _ ih => exact ih
  | map _ hfits hmap hunmap ih =>
    have hands := hands_of_map hfits ih.1 ih.2 hmap hunmap
    exact ⟨hands.mapped.trans ih.1, hands.bufferID ▸ ih.2⟩

theorem Run.hands (hrun : Run h b) (hfits : b.Fits num typeSize)
    (hmap : b.Map num typeSize = .ok (some r, b₁)) (hunmap : b₁.UnMap = .ok b') :
    b.Hands num typeSize r b' :=
  hands_of_map hfits hrun.idle.1 hrun.idle.2 hmap hunmap

/-- Every range since the last restart ends at the cursor or before it. -/
theorem Run.end_le (hrun : Run h b) : ∀ r ∈ since h, r.start + r.length ≤ b.m_offset := by
  induction hrun with
  | new => simp [since]
  | reset _ ih => exact ih
  | @map h b num typeSize r b₁ b' hrun hfits hmap hunmap ih =>
    have hands := hrun.hands hfits hmap hunmap
    by_cases hrestart : b.Restarts num typeSize
    · obtain ⟨rfl, hoffset⟩ := hands.restart hrestart
      rintro r (rfl | ⟨hnot, -⟩)
      · simp [hoffset]
      · exact (hnot hrestart).elim
    · obtain ⟨rfl, hoffset⟩ := hands.next hrestart
      rintro r (rfl | ⟨-, hr⟩)
      · have := Nat.div_mul_le_self b.m_offset typeSize
        simp only
        omega
      · have := ih r hr
        omega

/-- If every call was aligned there is no gap before the cursor. -/
theorem Run.exists_end (hrun : Run h b) (haligned : AllAligned h) :
    b.m_offset = 0 ∨ ∃ r ∈ since h, 0 < r.length ∧ r.start + r.length = b.m_offset := by
  induction hrun with
  | new => exact .inl rfl
  | reset _ ih => exact ih haligned
  | @map h b num typeSize r b₁ b' hrun hfits hmap hunmap ih =>
    have hands := hrun.hands hfits hmap hunmap
    by_cases hrestart : b.Restarts num typeSize
    · obtain ⟨rfl, hoffset⟩ := hands.restart hrestart
      rw [hoffset]
      rcases Nat.eq_zero_or_pos (num * typeSize) with hzero | hpos
      · exact .inl hzero
      · exact .inr ⟨_, .inl rfl, hpos, Nat.zero_add _⟩
    · obtain ⟨rfl, hoffset⟩ := hands.next hrestart
      rw [hoffset]
      rcases Nat.eq_zero_or_pos num with rfl | hpos
      · -- nothing was handed out
        rw [Nat.zero_mul, Nat.add_zero]
        refine (ih fun c hc => haligned c (List.mem_cons_of_mem _ hc)).imp_right ?_
        rintro ⟨r, hr, hend⟩
        exact ⟨r, .inr ⟨hrestart, hr⟩, hend⟩
      · have hdvd : typeSize ∣ b.m_offset := haligned _ List.mem_cons_self hrestart hpos
        refine .inr ⟨_, .inl rfl, Nat.mul_pos hpos hfits.typeSize_pos, ?_⟩
        change b.m_offset / typeSize * typeSize + num * typeSize = _
        rw [Nat.div_mul_cancel hdvd]

/-- The ranges since a restart never overlap if and only if every call was aligned. -/
theorem Run.separate_iff_aligned (hrun : Run h b) : Separate h ↔ AllAligned h := by
  induction hrun with
  | new => simp [Separate, AllAligned]
  | reset _ ih => exact ih
  | @map h b num typeSize r b₁ b' hrun hfits hmap hunmap ih =>
    have hands := hrun.hands hfits hmap hunmap
    have hcons : AllAligned (⟨b, num, typeSize, r⟩ :: h) ↔
        (¬b.Restarts num typeSize → 0 < num → typeSize ∣ b.m_offset) ∧ AllAligned h :=
      List.forall_mem_cons
    rw [Separate, ih, hcons]
    refine and_congr_left fun haligned => imp_congr_right fun hrestart => ?_
    obtain ⟨rfl, -⟩ := hands.next hrestart
    constructor
    · -- the range before ends at the cursor, and rounding down goes back into it
      intro hdisjoint hpos
      by_contra hndvd
      have hoffset : b.m_offset ≠ 0 := fun hzero => hndvd (hzero ▸ Nat.dvd_zero _)
      obtain ⟨r, hr, hlen, hend⟩ := (hrun.exists_end haligned).resolve_left hoffset
      have hmin := Mapped.disjoint_bytes.1 (hdisjoint r hr)
      have hmod : 0 < b.m_offset % typeSize :=
        Nat.pos_of_ne_zero fun hzero => hndvd (Nat.dvd_of_mod_eq_zero hzero)
      have hdiv := Nat.div_add_mod' b.m_offset typeSize
      have hlt := Nat.mod_lt b.m_offset hfits.typeSize_pos
      have hle := Nat.le_mul_of_pos_left typeSize hpos
      simp only at hmin
      omega
    · intro hdvd r hr
      have hend := hrun.end_le r hr
      rw [Mapped.disjoint_bytes]
      rcases Nat.eq_zero_or_pos num with rfl | hpos
      · simp only [Nat.zero_mul]
        omega
      · have hstart := Nat.div_mul_cancel (hdvd hpos)
        simp only
        omega

theorem Run.exact (hrun : Run h b) : ∀ c ∈ h, c.Exact := by
  induction hrun with
  | new => simp
  | reset _ ih => exact ih
  | @map h b num typeSize r b₁ b' hrun hfits hmap hunmap ih =>
    have hands := hrun.hands hfits hmap hunmap
    refine List.forall_mem_cons.2 ⟨?_, ih⟩
    by_cases hrestart : b.Restarts num typeSize
    · obtain ⟨rfl, -⟩ := hands.restart hrestart
      refine ⟨(Nat.zero_mul _).symm, rfl, ?_⟩
      simp only [EnsureSize, Nat.zero_add]
      split
      · exact Nat.le_refl _
      · omega
    · obtain ⟨rfl, -⟩ := hands.next hrestart
      refine ⟨rfl, rfl, ?_⟩
      obtain ⟨-, hgrow, hfit⟩ : ¬b.m_reset = true ∧ ¬b.m_size < num * typeSize ∧
          ¬b.m_size < b.m_offset + num * typeSize := by simpa only [Restarts, not_or] using hrestart
      have := Nat.div_mul_le_self b.m_offset typeSize
      simp only [EnsureSize, gt_iff_lt, if_neg hgrow]
      omega

/-- `Map` hands out the bytes of the elements asked for, inside the buffer. The ranges since a
restart never overlap exactly when the cursor was aligned in every call that was to hand out
something behind them. -/
theorem Run.ranges (hrun : Run h b) :
    (∀ num typeSize, b.Fits num typeSize → ∃ r b₁ b', b.Map num typeSize = .ok (some r, b₁) ∧
      b₁.UnMap = .ok b') ∧
    (∀ c ∈ h, c.Exact) ∧ (Separate h ↔ AllAligned h) := by
  refine ⟨fun num typeSize hfits => ?_, hrun.exact, hrun.separate_iff_aligned⟩
  obtain ⟨r, b₁, b', hmap, hunmap, -⟩ := map_unMap hfits hrun.idle.1 hrun.idle.2
  exact ⟨r, b₁, b', hmap, hunmap⟩

/-- A buffer of 16 bytes from which 4 have been taken. -/
theorem run_four : Run [⟨.new 16 1, 1, 4, ⟨0, 0, 4⟩⟩] ⟨4, 1, 16, false, false⟩ := by
  have hnew : Run [] (.new 16 1) := .new (by decide)
  exact hnew.map ⟨by decide, by decide, by decide⟩ rfl rfl

theorem Run.ranges_four_four :
    ∃ h b, Run h b ∧ h.map (·.range) = [⟨1, 4, 4⟩, ⟨0, 0, 4⟩] ∧ Separate h := by
  have hfour : Run (⟨_, 1, 4, ⟨1, 4, 4⟩⟩ :: _) ⟨8, 1, 16, false, false⟩ :=
    run_four.map ⟨by decide, by decide, by decide⟩ rfl rfl
  refine ⟨_, _, hfour, rfl, hfour.ranges.2.2.2 ?_⟩
  exact List.forall_mem_cons.2
    ⟨fun _ _ => ⟨1, rfl⟩, List.forall_mem_singleton.2 fun _ _ => ⟨0, rfl⟩⟩

/-- Four bytes and then eight: the second range starts at 0 again, without a restart. -/
theorem Run.ranges_four_eight :
    ∃ h b, Run h b ∧ h.map (·.range) = [⟨0, 0, 8⟩, ⟨0, 0, 4⟩] ∧ ¬Separate h := by
  have height : Run (⟨_, 1, 8, ⟨0, 0, 8⟩⟩ :: _) ⟨12, 1, 16, false, false⟩ :=
    run_four.map ⟨by decide, by decide, by decide⟩ rfl rfl
  refine ⟨_, _, height, rfl, fun hseparate => ?_⟩
  have hrestart : ¬Restarts ⟨4, 1, 16, false, false⟩ 1 8 := by
    rintro (h | h | h) <;> simp at h
  have := hseparate.1 hrestart ⟨0, 0, 4⟩ (.inl rfl)
  rw [Mapped.disjoint_bytes] at this
  simp at this

end GLBuffer

end MUtils
