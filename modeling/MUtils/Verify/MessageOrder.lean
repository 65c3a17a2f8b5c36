import MUtils.Theory.MixedOrder
import MUtils.UI.UIManager

/-!
# Sorting messages

`UIMessage::operator<` compares two messages of one file with known lines by line and column, and
any other two by the order in which they were made. It is a strict weak order on a set of messages
exactly when nothing was made between two messages of one file whose positions are not in the order
in which they were made (`lt_isStrictWeakOrder_iff`).
-/

namespace MUtils.UIMessage

variable {Path : Type} {a b : UIMessage Path}

/-- Two messages at known lines of the same file. -/
def SameFile (a b : UIMessage Path) : Prop := a.m_file = b.m_file ∧ a.m_line ≠ -1 ∧ b.m_line ≠ -1

theorem SameFile.symm (h : SameFile a b) : SameFile b a := ⟨h.1.symm, h.2.2, h.2.1⟩

theorem SameFile.trans {c : UIMessage Path} (h : SameFile a b) (h' : SameFile b c) :
    SameFile a c :=
  ⟨h.1.trans h'.1, h.2.1, h'.2.2⟩

/-- The place of a message in its file. -/
def position (m : UIMessage Path) : ℤ ×ₗ ℤ ×ₗ ℤ :=
  toLex (m.m_line, toLex (m.m_columnRange.start, m.m_columnRange.end))

theorem position_lt_iff : a.position < b.position ↔
    a.m_line < b.m_line ∨ a.m_line = b.m_line ∧ (a.m_columnRange.start < b.m_columnRange.start ∨
      a.m_columnRange.start = b.m_columnRange.start ∧
        a.m_columnRange.end < b.m_columnRange.end) := by
  simp only [position, Prod.Lex.toLex_lt_toLex]

variable [DecidableEq Path]

theorem lt_iff_of_sameFile (h : SameFile a b) : a < b ↔ a.position < b.position := by
  have hlt : a < b ↔
      if a.m_line = b.m_line then a.m_columnRange < b.m_columnRange else a.m_line < b.m_line := by
    rw [lt_def]
    exact iff_of_eq (if_pos h)
  rw [hlt, position_lt_iff, ColumnRange.lt_def]
  split_ifs <;> omega

theorem lt_iff_of_not_sameFile (h : ¬SameFile a b) : a < b ↔ a.m_id.toNat < b.m_id.toNat := by
  rw [← UInt64.lt_iff_toNat_lt, lt_def]
  exact iff_of_eq (if_neg h)

theorem lt_iff_less : a < b ↔ MixedOrder.Less SameFile position (·.m_id.toNat) a b := by
  by_cases h : SameFile a b
  · rw [MixedOrder.less_of_same h, lt_iff_of_sameFile h]
  · rw [MixedOrder.less_of_not_same h, lt_iff_of_not_sameFile h]

theorem lt_isStrictWeakOrder_iff (S : Set (UIMessage Path)) (hids : S.InjOn m_id) :
    IsStrictWeakOrder S (fun a b => a.1 < b.1) ↔
      ∀ a ∈ S, ∀ b ∈ S, ∀ c ∈ S, SameFile a b → ¬SameFile a c → a.m_id < c.m_id →
        c.m_id < b.m_id → a.m_line < b.m_line ∨ a.m_line = b.m_line ∧
          (a.m_columnRange.start < b.m_columnRange.start ∨
            a.m_columnRange.start = b.m_columnRange.start ∧
              a.m_columnRange.end < b.m_columnRange.end) := by
  have hless : (fun a b : S => a.1 < b.1) = MixedOrder.Less (fun a b : S => SameFile a.1 b.1)
      (fun a => a.1.position) (fun a => a.1.m_id.toNat) := by
    funext a b
    exact propext lt_iff_less
  have hkey : Function.Injective fun a : S => a.1.m_id.toNat := fun a b h =>
    Subtype.ext (hids a.2 b.2 (UInt64.toNat_inj.1 h))
  rw [hless, MixedOrder.isStrictWeakOrder_iff (fun _ _ => .symm) (fun _ _ _ => .trans) hkey]
  constructor
  · intro h a ha b hb c hc sab sac hac hcb
    rw [← position_lt_iff]
    exact h ⟨a, ha⟩ ⟨b, hb⟩ ⟨c, hc⟩ sab sac (UInt64.lt_iff_toNat_lt.1 hac)
      (UInt64.lt_iff_toNat_lt.1 hcb)
  · intro h a b c sab sac hac hcb
    exact position_lt_iff.2 (h a a.2 b b.2 c c.2 sab sac
      (UInt64.lt_iff_toNat_lt.2 hac) (UInt64.lt_iff_toNat_lt.2 hcb))

/-- An error in line `line` of file number `file`. -/
def errorAt (file : Nat) (line : Int) (id : UInt64) : UIMessage Nat :=
  ⟨MessageType.Error, "", file, line, ⟨-1, -1⟩, id⟩

/-- Two lines of a file that are reported in their order, and between the two a message about
another file and one without a line. -/
theorem lt_isStrictWeakOrder_iff_between :
    Set.InjOn m_id {errorAt 1 5 1, errorAt 2 7 2, errorAt 1 (-1) 3, errorAt 1 10 4} ∧
      IsStrictWeakOrder ({errorAt 1 5 1, errorAt 2 7 2, errorAt 1 (-1) 3, errorAt 1 10 4} :
        Set (UIMessage Nat)) (fun a b => a.1 < b.1) := by
  have hids : Set.InjOn m_id {errorAt 1 5 1, errorAt 2 7 2, errorAt 1 (-1) 3, errorAt 1 10 4} := by
    rintro a (rfl | rfl | rfl | rfl) b (rfl | rfl | rfl | rfl) h <;>
      first | rfl | exact absurd h (by decide)
  refine ⟨hids, (lt_isStrictWeakOrder_iff _ hids).2 ?_⟩
  rintro a (rfl | rfl | rfl | rfl) b (rfl | rfl | rfl | rfl) c - sab - hac hcb
  all_goals first
    | exact .inl (by decide)
    | exact absurd sab.1 (by decide)
    | exact absurd sab.2.1 (by decide)
    | exact absurd sab.2.2 (by decide)
    | exact absurd (UInt64.lt_trans hac hcb) (by decide)

/-- Lines 10 and 5 of a file are reported, and between the two a message about another file. -/
theorem lt_not_isStrictWeakOrder :
    Set.InjOn m_id {errorAt 1 10 1, errorAt 2 7 2, errorAt 1 5 3} ∧
      ¬IsStrictWeakOrder ({errorAt 1 10 1, errorAt 2 7 2, errorAt 1 5 3} : Set (UIMessage Nat))
        (fun a b => a.1 < b.1) := by
  constructor
  · rintro a (rfl | rfl | rfl) b (rfl | rfl | rfl) h <;> first | rfl | exact absurd h (by decide)
  · intro order
    have h := order.trans ⟨errorAt 1 10 1, by simp⟩ ⟨errorAt 2 7 2, by simp⟩
      ⟨errorAt 1 5 3, by simp⟩ (by decide) (by decide)
    exact absurd h (by decide)

end MUtils.UIMessage
