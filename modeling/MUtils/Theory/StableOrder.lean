import Mathlib

/-!
# Stable order

`StableOrder key arrival xs` says that `xs` is `arrival` rearranged in non-decreasing order of
`key`, where elements with equal keys keep the order of `arrival`. The lemmas say how a sequence
keeps this order under the arrival of one more element, the departure of one, and a change of keys
elsewhere. There is only one such sequence (`StableOrder.unique`).
-/

namespace MUtils

variable {α κ : Type*} [LinearOrder κ] {key key' : α → κ} {arrival xs ys as bs : List α} {e : α}

structure StableOrder (key : α → κ) (arrival xs : List α) : Prop where
  perm : xs.Perm arrival
  order : xs.Pairwise fun a b => key a < key b ∨ key a = key b ∧ [a, b].Sublist arrival

namespace StableOrder

theorem nil : StableOrder key [] [] := ⟨.refl _, .nil⟩

theorem sorted (h : StableOrder key arrival xs) : xs.Pairwise fun a b => key a ≤ key b :=
  h.order.imp fun hab => hab.elim le_of_lt fun hab => le_of_eq hab.1

theorem congr (h : StableOrder key arrival xs) (hk : ∀ a ∈ xs, key' a = key a) :
    StableOrder key' arrival xs := by
  refine ⟨h.perm, h.order.imp_of_mem fun {a b} ha hb hab => ?_⟩
  rwa [hk a ha, hk b hb]

/-- A new element goes after everything that is not later than it. -/
theorem insert (h : StableOrder key arrival (as ++ bs)) (ha : ∀ a ∈ as, key a ≤ key e)
    (hb : ∀ b ∈ bs, key e < key b) : StableOrder key (arrival ++ [e]) (as ++ e :: bs) := by
  have hsub : ∀ {a b : α}, [a, b].Sublist arrival → [a, b].Sublist (arrival ++ [e]) :=
    fun h => h.trans (List.sublist_append_left _ _)
  have hmono : ∀ {a b : α}, (key a < key b ∨ key a = key b ∧ [a, b].Sublist arrival) →
      key a < key b ∨ key a = key b ∧ [a, b].Sublist (arrival ++ [e]) :=
    fun h => h.imp_right fun h => ⟨h.1, hsub h.2⟩
  obtain ⟨h1, h2, h3⟩ := List.pairwise_append.1 h.order
  constructor
  · calc as ++ e :: bs
      _ |>.Perm (e :: (as ++ bs)) := List.perm_middle
      _ |>.Perm (e :: arrival) := h.perm.cons e
      _ |>.Perm (arrival ++ [e]) := (List.perm_append_singleton e arrival).symm
  · refine List.pairwise_append.2 ⟨h1.imp hmono, List.pairwise_cons.2 ⟨?_, h2.imp hmono⟩, ?_⟩
    · exact fun b hb' => .inl (hb b hb')
    · intro a ha' b hb'
      rcases List.mem_cons.1 hb' with rfl | hb'
      · rcases (ha a ha').lt_or_eq with hlt | heq
        · exact .inl hlt
        · have hmem : a ∈ arrival := h.perm.subset (List.mem_append_left _ ha')
          exact .inr ⟨heq, List.Sublist.append (List.singleton_sublist.2 hmem) (.refl _)⟩
      · exact hmono (h3 a ha' b hb')

/-- Taking an element out keeps the order of the others. -/
theorem erase [DecidableEq α] (h : StableOrder key arrival xs) (hnd : xs.Nodup) (p : α) :
    StableOrder key (arrival.erase p) (xs.erase p) := by
  refine ⟨h.perm.erase p, (h.order.sublist List.erase_sublist).imp_of_mem ?_⟩
  intro a b ha hb hab
  refine hab.imp_right fun hab => ⟨hab.1, ?_⟩
  have hpa : p ≠ a := fun hp => ((hnd.mem_erase_iff).1 ha).1 hp.symm
  have hpb : p ≠ b := fun hp => ((hnd.mem_erase_iff).1 hb).1 hp.symm
  have := hab.2.erase p
  rwa [List.erase_of_not_mem (by simp [hpa, hpb])] at this

/-- In a list without repetition, two elements stand in one order only. -/
theorem eq_of_pair_sublist {a b : α} {l : List α} (hnd : l.Nodup) (h : [a, b].Sublist l)
    (h' : [b, a].Sublist l) : a = b := by
  induction l with
  | nil => cases h
  | cons c l ih =>
    obtain ⟨hc, hnd⟩ := List.nodup_cons.1 hnd
    cases h with
    | cons _ h =>
      cases h' with
      | cons _ h' => exact ih hnd h h'
      | cons_cons _ h' => exact absurd (h.subset (by simp)) hc
    | cons_cons _ h =>
      cases h' with
      | cons _ h' => exact absurd (h'.subset (by simp)) hc
      | cons_cons _ h' => rfl

theorem unique (h : StableOrder key arrival xs) (h' : StableOrder key arrival ys)
    (hnd : arrival.Nodup) : xs = ys := by
  refine List.Perm.eq_of_pairwise (fun a b _ _ hab hba => ?_) h.order h'.order
    (h.perm.trans h'.perm.symm)
  rcases hab with hab | ⟨hab, hsub⟩ <;> rcases hba with hba | ⟨hba, hsub'⟩
  · exact absurd hba hab.asymm
  · exact absurd hba hab.ne'
  · exact absurd hab hba.ne'
  · exact eq_of_pair_sublist hnd hsub hsub'

end StableOrder

end MUtils
