import Mathlib

/-!
# Ordered maps and the lists of their entries

The standard library's ordered maps, filled again from the entries of a map in the order of the
keys: all of them, or those up to a key. A map that is filled from any list keeps the last value of
each key (`getElem?_foldl_insert`). What is written for all entries of a map, one after the other,
is seen place by place (`foldl_writes`).
-/

namespace MUtils

open Std (ExtTreeMap)

section
variable [Ord κ] [Std.TransOrd κ] [Std.LawfulEqOrd κ] [BEq κ] [LawfulBEq κ]
  {m : ExtTreeMap κ α} {l : List (κ × α)}

omit [BEq κ] [LawfulBEq κ] in
/-- Of the values written for a key, the last one stays. -/
theorem getElem?_foldl_insert {k : κ} {v : α} :
    (l.foldl (fun m e => m.insert e.1 e.2) (∅ : ExtTreeMap κ α))[k]? = some v ↔
      ∃ i : Nat, l[i]? = some (k, v) ∧ ∀ j v', i < j → l[j]? ≠ some (k, v') := by
  induction l using List.reverseRecOn with
  | nil => simp
  | append_singleton l e ih =>
    obtain ⟨k', v'⟩ := e
    rw [List.foldl_append, List.foldl_cons, List.foldl_nil, ExtTreeMap.getElem?_insert]
    split
    · next hk =>
      obtain rfl : k' = k := Std.LawfulEqCmp.compare_eq_iff_eq.mp hk
      constructor
      · rintro ⟨⟩
        refine ⟨l.length, List.getElem?_concat_length, fun j v'' hj => ?_⟩
        rw [List.getElem?_eq_none (by simpa using hj)]
        exact nofun
      · rintro ⟨i, hi, hlast⟩
        -- the last entry has the key, so it is the one
        have hle : l.length ≤ i := by
          by_contra hlt
          exact hlast l.length v' (Nat.lt_of_not_le hlt) List.getElem?_concat_length
        have hlt := (List.getElem?_eq_some_iff.mp hi).1
        obtain rfl : i = l.length := by
          rw [List.length_append, List.length_singleton] at hlt
          omega
        rw [List.getElem?_concat_length] at hi
        cases hi
        rfl
    · next hk =>
      rw [ih]
      -- the last entry has another key
      have hsame : ∀ (i : Nat) v'', (l ++ [(k', v')])[i]? = some (k, v'') ↔
          l[i]? = some (k, v'') := by
        intro i v''
        rcases Nat.lt_trichotomy i l.length with hi | rfl | hi
        · rw [List.getElem?_append_left hi]
        · rw [List.getElem?_concat_length, List.getElem?_eq_none le_rfl]
          constructor
          · rintro ⟨⟩
            exact absurd Std.ReflCmp.compare_self hk
          · exact nofun
        · rw [List.getElem?_eq_none (by simpa using hi), List.getElem?_eq_none hi.le]
      simp only [ne_eq, hsame]

end

/-- A fold of writes, seen at one place: what is there afterwards was written there by one of them,
or none of them wrote there. -/
theorem foldl_writes {σ ε β : Type} {step : σ → ε → σ} (read : σ → β) (hits : ε → Prop)
    (val : ε → β) (hhit : ∀ s e, hits e → read (step s e) = val e)
    (hmiss : ∀ s e, ¬hits e → read (step s e) = read s) (l : List ε) (s : σ) :
    (∃ e ∈ l, hits e ∧ read (l.foldl step s) = val e) ∨
      ((∀ e ∈ l, ¬hits e) ∧ read (l.foldl step s) = read s) := by
  induction l using List.reverseRecOn with
  | nil => exact .inr ⟨fun e he => absurd he List.not_mem_nil, rfl⟩
  | append_singleton l e ih =>
    rw [List.foldl_append, List.foldl_cons, List.foldl_nil]
    by_cases he : hits e
    · exact .inl ⟨e, List.mem_append_right _ List.mem_cons_self, he, hhit _ _ he⟩
    · rw [hmiss _ _ he]
      rcases ih with ⟨e', hmem, hhits, hread⟩ | ⟨hnone, hread⟩
      · exact .inl ⟨e', List.mem_append_left _ hmem, hhits, hread⟩
      · refine .inr ⟨fun e' hmem => ?_, hread⟩
        rcases List.mem_append.mp hmem with hmem | hmem
        · exact hnone e' hmem
        · rwa [List.mem_singleton.mp hmem]

end MUtils
