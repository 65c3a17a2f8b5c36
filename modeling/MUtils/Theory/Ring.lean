import Mathlib

/-!
# Circular lists with a cursor

A ring is never empty: it has a current element, and the others in the order in which they follow
it. Moving the cursor changes which element is the current one; the edits are stated next to it.
-/

namespace MUtils

structure Ring (α : Type) where
  current : α
  /-- The other elements, from the one after the current element on. -/
  others : List α
  deriving DecidableEq

namespace Ring
variable {α : Type}

/-- The element after the current one becomes the current one. -/
def next (r : Ring α) : Ring α :=
  match r.others with
  | [] => r
  | b :: others => ⟨b, others ++ [r.current]⟩

/-- The element before the current one becomes the current one. -/
def prev (r : Ring α) : Ring α :=
  match r.others.getLast? with
  | none => r
  | some b => ⟨b, r.current :: r.others.dropLast⟩

/-- A new element directly before the current one, which becomes the current one. -/
def insert (r : Ring α) (x : α) : Ring α := ⟨x, r.current :: r.others⟩

/-- A new element directly after the current one, which becomes the current one. -/
def insertAfter (r : Ring α) (x : α) : Ring α := ⟨x, r.others ++ [r.current]⟩

/-- Without the current element, the one after it is the current one. The only element stays. -/
def erase (r : Ring α) : Option (Ring α) :=
  match r.others with
  | [] => none
  | b :: others => some ⟨b, others⟩

theorem prev_append (a b : α) (others : List α) :
    (⟨a, others ++ [b]⟩ : Ring α).prev = ⟨b, a :: others⟩ := by
  simp only [prev, List.getLast?_append, List.getLast?_singleton, Option.some_or,
    List.dropLast_concat]

end Ring

end MUtils
