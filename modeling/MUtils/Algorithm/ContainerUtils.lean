import MUtils.Theory.Outcome

/-!
# The loops of `container_utils.h`

A container of `n` elements has the positions `0` to `n`, and `n` is its end. Moving an iterator to
anywhere else is undefined in C++ and an `outOfRange` here.
-/

namespace MUtils
open Outcome
open Std (ExtTreeMap)

/-- `itr + d` in a container of `n` elements. -/
def moveBy (n itr : Nat) (d : Int) : Outcome Nat := index (itr + d) (n + 1) "container"

section
variable {σ : Type} (n : Nat) (size : Int) (fn : σ → Nat → Nat → Outcome σ)

/-- The loop of `container_splice`, for `fuel` rounds at most. What `fn` changes is its state. -/
def spliceLoop : Nat → Nat → Nat → σ → Outcome σ
  | 0, _, _, _ => .error .diverged
  | fuel + 1, itr, itr2, s =>
    if itr2 < n then do
      let s ← fn s itr itr2
      if (n : Int) - itr2 < size then .ok s
      else do
        let itr ← moveBy n itr size
        let itr2 ← moveBy n itr2 size
        spliceLoop fuel itr itr2 s
    else .ok s

def container_splice (fuel itrStart : Nat) (s : σ) : Outcome σ := do
  let itr := itrStart
  let itr2 ← moveBy n itrStart size
  spliceLoop n size fn fuel itr itr2 s

end

section
variable {T : Type} [Ord T] [Std.TransOrd T] (vals : List T)

/-- `pairs[*itrFirst] = *itrSecond`, unless there is no second one. -/
def setPair (itrFirst itrSecond : Nat) (pairs : ExtTreeMap T T) : Outcome (ExtTreeMap T T) :=
  if itrSecond ≠ vals.length then do
    let first ← elementAt vals itrFirst "vals"
    let second ← elementAt vals itrSecond "vals"
    return pairs.insert first second
  else .ok pairs

/-- The loop of `vector_convert_to_pairs`, for `fuel` rounds at most. -/
def pairsLoop : Nat → Nat → ExtTreeMap T T → Outcome (ExtTreeMap T T)
  | 0, _, _ => .error .diverged
  | fuel + 1, itrFirst, pairs =>
    if itrFirst ≠ vals.length then do
      let itrSecond ← moveBy vals.length itrFirst 1
      let pairs ← setPair vals itrFirst itrSecond pairs
      let itrFirst ← moveBy vals.length itrSecond 1
      pairsLoop fuel itrFirst pairs
    else .ok pairs

def vector_convert_to_pairs (fuel : Nat) : Outcome (ExtTreeMap T T) := pairsLoop vals fuel 0 ∅

end

end MUtils
