import MUtils.Theory.Outcome

/-!
# Vectors with checked indices

A `std::vector` as its size and its elements by index. Elements beyond the size are there only for
the type's sake: every access is made with an index that `Outcome.index` has checked.
-/

namespace MUtils

structure Vec (α : Type) where
  size : Nat
  get : Nat → α

namespace Vec

def empty (d : α) : Vec α := ⟨0, fun _ => d⟩

/-- `resize(n)`, where `d` is a value-initialised element. -/
def resize (v : Vec α) (n : Nat) (d : α) : Vec α :=
  ⟨n, fun i => if i < v.size then v.get i else d⟩

def set (v : Vec α) (i : Nat) (a : α) : Vec α := ⟨v.size, Function.update v.get i a⟩

def modify (v : Vec α) (i : Nat) (f : α → α) : Vec α := v.set i (f (v.get i))

/-- Change every element, given its index. -/
def mapIdx (f : Nat → α → α) (v : Vec α) : Vec α := ⟨v.size, fun i => f i (v.get i)⟩

variable {v : Vec α} {f : α → α} {i j n : Nat} {a d : α}

@[simp] theorem size_resize : (v.resize n d).size = n := rfl

@[simp] theorem size_set : (v.set i a).size = v.size := rfl

@[simp] theorem size_modify : (v.modify i f).size = v.size := rfl

@[simp] theorem size_mapIdx {f : Nat → α → α} : (v.mapIdx f).size = v.size := rfl

@[simp] theorem get_mapIdx {f : Nat → α → α} : (v.mapIdx f).get i = f i (v.get i) := rfl

@[simp] theorem get_set_self : (v.set i a).get i = a := Function.update_self ..

theorem get_set_of_ne (h : j ≠ i) : (v.set i a).get j = v.get j := Function.update_of_ne h ..

@[simp] theorem get_modify_self : (v.modify i f).get i = f (v.get i) := get_set_self

theorem get_modify_of_ne (h : j ≠ i) : (v.modify i f).get j = v.get j := get_set_of_ne h

theorem get_set : (v.set i a).get j = if j = i then a else v.get j := Function.update_apply ..

theorem get_modify : (v.modify i f).get j = if j = i then f (v.get i) else v.get j := get_set

end Vec

end MUtils
