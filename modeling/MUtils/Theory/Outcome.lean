import Mathlib

/-!
# Outcomes of imperative calls

A call of the modelled code either returns or stops at a *fault*: an `assert` that fires, a null
pointer that is read through, an index past the end of a container, a signed integer that
overflows, an exception that nobody catches, or a loop that runs for ever. `Outcome` is the monad of
such calls, `Outcome.assert`, `Outcome.deref` and `Outcome.index` are its primitives, and the lemmas
below peel a computation that returned into its steps.
-/

namespace MUtils

inductive Fault where
  /-- An `assert` fired; the text is the one the macro prints. -/
  | assertion (expr : String)
  | nullDeref
  | outOfRange (container : String)
  | overflow
  | uncaught (exception : String)
  | diverged
  deriving DecidableEq, Repr

abbrev Outcome := Except Fault

namespace Outcome

def assert (p : Prop) [Decidable p] (expr : String) : Outcome Unit :=
  if p then .ok () else .error (.assertion expr)

def deref : Option α → Outcome α
  | some a => .ok a
  | none => .error .nullDeref

/-- The bounds check of an indexed access. -/
def index (i : Int) (size : Nat) (container : String) : Outcome Nat :=
  if 0 ≤ i ∧ i < size then .ok i.toNat else .error (.outOfRange container)

/-- Read an element of a list. -/
def elementAt (l : List α) (i : Nat) (container : String) : Outcome α :=
  match l[i]? with
  | some a => .ok a
  | none => .error (.outOfRange container)

theorem bind_eq_ok {x : Outcome α} {f : α → Outcome β} {b : β} :
    (x >>= f) = .ok b ↔ ∃ a, x = .ok a ∧ f a = .ok b := by
  cases x with
  | ok a =>
    constructor
    · exact fun h => ⟨a, rfl, h⟩
    · rintro ⟨_, h, h'⟩; cases h; exact h'
  | error e =>
    constructor
    · intro h; cases h
    · rintro ⟨_, h, -⟩; cases h

theorem exists_bind_eq_ok {x : Outcome α} {f : α → Outcome β} :
    (∃ b, (x >>= f) = .ok b) ↔ ∃ a, x = .ok a ∧ ∃ b, f a = .ok b := by
  simp only [bind_eq_ok]
  exact ⟨fun ⟨b, a, hx, hf⟩ => ⟨a, hx, b, hf⟩, fun ⟨a, hx, b, hf⟩ => ⟨b, a, hx, hf⟩⟩

section
variable {ε ε' : Type}

@[simp] theorem ok_bind (a : α) (f : α → Except ε β) : ((.ok a : Except ε α) >>= f) = f a := rfl

@[simp] theorem error_bind (e : ε) (f : α → Except ε β) :
    ((.error e : Except ε α) >>= f) = .error e := rfl

@[simp] theorem pure_eq_ok (a : α) : (pure a : Except ε α) = .ok a := rfl

@[simp] theorem mapError_ok (f : ε → ε') (a : α) : (Except.ok a).mapError f = .ok a := rfl

@[simp] theorem mapError_error (f : ε → ε') (e : ε) :
    (Except.error e : Except ε α).mapError f = .error (f e) := rfl

end

section
variable {p : Prop} [Decidable p] {expr : String}

theorem assert_pos (h : p) : assert p expr = .ok () := if_pos h

theorem assert_neg (h : ¬p) : assert p expr = .error (.assertion expr) := if_neg h

@[simp] theorem assert_eq_ok {u : Unit} : assert p expr = .ok u ↔ p := by
  unfold assert
  split <;> simp_all

theorem assert_bind_eq_ok {f : Unit → Outcome β} {b : β} :
    (assert p expr >>= f) = .ok b ↔ p ∧ f () = .ok b := by
  simp only [bind_eq_ok, assert_eq_ok, exists_and_left]
  exact and_congr_right fun _ => ⟨fun ⟨_, h⟩ => h, fun h => ⟨(), h⟩⟩

end

@[simp] theorem deref_some (a : α) : deref (some a) = .ok a := rfl

section
variable {i : Int} {size j : Nat} {container : String}

theorem index_eq_ok : index i size container = .ok j ↔ i = j ∧ j < size := by
  unfold index
  split
  · simp only [Except.ok.injEq]; omega
  · simp only [reduceCtorEq, false_iff]; omega

theorem index_ofNat (h : j < size) : index (j : Int) size container = .ok j :=
  index_eq_ok.2 ⟨rfl, h⟩

theorem index_bind_eq_ok {f : Nat → Outcome β} {b : β} :
    (index (j : Int) size container >>= f) = .ok b ↔ j < size ∧ f j = .ok b := by
  rw [bind_eq_ok]
  constructor
  · rintro ⟨k, hk, h⟩
    obtain ⟨hk, hlt⟩ := index_eq_ok.1 hk
    obtain rfl : j = k := Int.ofNat.inj hk
    exact ⟨hlt, h⟩
  · rintro ⟨hlt, h⟩
    exact ⟨j, index_ofNat hlt, h⟩

theorem index_error (h : i < 0 ∨ (size : Int) ≤ i) :
    index i size container = .error (.outOfRange container) := if_neg (by omega)

end

section
variable {l l' : List α} {i : Nat} {a : α} {container : String}

theorem elementAt_eq_ok : elementAt l i container = .ok a ↔ l[i]? = some a := by
  unfold elementAt
  split
  · next b hb => rw [hb, Except.ok.injEq, Option.some_inj]
  · next hnone => rw [hnone]; exact iff_of_false nofun nofun

theorem exists_elementAt : (∃ a, elementAt l i container = .ok a) ↔ i < l.length := by
  simp only [elementAt_eq_ok, List.getElem?_eq_some_iff]
  exact ⟨fun ⟨_, h, _⟩ => h, fun h => ⟨_, h, rfl⟩⟩

theorem elementAt_append : elementAt (l ++ a :: l') l.length container = .ok a :=
  elementAt_eq_ok.mpr (by simp)

end

theorem exists_bind_ok {x : Outcome α} {f : α → β} (h : ∃ a, x = .ok a) :
    ∃ b, (x >>= fun a => .ok (f a)) = .ok b := by
  obtain ⟨a, rfl⟩ := h
  exact ⟨f a, rfl⟩

/-! ### A call for each element of a list -/

section
variable {β : Type} {f : α → Outcome β} {l : List α}

theorem mapM_eq_ok {bs : List β} :
    l.mapM f = .ok bs ↔ List.Forall₂ (fun a b => f a = .ok b) l bs := by
  induction l generalizing bs with
  | nil =>
    rw [List.mapM_nil, pure_eq_ok, Except.ok.injEq, List.forall₂_nil_left_iff]
    exact eq_comm
  | cons a l ih =>
    simp only [List.mapM_cons, bind_eq_ok, pure_eq_ok, Except.ok.injEq, ih,
      List.forall₂_cons_left_iff]
    constructor
    · rintro ⟨b, hb, bs, hbs, rfl⟩
      exact ⟨b, bs, hb, hbs, rfl⟩
    · rintro ⟨b, bs, hb, hbs, rfl⟩
      exact ⟨b, hb, bs, hbs, rfl⟩

/-- A call that can be made for every element for which another one returns. -/
theorem mapM_related {γ : Type} {g : α → Outcome γ} {R : β → γ → Prop} {bs : List β}
    (hfg : ∀ a b, f a = .ok b → ∃ c, g a = .ok c ∧ R b c) (h : l.mapM f = .ok bs) :
    ∃ cs, l.mapM g = .ok cs ∧ List.Forall₂ R bs cs := by
  simp only [mapM_eq_ok] at h ⊢
  induction h with
  | nil => exact ⟨[], .nil, .nil⟩
  | cons hab _ ih =>
    obtain ⟨c, hc, hR⟩ := hfg _ _ hab
    obtain ⟨cs, hcs, hRs⟩ := ih
    exact ⟨c :: cs, .cons hc hcs, .cons hR hRs⟩

theorem exists_mapM_eq_ok : (∃ bs, l.mapM f = .ok bs) ↔ ∀ a ∈ l, ∃ b, f a = .ok b := by
  induction l with
  | nil => simp
  | cons a l ih =>
    rw [List.forall_mem_cons, ← ih]
    simp only [mapM_eq_ok, List.forall₂_cons_left_iff]
    constructor
    · rintro ⟨_, b, bs, hb, hbs, -⟩
      exact ⟨⟨b, hb⟩, bs, hbs⟩
    · rintro ⟨⟨b, hb⟩, bs, hbs⟩
      exact ⟨b :: bs, b, bs, hb, hbs, rfl⟩

end

theorem exists_of_mem_right {β : Type} {R : α → β → Prop} {l : List α} {l' : List β} {b : β}
    (h : List.Forall₂ R l l') (hb : b ∈ l') : ∃ a ∈ l, R a b := by
  induction h with
  | nil => cases hb
  | @cons a _ _ _ hab _ ih =>
    obtain rfl | hb := List.mem_cons.mp hb
    · exact ⟨a, List.mem_cons_self, hab⟩
    · obtain ⟨a, ha, hab⟩ := ih hb
      exact ⟨a, List.mem_cons_of_mem _ ha, hab⟩

/-- Two computations that agree up to `e` and go on alike from values that agree up to `e`. -/
theorem map_bind_congr {σ τ σ' τ' : Type} {e : σ → σ'} {e' : τ → τ'} {x y : Outcome σ}
    {f g : σ → Outcome τ} (hx : x.map e = y.map e)
    (hf : ∀ a b, e a = e b → (f a).map e' = (g b).map e') :
    (x >>= f).map e' = (y >>= g).map e' := by
  cases x with
  | ok a =>
    cases y with
    | ok b => exact hf a b (Except.ok.inj hx)
    | error _ => cases hx
  | error a =>
    cases y with
    | ok _ => cases hx
    | error b =>
      cases hx
      rfl

/-- The same computation, after which two agree up to `e`. -/
theorem map_bind_right {α τ τ' : Type} {e : τ → τ'} {x : Outcome α} {f g : α → Outcome τ}
    (hf : ∀ a, (f a).map e = (g a).map e) : (x >>= f).map e = (x >>= g).map e := by
  cases x with
  | ok a => exact hf a
  | error _ => rfl

/-! ### Faults that a call avoids -/

/-- The call does not stop at a fault that is `bad`. -/
def Avoids (bad : Fault → Prop) (x : Outcome α) : Prop := ∀ e, x = .error e → ¬bad e

section
variable {bad : Fault → Prop}

theorem avoids_ok {a : α} : Avoids bad (.ok a) := by
  intro e h
  cases h

theorem avoids_error {e : Fault} : Avoids bad (.error e : Outcome α) ↔ ¬bad e := by
  constructor
  · intro h
    exact h e rfl
  · rintro h _ ⟨⟩
    exact h

theorem Avoids.bind {x : Outcome α} {f : α → Outcome β} (hx : Avoids bad x)
    (hf : ∀ a, x = .ok a → Avoids bad (f a)) : Avoids bad (x >>= f) := by
  cases x with
  | ok a => exact hf a rfl
  | error e =>
    rintro _ ⟨⟩
    exact hx e rfl

/-- A step that returns adds no fault. -/
theorem avoids_bind_ok {x : Outcome α} {f : α → β} :
    Avoids bad (x >>= fun a => .ok (f a)) ↔ Avoids bad x := by
  cases x with
  | ok a => exact ⟨fun _ => avoids_ok, fun _ => avoids_ok⟩
  | error e => rw [error_bind, avoids_error, avoids_error]

theorem avoids_assert {p : Prop} [Decidable p] {expr : String} (h : ¬p → ¬bad (.assertion expr)) :
    Avoids bad (assert p expr) := by
  intro e he
  unfold assert at he
  split at he
  · cases he
  · next hp =>
    cases he
    exact h hp

theorem avoids_index {i : Int} {size : Nat} {container : String}
    (h : ¬(0 ≤ i ∧ i < size) → ¬bad (.outOfRange container)) :
    Avoids bad (index i size container) := by
  intro e he
  unfold index at he
  split at he
  · cases he
  · next hi =>
    cases he
    exact h hi

end

end Outcome

end MUtils
