import MUtils.Algorithm.ContainerUtils
import MUtils.Theory.OrderedMap

/-!
# Loops that step through a container by more than one

`container_splice` tests for the end of the container before it calls `fn`, so that a last chunk
that ends there is left out (`calls_chunks_iff`). `vector_convert_to_pairs` moves an iterator past
the end when there is an element left without a partner (`pairs_up_iff`).
-/

namespace MUtils
open Outcome
open Std (ExtTreeMap)

theorem moveBy_ok {n itr d : Nat} (h : itr + d ≤ n) : moveBy n itr d = .ok (itr + d) :=
  index_ofNat (Nat.lt_succ_of_le h)

theorem moveBy_end {n : Nat} : moveBy n n 1 = .error (.outOfRange "container") :=
  index_error (.inr (by simp))

/-! ### Chunks -/

section
variable {n s size : Nat}

/-- The complete chunks of `size` positions from `s` on, as pairs of their begin and their end. -/
def chunks (n s size : Nat) : List (Nat × Nat) :=
  (List.range ((n - s) / size)).map fun i => (s + i * size, s + (i + 1) * size)

/-- The calls of `fn` that `container_splice` makes, in order, and nothing else that it does can go
wrong. -/
def Calls (n s size : Nat) (calls : List (Nat × Nat)) : Prop :=
  ∀ (σ : Type) (fn : σ → Nat → Nat → Outcome σ) (st : σ), ∃ enough, ∀ fuel ≥ enough,
    container_splice n size fn fuel s st = calls.foldlM (fun st c => fn st c.1 c.2) st

theorem mem_chunks (hsize : 1 ≤ size) (hs : s ≤ n) {c : Nat × Nat} : c ∈ chunks n s size ↔
    ∃ i, s + (i + 1) * size ≤ n ∧ c = (s + i * size, s + (i + 1) * size) := by
  have hlt (i : Nat) : i < (n - s) / size ↔ s + (i + 1) * size ≤ n := by
    rw [← Nat.succ_le_iff, Nat.le_div_iff_mul_le hsize, Nat.succ_eq_add_one]
    omega
  simp only [chunks, List.mem_map, List.mem_range, hlt, eq_comm]

theorem chunks_of_lt (hsize : 1 ≤ size) (h : n < s + size) : chunks n s size = [] := by
  have hdiv : (n - s) / size = 0 := Nat.div_eq_of_lt (by omega)
  rw [chunks, hdiv]
  rfl

theorem chunks_cons (hsize : 1 ≤ size) (h : s + size ≤ n) :
    chunks n s size = (s, s + size) :: chunks n (s + size) size := by
  have hdiv : (n - s) / size = (n - (s + size)) / size + 1 := by
    rw [← Nat.sub_sub, ← Nat.div_eq_sub_div hsize (by omega)]
  rw [chunks, hdiv, List.range_succ_eq_map, List.map_cons, List.map_map, Nat.zero_mul,
    Nat.zero_add, Nat.one_mul, chunks]
  congr 2
  funext i
  simp only [Function.comp_apply, Nat.succ_eq_add_one, Nat.add_mul, Nat.one_mul, Prod.mk.injEq]
  omega

/-- The loop visits the chunks that end before the end of the container. -/
theorem spliceLoop_eq {σ : Type} {fn : σ → Nat → Nat → Outcome σ} (hsize : 1 ≤ size)
    (fuel : Nat) (hs : s + size ≤ n) (hfuel : n < s + (fuel + 1) * size) (st : σ) :
    spliceLoop n size fn fuel s (s + size) st =
      ((chunks n s size).filter (·.2 < n)).foldlM (fun st c => fn st c.1 c.2) st := by
  induction fuel generalizing s st with
  | zero => omega
  | succ fuel ih =>
    rw [spliceLoop, chunks_cons hsize hs]
    by_cases hend : s + size < n
    · rw [if_pos hend, List.filter_cons_of_pos (by simpa using hend), List.foldlM_cons]
      refine congrArg (fn st s (s + size) >>= ·) (funext fun st => ?_)
      by_cases hlast : (n : Int) - (s + size : Nat) < size
      · rw [if_pos hlast, chunks_of_lt hsize (by omega)]
        rfl
      · have hnext : s + size + size ≤ n := by omega
        rw [if_neg hlast, moveBy_ok hs, moveBy_ok hnext]
        exact ih hnext (by rw [Nat.add_mul] at hfuel; omega) st
    · rw [if_neg hend, List.filter_cons_of_neg (by simpa using hend),
        chunks_of_lt hsize (by omega)]
      rfl

theorem calls_filter (hsize : 1 ≤ size) (hs : s + size ≤ n) :
    Calls n s size ((chunks n s size).filter (·.2 < n)) := by
  intro σ fn st
  refine ⟨n, fun fuel hfuel => ?_⟩
  have hlong : n < s + (fuel + 1) * size := by
    have := Nat.le_mul_of_pos_right (fuel + 1) hsize
    omega
  rw [container_splice, moveBy_ok hs]
  exact spliceLoop_eq hsize fuel hs hlong st

/-- A function that takes down its calls tells two lists of calls apart. -/
theorem Calls.unique {calls calls' : List (Nat × Nat)} (h : Calls n s size calls)
    (h' : Calls n s size calls') : calls = calls' := by
  let record (st : List (Nat × Nat)) (itr itr2 : Nat) : Outcome (List (Nat × Nat)) :=
    .ok (st ++ [(itr, itr2)])
  have hrecord (l st : List (Nat × Nat)) :
      l.foldlM (fun st c => record st c.1 c.2) st = .ok (st ++ l) := by
    induction l generalizing st with
    | nil => exact congrArg Except.ok (List.append_nil st).symm
    | cons c l ih =>
      rw [List.foldlM_cons]
      exact (ih _).trans (by simp)
  obtain ⟨fuel, hfuel⟩ := h _ record []
  obtain ⟨fuel', hfuel'⟩ := h' _ record []
  have heq := (hfuel _ (Nat.le_max_left fuel fuel')).symm.trans
    (hfuel' _ (Nat.le_max_right fuel fuel'))
  rw [hrecord, hrecord] at heq
  exact Except.ok.inj heq

theorem filter_chunks_eq_iff (hsize : 1 ≤ size) (hs : s + size ≤ n) :
    (chunks n s size).filter (·.2 < n) = chunks n s size ↔ ¬size ∣ n - s := by
  have hle : s ≤ n := by omega
  simp only [List.filter_eq_self, decide_eq_true_eq, mem_chunks hsize hle]
  constructor
  · rintro hall ⟨q, hq⟩
    obtain ⟨i, rfl⟩ : ∃ i, q = i + 1 :=
      Nat.exists_eq_succ_of_ne_zero fun hzero => by simp [hzero] at hq; omega
    have hend : s + (i + 1) * size = n := by rw [Nat.mul_comm]; omega
    exact absurd (hall _ ⟨i, hend.le, rfl⟩) (Nat.not_lt.mpr hend.ge)
  · rintro hnot c ⟨i, hi, rfl⟩
    refine lt_of_le_of_ne hi fun hend => hnot ⟨i + 1, ?_⟩
    rw [Nat.mul_comm]
    omega

/-- **The complete chunks are visited, in order and once each, just if the container does not end
with one of them.** Either way, no iterator is moved beyond the end. -/
theorem calls_chunks_iff (hsize : 1 ≤ size) (hs : s + size ≤ n) :
    (∃ calls, Calls n s size calls) ∧ (Calls n s size (chunks n s size) ↔ ¬size ∣ n - s) := by
  refine ⟨⟨_, calls_filter hsize hs⟩, ?_⟩
  rw [← filter_chunks_eq_iff hsize hs]
  constructor
  · intro h
    exact (calls_filter hsize hs).unique h
  · intro h
    rw [← h]
    exact calls_filter hsize hs

/-- Chunks of two in five elements. -/
theorem calls_chunks_iff_five : Calls 5 0 2 (chunks 5 0 2) ∧ chunks 5 0 2 = [(0, 2), (2, 4)] :=
  ⟨(calls_chunks_iff (by decide) (by decide)).2.mpr (by decide), rfl⟩

/-- Of four elements the last two are left out. -/
theorem calls_not_last_chunk : Calls 4 0 2 [(0, 2)] ∧ ¬Calls 4 0 2 (chunks 4 0 2) := by
  have hcalls : Calls 4 0 2 [(0, 2)] := calls_filter (by decide) (by decide)
  refine ⟨hcalls, fun h => ?_⟩
  exact absurd (hcalls.unique h) (by decide)

end

/-! ### Pairs -/

section
variable {T : Type} {vals before rest : List T} {a b : T}

def pairsOf : List T → List (T × T)
  | a :: b :: rest => (a, b) :: pairsOf rest
  | _ => []

theorem getElem?_pairsOf {i : Nat} :
    (pairsOf vals)[i]? = some (a, b) ↔ vals[2 * i]? = some a ∧ vals[2 * i + 1]? = some b := by
  induction vals using pairsOf.induct generalizing i with
  | case1 a' b' rest ih =>
    cases i with
    | zero => simp [pairsOf]
    | succ i =>
      rw [pairsOf, List.getElem?_cons_succ, ih]
      rfl
  | case2 vals hshort =>
    rcases vals with - | ⟨x, - | ⟨y, rest⟩⟩
    · simp [pairsOf]
    · simp [pairsOf]
    · exact absurd rfl (hshort x y rest)

variable [Ord T] [Std.TransOrd T] {fuel : Nat} {pairs : ExtTreeMap T T}

/-- The map has the pairs of an element at an even position and its successor, the last one for each
key. -/
def PairsUp (vals : List T) (m : ExtTreeMap T T) : Prop :=
  ∀ k v, m[k]? = some v ↔ ∃ i, (vals[2 * i]? = some k ∧ vals[2 * i + 1]? = some v) ∧
    ∀ j v', i < j → ¬(vals[2 * j]? = some k ∧ vals[2 * j + 1]? = some v')

/-- A round for two elements. -/
theorem pairsLoop_pair :
    pairsLoop (before ++ a :: b :: rest) (fuel + 1) before.length pairs =
      pairsLoop (before ++ a :: b :: rest) fuel (before.length + 2) (pairs.insert a b) := by
  have hfirst : before.length ≠ (before ++ a :: b :: rest).length := by simp
  have hsecond : before.length + 1 ≠ (before ++ a :: b :: rest).length := by simp
  have hmove : moveBy (before ++ a :: b :: rest).length before.length 1 =
      .ok (before.length + 1) := moveBy_ok (by simp)
  have hmove' : moveBy (before ++ a :: b :: rest).length (before.length + 1) 1 =
      .ok (before.length + 2) := moveBy_ok (by simp)
  have helement : elementAt (before ++ a :: b :: rest) (before.length + 1) "vals" = .ok b :=
    elementAt_eq_ok.mpr (by simp)
  rw [pairsLoop, if_pos hfirst, hmove, ok_bind, setPair, if_pos hsecond, elementAt_append,
    helement]
  simp only [ok_bind, pure_eq_ok, hmove']

/-- A round for a single element, which moves the iterator beyond the end. -/
theorem pairsLoop_single :
    pairsLoop (before ++ [a]) (fuel + 1) before.length pairs =
      .error (.outOfRange "container") := by
  have hfirst : before.length ≠ (before ++ [a]).length := by simp
  have hlength : before.length + 1 = (before ++ [a]).length := by simp
  have hmove : moveBy (before ++ [a]).length before.length 1 = .ok (before ++ [a]).length := by
    rw [← hlength]
    exact moveBy_ok le_rfl
  rw [pairsLoop, if_pos hfirst, hmove, ok_bind, setPair, if_neg (not_not.mpr rfl), ok_bind,
    moveBy_end]
  rfl

theorem pairsLoop_end : pairsLoop vals (fuel + 1) vals.length pairs = .ok pairs := by
  rw [pairsLoop, if_neg (not_not.mpr rfl)]

/-- What the loop does from a position on. -/
theorem pairsLoop_append (hfuel : rest.length < 2 * fuel) :
    pairsLoop (before ++ rest) fuel before.length pairs =
      if Even rest.length then
        .ok ((pairsOf rest).foldl (fun m e => m.insert e.1 e.2) pairs)
      else .error (.outOfRange "container") := by
  induction rest using pairsOf.induct generalizing before fuel pairs with
  | case1 a b rest ih =>
    obtain ⟨fuel, rfl⟩ : ∃ k, fuel = k + 1 := Nat.exists_eq_succ_of_ne_zero (by omega)
    have hcut : before ++ a :: b :: rest = (before ++ [a, b]) ++ rest := by simp
    have hlength : before.length + 2 = (before ++ [a, b]).length := by simp
    have heven : Even (a :: b :: rest).length ↔ Even rest.length := by
      simp [Nat.even_add_one]
    rw [pairsLoop_pair, hcut, hlength, ih (by simp at hfuel; omega)]
    simp only [heven, pairsOf, List.foldl_cons]
  | case2 rest hshort =>
    obtain ⟨fuel, rfl⟩ : ∃ k, fuel = k + 1 := Nat.exists_eq_succ_of_ne_zero (by omega)
    rcases rest with - | ⟨a, - | ⟨b, rest⟩⟩
    · rw [List.append_nil, pairsLoop_end]
      rfl
    · rw [pairsLoop_single]
      rfl
    · exact absurd rfl (hshort a b rest)

theorem vector_convert_to_pairs_eq (hfuel : vals.length < 2 * fuel) :
    vector_convert_to_pairs vals fuel =
      if Even vals.length then .ok ((pairsOf vals).foldl (fun m e => m.insert e.1 e.2) ∅)
      else .error (.outOfRange "container") := by
  have hloop : pairsLoop ([] ++ vals) fuel ([] : List T).length ∅ = _ := pairsLoop_append hfuel
  exact hloop

theorem pairsUp_pairsOf [Std.LawfulEqOrd T] (vals : List T) :
    PairsUp vals ((pairsOf vals).foldl (fun m e => m.insert e.1 e.2) ∅) := by
  intro k v
  simp only [getElem?_foldl_insert, ne_eq, getElem?_pairsOf]

/-- **Pairing up a vector works just if its length is even.** -/
theorem pairs_up_iff [Std.LawfulEqOrd T] (vals : List T) :
    (∃ enough m, (∀ fuel ≥ enough, vector_convert_to_pairs vals fuel = .ok m) ∧ PairsUp vals m) ↔
      Even vals.length := by
  constructor
  · rintro ⟨enough, m, hok, -⟩
    have hfuel : vals.length < 2 * max enough (vals.length + 1) := by omega
    have heq := hok _ (Nat.le_max_left enough (vals.length + 1))
    rw [vector_convert_to_pairs_eq hfuel] at heq
    by_contra hodd
    rw [if_neg hodd] at heq
    cases heq
  · intro heven
    refine ⟨vals.length + 1, _, fun fuel hfuel => ?_, pairsUp_pairsOf vals⟩
    rw [vector_convert_to_pairs_eq (by omega), if_pos heven]

end

/-- The later of two pairs with the same key is kept. -/
theorem pairs_up_iff_same_key : ∃ enough m,
    (∀ fuel ≥ enough, vector_convert_to_pairs [1, 2, 1, 3] fuel = .ok m) ∧
      PairsUp [1, 2, 1, 3] m :=
  (pairs_up_iff [1, 2, 1, 3]).mpr (by decide)

/-- An element without a partner. -/
theorem pairs_up_not_single :
    vector_convert_to_pairs [1] 1 = .error (.outOfRange "container") ∧
      ¬∃ enough m, (∀ fuel ≥ enough, vector_convert_to_pairs [1] fuel = .ok m) ∧
        PairsUp [1] m := by
  have hsingle (fuel : Nat) :
      pairsLoop ([] ++ [1]) (fuel + 1) ([] : List Nat).length ∅ =
        .error (.outOfRange "container") := pairsLoop_single
  refine ⟨hsingle 0, ?_⟩
  rintro ⟨enough, m, hok, -⟩
  cases (hsingle enough).symm.trans (hok (enough + 1) (Nat.le_succ enough))

end MUtils
