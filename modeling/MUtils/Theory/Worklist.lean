import Mathlib

/-!
# Walks over a graph with a queue

The nodes of a `KeyGraph` lead to keys, and a key may have a node. A walk takes nodes off a queue
and looks at their keys; one that it has not found before is noted, and its node queued. Whatever
the graph, nothing is noted twice, and when the queue is empty exactly the keys that can be reached
have been found. With finitely many keys the queue gets empty.
-/

namespace MUtils

structure KeyGraph (ν κ : Type) where
  keys : ν → List κ
  node : κ → Option ν

/-- The state of a walk. -/
structure SearchState (ν κ : Type) where
  found : List κ
  queue : List ν

namespace KeyGraph

inductive Reaches {ν κ : Type} (G : KeyGraph ν κ) (start : ν) : ν → Prop
  | start : Reaches G start start
  | next {v v' : ν} {k : κ} : Reaches G start v → k ∈ G.keys v → G.node k = some v' →
      Reaches G start v'

variable {ν κ : Type} [DecidableEq κ] (G : KeyGraph ν κ)

/-- The keys of the nodes that can be reached. -/
def ReachesKey (start : ν) (k : κ) : Prop := ∃ v, G.Reaches start v ∧ k ∈ G.keys v

def visit (s : SearchState ν κ) (k : κ) : SearchState ν κ :=
  if k ∈ s.found then s else ⟨s.found ++ [k], s.queue ++ (G.node k).toList⟩

def visitAll (s : SearchState ν κ) (ks : List κ) : SearchState ν κ := ks.foldl G.visit s

/-- Takes the next node. -/
def round (s : SearchState ν κ) : SearchState ν κ :=
  match s.queue with
  | [] => s
  | v :: queue => G.visitAll { s with queue } (G.keys v)

theorem round_cons (found : List κ) (v : ν) (queue : List ν) :
    G.round ⟨found, v :: queue⟩ = G.visitAll ⟨found, queue⟩ (G.keys v) := rfl

theorem round_of_nil {s : SearchState ν κ} (h : s.queue = []) : G.round s = s := by
  rw [round, h]

/-- After `n` nodes. -/
def walk (start : ν) : Nat → SearchState ν κ
  | 0 => ⟨[], [start]⟩
  | n + 1 => G.round (walk start n)

theorem walk_add_of_nil {start : ν} {n : Nat} (h : (G.walk start n).queue = []) (d : Nat) :
    G.walk start (n + d) = G.walk start n := by
  induction d with
  | zero => rfl
  | succ d ih => rw [← Nat.add_assoc, walk, ih, round_of_nil G h]

/-- What visiting keys does. -/
theorem visitAll_eq (s : SearchState ν κ) (ks : List κ) :
    ∃ new, G.visitAll s ks = ⟨s.found ++ new, s.queue ++ new.filterMap G.node⟩ ∧ new.Nodup ∧
      (∀ k ∈ new, k ∈ ks ∧ k ∉ s.found) ∧ ∀ k ∈ ks, k ∈ s.found ++ new := by
  induction ks generalizing s with
  | nil => exact ⟨[], by simp [visitAll], List.nodup_nil, nofun, nofun⟩
  | cons k ks ih =>
    by_cases hk : k ∈ s.found
    · obtain ⟨new, heq, hnodup, hnew, hall⟩ := ih s
      refine ⟨new, ?_, hnodup, ?_, ?_⟩
      · rw [← heq, visitAll, List.foldl_cons, visit, if_pos hk]
        rfl
      · intro k' hk'
        exact ⟨List.mem_cons_of_mem _ (hnew k' hk').1, (hnew k' hk').2⟩
      · exact List.forall_mem_cons.mpr ⟨List.mem_append_left _ hk, hall⟩
    · obtain ⟨new, heq, hnodup, hnew, hall⟩ :=
        ih ⟨s.found ++ [k], s.queue ++ (G.node k).toList⟩
      simp only [List.append_assoc, List.singleton_append] at heq hall
      refine ⟨k :: new, ?_, ?_, ?_, ?_⟩
      · rw [visitAll, List.foldl_cons, visit, if_neg hk]
        refine heq.trans (congrArg (SearchState.mk _) (congrArg _ ?_))
        cases hnode : G.node k <;> simp [hnode]
      · refine List.nodup_cons.mpr ⟨fun hmem => (hnew k hmem).2 ?_, hnodup⟩
        exact List.mem_append_right _ List.mem_cons_self
      · refine List.forall_mem_cons.mpr ⟨⟨List.mem_cons_self, hk⟩, fun k' hk' => ?_⟩
        exact ⟨List.mem_cons_of_mem _ (hnew k' hk').1,
          fun hmem => (hnew k' hk').2 (List.mem_append_left _ hmem)⟩
      · exact List.forall_mem_cons.mpr ⟨List.mem_append_right _ List.mem_cons_self, hall⟩

variable {G} {start : ν} {s : SearchState ν κ}

/-! ### The invariant -/

structure WalkInv (G : KeyGraph ν κ) (start : ν) (s : SearchState ν κ) : Prop where
  nodup : s.found.Nodup
  found : ∀ k ∈ s.found, G.ReachesKey start k
  queue : ∀ v ∈ s.queue, G.Reaches start v
  /-- A node that is known is in the queue, or all of its keys have been found. -/
  covered : ∀ v, v = start ∨ (∃ k ∈ s.found, G.node k = some v) →
    v ∈ s.queue ∨ ∀ k ∈ G.keys v, k ∈ s.found

theorem WalkInv.round (h : WalkInv G start s) : WalkInv G start (G.round s) := by
  obtain ⟨found, queue⟩ := s
  cases queue with
  | nil => exact h
  | cons v queue =>
    obtain ⟨new, heq, hnodup, hnew, hall⟩ := G.visitAll_eq ⟨found, queue⟩ (G.keys v)
    have hreach : G.Reaches start v := h.queue v List.mem_cons_self
    have hfound : ∀ k ∈ new, G.ReachesKey start k := fun k hk => ⟨v, hreach, (hnew k hk).1⟩
    rw [round_cons, heq]
    refine ⟨?_, ?_, ?_, ?_⟩
    · refine List.nodup_append.mpr ⟨h.nodup, hnodup, fun k hk k' hk' heq => ?_⟩
      exact (hnew k' hk').2 (heq ▸ hk)
    · exact List.forall_mem_append.mpr ⟨h.found, hfound⟩
    · refine List.forall_mem_append.mpr
        ⟨fun v' hv' => h.queue v' (List.mem_cons_of_mem v hv'), fun v' hv' => ?_⟩
      obtain ⟨k, hk, hnode⟩ := List.mem_filterMap.mp hv'
      exact hreach.next (hnew k hk).1 hnode
    · intro u hu
      have hold : u = start ∨ (∃ k ∈ found, G.node k = some u) →
          u ∈ queue ++ new.filterMap G.node ∨ ∀ k ∈ G.keys u, k ∈ found ++ new := by
        intro hu
        rcases h.covered u hu with hqueue | hkeys
        · rcases List.mem_cons.mp hqueue with rfl | hqueue
          · exact .inr hall
          · exact .inl (List.mem_append_left _ hqueue)
        · exact .inr fun k hk => List.mem_append_left _ (hkeys k hk)
      rcases hu with hu | ⟨k, hk, hnode⟩
      · exact hold (.inl hu)
      · rcases List.mem_append.mp hk with hk | hk
        · exact hold (.inr ⟨k, hk, hnode⟩)
        · exact .inl (List.mem_append_right _ (List.mem_filterMap.mpr ⟨k, hk, hnode⟩))

theorem walkInv_walk (G : KeyGraph ν κ) (start : ν) (n : Nat) :
    WalkInv G start (G.walk start n) := by
  induction n with
  | zero =>
    refine ⟨List.nodup_nil, nofun, List.forall_mem_singleton.mpr .start, ?_⟩
    rintro v (rfl | ⟨k, hk, -⟩)
    · exact .inl List.mem_cons_self
    · cases hk
  | succ n ih => exact ih.round

omit [DecidableEq κ] in
/-- When the queue is empty, what can be reached has been found. -/
theorem WalkInv.mem_found (h : WalkInv G start s) (hqueue : s.queue = []) {k : κ} :
    k ∈ s.found ↔ G.ReachesKey start k := by
  refine ⟨h.found k, ?_⟩
  have hkeys : ∀ v, v = start ∨ (∃ k ∈ s.found, G.node k = some v) → ∀ k ∈ G.keys v, k ∈ s.found :=
    fun v hv => (h.covered v hv).resolve_left (hqueue ▸ List.not_mem_nil)
  rintro ⟨v, hv, hk⟩
  apply hkeys v _ k hk
  clear hk
  induction hv with
  | start => exact .inl rfl
  | next _ hk' hnode ih => exact .inr ⟨_, hkeys _ ih _ hk', hnode⟩

/-! ### Termination -/

/-- Every round takes a node off the queue, and adds no more nodes than keys. -/
theorem length_round (G : KeyGraph ν κ) (hqueue : s.queue ≠ []) :
    (G.round s).queue.length + s.found.length < s.queue.length + (G.round s).found.length := by
  obtain ⟨found, queue⟩ := s
  cases queue with
  | nil => exact absurd rfl hqueue
  | cons v queue =>
    obtain ⟨new, heq, -⟩ := G.visitAll_eq ⟨found, queue⟩ (G.keys v)
    have hle := List.length_filterMap_le G.node new
    rw [round_cons, heq]
    simp only [List.length_append, List.length_cons]
    omega

theorem length_walk (G : KeyGraph ν κ) (start : ν) (n : Nat) :
    (G.walk start n).queue = [] ∨
      (G.walk start n).queue.length + n ≤ (G.walk start n).found.length + 1 := by
  induction n with
  | zero => exact .inr (Nat.le_refl 1)
  | succ n ih =>
    rw [walk]
    by_cases hqueue : (G.walk start n).queue = []
    · exact .inl (by rw [round_of_nil G hqueue, hqueue])
    · have hround := G.length_round hqueue
      have hn := ih.resolve_left hqueue
      exact .inr (by omega)

theorem exists_walk_done (hfinite : {k | G.ReachesKey start k}.Finite) :
    ∃ n, (G.walk start n).queue = [] := by
  let n := hfinite.toFinset.card + 2
  refine ⟨n, (length_walk G start n).resolve_right fun hlength => ?_⟩
  have hinv := walkInv_walk G start n
  have hsub : (G.walk start n).found.toFinset ⊆ hfinite.toFinset := by
    intro k hk
    exact hfinite.mem_toFinset.mpr (hinv.found k (List.mem_toFinset.mp hk))
  have hcard := Finset.card_le_card hsub
  rw [List.toFinset_card_of_nodup hinv.nodup] at hcard
  omega

end KeyGraph

end MUtils
