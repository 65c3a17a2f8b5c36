import MUtils.Theory.Outcome
import MUtils.Theory.Surface

/-!
# Meshes of indexed triangles

A mesh is a list of vertices and a list of triangles by their indices. Loops add to both, so what is
said of a mesh is which triangles it stands for, and how these grow.
-/

namespace MUtils

variable {α β σ : Type}

/-- The indices are in range, and stand for these triangles. -/
def MeshOf (vertices : List α) (indices : List (Nat × Nat × Nat)) (T : List (α × α × α)) : Prop :=
  indices.map (mapTriangle fun k => vertices[k]?) = T.map (mapTriangle some)

namespace MeshOf

variable {vertices vertices' : List α} {indices indices' : List (Nat × Nat × Nat)}
  {T T' : List (α × α × α)}

theorem nil : MeshOf vertices [] [] := rfl

theorem length_eq (h : MeshOf vertices indices T) : indices.length = T.length := by
  have := congrArg List.length h
  rwa [List.length_map, List.length_map] at this

/-- The triangles by their indices, beside those they stand for. -/
theorem forall₂ (h : MeshOf vertices indices T) :
    List.Forall₂ (fun t c => vertices[t.1]? = some c.1 ∧ vertices[t.2.1]? = some c.2.1 ∧
      vertices[t.2.2]? = some c.2.2) indices T := by
  unfold MeshOf at h
  rw [← List.forall₂_eq_eq_eq, List.forall₂_map_left_iff, List.forall₂_map_right_iff] at h
  refine h.imp fun t c heq => ?_
  obtain ⟨h₁, h₂₃⟩ := Prod.mk.inj heq
  exact ⟨h₁, Prod.mk.inj h₂₃⟩

theorem exists_corners (h : MeshOf vertices indices T) {t : Nat × Nat × Nat} (ht : t ∈ indices) :
    ∃ c : α × α × α, vertices[t.1]? = some c.1 ∧ vertices[t.2.1]? = some c.2.1 ∧
      vertices[t.2.2]? = some c.2.2 := by
  obtain ⟨k, hk, rfl⟩ := List.getElem_of_mem ht
  exact ⟨_, h.forall₂.get hk (h.length_eq ▸ hk)⟩

theorem append (h : MeshOf vertices indices T) (h' : MeshOf vertices indices' T') :
    MeshOf vertices (indices ++ indices') (T ++ T') := by
  unfold MeshOf at *
  rw [List.map_append, List.map_append, h, h']

/-- The mesh does not change when vertices are added. -/
theorem extend (h : MeshOf vertices indices T) (extra : List α) :
    MeshOf (vertices ++ extra) indices T := by
  have hsame : indices.map (mapTriangle fun k => (vertices ++ extra)[k]?) =
      indices.map (mapTriangle fun k => vertices[k]?) := by
    refine List.map_congr_left fun t ht => ?_
    obtain ⟨c, h₁, h₂, h₃⟩ := h.exists_corners ht
    have hkeep {k : Nat} {a : α} (hk : vertices[k]? = some a) :
        (vertices ++ extra)[k]? = vertices[k]? :=
      List.getElem?_append_left (List.getElem?_eq_some_iff.mp hk).1
    simp only [mapTriangle, hkeep h₁, hkeep h₂, hkeep h₃]
  exact hsame.trans h

/-- Its vertices may be put behind others, when the indices are moved on. -/
theorem shift (h : MeshOf vertices indices T) (before : List α) :
    MeshOf (before ++ vertices) (indices.map (mapTriangle (before.length + ·))) T := by
  have hmove (k : Nat) : (before ++ vertices)[before.length + k]? = vertices[k]? := by
    rw [List.getElem?_append_right (Nat.le_add_right _ _), Nat.add_sub_cancel_left]
  rw [MeshOf, List.map_map]
  refine Eq.trans (List.map_congr_left fun t _ => ?_) h
  simp only [Function.comp_apply, mapTriangle, hmove]

/-- Two meshes put into the same arrays. -/
theorem join (h : MeshOf vertices indices T) (h' : MeshOf vertices' indices' T') :
    MeshOf (vertices ++ vertices')
      (indices ++ indices'.map (mapTriangle (vertices.length + ·))) (T ++ T') :=
  (h.extend vertices').append (h'.shift vertices)

/-- A part of what is known of each vertex. -/
theorem map (h : MeshOf vertices indices T) (f : α → β) :
    MeshOf (vertices.map f) indices (T.map (mapTriangle f)) := by
  unfold MeshOf
  have hf := congrArg (List.map (mapTriangle (Option.map f))) h
  rw [List.map_map, List.map_map] at hf
  rw [List.map_map]
  refine Eq.trans (List.map_congr_left fun t _ => ?_) hf
  simp only [Function.comp_apply, mapTriangle, List.getElem?_map]

end MeshOf

/-- A loop that returns, over elements that stand for others: what its turns keep, as those gone
through become more. -/
theorem Outcome.foldlM_forall₂ {R : α → β → Prop} {step : σ → α → Outcome σ}
    {I : List β → σ → Prop} {l : List α} {l' : List β} {s : σ} (hl : List.Forall₂ R l l')
    (hstart : I [] s) (hstep : ∀ before a b s, b ∈ l' → R a b → I before s →
      ∃ s', step s a = .ok s' ∧ I (before ++ [b]) s') :
    ∃ s', l.foldlM step s = .ok s' ∧ I l' s' := by
  suffices h : ∀ before after after' s, List.Forall₂ R after after' → before ++ after' = l' →
      I before s → ∃ s', after.foldlM step s = .ok s' ∧ I l' s' from h [] l l' s hl rfl hstart
  intro before after after' s hafter
  induction hafter generalizing before s with
  | nil =>
    intro hbefore hI
    rw [List.append_nil] at hbefore
    exact ⟨s, rfl, hbefore ▸ hI⟩
  | @cons a b after after' hab _ ih =>
    intro hbefore hI
    have hb : b ∈ l' := hbefore ▸ List.mem_append_right before List.mem_cons_self
    obtain ⟨s', hs', hI'⟩ := hstep before a b s hb hab hI
    rw [List.foldlM_cons, hs', Outcome.ok_bind]
    exact ih (before ++ [b]) s' (by rw [List.append_assoc]; exact hbefore) hI'

theorem Outcome.foldlM_invariant {step : σ → α → Outcome σ} {I : List α → σ → Prop} {l : List α}
    {s : σ} (hstart : I [] s)
    (hstep : ∀ before a s, a ∈ l → I before s → ∃ s', step s a = .ok s' ∧ I (before ++ [a]) s') :
    ∃ s', l.foldlM step s = .ok s' ∧ I l s' := by
  refine foldlM_forall₂ (R := Eq) (List.forall₂_refl l) hstart ?_
  rintro before a _ s ha rfl hI
  exact hstep before a s ha hI

/-- A loop that counts to `n`. -/
theorem Outcome.foldlM_range {step : σ → Outcome σ} {I : Nat → σ → Prop} {s : σ} (hstart : I 0 s)
    (hstep : ∀ k s, I k s → ∃ s', step s = .ok s' ∧ I (k + 1) s') (n : Nat) :
    ∃ s', (List.range n).foldlM (fun s _ => step s) s = .ok s' ∧ I n s' := by
  have h : ∃ s', (List.range n).foldlM (fun s _ => step s) s = .ok s' ∧
      I (List.range n).length s' := by
    refine foldlM_invariant (I := fun before s => I before.length s) hstart ?_
    intro before _ s _ hI
    rw [List.length_append, List.length_singleton]
    exact hstep _ s hI
  rwa [List.length_range] at h

end MUtils
