import PolyProjection.Proofs.Resolution

/-! The blocks of a tree in the order in which they can be resolved. A round in which every ready block is drained leaves
behind a layer, and whatever a schedule drains in its rounds, it does not get beyond the layers of the rows that are
active at the end. -/

namespace PolyProjection.BlockTree

variable {t : BlockTree} {active active' : List Nat} {R R' D : Set Nat} {k m n : Nat}

/-- The blocks that are resolved after `n` rounds in each of which all ready blocks are drained. -/
def layer (t : BlockTree) (active : List Nat) : Nat → Set Nat
  | 0 => t.idle active
  | n + 1 => t.resolvedAfter active (t.layer active n) {k | t.Ready (t.layer active n) k}

theorem layer_mono (h : m ≤ n) : t.layer active m ⊆ t.layer active n := by
  induction n, h using Nat.le_induction with
  | base => exact subset_rfl
  | succ n _ ih => exact ih.trans subset_resolvedAfter

/-- Fewer active rows leave more blocks idle. -/
theorem idle_mono (h : active' ⊆ active) : t.idle active ⊆ t.idle active' := fun _ hk =>
  ⟨hk.1, fun i hi => hk.2 i (h hi)⟩

/-- With more blocks resolved before, fewer active rows and all ready blocks drained, nothing is resolved later. -/
theorem Tested.resolvedAfter_subset (h : t.Tested) (hactive : active' ⊆ active) (hR : R ⊆ R') (hD : ∀ k ∈ D, t.Ready R k) :
    t.resolvedAfter active R D ⊆ t.resolvedAfter active' R' {k | t.Ready R' k} := by
  have hready : ∀ k < t.size, (∀ c, t.IsParent c k → c ∈ R') →
      t.ResolvedAfter active' R' {k | t.Ready R' k} k := by
    intro k hk hkids
    by_cases hkR : k ∈ R'
    · exact .before hkR
    · exact .drained ⟨hk, hkR, hkids⟩
  intro k hk
  induction hk with
  | before hk => exact .before (hR hk)
  | drained hk => exact hready _ (hD _ hk).lt_size fun c hc => hR ((hD _ hk).kids c hc)
  | @skipped c p hc _ own _ ih =>
      by_cases hall : ∀ q, t.IsParent q p → q ∈ R'
      · exact hready p (h.of_isParent hc).2 hall
      · push Not at hall
        obtain ⟨q, hq, hlate⟩ := hall
        exact .skipped hq hlate (fun i hi => own i (hactive hi)) ih

/-- A round gets no further than the next layer of rows that stay active. -/
theorem Tested.resolvedAfter_subset_layer (h : t.Tested) (hactive : active' ⊆ active) (hR : R ⊆ t.layer active' n)
    (hD : ∀ k ∈ D, t.Ready R k) : t.resolvedAfter active R D ⊆ t.layer active' (n + 1) :=
  h.resolvedAfter_subset hactive hR hD

theorem Tested.closed_layer (h : t.Tested) : t.Closed (t.layer active n) := by
  induction n with
  | zero => exact closed_idle h
  | succ n ih => exact ih.resolvedAfter fun _ hk => hk.kids

/-- With its root all of a tree is resolved. -/
theorem Tested.not_ready_of_root (h : t.Tested) (hroot : t.root ∈ t.layer active n) (k : Nat) :
    ¬t.Ready (t.layer active n) k := fun hk =>
  hk.unresolved (h.closed_layer.of_descends (h.descends_root hk.lt_size) hroot)

/-- A block that is ready has an active row of its own; without one it is resolved with its last child. -/
theorem exists_active_of_ready (hk : t.Ready (t.layer active n) k) : ∃ i ∈ active, t.blockOfRow i = k := by
  by_contra hown
  push Not at hown
  cases n with
  | zero =>
      apply hk.unresolved
      refine ⟨hk.lt_size, fun i hi hdescends => ?_⟩
      obtain ⟨c, hc, hbelow⟩ := hdescends.exists_child (hown i hi)
      exact (hk.kids c hc).2 i hi hbelow
  | succ n =>
      by_cases hall : ∀ c, t.IsParent c k → c ∈ t.layer active n
      · exact hk.unresolved (.drained ⟨hk.lt_size, fun hbefore => hk.unresolved (.before hbefore), hall⟩)
      · push Not at hall
        obtain ⟨c, hc, hlate⟩ := hall
        exact hk.unresolved (.skipped hc hlate hown hk.kids)

/-- A block with an active row of its own is drained before it is resolved. -/
theorem exists_layer {i : Nat} (hi : i ∈ active) (h : t.blockOfRow i ∈ t.layer active n) :
    ∃ m < n, t.Ready (t.layer active m) (t.blockOfRow i) := by
  induction n with
  | zero => exact absurd .refl (h.2 i hi)
  | succ n ih =>
      rcases mem_of_resolvedAfter h hi with hbefore | hready
      · obtain ⟨m, hm, hready⟩ := ih hbefore
        exact ⟨m, Nat.lt_succ_of_lt hm, hready⟩
      · exact ⟨n, Nat.lt_succ_self n, hready⟩

end PolyProjection.BlockTree
