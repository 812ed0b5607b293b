import PolyProjection.Proofs.Descendants

/-! The blocks of a tree that count as resolved. A block is resolved once it was drained as an unchanged job, or was
skipped because no row of its own was active when the last of its children was resolved. A set of resolved blocks holds
with a block all its descendants, so an unresolved block whose children are resolved has nothing unresolved below it. -/

namespace PolyProjection.BlockTree

variable {t : BlockTree} {active : List Nat} {R D E : Set Nat} {a b c k p q : Nat}

/-- The blocks without an active row of their own or below them. -/
def idle (t : BlockTree) (active : List Nat) : Set Nat :=
  {k | k < t.size ∧ ∀ i ∈ active, ¬t.Descends (t.blockOfRow i) k}

/-- A block is resolved after a call that found the blocks `R` resolved and drained the blocks `D`. -/
inductive ResolvedAfter (t : BlockTree) (active : List Nat) (R D : Set Nat) : Nat → Prop
  | before {k : Nat} (h : k ∈ R) : ResolvedAfter t active R D k
  | drained {k : Nat} (h : k ∈ D) : ResolvedAfter t active R D k
  /-- The last child is resolved in the call and no row of the block is active. -/
  | skipped {c p : Nat} (hc : t.IsParent c p) (last : c ∉ R) (own : ∀ i ∈ active, t.blockOfRow i ≠ p)
      (kids : ∀ q, t.IsParent q p → ResolvedAfter t active R D q) : ResolvedAfter t active R D p

/-- The blocks that are resolved after a call. -/
def resolvedAfter (t : BlockTree) (active : List Nat) (R D : Set Nat) : Set Nat :=
  {k | t.ResolvedAfter active R D k}

/-- The children of a block of the set are in the set. -/
def Closed (t : BlockTree) (R : Set Nat) : Prop :=
  ∀ c p, t.IsParent c p → p ∈ R → c ∈ R

/-- The block is not resolved, but all its children are. -/
structure Ready (t : BlockTree) (R : Set Nat) (k : Nat) : Prop where
  lt_size : k < t.size
  unresolved : k ∉ R
  kids : ∀ c, t.IsParent c k → c ∈ R

theorem Closed.of_descends (h : t.Closed R) (hab : t.Descends a b) (hb : b ∈ R) : a ∈ R := by
  induction hab using Relation.ReflTransGen.head_induction_on with
  | refl => exact hb
  | head hac _ ih => exact h _ _ hac ih

/-- What lies below a block does so by way of one of its children. -/
theorem Descends.exists_child (h : t.Descends a b) (hne : a ≠ b) : ∃ c, t.IsParent c b ∧ t.Descends a c := by
  rcases Relation.ReflTransGen.cases_tail h with heq | ⟨c, hac, hc⟩
  · exact absurd heq.symm hne
  · exact ⟨c, hc, hac⟩

theorem closed_idle (h : t.Tested) : t.Closed (t.idle active) := fun c p hc hp => by
  have hlt := h.of_isParent hc
  exact ⟨hlt.1.trans hlt.2, fun i hi hd => hp.2 i hi (hd.tail hc)⟩

/-- The root is idle only if no row is active. -/
theorem Tested.root_notMem_idle (h : t.Tested) (hne : active ≠ []) (hlt : ∀ i ∈ active, i < t.nrows) :
    t.root ∉ t.idle active := by
  rintro ⟨-, hroot⟩
  obtain ⟨i, hi⟩ := List.exists_mem_of_ne_nil active hne
  exact hroot i hi (h.descends_root (h.blockOfRow_lt (hlt i hi)))

/-- Below a block that is not resolved there is a ready one. -/
theorem Tested.exists_ready (h : t.Tested) (hk : k < t.size) (hkR : k ∉ R) : ∃ b, t.Ready R b ∧ t.Descends b k := by
  induction k using Nat.strong_induction_on with
  | _ k ih =>
      by_cases hkids : ∀ c, t.IsParent c k → c ∈ R
      · exact ⟨k, ⟨hk, hkR, hkids⟩, .refl⟩
      · push Not at hkids
        obtain ⟨c, hc, hcR⟩ := hkids
        have hlt := (h.of_isParent hc).1
        obtain ⟨b, hb, hbc⟩ := ih c hlt (hlt.trans hk) hcR
        exact ⟨b, hb, hbc.tail hc⟩

namespace Ready

/-- Everything below a ready block is resolved. -/
theorem mem_of_descends (hk : t.Ready R k) (h : t.Closed R) (ha : t.Descends a k) (hne : a ≠ k) : a ∈ R := by
  obtain ⟨c, hc, hac⟩ := ha.exists_child hne
  exact h.of_descends hac (hk.kids c hc)

theorem not_descends (hk : t.Ready R k) (h : t.Closed R) (hne : a ≠ k) (ha : a ∉ R) : ¬t.Descends a k := fun had =>
  ha (hk.mem_of_descends h had hne)

/-- While a block is ready, it is resolved only by being drained. -/
theorem notMem_resolvedAfter (hk : t.Ready R k) (hD : k ∉ D) : k ∉ t.resolvedAfter active R D := by
  intro h
  cases h with
  | before h => exact hk.unresolved h
  | drained h => exact hD h
  | skipped hc last own kids => exact last (hk.kids _ hc)

end Ready

theorem subset_resolvedAfter : R ⊆ t.resolvedAfter active R D := fun _ => .before

theorem Ready.after (hk : t.Ready R k) (hD : k ∉ D) : t.Ready (t.resolvedAfter active R D) k :=
  ⟨hk.lt_size, hk.notMem_resolvedAfter hD, fun c hc => .before (hk.kids c hc)⟩

/-- Blocks that are not even ready stay closed under taking children when ready ones are drained. -/
theorem Closed.resolvedAfter (h : t.Closed R) (hD : ∀ k ∈ D, ∀ c, t.IsParent c k → c ∈ R) :
    t.Closed (t.resolvedAfter active R D) := by
  intro c p hc hp
  cases hp with
  | before hp => exact .before (h c p hc hp)
  | drained hp => exact .before (hD p hp c hc)
  | skipped _ _ _ kids => exact kids c hc

/-- A block with an active row is not skipped. -/
theorem mem_of_resolvedAfter {i : Nat} (h : t.blockOfRow i ∈ t.resolvedAfter active R D) (hi : i ∈ active) :
    t.blockOfRow i ∈ R ∨ t.blockOfRow i ∈ D := by
  generalize hk : t.blockOfRow i = k at h ⊢
  cases h with
  | before h => exact .inl h
  | drained h => exact .inr h
  | skipped _ _ own _ => exact absurd hk (own i hi)

/-- A call that drains two groups of blocks is one call after the other. -/
theorem resolvedAfter_resolvedAfter :
    t.resolvedAfter active (t.resolvedAfter active R D) E = t.resolvedAfter active R (D ∪ E) := by
  ext k
  constructor
  · intro hk
    induction hk with
    | before hk =>
        induction hk with
        | before hk => exact .before hk
        | drained hk => exact .drained (.inl hk)
        | skipped hc last own _ ih => exact .skipped hc last own ih
    | drained hk => exact .drained (.inr hk)
    | skipped hc last own _ ih => exact .skipped hc (fun h => last (.before h)) own ih
  · intro hk
    induction hk with
    | before hk => exact .before (.before hk)
    | drained hk =>
        rcases hk with hk | hk
        · exact .before (.drained hk)
        · exact .drained hk
    | @skipped c p hc last own _ ih =>
        by_cases hall : ∀ q, t.IsParent q p → q ∈ t.resolvedAfter active R D
        · exact .before (.skipped hc last own hall)
        · push Not at hall
          obtain ⟨q, hq, hlate⟩ := hall
          exact .skipped hq hlate own ih

/-- Once all children of an idle block are resolved, it is as good as drained. -/
theorem resolvedAfter_insert (hk : t.IsParent k p) (hkR : k ∉ R) (own : ∀ i ∈ active, t.blockOfRow i ≠ p)
    (kids : ∀ q, t.IsParent q p → q ∈ insert k R) :
    t.resolvedAfter active (insert k R) {p} = t.resolvedAfter active R {k} := by
  have hlift : ∀ q, q ∈ insert k R → t.ResolvedAfter active R {k} q := by
    rintro q (rfl | hq)
    · exact .drained rfl
    · exact .before hq
  ext a
  constructor
  · intro ha
    induction ha with
    | before ha => exact hlift _ ha
    | drained ha =>
        rw [Set.mem_singleton_iff.1 ha]
        exact .skipped hk hkR own fun q hq => hlift q (kids q hq)
    | skipped hc last own _ ih => exact .skipped hc (fun h => last (.inr h)) own ih
  · intro ha
    induction ha with
    | before ha => exact .before (.inr ha)
    | drained ha => exact .before (.inl ha)
    | @skipped c q hc last own _ ih =>
        by_cases hck : c = k
        · subst hck
          exact .drained (hc.unique hk)
        · exact .skipped hc (fun h => h.elim hck last) own ih

/-- No ancestor is skipped if the parent still waits or has an active row. -/
theorem resolvedAfter_eq_insert (hk : t.IsParent k p) (h : (∃ q, t.IsParent q p ∧ q ∉ insert k R) ∨
    ∃ i ∈ active, t.blockOfRow i = p) : t.resolvedAfter active R {k} = insert k R := by
  ext a
  constructor
  · intro ha
    induction ha with
    | before ha => exact .inr ha
    | drained ha => exact .inl ha
    | @skipped c q hc last own _ ih =>
        obtain rfl : c = k := (ih c hc).resolve_right last
        obtain rfl := hc.unique hk
        rcases h with ⟨q, hq, hlate⟩ | ⟨i, hi, hiq⟩
        · exact absurd (ih q hq) hlate
        · exact absurd hiq (own i hi)
  · rintro (rfl | ha)
    · exact .drained rfl
    · exact .before ha

/-- What a call resolves lies at or above a drained block. -/
theorem exists_drained (h : a ∈ t.resolvedAfter active R D) (ha : a ∉ R) : ∃ d ∈ D, t.Descends d a := by
  induction h with
  | before h => exact absurd h ha
  | drained h => exact ⟨_, h, .refl⟩
  | skipped hc last _ _ ih =>
      obtain ⟨d, hd, hdc⟩ := ih _ hc last
      exact ⟨d, hd, hdc.tail hc⟩

theorem Tested.lt_size_of_resolvedAfter (h : t.Tested) (hR : ∀ k ∈ R, k < t.size) (hD : ∀ k ∈ D, k < t.size)
    (ha : a ∈ t.resolvedAfter active R D) : a < t.size := by
  cases ha with
  | before ha => exact hR a ha
  | drained ha => exact hD a ha
  | skipped hc _ _ _ => exact (h.of_isParent hc).2

/-- A block that becomes ready in a call comes after those that were ready before and are below none of it. -/
theorem Tested.lt_of_becomes_ready (h : t.Tested) (hclosed : t.Closed (t.resolvedAfter active R {k}))
    (hp : t.Ready (t.resolvedAfter active R {k}) p) (hc : t.IsParent c p) (hcR : c ∉ R) (hq : t.Ready R q)
    (hkq : k < q) : p < q := by
  have hqp : q ≠ p := by
    rintro rfl
    exact hcR (hq.kids c hc)
  obtain ⟨d, hd, hdc⟩ := exists_drained (hp.kids c hc) hcR
  rw [Set.mem_singleton_iff.1 hd] at hdc
  have hkp := (h.descends_iff hp.lt_size).1 (hdc.tail hc)
  have hready : t.Ready (t.resolvedAfter active R {k}) q := hq.after (by simpa using hkq.ne')
  by_contra hle
  exact hp.not_descends hclosed hqp hready.unresolved ((h.descends_iff hp.lt_size).2 (by omega))

end PolyProjection.BlockTree
