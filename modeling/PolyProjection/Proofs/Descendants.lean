import Mathlib
import PolyProjection.Proofs.BlockTree
import PolyProjection.Proofs.Table

/-! Descendants in a tree of blocks. The numbers of a block and its descendants are consecutive, which the counts of
descendants show, so a block's rows and columns with those of its descendants are ranges. -/

namespace PolyProjection.BlockTree

variable {t : BlockTree} {a b c k p q i j : Nat}

/-- Block `p` is the parent of block `k`. -/
def IsParent (t : BlockTree) (k p : Nat) : Prop :=
  t.parent[k]? = some (some p)

/-- Block `a` is block `b` or one of its descendants. -/
def Descends (t : BlockTree) (a b : Nat) : Prop :=
  Relation.ReflTransGen t.IsParent a b

theorem IsParent.unique (hp : t.IsParent k p) (hq : t.IsParent k q) : p = q := by
  rw [IsParent] at hp hq
  rw [hp, Option.some.injEq, Option.some.injEq] at hq
  exact hq

theorem Numbered.of_isParent (h : t.Numbered) (hp : t.IsParent k p) : k < p ∧ p < t.size := by
  have hk : k < t.size := (Array.getElem?_eq_some_iff.1 hp).1
  have hroot : k ≠ t.size - 1 := by
    rintro rfl
    have hnone := h.root
    rw [hp] at hnone
    cases hnone
  obtain ⟨q, hq, hlt, hsize⟩ := h.parent_lt k (by omega)
  rw [hp.unique hq]
  exact ⟨hlt, hsize⟩

/-- Every block but the last one has a parent. -/
theorem Numbered.exists_parent (h : t.Numbered) (hk : k < t.size) (hroot : k ≠ t.root) : ∃ p, t.IsParent k p := by
  have hlt : k < t.size - 1 := by
    rw [BlockTree.root] at hroot
    omega
  obtain ⟨p, hp, -⟩ := h.parent_lt k hlt
  exact ⟨p, hp⟩

theorem Numbered.le_of_descends (h : t.Numbered) (hab : t.Descends a b) : a ≤ b := by
  induction hab with
  | refl => exact le_rfl
  | tail _ hp ih => exact ih.trans (h.of_isParent hp).1.le

/-- Of two blocks that one descends from, the smaller one descends from the larger one. -/
theorem Numbered.descends_of_le (h : t.Numbered) (hb : t.Descends a b) (hc : t.Descends a c) (hle : b ≤ c) :
    t.Descends b c := by
  have hunique : Relator.RightUnique t.IsParent := fun _ _ _ hp hq => hp.unique hq
  rcases Relation.ReflTransGen.total_of_right_unique hunique hb hc with hbc | hcb
  · exact hbc
  · rw [hle.antisymm (h.le_of_descends hcb)]
    exact .refl

/-- Every block descends from the root. -/
theorem Numbered.descends_root (h : t.Numbered) (hk : k < t.size) : t.Descends k t.root := by
  have hind : ∀ n k, k < t.size → t.size - k ≤ n → t.Descends k t.root := by
    intro n
    induction n with
    | zero => exact fun k hk hle => absurd hk (by omega)
    | succ n ih =>
        intro k hk hle
        by_cases hroot : k = t.root
        · rw [hroot]
          exact .refl
        · obtain ⟨p, hp⟩ := h.exists_parent hk hroot
          have hlt := h.of_isParent hp
          exact .head hp (ih p hlt.2 (by omega))
  exact hind _ k hk le_rfl

/-- A block that is below another one is so by way of its parent. -/
theorem IsParent.descends_of_ne (hp : t.IsParent k p) (hkb : t.Descends k b) (hne : k ≠ b) : t.Descends p b := by
  rcases Relation.ReflTransGen.cases_head hkb with heq | ⟨q, hq, hqb⟩
  · exact absurd heq hne
  · rwa [hp.unique hq]

section Count

open Classical in
/-- Block `p` and those of its descendants that come by way of a child below `j`. -/
noncomputable def descendantsBy (t : BlockTree) (j p : Nat) : Finset Nat :=
  (Finset.range t.size).filter fun a => a = p ∨ ∃ c < j, t.IsParent c p ∧ t.Descends a c

theorem mem_descendantsBy : a ∈ t.descendantsBy j p ↔
    a < t.size ∧ (a = p ∨ ∃ c < j, t.IsParent c p ∧ t.Descends a c) := by
  simp only [descendantsBy, Finset.mem_filter, Finset.mem_range]

/-- All children of a block come before it. -/
theorem Numbered.mem_descendantsBy_self (h : t.Numbered) (hp : p < t.size) (hle : p ≤ j) :
    a ∈ t.descendantsBy j p ↔ t.Descends a p := by
  rw [mem_descendantsBy]
  constructor
  · rintro ⟨-, rfl | ⟨c, -, hc, hac⟩⟩
    · exact .refl
    · exact hac.tail hc
  · intro hap
    refine ⟨(h.le_of_descends hap).trans_lt hp, ?_⟩
    rcases Relation.ReflTransGen.cases_tail hap with heq | ⟨c, hac, hc⟩
    · exact .inl heq.symm
    · exact .inr ⟨c, (h.of_isParent hc).1.trans_le hle, hc, hac⟩

theorem Numbered.descendantsBy_succ (h : t.Numbered) (hj : t.IsParent j q) :
    t.descendantsBy (j + 1) p = if p = q then t.descendantsBy j p ∪ t.descendantsBy j j else t.descendantsBy j p := by
  have hlt := h.of_isParent hj
  ext a
  by_cases hpq : p = q
  · subst hpq
    rw [if_pos rfl, Finset.mem_union, h.mem_descendantsBy_self (hlt.1.trans hlt.2) le_rfl, mem_descendantsBy,
      mem_descendantsBy]
    constructor
    · rintro ⟨ha, heq | ⟨c, hc, hcp, hac⟩⟩
      · exact .inl ⟨ha, .inl heq⟩
      · rcases Nat.lt_succ_iff_lt_or_eq.1 hc with hcj | rfl
        · exact .inl ⟨ha, .inr ⟨c, hcj, hcp, hac⟩⟩
        · exact .inr hac
    · rintro (⟨ha, heq | ⟨c, hc, hcp, hac⟩⟩ | haj)
      · exact ⟨ha, .inl heq⟩
      · exact ⟨ha, .inr ⟨c, hc.trans (Nat.lt_succ_self j), hcp, hac⟩⟩
      · exact ⟨by have := h.le_of_descends haj; omega, .inr ⟨j, Nat.lt_succ_self j, hj, haj⟩⟩
  · rw [if_neg hpq, mem_descendantsBy, mem_descendantsBy]
    refine and_congr_right fun _ => or_congr_right ⟨?_, ?_⟩
    · rintro ⟨c, hc, hcp, hac⟩
      rcases Nat.lt_succ_iff_lt_or_eq.1 hc with hcj | rfl
      · exact ⟨c, hcj, hcp, hac⟩
      · exact absurd (hcp.unique hj) hpq
    · rintro ⟨c, hc, hcp, hac⟩
      exact ⟨c, hc.trans (Nat.lt_succ_self j), hcp, hac⟩

/-- Without a parent a block adds to no other one. -/
theorem descendantsBy_succ_of_root (hj : t.parent[j]?.join = none) :
    t.descendantsBy (j + 1) p = t.descendantsBy j p := by
  ext a
  rw [mem_descendantsBy, mem_descendantsBy]
  refine and_congr_right fun _ => or_congr_right ⟨?_, ?_⟩
  · rintro ⟨c, hc, hcp, hac⟩
    rcases Nat.lt_succ_iff_lt_or_eq.1 hc with hcj | rfl
    · exact ⟨c, hcj, hcp, hac⟩
    · rw [hcp] at hj
      cases hj
  · rintro ⟨c, hc, hcp, hac⟩
    exact ⟨c, hc.trans (Nat.lt_succ_self j), hcp, hac⟩

/-- The descendants by way of different children are different. -/
theorem Numbered.disjoint_descendantsBy (h : t.Numbered) (hj : t.IsParent j p) :
    Disjoint (t.descendantsBy j p) (t.descendantsBy j j) := by
  have hlt := h.of_isParent hj
  rw [Finset.disjoint_left]
  intro a ha haj
  rw [h.mem_descendantsBy_self (hlt.1.trans hlt.2) le_rfl] at haj
  rw [mem_descendantsBy] at ha
  obtain ⟨-, rfl | ⟨c, hc, hcp, hac⟩⟩ := ha
  · exact absurd (h.le_of_descends haj) (by omega)
  · have hcj := h.descends_of_le hac haj hc.le
    have := h.le_of_descends (hcp.descends_of_ne hcj hc.ne)
    omega

/-- What is handed up from the blocks below `j`: the smallest of the descendants, and their number. -/
structure Extends (t : BlockTree) (j : Nat) (e : Array Nat × Array Nat) : Prop where
  size_left : e.1.size = t.size
  size_count : e.2.size = t.size
  left_mem : ∀ p < t.size, e.1.getD p 0 ∈ t.descendantsBy j p
  left_le : ∀ p < t.size, ∀ a ∈ t.descendantsBy j p, e.1.getD p 0 ≤ a
  count_eq : ∀ p < t.size, e.2.getD p 0 = (t.descendantsBy j p).card

theorem getD_modify {xs : Array Nat} {f : Nat → Nat} (hp : p < xs.size) :
    (xs.modify q f).getD p 0 = if p = q then f (xs.getD p 0) else xs.getD p 0 := by
  rw [Array.getD_eq_getD_getElem?, Array.getElem?_modify, Array.getD_eq_getD_getElem?, Array.getElem?_eq_getElem hp]
  by_cases hpq : p = q
  · rw [if_pos hpq, if_pos hpq.symm]
    rfl
  · rw [if_neg hpq, if_neg (Ne.symm hpq)]

theorem extends_zero (t : BlockTree) : t.Extends 0 (Array.range t.size, Array.replicate t.size 1) := by
  have hmem : ∀ p < t.size, t.descendantsBy 0 p = {p} := by
    intro p hp
    ext a
    rw [mem_descendantsBy, Finset.mem_singleton]
    constructor
    · rintro ⟨-, heq | ⟨c, hc, -⟩⟩
      · exact heq
      · exact absurd hc (Nat.not_lt_zero c)
    · rintro rfl
      exact ⟨hp, .inl rfl⟩
  refine ⟨by simp, by simp, fun p hp => ?_, fun p hp a ha => ?_, fun p hp => ?_⟩
  · rw [hmem p hp, Finset.mem_singleton]
    simp [Array.getD_eq_getD_getElem?, hp]
  · rw [hmem p hp, Finset.mem_singleton] at ha
    simp [Array.getD_eq_getD_getElem?, hp, ha]
  · rw [hmem p hp, Finset.card_singleton]
    simp [Array.getD_eq_getD_getElem?, hp]

theorem Numbered.extents_extends (h : t.Numbered) : t.Extends t.size (extents t.parent) := by
  refine foldl_range t.Extends t.extends_zero fun n hn e hinv => ?_
  obtain ⟨left, count⟩ := e
  cases hparent : t.parent[n]?.join with
  | none =>
      dsimp only
      refine ⟨hinv.size_left, hinv.size_count, fun p hp => ?_, fun p hp a ha => ?_, fun p hp => ?_⟩
      · rw [descendantsBy_succ_of_root hparent]
        exact hinv.left_mem p hp
      · rw [descendantsBy_succ_of_root hparent] at ha
        exact hinv.left_le p hp a ha
      · rw [descendantsBy_succ_of_root hparent]
        exact hinv.count_eq p hp
  | some q =>
      have hq : t.IsParent n q := Option.join_eq_some_iff.1 hparent
      dsimp only
      refine ⟨by simpa using hinv.size_left, by simpa using hinv.size_count, fun p hp => ?_, fun p hp a ha => ?_,
        fun p hp => ?_⟩
      · rw [getD_modify (hinv.size_left ▸ hp), h.descendantsBy_succ hq]
        split_ifs with hpq
        · rw [Finset.mem_union]
          rcases min_choice (left.getD p 0) (left.getD n 0) with hmin | hmin
          · rw [hmin]
            exact .inl (hinv.left_mem p hp)
          · rw [hmin]
            exact .inr (hinv.left_mem n hn)
        · exact hinv.left_mem p hp
      · rw [getD_modify (hinv.size_left ▸ hp)]
        rw [h.descendantsBy_succ hq] at ha
        split_ifs at ha ⊢ with hpq
        · rcases Finset.mem_union.1 ha with ha | ha
          · exact (min_le_left _ _).trans (hinv.left_le p hp a ha)
          · exact (min_le_right _ _).trans (hinv.left_le n (by omega) a ha)
        · exact hinv.left_le p hp a ha
      · rw [getD_modify (hinv.size_count ▸ hp), h.descendantsBy_succ hq]
        split_ifs with hpq
        · rw [Finset.card_union_of_disjoint (by rw [hpq]; exact h.disjoint_descendantsBy hq)]
          have h₁ := hinv.count_eq p hp
          have h₂ := hinv.count_eq n (by omega)
          dsimp only at h₁ h₂
          rw [h₁, h₂]
        · exact hinv.count_eq p hp

end Count

theorem Tested.size_leftDesc (h : t.Tested) : t.leftDesc.size = t.size := by
  rw [h.leftDesc_eq]
  exact h.extents_extends.size_left

/-- A block and its descendants have consecutive numbers, from its smallest descendant on. -/
theorem Tested.descends_iff (h : t.Tested) (hk : k < t.size) :
    t.Descends a k ↔ t.leftDesc.getD k 0 ≤ a ∧ a ≤ k := by
  have hextends := h.extents_extends
  have hmem : ∀ {a}, a ∈ t.descendantsBy t.size k ↔ t.Descends a k := h.mem_descendantsBy_self hk hk.le
  have hleft : ∀ {a}, t.Descends a k → t.leftDesc.getD k 0 ≤ a := fun ha => by
    rw [h.leftDesc_eq]
    exact hextends.left_le k hk _ (hmem.2 ha)
  have hsub : t.descendantsBy t.size k ⊆ Finset.Icc (t.leftDesc.getD k 0) k := fun a ha =>
    Finset.mem_Icc.2 ⟨hleft (hmem.1 ha), h.le_of_descends (hmem.1 ha)⟩
  have heq : t.descendantsBy t.size k = Finset.Icc (t.leftDesc.getD k 0) k := by
    refine Finset.eq_of_subset_of_card_le hsub ?_
    rw [Nat.card_Icc, ← hextends.count_eq k hk, ← h.contiguous k hk]
  rw [← hmem, heq, Finset.mem_Icc]

theorem Tested.fetch_leftDesc (h : t.Tested) (hk : k < t.size) : fetch t.leftDesc k = .ok (t.leftDesc.getD k 0) := by
  have hlt : k < t.leftDesc.size := by rwa [h.size_leftDesc]
  rw [fetch_of_lt hlt, Array.getD_eq_getD_getElem?, Array.getElem?_eq_getElem hlt, Option.getD_some]

theorem Tested.isAncestorOrSelf_ok (h : t.Tested) {answer : Bool} (hok : t.isAncestorOrSelf b a = .ok answer) :
    answer = true ↔ t.Descends a b := by
  unfold isAncestorOrSelf at hok
  obtain ⟨left, hleft, hok⟩ := bind_eq_ok_iff.1 hok
  have hb : b < t.size := h.size_leftDesc ▸ follow_lt hleft
  rw [h.fetch_leftDesc hb, Except.ok.injEq] at hleft
  rw [pure_eq_ok_iff] at hok
  rw [← hok, decide_eq_true_eq, h.descends_iff hb, hleft]

/-- In a sequence of starts in order, those at or before `i` come first. -/
theorem lt_takeWhile_iff {starts : List Nat} (h : starts.IsChain (· ≤ ·)) :
    b < (starts.takeWhile (· ≤ i)).length ↔ ∃ v, starts[b]? = some v ∧ v ≤ i := by
  rw [List.isChain_iff_pairwise] at h
  induction starts generalizing b with
  | nil => simp
  | cons u starts ih =>
      rw [List.pairwise_cons] at h
      rw [List.takeWhile_cons]
      by_cases hu : u ≤ i
      · rw [if_pos (decide_eq_true hu), List.length_cons]
        cases b with
        | zero => simp [hu]
        | succ b =>
            rw [Nat.add_lt_add_iff_right, ih h.2]
            rfl
      · rw [if_neg (by simpa using hu)]
        refine ⟨fun hb => absurd hb (Nat.not_lt_zero b), ?_⟩
        rintro ⟨v, hv, hvi⟩
        cases b with
        | zero =>
            rw [List.getElem?_cons_zero, Option.some.injEq] at hv
            omega
        | succ b =>
            rw [List.getElem?_cons_succ] at hv
            have := h.1 v (List.mem_of_getElem? hv)
            omega

/-- The block that owns `i` does not come before the blocks that start at or before `i`. -/
theorem le_owner_iff {starts : Array Nat} (hzero : starts[0]? = some 0) (hchain : starts.toList.IsChain (· ≤ ·))
    {v : Nat} (hv : starts[b]? = some v) : b ≤ owner starts i ↔ v ≤ i := by
  have hpos : 0 < (starts.toList.takeWhile (· ≤ i)).length :=
    (lt_takeWhile_iff hchain).2 ⟨0, by rwa [Array.getElem?_toList], Nat.zero_le i⟩
  have hb : b < (starts.toList.takeWhile (· ≤ i)).length ↔ v ≤ i := by
    rw [lt_takeWhile_iff hchain, Array.getElem?_toList, hv]
    simp
  rw [← hb, owner]
  omega

/-- The range of a block and its descendants holds what they own. -/
theorem Tested.mem_rangeBetween (h : t.Tested) {starts : Array Nat} (hzero : starts[0]? = some 0)
    (hchain : starts.toList.IsChain (· ≤ ·)) {range : IndexRange}
    (hok : (do rangeBetween starts (← fetch t.leftDesc k) k) = .ok range) :
    k < t.size ∧ ∀ i, range.start ≤ i ∧ i < range.stop ↔ t.Descends (owner starts i) k := by
  unfold rangeBetween at hok
  simp only [bind_eq_ok_iff, pure_eq_ok_iff] at hok
  obtain ⟨left, hleft, u, hu, v, hv, rfl⟩ := hok
  have hk : k < t.size := h.size_leftDesc ▸ follow_lt hleft
  rw [h.fetch_leftDesc hk, Except.ok.injEq] at hleft
  rw [fetch_eq_ok_iff] at hu hv
  refine ⟨hk, fun i => ?_⟩
  have hstart := le_owner_iff (i := i) hzero hchain hu
  have hstop := le_owner_iff (i := i) hzero hchain hv
  rw [h.descends_iff hk, hleft]
  dsimp only
  omega

theorem Tested.mem_subtreeRows (h : t.Tested) {range : IndexRange} (hok : t.subtreeRows k = .ok range) :
    k < t.size ∧ ∀ i, range.start ≤ i ∧ i < range.stop ↔ t.Descends (t.blockOfRow i) k :=
  h.mem_rangeBetween h.rowStart_zero h.rowStart_chain hok

theorem Tested.mem_subtreeCols (h : t.Tested) {range : IndexRange} (hok : t.subtreeCols k = .ok range) :
    k < t.size ∧ ∀ j, range.start ≤ j ∧ j < range.stop ↔ t.Descends (t.blockOfCol j) k :=
  h.mem_rangeBetween h.colStart_zero h.colStart_chain hok

/-- The rows of an ancestor come after the first row of the subtree. -/
theorem Tested.start_le_of_descends (h : t.Tested) {range : IndexRange} (hok : t.subtreeRows k = .ok range)
    (hdesc : t.Descends k (t.blockOfRow i)) : range.start ≤ i := by
  have hk := (h.mem_subtreeRows hok).1
  have hle := ((h.descends_iff hk).1 .refl).1.trans (h.le_of_descends hdesc)
  unfold subtreeRows rangeBetween at hok
  simp only [bind_eq_ok_iff, pure_eq_ok_iff] at hok
  obtain ⟨left, hleft, u, hu, v, -, rfl⟩ := hok
  rw [h.fetch_leftDesc hk, Except.ok.injEq] at hleft
  rw [hleft] at hle
  exact (le_owner_iff h.rowStart_zero h.rowStart_chain (fetch_eq_ok_iff.1 hu)).1 hle

theorem Tested.rangeBetween_ok {starts : Array Nat} (hsize : starts.size = t.size + 1) (ha : a < t.size)
    (hb : b < t.size) : ∃ range, rangeBetween starts a b = .ok range := by
  unfold rangeBetween
  rw [fetch_of_lt (by omega), ok_bind, fetch_of_lt (by omega), ok_bind]
  exact ⟨_, rfl⟩

theorem Tested.leftDesc_lt (h : t.Tested) (hk : k < t.size) : t.leftDesc.getD k 0 < t.size := by
  have := ((h.descends_iff hk).1 .refl).1
  omega

theorem Tested.subtreeRows_ok (h : t.Tested) (hk : k < t.size) : ∃ range, t.subtreeRows k = .ok range := by
  rw [subtreeRows, h.fetch_leftDesc hk, ok_bind]
  exact rangeBetween_ok h.size_rowStart (h.leftDesc_lt hk) hk

theorem Tested.subtreeCols_ok (h : t.Tested) (hk : k < t.size) : ∃ range, t.subtreeCols k = .ok range := by
  rw [subtreeCols, h.fetch_leftDesc hk, ok_bind]
  exact rangeBetween_ok h.size_colStart (h.leftDesc_lt hk) hk

/-- The range from one start to the next one holds what its block owns. -/
theorem AreStarts.rangeBetween_ok {n : Nat} {starts : Array Nat} (h : AreStarts n starts) (hk : k < n) :
    ∃ range, rangeBetween starts k k = .ok range ∧ range.stop ≤ starts.getD n 0 ∧
      ∀ i, range.start ≤ i ∧ i < range.stop ↔ owner starts i = k := by
  have hlt : k < starts.size := by
    rw [h.size_eq]
    omega
  have hlt' : k + 1 < starts.size := by
    rw [h.size_eq]
    omega
  refine ⟨⟨starts[k], starts[k + 1]⟩, ?_, h.le_last (Array.getElem?_eq_getElem hlt'), fun i => ?_⟩
  · rw [rangeBetween, fetch_of_lt hlt, ok_bind, fetch_of_lt hlt', ok_bind]
    rfl
  · have hstart := le_owner_iff (i := i) h.zero h.chain (Array.getElem?_eq_getElem hlt)
    have hstop := le_owner_iff (i := i) h.zero h.chain (Array.getElem?_eq_getElem hlt')
    dsimp only
    omega

/-- What is in a range has an owner. -/
theorem AreStarts.owner_lt {n : Nat} {starts : Array Nat} (h : AreStarts n starts) (hi : i < starts.getD n 0) :
    owner starts i < n := by
  have howner := le_owner_iff (i := i) h.zero h.chain h.last
  omega

/-- The own rows of a block are those it owns, and they end inside the matrix. -/
theorem Tested.ownRows_ok (h : t.Tested) (hk : k < t.size) : ∃ range, t.ownRows k = .ok range ∧
    range.stop ≤ t.nrows ∧ ∀ i, range.start ≤ i ∧ i < range.stop ↔ t.blockOfRow i = k :=
  h.areStarts_row.rangeBetween_ok hk

/-- Every row of the matrix belongs to a block. -/
theorem Tested.blockOfRow_lt (h : t.Tested) (hi : i < t.nrows) : t.blockOfRow i < t.size :=
  h.areStarts_row.owner_lt hi

/-- Later rows belong to later blocks. -/
theorem Tested.blockOfRow_le (h : t.Tested) {k : Nat} (hi : i < t.nrows) (hik : i ≤ k) :
    t.blockOfRow i ≤ t.blockOfRow k := by
  have hlt : t.blockOfRow i < t.rowStart.size := by
    have := h.blockOfRow_lt hi
    rw [h.size_rowStart]
    omega
  have howner := fun k => le_owner_iff (i := k) h.rowStart_zero h.rowStart_chain (Array.getElem?_eq_getElem hlt)
  exact (howner k).2 (((howner i).1 le_rfl).trans hik)

/-- Of two blocks of which none is below the other, the first one's range ends before the second one's begins. -/
theorem Tested.stop_le_start (h : t.Tested) {starts : Array Nat} (hchain : starts.toList.IsChain (· ≤ ·))
    {range range' : IndexRange} (ha : (do rangeBetween starts (← fetch t.leftDesc a) a) = .ok range)
    (hb : (do rangeBetween starts (← fetch t.leftDesc b) b) = .ok range') (hlt : a < b) (hab : ¬t.Descends a b) :
    range.stop ≤ range'.start := by
  unfold rangeBetween at ha hb
  simp only [bind_eq_ok_iff, pure_eq_ok_iff] at ha hb
  obtain ⟨_, -, _, -, v, hv, rfl⟩ := ha
  obtain ⟨left, hleft, u, hu, _, -, rfl⟩ := hb
  have hbt : b < t.size := h.size_leftDesc ▸ follow_lt hleft
  rw [h.fetch_leftDesc hbt, Except.ok.injEq] at hleft
  rw [h.descends_iff hbt] at hab
  exact start_le_of_chain hchain (by omega) (fetch_eq_ok_iff.1 hv) (fetch_eq_ok_iff.1 hu)

end PolyProjection.BlockTree
