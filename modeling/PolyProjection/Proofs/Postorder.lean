import PolyProjection.Proofs.Descendants

/-! Which arrays describe a tree, and what the tree derived from them says. The blocks have to be numbered in
postorder: the counts that are handed up from children to parents are compared with the distance from a block to its
smallest descendant, and they agree for every block exactly if the descendants of every block are consecutive. -/

namespace PolyProjection

/-- Index `i` is in the range. -/
def IndexRange.Holds (range : IndexRange) (i : Nat) : Prop :=
  range.start ≤ i ∧ i < range.stop

namespace BlockTree

variable {t : BlockTree} {a b k i j d : Nat} {parent : Array (Option Nat)} {rowStart colStart : Array Nat}

/-- The parents of blocks in postorder: the last block alone is a root, the others come before their parents, and a
block comes right after its descendants, which are consecutive. -/
structure IsPostorder (parent : Array (Option Nat)) : Prop where
  size_pos : 0 < parent.size
  root : parent[parent.size - 1]? = some none
  parent_lt : ∀ k < parent.size - 1, ∃ p, parent[k]? = some (some p) ∧ k < p ∧ p < parent.size
  consecutive : ∀ k < parent.size, ∃ first, ∀ a,
    Relation.ReflTransGen (fun c p => parent[c]? = some (some p)) a k ↔ first ≤ a ∧ a ≤ k

/-- What the parents of a tree and its starts determine is what the tree says. -/
structure Derived (t : BlockTree) : Prop where
  isAncestorOrSelf : ∀ a < t.size, ∀ b < t.size, ∃ answer, t.isAncestorOrSelf a b = .ok answer ∧
    (answer = true ↔ t.Descends b a)
  kids : ∀ a < t.size, ∃ kids, t.kidsAt a = .ok kids ∧ kids.Pairwise (· < ·) ∧ ∀ k, k ∈ kids ↔ t.IsParent k a
  depth : ∀ a < t.size, ∃ chain : List Nat, (a :: chain).IsChain t.IsParent ∧
    t.parentOf ((a :: chain).getLast (List.cons_ne_nil a chain)) = .ok none ∧ t.depth[a]? = some chain.length
  leftDesc : ∀ a < t.size, ∃ left, t.leftDesc[a]? = some left ∧ IsLeast {b | t.Descends b a} left
  subtreeRows : ∀ a < t.size, ∃ range, t.subtreeRows a = .ok range ∧
    ∀ i, range.Holds i ↔ ∃ b own, t.Descends b a ∧ t.ownRows b = .ok own ∧ own.Holds i
  subtreeCols : ∀ a < t.size, ∃ range, t.subtreeCols a = .ok range ∧
    ∀ j, range.Holds j ↔ ∃ b own, t.Descends b a ∧ t.ownCols b = .ok own ∧ own.Holds j
  blockOfRow : ∀ i < t.nrows, t.blockOfRow i < t.size ∧
    ∀ b < t.size, ∃ own, t.ownRows b = .ok own ∧ (own.Holds i ↔ b = t.blockOfRow i)
  blockOfCol : ∀ j < t.ncols, t.blockOfCol j < t.size ∧
    ∀ b < t.size, ∃ own, t.ownCols b = .ok own ∧ (own.Holds j ↔ b = t.blockOfCol j)

section Contiguous

/-- The distance to the smallest descendant is the number of descendants if the descendants are consecutive. -/
theorem Numbered.contiguous_of_consecutive (h : t.Numbered) (hk : k < t.size) {first : Nat}
    (hfirst : ∀ a, t.Descends a k ↔ first ≤ a ∧ a ≤ k) :
    k + 1 - (extents t.parent).1.getD k 0 = (extents t.parent).2.getD k 0 := by
  have hextends := h.extents_extends
  have hmem : ∀ {a}, a ∈ t.descendantsBy t.size k ↔ t.Descends a k := h.mem_descendantsBy_self hk hk.le
  have heq : t.descendantsBy t.size k = Finset.Icc first k := by
    ext a
    rw [hmem, hfirst, Finset.mem_Icc]
  have hleft : (extents t.parent).1.getD k 0 = first := by
    have hself : first ≤ k := ((hfirst k).1 .refl).1
    have hle := hextends.left_le k hk first (hmem.2 ((hfirst first).2 ⟨le_rfl, hself⟩))
    have hge := ((hfirst _).1 (hmem.1 (hextends.left_mem k hk))).1
    exact hle.antisymm hge
  rw [hleft, hextends.count_eq k hk, heq, Nat.card_Icc]

theorem Tested.isPostorder (h : t.Tested) : IsPostorder t.parent where
  size_pos := h.size_pos
  root := by
    have hlt : t.size - 1 < t.parent.size := Nat.sub_lt h.size_pos Nat.one_pos
    have hroot := h.root
    rw [Array.getElem?_eq_getElem hlt, Option.join_some] at hroot
    exact (Array.getElem?_eq_getElem hlt).trans (congrArg some hroot)
  parent_lt := h.parent_lt
  consecutive := fun _ hk => ⟨_, fun _ => h.descends_iff hk⟩

/-- Arrays in postorder and starts in order pass the tests. -/
theorem IsPostorder.tested (h : IsPostorder parent) (hrow : AreStarts parent.size rowStart)
    (hcol : AreStarts parent.size colStart) :
    Tested ⟨parent, kidsOf parent, depths parent, (extents parent).1, rowStart, colStart⟩ := by
  have hnumbered : Numbered ⟨parent, kidsOf parent, depths parent, (extents parent).1, rowStart, colStart⟩ :=
    ⟨by show parent[parent.size - 1]?.join = none; rw [h.root]; rfl, h.parent_lt⟩
  refine ⟨hnumbered, h.size_pos, hrow.size_eq, hcol.size_eq, hrow.zero, hcol.zero, hrow.chain, hcol.chain, rfl, rfl,
    rfl, fun k hk => ?_⟩
  obtain ⟨first, hfirst⟩ := h.consecutive k hk
  exact hnumbered.contiguous_of_consecutive hk hfirst

end Contiguous

section Depth

/-- Following the parents from block `a` on leads to a root in `d` steps. -/
def HasDepth (t : BlockTree) (a d : Nat) : Prop :=
  ∃ chain : List Nat, (a :: chain).IsChain t.IsParent ∧
    t.parentOf ((a :: chain).getLast (List.cons_ne_nil a chain)) = .ok none ∧ chain.length = d

theorem hasDepth_zero (h : t.parent[a]? = some none) : t.HasDepth a 0 :=
  ⟨[], List.isChain_singleton a, fetch_eq_ok_iff.2 h, rfl⟩

theorem HasDepth.succ (h : t.HasDepth b d) (hab : t.IsParent a b) : t.HasDepth a (d + 1) := by
  obtain ⟨chain, hchain, hlast, hlength⟩ := h
  refine ⟨b :: chain, List.isChain_cons_cons.2 ⟨hab, hchain⟩, ?_, by rw [List.length_cons, hlength]⟩
  rwa [List.getLast_cons (List.cons_ne_nil b chain)]

theorem getD_setIfInBounds {xs : Array Nat} {x : Nat} (hk : k < xs.size) :
    (xs.setIfInBounds k x).getD a 0 = if a = k then x else xs.getD a 0 := by
  rw [Array.getD_eq_getD_getElem?, Array.getElem?_setIfInBounds, Array.getD_eq_getD_getElem?]
  by_cases hak : a = k
  · rw [if_pos hak, if_pos hak.symm, if_pos hk, Option.getD_some]
  · rw [if_neg hak, if_neg (Ne.symm hak)]

/-- The depths of the blocks from `j` on are known, and those before them are as at the beginning. -/
structure DepthsFrom (t : BlockTree) (j : Nat) (depth : Array Nat) : Prop where
  size_eq : depth.size = t.size
  done : ∀ a, j ≤ a → a < t.size → t.HasDepth a (depth.getD a 0)
  todo : ∀ a < j, depth.getD a 0 = 0

/-- A block's parent comes later, so its depth is known when the block's is computed. -/
theorem Numbered.depthsFrom (h : t.Numbered) : t.DepthsFrom 0 (depths t.parent) := by
  have hinit : t.DepthsFrom t.size (Array.replicate t.size 0) :=
    ⟨Array.size_replicate, fun a hja ha => absurd ha (Nat.not_lt.2 hja), fun a ha => by
      rw [Array.getD_eq_getD_getElem?, Array.getElem?_replicate, if_pos ha, Option.getD_some]⟩
  refine foldl_range_reverse t.DepthsFrom hinit fun k hk depth hdepth => ?_
  cases hparent : t.parent[k]?.join with
  | none =>
      have hroot : t.parent[k]? = some none := by
        rw [Array.getElem?_eq_getElem hk, Option.join_some] at hparent
        exact (Array.getElem?_eq_getElem hk).trans (congrArg some hparent)
      refine ⟨hdepth.size_eq, fun a hka ha => ?_, fun a ha => hdepth.todo a (ha.trans (Nat.lt_succ_self k))⟩
      rcases Nat.eq_or_lt_of_le hka with rfl | hlt
      · rw [hdepth.todo k (Nat.lt_succ_self k)]
        exact hasDepth_zero hroot
      · exact hdepth.done a hlt ha
  | some p =>
      have hp : t.IsParent k p := Option.join_eq_some_iff.1 hparent
      have hlt := h.of_isParent hp
      have hsize : k < depth.size := by rwa [hdepth.size_eq]
      refine ⟨by simpa using hdepth.size_eq, fun a hka ha => ?_, fun a ha => ?_⟩
      · rw [getD_setIfInBounds hsize]
        split_ifs with hak
        · rw [hak]
          exact (hdepth.done p hlt.1 hlt.2).succ hp
        · exact hdepth.done a (by omega) ha
      · rw [getD_setIfInBounds hsize, if_neg ha.ne]
        exact hdepth.todo a (ha.trans (Nat.lt_succ_self k))

theorem Tested.depth_ok (h : t.Tested) (ha : a < t.size) : ∃ d, t.depth[a]? = some d ∧ t.HasDepth a d := by
  have hdepths := h.depthsFrom
  rw [← h.depth_eq] at hdepths
  have hlt : a < t.depth.size := by rwa [hdepths.size_eq]
  have hdone := hdepths.done a (Nat.zero_le a) ha
  rw [Array.getD_eq_getD_getElem?, Array.getElem?_eq_getElem hlt] at hdone
  exact ⟨_, Array.getElem?_eq_getElem hlt, hdone⟩

end Depth

section Data

theorem Tested.kidsAt_ok (h : t.Tested) (ha : a < t.size) :
    ∃ kids, t.kidsAt a = .ok kids ∧ kids.Pairwise (· < ·) ∧ ∀ k, k ∈ kids ↔ t.IsParent k a := by
  refine ⟨_, ?_, filter_range_ascending (fun k => t.parent[k]? == some (some a)) t.size, fun k => ?_⟩
  · rw [kidsAt, h.kids_eq]
    exact fetch_table ha
  · rw [List.mem_filter, List.mem_range, beq_iff_eq]
    exact and_iff_right_of_imp fun hk => (Array.getElem?_eq_some_iff.1 hk).1

theorem Tested.isLeast_leftDesc (h : t.Tested) (ha : a < t.size) :
    IsLeast {b | t.Descends b a} (t.leftDesc.getD a 0) := by
  have hself := ((h.descends_iff ha).1 .refl).1
  exact ⟨(h.descends_iff ha).2 ⟨le_rfl, hself⟩, fun b hb => ((h.descends_iff ha).1 hb).1⟩

/-- What the blocks below a block own together is what has its owner there. -/
theorem AreStarts.descends_owner_iff (h : t.Tested) {starts : Array Nat} (hstarts : AreStarts t.size starts)
    (ha : a < t.size) : t.Descends (owner starts i) a ↔
      ∃ b own, t.Descends b a ∧ rangeBetween starts b b = .ok own ∧ own.Holds i := by
  constructor
  · intro hdesc
    obtain ⟨own, hown, -, hholds⟩ := hstarts.rangeBetween_ok ((h.le_of_descends hdesc).trans_lt ha)
    exact ⟨_, own, hdesc, hown, (hholds i).2 rfl⟩
  · rintro ⟨b, own, hdesc, hown, hi⟩
    obtain ⟨own', hown', -, hholds⟩ := hstarts.rangeBetween_ok ((h.le_of_descends hdesc).trans_lt ha)
    rw [hown, Except.ok.injEq] at hown'
    rw [(hholds i).1 (hown' ▸ hi)]
    exact hdesc

theorem AreStarts.owner_ok {n : Nat} {starts : Array Nat} (h : AreStarts n starts) (hi : i < starts.getD n 0) :
    owner starts i < n ∧ ∀ b < n, ∃ own, rangeBetween starts b b = .ok own ∧ (own.Holds i ↔ b = owner starts i) := by
  refine ⟨h.owner_lt hi, fun b hb => ?_⟩
  obtain ⟨own, hown, -, hholds⟩ := h.rangeBetween_ok hb
  exact ⟨own, hown, (hholds i).trans eq_comm⟩

theorem Tested.derived (h : t.Tested) : t.Derived where
  isAncestorOrSelf := fun a ha b _ => by
    obtain ⟨answer, hok⟩ : ∃ answer, t.isAncestorOrSelf a b = .ok answer := by
      rw [BlockTree.isAncestorOrSelf, h.fetch_leftDesc ha, ok_bind]
      exact ⟨_, rfl⟩
    exact ⟨answer, hok, h.isAncestorOrSelf_ok hok⟩
  kids := fun _ ha => h.kidsAt_ok ha
  depth := fun a ha => by
    obtain ⟨_, hd, chain, hchain, hlast, rfl⟩ := h.depth_ok ha
    exact ⟨chain, hchain, hlast, hd⟩
  leftDesc := fun _ ha => ⟨_, fetch_eq_ok_iff.1 (h.fetch_leftDesc ha), h.isLeast_leftDesc ha⟩
  subtreeRows := fun _ ha => by
    obtain ⟨range, hrange⟩ := h.subtreeRows_ok ha
    exact ⟨range, hrange, fun i => ((h.mem_subtreeRows hrange).2 i).trans (h.areStarts_row.descends_owner_iff h ha)⟩
  subtreeCols := fun _ ha => by
    obtain ⟨range, hrange⟩ := h.subtreeCols_ok ha
    exact ⟨range, hrange, fun j => ((h.mem_subtreeCols hrange).2 j).trans (h.areStarts_col.descends_owner_iff h ha)⟩
  blockOfRow := fun _ hi => h.areStarts_row.owner_ok hi
  blockOfCol := fun _ hj => h.areStarts_col.owner_ok hj

end Data

end BlockTree

end PolyProjection
