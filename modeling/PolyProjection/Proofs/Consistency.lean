import Mathlib
import PolyProjection.Proofs.ActiveSet

/-! The columns of a working set: bound columns are linked, free columns are listed without order, each with its
place in that list. Together with the linked rows this is what a working set checks of itself. -/

namespace PolyProjection

theorem Side.columnStatus_ne_free (side : Side) : side.columnStatus ≠ .free := by
  cases side <;> exact ColumnStatus.noConfusion

namespace ActiveSet

/-- The linked columns of a set over `n` columns are those whose status is not free; the others are listed, each
with its place. -/
structure ColsAgree (s : ActiveSet) (n : Nat) : Prop where
  bound : ∃ xs, s.bound.Holds n xs ∧ ∀ j < n, j ∈ xs ↔ s.colAt j ≠ .free
  size_freePos : s.freePos.size = n
  place_iff : ∀ j < n, ∀ p : Nat, s.freePos[j]? = some (some p) ↔ s.free[p]? = some j
  free_iff : ∀ j, (∃ p : Nat, s.free[p]? = some j) ↔ j < n ∧ s.colAt j = .free

variable {s s' : ActiveSet} {m n j : Nat} {side : Side}

theorem colsAgree_empty (m n : Nat) : (empty m n).ColsAgree n := by
  have hcol : ∀ j, (empty m n).colAt j = .free := fun _ => colAt_empty m n
  have hplace : ∀ p j, (empty m n).free[p]? = some j ↔ p < n ∧ p = j := fun p j => by
    rw [empty, Array.getElem?_eq_some_iff]
    simp
  refine ⟨⟨[], IndexList.holds_empty n, fun j _ => by simp [hcol]⟩, by simp [empty], fun j hj p => ?_, fun j => ?_⟩
  · rw [hplace]
    simp only [empty, Array.getElem?_map, Option.map_eq_some_iff, Option.some.injEq, Array.getElem?_eq_some_iff]
    simp only [Array.size_range, Array.getElem_range]
    constructor
    · rintro ⟨_, ⟨-, rfl⟩, rfl⟩
      exact ⟨hj, rfl⟩
    · rintro ⟨-, rfl⟩
      exact ⟨p, ⟨hj, rfl⟩, rfl⟩
  · simp [hplace, hcol]

/-- Statuses of rows do not matter to the columns. -/
theorem ColsAgree.of_bound_eq (h : s.ColsAgree n) (hbound : s'.bound = s.bound) (hfree : s'.free = s.free)
    (hpos : s'.freePos = s.freePos) (hstatus : s'.colStatus = s.colStatus) : s'.ColsAgree n := by
  obtain ⟨xs, hholds, hmem⟩ := h.bound
  have hcol : ∀ j, s'.colAt j = s.colAt j := fun j => by rw [colAt, colAt, hstatus]
  refine ⟨⟨xs, hbound ▸ hholds, fun j hj => by rw [hmem j hj, hcol]⟩, hpos ▸ h.size_freePos, ?_, ?_⟩
  · rw [hpos, hfree]
    exact h.place_iff
  · simp only [hfree, hcol]
    exact h.free_iff

theorem ColsAgree.lt_of_place (h : s.ColsAgree n) {p : Nat} (hp : s.free[p]? = some j) : j < n :=
  ((h.free_iff j).1 ⟨p, hp⟩).1

theorem ColsAgree.place_unique (h : s.ColsAgree n) {p q : Nat} (hp : s.free[p]? = some j) (hq : s.free[q]? = some j) :
    p = q := by
  have hj := h.lt_of_place hp
  rw [← h.place_iff j hj] at hp hq
  simpa using hp.symm.trans hq

/-- A bound column is released, and the other ones stay linked in their order. -/
theorem ColsAgree.release_ok (h : s.ColsAgree n) (hsize : s.colStatus.size = n) (hj : j < n)
    (hheld : s.colAt j ≠ .free) : ∃ s', s.release j = .ok s' ∧ s'.ColsAgree n ∧
      ∀ xs, s.bound.Holds n xs → s'.bound.Holds n (xs.erase j) := by
  obtain ⟨xs, hholds, hmem⟩ := h.bound
  obtain ⟨ys, zs, rfl⟩ := List.append_of_mem ((hmem j hj).2 hheld)
  obtain ⟨bound, hunlink, hholds'⟩ := hholds.unlink_ok
  have hpos : j < s.freePos.size := h.size_freePos ▸ hj
  have hstatus : j < s.colStatus.size := hsize ▸ hj
  have hnot : j ∉ ys ++ zs := (List.nodup_cons.1 (List.nodup_middle.1 hholds.nodup)).1
  have hnone : ∀ p, s.free[p]? ≠ some j := fun p hp => hheld ((h.free_iff j).1 ⟨p, hp⟩).2
  have herase : (ys ++ j :: zs).erase j = ys ++ zs := by
    rw [List.erase_append_right _ fun hys => hnot (List.mem_append_left zs hys), List.erase_cons_head]
  refine ⟨_, bind_eq_ok_iff.2 ⟨bound, hunlink, bind_eq_ok_iff.2 ⟨_, store_of_lt' _ hpos, bind_eq_ok_iff.2
    ⟨_, store_of_lt' _ hstatus, rfl⟩⟩⟩, ⟨⟨ys ++ zs, hholds', fun k hk => ?_⟩, by simp [h.size_freePos],
    fun k hk p => ?_, fun k => ?_⟩, fun xs hxs => by rw [hxs.unique hholds, herase]; exact hholds'⟩
  · rw [colAt_set (s := s) rfl hstatus]
    by_cases hkj : k = j
    · simp [hkj, hnot]
    · rw [if_neg hkj, ← hmem k hk]
      simp [hkj]
  · rw [Array.getElem?_push, Array.getElem?_setIfInBounds]
    by_cases hkj : k = j
    · subst hkj
      rw [if_pos rfl, if_pos hpos]
      split_ifs with hp
      · simp [hp]
      · simp [hnone, Ne.symm hp]
    · rw [if_neg (Ne.symm hkj), h.place_iff k hk]
      split_ifs with hp
      · simp [hp, Ne.symm hkj]
      · rfl
  · rw [colAt_set (s := s) rfl hstatus]
    by_cases hkj : k = j
    · subst hkj
      simp only [if_true, and_true, hj, iff_true]
      exact ⟨s.free.size, by rw [Array.getElem?_push, if_pos rfl]⟩
    · rw [if_neg hkj, ← h.free_iff k]
      refine exists_congr fun p => ?_
      rw [Array.getElem?_push]
      split_ifs with hp
      · simp [hp, Ne.symm hkj]
      · rfl

/-- The last entry of an array without repetitions takes the place of entry `j`: `j` is gone, and the others stay. -/
theorem pop_setIfInBounds_iff {x : Array Nat} {p last : Nat} (hx : ∀ k p q : Nat, x[p]? = some k → x[q]? = some k → p = q)
    (hp : x[p]? = some j) (hlast : x[x.size - 1]? = some last) (q k : Nat) :
    (x.setIfInBounds p last).pop[q]? = some k ↔ k ≠ j ∧ if k = last then q = p else x[q]? = some k := by
  have hps : p < x.size := (Array.getElem?_eq_some_iff.1 hp).1
  have hpop : (x.setIfInBounds p last).pop[q]? =
      if q < x.size - 1 then if q = p then some last else x[q]? else none := by
    rw [Array.getElem?_pop, Array.size_setIfInBounds, Array.getElem?_setIfInBounds]
    simp only [eq_comm (a := p), hps, if_true]
  have hends : ∀ q, q < x.size - 1 → x[q]? ≠ some last := fun q hq hlq => by
    have := hx last q _ hlq hlast
    omega
  -- the new place of the last entry is inside of the shorter array unless it is `j` itself
  have hin : last ≠ j → p < x.size - 1 := fun hne => by
    by_contra hge
    rw [show p = x.size - 1 by omega, hlast, Option.some.injEq] at hp
    exact hne hp
  rw [hpop]
  constructor
  · intro hk
    split_ifs at hk with hq hqp
    · obtain rfl := Option.some.inj hk
      refine ⟨fun hlj => ?_, by rw [if_pos rfl]; exact hqp⟩
      exact hends p (hqp ▸ hq) (hlj ▸ hp)
    · have hkl : k ≠ last := fun hkl => hends q hq (hkl ▸ hk)
      rw [if_neg hkl]
      exact ⟨fun hkj => hqp (hx j q p (hkj ▸ hk) hp), hk⟩
  · rintro ⟨hkj, hk⟩
    split_ifs at hk with hkl
    · rw [hk, if_pos (hin (hkl ▸ hkj)), if_pos rfl, hkl]
    · have hqs : q < x.size := (Array.getElem?_eq_some_iff.1 hk).1
      have hne : q ≠ x.size - 1 := fun hq => hkl (by rw [hq, hlast] at hk; exact (Option.some.inj hk).symm)
      rw [if_pos (by omega), if_neg (fun hqp => hkj (by rw [hqp, hp] at hk; exact (Option.some.inj hk).symm)), hk]

/-- A free column is taken out of the list, and the last one of the list takes its place. -/
theorem ColsAgree.removeFree_ok (h : s.ColsAgree n) (hj : j < n) (hcol : s.colAt j = .free) :
    ∃ free freePos, s.removeFree j = .ok { s with free := free, freePos := freePos } ∧ freePos.size = n ∧
      (∀ k < n, ∀ p : Nat, freePos[k]? = some (some p) ↔ free[p]? = some k) ∧
      ∀ k, (∃ p : Nat, free[p]? = some k) ↔ k ≠ j ∧ ∃ p : Nat, s.free[p]? = some k := by
  obtain ⟨p, hp⟩ := (h.free_iff j).2 ⟨hj, hcol⟩
  have hps : p < s.free.size := (Array.getElem?_eq_some_iff.1 hp).1
  obtain ⟨last, hlast⟩ : ∃ last, s.free[s.free.size - 1]? = some last := by
    rw [Array.getElem?_eq_getElem (by omega)]
    exact ⟨_, rfl⟩
  have hln : last < n := h.lt_of_place hlast
  have hpos := (h.place_iff j hj p).2 hp
  have hpos' : ∀ k < n, ((s.freePos.setIfInBounds last (some p)).setIfInBounds j none)[k]? =
      if k = j then some none else if k = last then some (some p) else s.freePos[k]? := fun k hk => by
    rw [Array.getElem?_setIfInBounds, Array.getElem?_setIfInBounds, Array.size_setIfInBounds]
    simp only [eq_comm (a := j), eq_comm (a := last), h.size_freePos, hj, hln, if_true]
  have hat := pop_setIfInBounds_iff (fun k p q => h.place_unique) hp hlast
  refine ⟨(s.free.setIfInBounds p last).pop, (s.freePos.setIfInBounds last (some p)).setIfInBounds j none, ?_,
    by simp [h.size_freePos], fun k hk q => ?_, fun k => ?_⟩
  · rw [removeFree, fetch_eq_ok_iff.2 hpos, ok_bind, Array.back?_eq_getElem?, hlast]
    dsimp only
    rw [store_of_lt' _ hps, ok_bind, store_of_lt' _ (by rw [h.size_freePos]; exact hln), ok_bind,
      store_of_lt' _ (by rw [Array.size_setIfInBounds, h.size_freePos]; exact hj), ok_bind]
    rfl
  · rw [hpos' k hk, hat]
    by_cases hkj : k = j
    · simp [hkj]
    · by_cases hkl : k = last
      · rw [if_neg hkj, if_pos hkl, if_pos hkl, Option.some.injEq, Option.some.injEq, eq_comm]
        exact ⟨fun hpq => ⟨hkj, hpq⟩, fun hpq => hpq.2⟩
      · simp [hkj, hkl, h.place_iff k hk]
  · simp only [hat]
    by_cases hkl : k = last
    · simp only [hkl, if_true]
      exact ⟨fun ⟨_, hne, _⟩ => ⟨hne, _, hlast⟩, fun hne => ⟨p, hne.1, rfl⟩⟩
    · simp [hkl]

/-- A column is held at a bound: it is linked behind the others, unless it is linked already. -/
theorem ColsAgree.activateBound_ok (side : Side) (h : s.ColsAgree n) (hsize : s.colStatus.size = n) (hj : j < n) :
    ∃ s', s.activateBound j side = .ok s' ∧ s'.ColsAgree n ∧
      ∀ xs, s.bound.Holds n xs → s'.bound.Holds n (if s.colAt j = .free then xs ++ [j] else xs) := by
  have hside := side.columnStatus_ne_free
  have hstatus : j < s.colStatus.size := hsize ▸ hj
  obtain ⟨xs, hholds, hmem⟩ := h.bound
  rw [activateBound, isFree_eq hstatus, ok_bind]
  by_cases hcol : s.colAt j = .free
  · obtain ⟨free, freePos, hremove, hpos, hplace, hfree⟩ := h.removeFree_ok hj hcol
    obtain ⟨bound, hpush, hholds'⟩ := hholds.pushBack_ok hj fun hin => (hmem j hj).1 hin hcol
    refine ⟨{ s with
      bound := bound, free := free, freePos := freePos,
      colStatus := s.colStatus.setIfInBounds j side.columnStatus }, ?_, ⟨⟨xs ++ [j], hholds', fun k hk => ?_⟩, hpos,
      hplace, fun k => ?_⟩, fun ys hys => by rw [if_pos hcol, hys.unique hholds]; exact hholds'⟩
    · simp only [hcol, beq_self_eq_true, if_true, hremove, ok_bind, hpush, pure_bind_ok]
      rw [store_of_lt' _ hstatus]
      rfl
    · rw [colAt_set (s := s) rfl hstatus]
      by_cases hkj : k = j
      · simp [hkj, hside]
      · rw [if_neg hkj, ← hmem k hk]
        simp [hkj]
    · rw [colAt_set (s := s) rfl hstatus, hfree k, h.free_iff k]
      by_cases hkj : k = j
      · simp [hkj, hside]
      · simp [hkj]
  · refine ⟨{ s with colStatus := s.colStatus.setIfInBounds j side.columnStatus }, ?_, ⟨⟨xs, hholds, fun k hk => ?_⟩,
      h.size_freePos, h.place_iff, fun k => ?_⟩, fun ys hys => by rw [if_neg hcol]; exact hys⟩
    · simp only [beq_eq_false_iff_ne.2 hcol, Bool.false_eq_true, if_false, pure_bind_ok]
      rw [store_of_lt' _ hstatus]
      rfl
    · rw [colAt_set (s := s) rfl hstatus, hmem k hk]
      split_ifs with hkj
      · rw [hkj]
        exact ⟨fun _ => hside, fun _ => hcol⟩
      · rfl
    · rw [colAt_set (s := s) rfl hstatus, h.free_iff k]
      by_cases hkj : k = j
      · simp [hkj, hside, hcol]
      · rw [if_neg hkj]

theorem ColsAgree.of_activateBound (h : s.ColsAgree n) (hsize : s.colStatus.size = n)
    (hok : s.activateBound j side = .ok s') : s'.ColsAgree n := by
  obtain ⟨t, ht, hagree, -⟩ := h.activateBound_ok _ hsize (hsize ▸ (activateBound_eq hok).1)
  rw [hok, Except.ok.injEq] at ht
  exact ht ▸ hagree

/-- Only a bound column can be released. -/
theorem ColsAgree.of_release (h : s.ColsAgree n) (hsize : s.colStatus.size = n) (hok : s.release j = .ok s') :
    s.colAt j ≠ .free ∧ s'.ColsAgree n := by
  obtain ⟨xs, hholds, hmem⟩ := h.bound
  have hj : j < n := hsize ▸ (release_eq hok).1
  have hheld : s.colAt j ≠ .free := by
    rw [← hmem j hj]
    by_contra hnot
    have hok := hok
    rw [release, bind_eq_ok_iff] at hok
    obtain ⟨bound, hunlink, -⟩ := hok
    rw [IndexList.unlink, IndexList.follow, fetch_eq_ok_iff.2 (hholds.unlinked j hj hnot).2] at hunlink
    cases hunlink
  obtain ⟨s₁, hok', hagree, -⟩ := h.release_ok hsize hj hheld
  rw [hok, Except.ok.injEq] at hok'
  exact ⟨hheld, hok' ▸ hagree⟩

/-- The columns that are held at a bound, in ascending order. -/
def heldList (s : ActiveSet) : List Nat :=
  (List.range s.colStatus.size).filter fun j => decide (s.colAt j ≠ .free)

theorem mem_heldList : j ∈ s.heldList ↔ s.colAt j ≠ .free := by
  rw [heldList, List.mem_filter, List.mem_range, decide_eq_true_eq, and_iff_right_iff_imp]
  intro hheld
  by_contra hge
  rw [colAt, Array.getElem?_eq_none (Nat.le_of_not_lt hge)] at hheld
  exact hheld rfl

/-- The held columns of a range. -/
def heldBetween (s : ActiveSet) (start stop : Nat) : List Nat :=
  s.heldList.filter fun j => decide (start ≤ j) && decide (j < stop)

theorem nodup_activeList (s : ActiveSet) : s.activeList.Nodup :=
  s.activeList_ascending.imp Nat.ne_of_lt

theorem heldList_ascending (s : ActiveSet) : s.heldList.Pairwise (· < ·) :=
  filter_range_ascending _ _

theorem nodup_heldList (s : ActiveSet) : s.heldList.Nodup :=
  s.heldList_ascending.imp Nat.ne_of_lt

theorem heldList_empty (m n : Nat) : (empty m n).heldList = [] :=
  List.eq_nil_iff_forall_not_mem.2 fun j hj => by
    rw [mem_heldList, colAt_empty] at hj
    exact hj rfl

/-- The statuses of the columns say which are listed as held. -/
theorem heldList_congr (h : ∀ j, s'.colAt j = s.colAt j) : s'.heldList = s.heldList :=
  s'.heldList_ascending.eq_of_mem_iff s.heldList_ascending fun j => by rw [mem_heldList, mem_heldList, h]

/-- A list that has lost one entry is shorter by one. -/
theorem length_of_remove {l l' : List Nat} {i : Nat} (hl : l.Nodup) (hl' : l'.Nodup) (hi : i ∈ l)
    (hmem : ∀ k, k ∈ l' ↔ k ∈ l ∧ k ≠ i) : l.length = l'.length + 1 := by
  have hperm : l.Perm (i :: l') := (List.perm_ext_iff_of_nodup hl
    (List.nodup_cons.2 ⟨fun hin => ((hmem i).1 hin).2 rfl, hl'⟩)).2 fun k => by
      rw [List.mem_cons, hmem]
      by_cases hk : k = i
      · simp [hk, hi]
      · simp [hk]
  simpa using hperm.length_eq

theorem length_activeList_of_drop {i : Nat} (hact : (s.rowAt i).isActive = true)
    (hrow : ∀ k, s'.rowAt k = if k = i then .dropped else s.rowAt k) :
    s.activeList.length = s'.activeList.length + 1 := by
  refine length_of_remove s.nodup_activeList s'.nodup_activeList (mem_activeList_iff.2 hact) fun k => ?_
  rw [mem_activeList_iff, mem_activeList_iff, hrow]
  by_cases hk : k = i
  · simp [hk, RowStatus.isActive]
  · simp [hk]

theorem length_heldList_of_free (hheld : s.colAt j ≠ .free)
    (hcol : ∀ k, s'.colAt k = if k = j then .free else s.colAt k) : s.heldList.length = s'.heldList.length + 1 := by
  refine length_of_remove s.nodup_heldList s'.nodup_heldList (mem_heldList.2 hheld) fun k => ?_
  rw [mem_heldList, mem_heldList, hcol]
  by_cases hk : k = j
  · simp [hk]
  · simp [hk]

theorem ColsAgree.mem_free_iff (h : s.ColsAgree n) : j ∈ s.free.toList ↔ j < n ∧ s.colAt j = .free := by
  rw [← h.free_iff, Array.mem_toList_iff, Array.mem_iff_getElem?]

theorem ColsAgree.nodup_free (h : s.ColsAgree n) : s.free.toList.Nodup := by
  rw [List.nodup_iff_getElem?_ne_getElem?]
  intro p q hpq hq heq
  rw [List.getElem?_eq_getElem hq] at heq
  have hq' : s.free[q]? = some s.free.toList[q] := by
    rw [← Array.getElem?_toList, List.getElem?_eq_getElem hq]
  have hp' : s.free[p]? = some s.free.toList[q] := by rw [← Array.getElem?_toList, heq]
  exact hpq.ne (h.place_unique hp' hq')

/-- The statuses of the columns say which are listed as free. -/
theorem ColsAgree.perm_free (h : s.ColsAgree n) (h' : s'.ColsAgree n) (hcol : ∀ j, s'.colAt j = s.colAt j) :
    s'.free.toList.Perm s.free.toList := by
  refine (List.perm_ext_iff_of_nodup h'.nodup_free h.nodup_free).2 fun j => ?_
  rw [h'.mem_free_iff, h.mem_free_iff, hcol]

/-- Free and linked columns together are all columns. -/
theorem ColsAgree.count (h : s.ColsAgree n) {xs : List Nat} (hxs : s.bound.Holds n xs)
    (hmem : ∀ j < n, j ∈ xs ↔ s.colAt j ≠ .free) : s.free.size + xs.length = n := by
  have hall : (s.free.toList ++ xs).Perm (List.range n) := by
    refine (List.perm_ext_iff_of_nodup (h.nodup_free.append hxs.nodup fun j hj hx => ?_) List.nodup_range).2 fun j => ?_
    · exact (hmem j (hxs.lt j hx)).1 hx (h.mem_free_iff.1 hj).2
    · rw [List.mem_append, h.mem_free_iff, List.mem_range]
      constructor
      · rintro (hj | hj)
        · exact hj.1
        · exact hxs.lt j hj
      · intro hj
        by_cases hcol : s.colAt j = .free
        · exact .inl ⟨hj, hcol⟩
        · exact .inr ((hmem j hj).2 hcol)
  simpa using hall.length_eq

theorem ColsAgree.size_bound (h : s.ColsAgree n) (hsize : s.colStatus.size = n) :
    s.bound.size = s.heldList.length := by
  obtain ⟨xs, hxs, hmem⟩ := h.bound
  rw [hxs.size_eq]
  refine List.Perm.length_eq ((List.perm_ext_iff_of_nodup hxs.nodup s.nodup_heldList).2 fun j => ?_)
  rw [heldList, List.mem_filter, List.mem_range, decide_eq_true_eq, hsize]
  exact ⟨fun hj => ⟨hxs.lt j hj, (hmem j (hxs.lt j hj)).1 hj⟩, fun hj => (hmem j hj.1).2 hj.2⟩

/-- A set whose rows and columns agree with their lists passes its own check. -/
theorem isConsistent_ok (hrows : s.RowsAgree m n) (hcols : s.ColsAgree n) : s.isConsistent = .ok true := by
  obtain ⟨xs, hxs, hmem⟩ := hcols.bound
  have hrowsAgree : ((List.range s.rowStatus.size).allM fun i => do
      return (← s.rows.contains i) == (← fetch s.rowStatus i).isActive) = .ok true := by
    rw [allM_of_forall (p := fun _ => true) fun i hi => ?_, List.all_eq_true.2 fun _ _ => rfl]
    have hi := List.mem_range.1 hi
    have hlinked := hrows.isRowActive_eq (hrows.size_rowStatus ▸ hi)
    rw [isRowActive] at hlinked
    rw [hlinked, fetch_rowStatus hi]
    simp [pure, Except.pure]
  have hfreeAgree : ((List.range s.free.size).allM fun p => do
      let j ← fetch s.free p
      return (← fetch s.freePos j) == some p && (← s.isFree j)) = .ok true := by
    rw [allM_of_forall (p := fun _ => true) fun p hp => ?_, List.all_eq_true.2 fun _ _ => rfl]
    have hp := List.mem_range.1 hp
    have hplace : s.free[p]? = some s.free[p] := Array.getElem?_eq_getElem hp
    obtain ⟨hj, hcol⟩ := (hcols.free_iff _).1 ⟨p, hplace⟩
    rw [fetch_eq_ok_iff.2 hplace, ok_bind, fetch_eq_ok_iff.2 ((hcols.place_iff _ hj p).2 hplace), ok_bind,
      isFree_eq (by rw [hrows.size_colStatus]; exact hj), hcol]
    simp [pure, Except.pure]
  have hboundAgree : (xs.allM fun j => do return !(← s.isFree j)) = .ok true := by
    rw [allM_of_forall (p := fun _ => true) fun j hj => ?_, List.all_eq_true.2 fun _ _ => rfl]
    have hlt := hxs.lt j hj
    rw [isFree_eq (by rw [hrows.size_colStatus]; exact hlt), ok_bind, beq_eq_false_iff_ne.2 ((hmem j hlt).1 hj)]
    rfl
  rw [isConsistent, hrows.rows.toList_eq, ok_bind, hxs.toList_eq, ok_bind, hrowsAgree, ok_bind, hfreeAgree, ok_bind,
    hboundAgree, ok_bind, hrows.rows.isConsistent_ok, ok_bind, hxs.isConsistent_ok, ok_bind,
    isAscending_iff_pairwise.2 s.activeList_ascending, hcols.count hxs hmem, hrows.size_colStatus]
  simp [pure, Except.pure]

end ActiveSet

end PolyProjection
