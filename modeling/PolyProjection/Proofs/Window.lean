import Mathlib
import PolyProjection.Proofs.ActiveSet
import PolyProjection.TriangularSolve

/-! The linked rows of a range. From a row of the range the links lead to its neighbours in the range, and the first and
the last one are found from the ends. -/

namespace PolyProjection

set_option linter.unusedSectionVars false

/-- The entries of `rows` from `top` up to `bottom` are the ascending list `inner`. -/
structure Window (rows : IndexList) (n top bottom : ℕ) (inner : List ℕ) : Prop where
  holds : ∃ above below, rows.Holds n (above ++ (inner ++ below)) ∧ (∀ i ∈ above, i < top) ∧ ∀ i ∈ below, bottom ≤ i
  between : ∀ i ∈ inner, top ≤ i ∧ i < bottom
  ascending : inner.Pairwise (· < ·)
  le : bottom ≤ n

namespace Window

variable {rows : IndexList} {n top bottom j : ℕ} {inner done rest : List ℕ}

theorem nextBelow_eq (h : Window rows n top bottom (done ++ j :: rest)) :
    LdlFactor.nextBelow rows j bottom = .ok rest.head? := by
  obtain ⟨above, below, hholds, -, hbelow⟩ := h.holds
  have hsplit : above ++ ((done ++ j :: rest) ++ below) = (above ++ done) ++ j :: (rest ++ below) := by simp
  rw [hsplit] at hholds
  rw [LdlFactor.nextBelow, hholds.after_eq, ok_bind, pure_eq_ok_iff]
  cases rest with
  | nil =>
      cases below with
      | nil => rfl
      | cons k below =>
          have hk : bottom ≤ k := hbelow k List.mem_cons_self
          simpa using hk
  | cons k rest =>
      have hk : k < bottom := (h.between k (by simp)).2
      simp [hk]

theorem prevFrom_eq (h : Window rows n top bottom (done ++ j :: rest)) :
    LdlFactor.prevFrom rows j top = .ok done.getLast? := by
  obtain ⟨above, below, hholds, habove, -⟩ := h.holds
  have hsplit : above ++ ((done ++ j :: rest) ++ below) = (above ++ done) ++ j :: (rest ++ below) := by simp
  rw [hsplit] at hholds
  rw [LdlFactor.prevFrom, hholds.before_eq, ok_bind, pure_eq_ok_iff]
  rcases List.eq_nil_or_concat done with rfl | ⟨done, k, rfl⟩
  · rcases List.eq_nil_or_concat above with rfl | ⟨above, k, rfl⟩
    · rfl
    · have hk : k < top := habove k (by simp)
      simpa using hk
  · have hk : top ≤ k := (h.between k (by simp)).1
    simp [hk]

theorem contains_eq (h : Window rows n top bottom inner) {i : ℕ} (htop : top ≤ i) (hbottom : i < bottom) :
    rows.contains i = .ok (decide (i ∈ inner)) := by
  obtain ⟨above, below, hholds, habove, hbelow⟩ := h.holds
  rw [hholds.contains_eq (hbottom.trans_le h.le)]
  have hout : i ∉ above ∧ i ∉ below :=
    ⟨fun hi => absurd (habove i hi) (not_lt.2 htop), fun hi => absurd (hbelow i hi) (not_le.2 hbottom)⟩
  simp [hout.1, hout.2]

theorem find?_eq (h : Window rows n top bottom inner) (count : ℕ) :
    (List.range' top count).find? (fun i => decide (i ∈ inner)) = inner.head?.filter (· < top + count) := by
  cases inner with
  | nil => simp
  | cons j rest =>
      have hj := h.between j List.mem_cons_self
      by_cases hlt : j < top + count
      · rw [List.head?_cons, Option.filter_some, if_pos (decide_eq_true hlt), List.find?_eq_some_iff_append]
        refine ⟨by simp, List.range' top (j - top), List.range' (j + 1) (top + count - j - 1), ?_, fun i hi => ?_⟩
        · rw [← List.range'_succ, show top + count - j - 1 + 1 = top + count - j by omega,
            show List.range' j (top + count - j) = List.range' (top + (j - top)) (top + count - j) by
              rw [Nat.add_sub_cancel' hj.1],
            List.range'_append_1, show j - top + (top + count - j) = count by omega]
        · have hi := List.mem_range'_1.1 hi
          have hnot : i ∉ j :: rest := by
            rw [List.mem_cons]
            rintro (rfl | hmem)
            · omega
            · have := (List.pairwise_cons.1 h.ascending).1 i hmem
              omega
          simp [hnot]
      · rw [List.head?_cons, Option.filter_some, if_neg (by simpa using hlt), List.find?_eq_none]
        intro i hi
        have hi := List.mem_range'_1.1 hi
        have hnot : i ∉ j :: rest := by
          rw [List.mem_cons]
          rintro (rfl | hmem)
          · omega
          · have := (List.pairwise_cons.1 h.ascending).1 i hmem
            omega
        simp [hnot]

theorem seek_eq (h : Window rows n top bottom inner) : rows.seek top bottom = .ok inner.head? := by
  obtain ⟨above, below, hholds, habove, hbelow⟩ := h.holds
  rw [hholds.seek_eq h.le]
  refine congrArg Except.ok ?_
  have hcongr : (List.range' top (bottom - top)).find? (fun i => decide (i ∈ above ++ (inner ++ below))) =
      (List.range' top (bottom - top)).find? fun i => decide (i ∈ inner) := by
    refine List.find?_congr fun i hi => ?_
    have hi := List.mem_range'_1.1 hi
    have hout : i ∉ above ∧ i ∉ below :=
      ⟨fun hmem => by have := habove i hmem; omega, fun hmem => by have := hbelow i hmem; omega⟩
    simp [hout.1, hout.2]
  refine hcongr.trans ((h.find?_eq _).trans ?_)
  cases inner with
  | nil => rfl
  | cons j rest =>
      have hj := h.between j List.mem_cons_self
      simp only [List.head?_cons, Option.filter_some, decide_eq_true_eq]
      rw [if_pos (by omega)]

/-- The last entry of the window is the first one that is met from behind. -/
theorem lastLinked_eq (h : Window rows n top bottom inner) :
    LdlFactor.lastLinked rows top (bottom - top) = .ok inner.getLast? := by
  have hcount : ∀ count, top + count ≤ bottom → (∀ i ∈ inner, i < top + count) →
      LdlFactor.lastLinked rows top count = .ok inner.getLast? := by
    intro count
    induction count with
    | zero =>
        intro _ hlt
        have hnil : inner = [] := List.eq_nil_iff_forall_not_mem.2 fun i hi => by
          have := (h.between i hi).1
          have := hlt i hi
          omega
        rw [hnil]
        rfl
    | succ count ih =>
        intro hle hlt
        rw [LdlFactor.lastLinked, h.contains_eq (by omega) (by omega), ok_bind]
        by_cases hmem : top + count ∈ inner
        · rw [decide_eq_true hmem, if_pos rfl]
          obtain ⟨ys, zs, rfl⟩ := List.append_of_mem hmem
          have hasc := (List.pairwise_cons.1 (List.pairwise_append.1 h.ascending).2.1).1
          have hnil : zs = [] := List.eq_nil_iff_forall_not_mem.2 fun i hi => by
            have := hasc i hi
            have := hlt i (by simp [hi])
            omega
          rw [hnil, List.getLast?_concat]
          rfl
        · rw [decide_eq_false hmem, if_neg Bool.false_ne_true]
          refine ih (by omega) fun i hi => ?_
          have := hlt i hi
          have hne : i ≠ top + count := fun heq => hmem (heq ▸ hi)
          omega
  rcases Nat.le_total bottom top with hle | hle
  · have hnil : inner = [] := List.eq_nil_iff_forall_not_mem.2 fun i hi => by
      have := h.between i hi
      omega
    rw [Nat.sub_eq_zero_of_le hle, hnil]
    rfl
  · exact hcount _ (by omega) fun i hi => by have := (h.between i hi).2; omega

theorem length_le (h : Window rows n top bottom inner) : inner.length ≤ rows.next.size := by
  obtain ⟨above, below, hholds, -⟩ := h.holds
  have hsub : inner ⊆ List.range n := fun i hi =>
    List.mem_range.2 ((h.between i hi).2.trans_le h.le)
  have hnodup : inner.Nodup := h.ascending.imp Nat.ne_of_lt
  have hle := (hnodup.subperm hsub).length_le
  rw [List.length_range] at hle
  rw [hholds.size_next]
  omega

/-- The entries of an ascending list in a range. -/
theorem of_holds {xs : List ℕ} (h : rows.Holds n xs) (hxs : xs.Pairwise (· < ·)) (hle : bottom ≤ n) :
    Window rows n top bottom (xs.filter fun i => decide (top ≤ i) && decide (i < bottom)) := by
  refine ⟨⟨xs.filter fun i => decide (i < top), xs.filter fun i => decide (top ≤ i) && decide (bottom ≤ i), ?_,
    fun i hi => ?_, fun i hi => ?_⟩, fun i hi => ?_, hxs.filter _, hle⟩
  · have hsplit : xs.filter (fun i => decide (i < top)) ++ ((xs.filter fun i => decide (top ≤ i) && decide (i < bottom)) ++
        xs.filter fun i => decide (top ≤ i) && decide (bottom ≤ i)) = xs := by
      refine eq_of_ascending ?_ hxs fun i => ?_
      · simp only [List.pairwise_append, List.mem_append, List.mem_filter, Bool.and_eq_true, decide_eq_true_eq]
        refine ⟨hxs.filter _, ⟨hxs.filter _, hxs.filter _, ?_⟩, ?_⟩
        · rintro i ⟨-, -, hi⟩ k ⟨-, -, hk⟩
          omega
        · rintro i ⟨-, hi⟩ k (⟨-, hk, -⟩ | ⟨-, hk, -⟩) <;> omega
      · simp only [List.mem_append, List.mem_filter, Bool.and_eq_true, decide_eq_true_eq]
        have hcases : i < top ∨ top ≤ i ∧ i < bottom ∨ top ≤ i ∧ bottom ≤ i := by omega
        tauto
    rw [hsplit]
    exact h
  · simpa using List.of_mem_filter hi
  · have := List.of_mem_filter hi
    simp only [Bool.and_eq_true, decide_eq_true_eq] at this
    exact this.2
  · have := List.of_mem_filter hi
    simpa only [Bool.and_eq_true, decide_eq_true_eq] using this

end Window

end PolyProjection
