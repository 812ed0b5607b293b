import Mathlib
import PolyProjection.Proofs.Factor.Elimination
import PolyProjection.Proofs.Factor.Operations

/-! The addition of a multiple of `w * wᵀ` to a factored matrix. The vector is zero except in the row that the
path has come to and in the active rows of its column; as the pattern contains its fill, the first of these rows
is where the path goes on, and the columns that it passes by are those of the new matrix already. -/

namespace PolyProjection

set_option linter.unusedSectionVars false

variable {K : Type} [Field K] [LinearOrder K] [IsStrictOrderedRing K]

/-- The matrix is symmetric, has pivots other than zero, and its factor has no entry outside of the pattern and none
in inactive rows and columns. -/
structure Fill.Eliminates (s : Fill) (act : ℕ → Bool) (m : ℕ → ℕ → K) : Prop where
  symm : ∀ i j, m i j = m j i
  pivot_ne : ∀ j < s.size, pivot m j ≠ 0
  lower_eq_zero : ∀ i j, j < i → ¬ (s.has i j = true ∧ act i = true ∧ act j = true) → lower m i j = 0

/-- The entries and pivots from column `j` on are those of the matrix `m`. -/
structure Fill.AgreesFrom (s : Fill) (act : ℕ → Bool) (m : ℕ → ℕ → K) (j : ℕ) (l : ℕ → ℕ → K) (d : ℕ → K) :
    Prop where
  entry : ∀ i c, j ≤ c → s.has i c = true → act i = true → l i c = lower m i c
  pivot : ∀ c, j ≤ c → c < s.size → d c = pivot m c

variable {s : Fill} {m m' : ℕ → ℕ → K} {act : ℕ → Bool} {l : ℕ → ℕ → K} {d : ℕ → K} {sigma alpha : K}
  {w w2 : ℕ → K} {j n : ℕ}

theorem Fill.AgreesFrom.mono (h : s.AgreesFrom act m j l d) {k : ℕ} (hjk : j ≤ k) : s.AgreesFrom act m k l d :=
  ⟨fun i c hc => h.entry i c (hjk.trans hc), fun c hc => h.pivot c (hjk.trans hc)⟩

namespace LdlFactor

/-- The sweep over column `j` turns its entries into those of the new matrix. -/
theorem swept_entry (hj : j < s.size) (hm : s.Eliminates act m) (hp' : pivot m' j ≠ 0)
    (hdiff : DiffersBy m m' j alpha w) (hagree : s.AgreesFrom act m j l d) {i : ℕ} (hi : s.Live act j i) :
    l i j + w j * alpha / pivot m' j * (Function.update w j 0 i - w j * l i j) = lower m' i j := by
  have hij := (s.lt_of_has hi.1).1
  rw [hagree.entry i j le_rfl hi.1 hi.2, Function.update_of_ne hij.ne', hdiff.lower_eq (hm.pivot_ne j hj) hp' hij]

/-- What the sweep over column `j` leaves of the vector. -/
theorem swept_vector (hm : s.Eliminates act m) (hagree : s.AgreesFrom act m j l d)
    (hw : ∀ i, w i ≠ 0 → i = j ∨ s.Live act j i) (i : ℕ) :
    (if i ∈ (s.column j).filter act then Function.update w j 0 i - w j * l i j else Function.update w j 0 i) =
      if i ≤ j then 0 else w i - w j * lower m i j := by
  by_cases hi : s.Live act j i
  · have hij := (s.lt_of_has hi.1).1
    rw [if_pos (Fill.mem_filter_column.2 hi), if_neg (by omega), Function.update_of_ne hij.ne',
      hagree.entry i j le_rfl hi.1 hi.2]
  · rw [if_neg fun hmem => hi (Fill.mem_filter_column.1 hmem)]
    have hnot : i ≠ j → w i = 0 := fun hne => by
      by_contra h
      exact hi ((hw i h).resolve_left hne)
    rcases Nat.lt_trichotomy i j with hlt | rfl | hgt
    · rw [if_pos hlt.le, Function.update_of_ne hlt.ne, hnot hlt.ne]
    · rw [if_pos le_rfl, Function.update_self]
    · rw [if_neg (by omega), Function.update_of_ne hgt.ne', hnot hgt.ne',
        hm.lower_eq_zero i j hgt fun h => hi ⟨h.1, h.2.1⟩, mul_zero, sub_zero]

/-- One step of the path: column `j` becomes that of the new matrix, and what is left of `w` lies in the active
rows of the column. -/
theorem rankOneFrom_succ (floor : K → K) (steps flops : ℕ) (hj : j < s.size) (hm : s.Eliminates act m)
    (hp' : pivot m' j ≠ 0) (hfloor : floor (pivot m' j) = pivot m' j) (hdiff : DiffersBy m m' j alpha w)
    (hagree : s.AgreesFrom act m j l d) (hw : ∀ i, w i ≠ 0 → i = j ∨ s.Live act j i) :
    ∃ f flops', f = s.factor act (fun i c => if c = j then lower m' i c else l i c)
        (Function.update d j (pivot m' j)) sigma (fun i => if i ≤ j then 0 else w i - w j * lower m i j) w2 ∧
      rankOneFrom floor (steps + 1) (s.factor act l d sigma w w2) j alpha flops =
        ((s.column j).filter act).head?.elim (.ok (f, flops')) fun next =>
          rankOneFrom floor steps f next (alpha * pivot m j / pivot m' j) flops' := by
  have hvector := swept_vector hm hagree hw
  rw [rankOneFrom_eq floor steps flops hj]
  by_cases hzero : w j = 0
  · have hkeep : pivot m' j = pivot m j := (hdiff.lower_of_zero hzero le_rfl).2
    rw [if_neg (by simp [hzero]), pure_bind_ok, hkeep, mul_div_cancel_right₀ _ (hm.pivot_ne j hj)]
    refine ⟨_, flops, Fill.factor_congr (fun i c hhas hact => ?_) (fun c _ => ?_) (fun i _ => ?_) fun _ _ => rfl, rfl⟩
    · split_ifs with hc
      · rw [hc] at hhas ⊢
        rw [(hdiff.lower_of_zero hzero (s.lt_of_has hhas).1.le).1, hagree.entry i j le_rfl hhas hact]
      · rfl
    · by_cases hc : c = j
      · rw [hc, Function.update_self, hagree.pivot j le_rfl hj]
      · rw [Function.update_of_ne hc]
    · rw [← hvector i, hzero, zero_mul, sub_zero, ite_self]
  · rw [if_pos (by simpa using hzero), hagree.pivot j le_rfl hj, ← hdiff.pivot_eq, hfloor,
      Scalar.quotient_of_ne_zero hp', ok_bind, Scalar.quotient_of_ne_zero hp', ok_bind, pure_bind_ok]
    refine ⟨_, _, Fill.factor_congr (fun i c hhas hact => ?_) (fun _ _ => rfl) (fun i _ => hvector i) fun _ _ => rfl,
      rfl⟩
    split_ifs with hc
    · rw [hc] at hhas ⊢
      exact swept_entry hj hm hp' hdiff hagree ⟨hhas, hact⟩
    · rfl

/-- Columns that the path passes by are those of the new matrix already. -/
theorem factor_passed (hdiff : DiffersBy m m' j alpha w) (hagree : s.AgreesFrom act m j l d) {next : ℕ}
    (hnext : j ≤ next) (hw : ∀ i, j ≤ i → i < next → w i = 0) (u : ℕ → K) :
    s.factor act (fun i c => if c < next then l i c else lower m' i c) (fun c => if c < next then d c else pivot m' c)
        sigma u w2 =
      s.factor act (fun i c => if c < j then l i c else lower m' i c) (fun c => if c < j then d c else pivot m' c) sigma
        u w2 := by
  refine Fill.factor_congr (fun i c hhas hact => ?_) (fun c hc => ?_) (fun _ _ => rfl) fun _ _ => rfl
  · by_cases hcj : c < j
    · rw [if_pos (hcj.trans_le hnext), if_pos hcj]
    · rw [if_neg hcj]
      split_ifs with hcn
      · rw [hagree.entry i c (by omega) hhas hact, (hdiff.passed hw (by omega) hcn (s.lt_of_has hhas).1.le).1]
      · rfl
  · by_cases hcj : c < j
    · rw [if_pos (hcj.trans_le hnext), if_pos hcj]
    · rw [if_neg hcj]
      split_ifs with hcn
      · rw [hagree.pivot c (by omega) hc, (hdiff.passed hw (by omega) hcn le_rfl).2]
      · rfl

/-- Columns that the path does not come to any more are those of the new matrix already. -/
theorem factor_passed_all (hdiff : DiffersBy m m' j alpha w) (hagree : s.AgreesFrom act m j l d) (hj : j ≤ s.size)
    (hw : ∀ i, j ≤ i → w i = 0) (u : ℕ → K) :
    s.factor act l d sigma u w2 =
      s.factor act (fun i c => if c < j then l i c else lower m' i c) (fun c => if c < j then d c else pivot m' c) sigma
        u w2 := by
  rw [← factor_passed hdiff hagree hj (fun i hi _ => hw i hi) u]
  refine Fill.factor_congr (fun i c hhas _ => ?_) (fun c hc => ?_) (fun _ _ => rfl) fun _ _ => rfl
  · rw [if_pos ((s.lt_of_has hhas).1.trans (s.lt_of_has hhas).2)]
  · rw [if_pos hc]

/-- With column `j` done, the columns from `j` on are those of the new matrix if the columns after it are. -/
theorem factor_done (u : ℕ → K) :
    s.factor act (fun i c => if c < j + 1 then if c = j then lower m' i c else l i c else lower m' i c)
        (fun c => if c < j + 1 then Function.update d j (pivot m' j) c else pivot m' c) sigma u w2 =
      s.factor act (fun i c => if c < j then l i c else lower m' i c) (fun c => if c < j then d c else pivot m' c) sigma
        u w2 := by
  refine Fill.factor_congr (fun i c _ _ => ?_) (fun c _ => ?_) (fun _ _ => rfl) fun _ _ => rfl
  · rcases Nat.lt_trichotomy c j with hcj | rfl | hcj
    · rw [if_pos (by omega), if_neg hcj.ne, if_pos hcj]
    · rw [if_pos (by omega), if_pos rfl, if_neg (lt_irrefl c)]
    · rw [if_neg (by omega), if_neg (by omega)]
  · rcases Nat.lt_trichotomy c j with hcj | rfl | hcj
    · rw [if_pos (by omega), Function.update_of_ne hcj.ne, if_pos hcj]
    · rw [if_pos (by omega), Function.update_self, if_neg (lt_irrefl c)]
    · rw [if_neg (by omega), if_neg (by omega)]

/-- The path from column `j` on turns the factor of the old matrix into that of the new one. -/
theorem rankOneFrom_ok (floor : K → K) (hm : s.Eliminates act m) (hp' : ∀ c < s.size, pivot m' c ≠ 0)
    (hfloor : ∀ c, j ≤ c → act c = true → floor (pivot m' c) = pivot m' c) (steps flops : ℕ)
    (hsteps : s.size ≤ j + steps) (hj : j < s.size) (hact : act j = true) (hdiff : DiffersBy m m' j alpha w)
    (hagree : s.AgreesFrom act m j l d) (hw : ∀ i, w i ≠ 0 → i = j ∨ s.Live act j i) :
    ∃ flops', rankOneFrom floor steps (s.factor act l d sigma w w2) j alpha flops =
      .ok (s.factor act (fun i c => if c < j then l i c else lower m' i c)
        (fun c => if c < j then d c else pivot m' c) sigma (fun _ => 0) w2, flops') := by
  induction steps generalizing j alpha l d w flops with
  | zero => omega
  | succ steps ih =>
      obtain ⟨f, flops', hf, hstep⟩ : ∃ f flops', _ ∧
          rankOneFrom floor (steps + 1) (s.factor act l d sigma w w2) j alpha flops = _ :=
        rankOneFrom_succ floor steps flops hj hm (hp' j hj) (hfloor j le_rfl hact) hdiff hagree hw
      have hdiff' : DiffersBy m m' (j + 1) (alpha * pivot m j / pivot m' j)
          fun i => if i ≤ j then 0 else w i - w j * lower m i j :=
        (hdiff.succ hm.symm (hm.pivot_ne j hj) (hp' j hj)).congr fun i hi => by rw [if_neg (by omega)]
      have hrest : ∀ i, (if i ≤ j then 0 else w i - w j * lower m i j) ≠ 0 →
          s.has i j = true ∧ act i = true := by
        intro i hi
        split_ifs at hi with hij
        · exact absurd rfl hi
        · by_contra hnot
          rw [hm.lower_eq_zero i j (by omega) fun h => hnot ⟨h.1, h.2.1⟩, mul_zero, sub_zero] at hi
          exact hnot ((hw i hi).resolve_left (by omega))
      have hagree' : s.AgreesFrom act m (j + 1) (fun i c => if c = j then lower m' i c else l i c)
          (Function.update d j (pivot m' j)) := by
        refine ⟨fun i c hc hhas hact => ?_, fun c hc hcs => ?_⟩
        · rw [if_neg (by omega), hagree.entry i c (by omega) hhas hact]
        · rw [Function.update_of_ne (by omega), hagree.pivot c (by omega) hcs]
      rw [hstep, hf, ← factor_done]
      cases hrows : (s.column j).filter act with
      | nil =>
          have hnone : ∀ i, (if i ≤ j then 0 else w i - w j * lower m i j) = 0 := by
            intro i
            by_contra hi
            exact Fill.not_live_of_nil hrows i (hrest i hi)
          refine ⟨flops', congrArg Except.ok (Prod.ext ?_ rfl)⟩
          rw [← factor_passed_all hdiff' hagree' hj fun i _ => hnone i]
          exact Fill.factor_congr (fun _ _ _ _ => rfl) (fun _ _ => rfl) (fun i _ => hnone i) fun _ _ => rfl
      | cons next rows =>
          -- no row of the column comes before `next`, so the path misses no entry of `w`
          obtain ⟨hnext, hlater⟩ := Fill.live_of_first hrows
          have hlt := s.lt_of_has hnext.1
          have hfirst : ∀ i, s.Live act j i → next ≤ i := fun i hi =>
            (hlater i hi).elim Eq.ge fun h => (s.lt_of_has h.1).1.le
          have hbetween : ∀ i, j + 1 ≤ i → i < next → (if i ≤ j then 0 else w i - w j * lower m i j) = 0 := by
            intro i _ hin
            by_contra hne
            exact absurd (hfirst i (hrest i hne)) (by omega)
          rw [← factor_passed hdiff' hagree' hlt.1 hbetween]
          exact ih (fun c hc => hfloor c (by omega)) flops' (by omega) hlt.2 hnext.2 (hdiff'.skip hlt.1 hbetween)
            (hagree'.mono hlt.1) fun i hi => hlater i (hrest i hi)

end LdlFactor

end PolyProjection
