import Mathlib
import PolyProjection.Proofs.Exact
import PolyProjection.Proofs.Table
import PolyProjection.Proofs.Window

/-! The substitutions compute the plain ones, which take one active row after the other, whatever chains of two or
three columns are solved together. Other entries of the vectors stay as they are. -/

namespace PolyProjection

set_option linter.unusedSectionVars false

variable {K : Type} [ExactScalar K]

namespace LdlFactor

/-- The columns of a factor of `n` rows below the diagonal, each by its rows in order and their values, and the
diagonal. -/
structure ListsColumns (f : LdlFactor K) (n : ℕ) (column : ℕ → List ℕ) (l : ℕ → ℕ → K) (d : ℕ → K) : Prop where
  live : ∀ j < n, f.live j = .ok ((column j).map fun i => (i, l i j))
  diag : ∀ j < n, fetch f.diag j = .ok (d j)
  ascending : ∀ j, (column j).Pairwise (· < ·)
  lt : ∀ j, ∀ i ∈ column j, j < i ∧ i < n

/-- The columns of a factor without zeros on the diagonal. -/
structure HasColumns (f : LdlFactor K) (n : ℕ) (column : ℕ → List ℕ) (l : ℕ → ℕ → K) (d : ℕ → K) : Prop extends
    ListsColumns f n column l d where
  pivot : ∀ j < n, d j ≠ 0

/-- The first rows of a list belong to a chain of columns. -/
def Chains (column : ℕ → List ℕ) : ChainLength → List ℕ → Prop
  | .one, _ => True
  | .two, js => ∃ j k rest, js = j :: k :: rest ∧ column j = k :: column k
  | .three, js => ∃ j k m rest, js = j :: k :: m :: rest ∧ column j = k :: column k ∧ column k = m :: column m

variable {f : LdlFactor K} {rows : IndexList} {n top bottom mark j k : ℕ} {column : ℕ → List ℕ} {l : ℕ → ℕ → K}
  {d : ℕ → K} {inner done rest : List ℕ} {ξ ξ' υ υ' : ℕ → K}

section Chains

variable (h : f.ListsColumns n column l d)

include h

theorem ListsColumns.continues_eq (hj : j < n) (hk : k < n) :
    f.continues j k = .ok (decide (column j = k :: column k)) := by
  have hrows : ∀ c, ((column c).map fun i => (i, l i c)).map Prod.fst = column c := fun c => by
    rw [List.map_map]
    exact List.map_id _
  rw [continues, h.live j hj, ok_bind, h.live k hk, ok_bind, hrows, hrows, beq_eq_decide]
  rfl

/-- A chain that is detected is one. -/
theorem ListsColumns.detectChain_ok (hw : Window rows n top bottom (done ++ j :: rest)) :
    ∃ c, f.detectChain rows j bottom = .ok c ∧ Chains column c (j :: rest) := by
  have hlt : ∀ i ∈ done ++ j :: rest, i < n := fun i hi => (hw.between i hi).2.trans_le hw.le
  rw [detectChain, hw.nextBelow_eq, ok_bind]
  cases rest with
  | nil => exact ⟨.one, rfl, trivial⟩
  | cons k rest =>
      simp only [List.head?_cons]
      rw [h.continues_eq (hlt j (by simp)) (hlt k (by simp)), ok_bind]
      by_cases hjk : column j = k :: column k
      · have hw' : Window rows n top bottom ((done ++ [j]) ++ k :: rest) := by simpa using hw
        rw [decide_eq_true hjk]
        simp only [Bool.not_true, Bool.false_eq_true, if_false, hw'.nextBelow_eq, ok_bind]
        cases rest with
        | nil => exact ⟨.two, rfl, j, k, [], rfl, hjk⟩
        | cons m rest =>
            simp only [List.head?_cons]
            rw [h.continues_eq (hlt k (by simp)) (hlt m (by simp)), ok_bind]
            by_cases hkm : column k = m :: column m
            · rw [decide_eq_true hkm]
              exact ⟨.three, rfl, j, k, m, rest, rfl, hjk, hkm⟩
            · rw [decide_eq_false hkm]
              exact ⟨.two, rfl, j, k, m :: rest, rfl, hjk⟩
      · rw [decide_eq_false hjk]
        exact ⟨.one, rfl, trivial⟩

end Chains

/-- What is left of `ξ` once column `j` is solved for: the rows of the column that do not come before `mark` lose their
part. -/
def pass (column : ℕ → List ℕ) (l : ℕ → ℕ → K) (bottom mark : ℕ) (ξ : ℕ → K) (j : ℕ) : ℕ → K :=
  fun i => if i ∈ column j ∧ mark ≤ i ∧ i < bottom then ξ i - l i j * ξ j else ξ i

/-- The rows of a list that come before `bottom` lose their shares. -/
def lose (bottom : ℕ) (is : List ℕ) (g ξ : ℕ → K) : ℕ → K :=
  fun i => if i ∈ is ∧ i < bottom then ξ i - g i else ξ i

section Lose

variable {is : List ℕ} {g g' : ℕ → K}

theorem pass_eq_lose : pass column l bottom 0 ξ j = lose bottom (column j) (fun i => l i j * ξ j) ξ := by
  funext i
  simp only [pass, lose, Nat.zero_le, true_and]

theorem lose_of_not_mem {i : ℕ} (hi : i ∉ is) : lose bottom is g ξ i = ξ i :=
  if_neg fun hall => hi hall.1

theorem lose_lose : lose bottom is g' (lose bottom is g ξ) = lose bottom is (fun i => g i + g' i) ξ := by
  funext i
  simp only [lose]
  split_ifs
  · rw [sub_sub]
  · rfl

theorem lose_cons (hk : k ∉ is) (hkb : k < bottom) :
    lose bottom (k :: is) g ξ = lose bottom is g (Function.update ξ k (ξ k - g k)) := by
  funext i
  by_cases hik : i = k
  · subst hik
    rw [lose_of_not_mem hk, Function.update_self, lose, if_pos ⟨List.mem_cons_self, hkb⟩]
  · simp only [lose, List.mem_cons, hik, false_or, Function.update_of_ne hik]

variable (hjk : column j = k :: column k) (hk : k ∉ column k) (hkb : k < bottom)

include hjk hk hkb

/-- Column `j` and column `k`, of which the rows follow in column `j`, are passed at once. -/
theorem pass_pass : pass column l bottom 0 (pass column l bottom 0 ξ j) k =
    lose bottom (column k) (fun i => l i j * ξ j + l i k * (ξ k - l k j * ξ j))
      (Function.update ξ k (ξ k - l k j * ξ j)) := by
  rw [pass_eq_lose (j := j), hjk, lose_cons hk hkb, pass_eq_lose, lose_of_not_mem hk, Function.update_self, lose_lose]

/-- And so is a third one. -/
theorem pass_pass_pass {m : ℕ} (hkm : column k = m :: column m) (hm : m ∉ column m) (hmb : m < bottom) :
    pass column l bottom 0 (pass column l bottom 0 (pass column l bottom 0 ξ j) k) m =
      lose bottom (column m)
        (fun i => l i j * ξ j + l i k * (ξ k - l k j * ξ j) + l i m *
          (Function.update ξ k (ξ k - l k j * ξ j) m - (l m j * ξ j + l m k * (ξ k - l k j * ξ j))))
        (Function.update (Function.update ξ k (ξ k - l k j * ξ j)) m
          (Function.update ξ k (ξ k - l k j * ξ j) m - (l m j * ξ j + l m k * (ξ k - l k j * ξ j)))) := by
  rw [pass_pass hjk hk hkb, hkm, lose_cons hm hmb, pass_eq_lose, lose_of_not_mem hm, Function.update_self, lose_lose]

end Lose

theorem mem_takeWhile_lt {is : List ℕ} (his : is.Pairwise (· < ·)) {i : ℕ} :
    i ∈ is.takeWhile (fun i => decide (i < bottom)) ↔ i ∈ is ∧ i < bottom := by
  have hfilter := takeWhile_lt_eq_filter (f := id) (by rw [List.map_id]; exact his) bottom
  simp only [id_eq] at hfilter
  rw [hfilter, List.mem_filter, decide_eq_true_eq]

/-- Rows from `bottom` on are left out of the first column only. -/
theorem zip_takeWhile_map {β γ : Type} (is : List ℕ) (v : ℕ → β) (w : ℕ → γ) :
    ((is.takeWhile fun i => decide (i < bottom)).map v).zip (is.map w) =
      (is.takeWhile fun i => decide (i < bottom)).map fun i => (v i, w i) := by
  induction is with
  | nil => rfl
  | cons i is ih =>
      rw [List.takeWhile_cons]
      split_ifs
      · simp only [List.map_cons, List.zip_cons_cons, ih]
      · rfl

section Columns

variable {is : List ℕ} (v w z : ℕ → K) (x1 x2 x3 : K) (his : is.Pairwise (· < ·)) (hn : ∀ i ∈ is, i < n)

include his hn

/-- A loop over the rows of a column before `bottom`. -/
theorem foldlM_before_table (g : ℕ → K) :
    (is.takeWhile fun i => decide (i < bottom)).foldlM (fun x i => adjust x i (· - g i)) (table n ξ) =
      .ok (table n (lose bottom is g ξ)) := by
  have hsub : (is.takeWhile fun i => decide (i < bottom)).Sublist is := List.takeWhile_sublist _
  rw [foldlM_adjust_table (fun i x => x - g i) ((his.sublist hsub).imp Nat.ne_of_lt) fun i hi => hn i (hsub.subset hi)]
  refine congrArg Except.ok (table_congr fun i _ => ?_)
  simp only [mem_takeWhile_lt his, lose]

theorem subtractOne_table : subtractOne x1 (before bottom (is.map fun i => (i, v i))) (table n ξ) =
    .ok (table n (lose bottom is (fun i => v i * x1) ξ)) := by
  rw [subtractOne, before, List.takeWhile_map, List.foldlM_map]
  exact foldlM_before_table his hn _

theorem subtractTwo_table : subtractTwo x1 x2 (before bottom (is.map fun i => (i, v i))) (is.map fun i => (i, w i))
    (table n ξ) = .ok (table n (lose bottom is (fun i => v i * x1 + w i * x2) ξ)) := by
  rw [subtractTwo, before, List.takeWhile_map]
  simp only [Function.comp_def]
  rw [zip_takeWhile_map, List.foldlM_map]
  exact foldlM_before_table his hn _

theorem subtractThree_table : subtractThree x1 x2 x3 (before bottom (is.map fun i => (i, v i)))
    (is.map fun i => (i, w i)) (is.map fun i => (i, z i)) (table n ξ) =
      .ok (table n (lose bottom is (fun i => v i * x1 + w i * x2 + z i * x3) ξ)) := by
  rw [subtractThree, before, List.takeWhile_map, List.zip_map']
  simp only [Function.comp_def]
  rw [zip_takeWhile_map, List.foldlM_map]
  exact foldlM_before_table his hn _

end Columns

theorem pass_zero_eq (hj : mark ≤ j) (hlt : ∀ i ∈ column j, j < i) :
    pass column l bottom 0 ξ j = pass column l bottom mark ξ j := by
  funext i
  rw [pass, pass]
  refine if_congr ⟨fun hi => ⟨hi.1, hj.trans (hlt i hi.1).le, hi.2.2⟩, fun hi => ⟨hi.1, Nat.zero_le i, hi.2.2⟩⟩ rfl rfl

section Forward

variable (h : f.ListsColumns n column l d)

include h

/-- The columns of a chain are passed one after the other. -/
theorem ListsColumns.forwardChain_ok (hw : Window rows n top bottom (done ++ j :: rest)) :
    ∃ chain last left, j :: rest = chain ++ last :: left ∧ f.forwardChain rows bottom (table n ξ) j =
      .ok (table n ((chain ++ [last]).foldl (pass column l bottom 0) ξ), last) := by
  have hlt : ∀ i ∈ done ++ j :: rest, i < n := fun i hi => (hw.between i hi).2.trans_le hw.le
  have hbottom : ∀ i ∈ done ++ j :: rest, i < bottom := fun i hi => (hw.between i hi).2
  have hself : ∀ c, c ∉ column c := fun c hc => lt_irrefl c (h.lt c c hc).1
  obtain ⟨c, hdetect, hchain⟩ := h.detectChain_ok hw
  rw [forwardChain, h.live j (hlt j (by simp)), ok_bind, fetch_table (hlt j (by simp)), ok_bind, hdetect, ok_bind]
  cases c with
  | one =>
      refine ⟨[], j, rest, rfl, ?_⟩
      simp only []
      rw [subtractOne_table _ _ (h.ascending j) fun i hi => (h.lt j i hi).2, ok_bind]
      exact congrArg (fun ξ => Except.ok (table n ξ, j)) pass_eq_lose.symm
  | two =>
      obtain ⟨_, k, rest, heq, hjk⟩ := hchain
      obtain ⟨rfl, rfl⟩ := List.cons.inj heq
      have hkn : k < n := hlt k (by simp)
      refine ⟨[j], k, rest, rfl, ?_⟩
      simp only [hjk, List.map_cons, h.live k hkn, ok_bind, adjust_table _ hkn, fetch_table hkn, Function.update_self]
      rw [subtractTwo_table _ _ _ _ (h.ascending k) fun i hi => (h.lt k i hi).2, ok_bind]
      exact congrArg (fun ξ => Except.ok (table n ξ, k)) (pass_pass hjk (hself k) (hbottom k (by simp))).symm
  | three =>
      obtain ⟨_, k, m, rest, heq, hjk, hkm⟩ := hchain
      obtain ⟨rfl, rfl⟩ := List.cons.inj heq
      have hkn : k < n := hlt k (by simp)
      have hmn : m < n := hlt m (by simp)
      refine ⟨[j, k], m, rest, rfl, ?_⟩
      simp only [hjk, hkm, List.map_cons, h.live k hkn, h.live m hmn, ok_bind, adjust_table _ hkn, adjust_table _ hmn,
        fetch_table hkn, fetch_table hmn, Function.update_self]
      rw [subtractThree_table _ _ _ _ _ _ (h.ascending m) fun i hi => (h.lt m i hi).2, ok_bind]
      exact congrArg (fun ξ => Except.ok (table n ξ, m))
        (pass_pass_pass hjk (hself k) (hbottom k (by simp)) hkm (hself m) (hbottom m (by simp))).symm

/-- A column before the mark only changes rows from the mark on. -/
theorem ListsColumns.subtract_marked (j : ℕ) :
    subtractOne (ξ j) (before bottom (((column j).map fun i => (i, l i j)).dropWhile (·.1 < mark))) (table n ξ) =
      .ok (table n (pass column l bottom mark ξ j)) := by
  have hasc := h.ascending j
  have hdrop : (column j).dropWhile (fun i => decide (i < mark)) = (column j).filter fun i => decide (mark ≤ i) :=
    dropWhile_lt_eq_filter (f := id) (by rw [List.map_id]; exact hasc) mark
  rw [List.dropWhile_map]
  simp only [Function.comp_def]
  rw [hdrop, subtractOne_table _ _ (hasc.filter _) fun i hi => (h.lt j i (List.mem_of_mem_filter hi)).2]
  refine congrArg Except.ok (table_congr fun i _ => ?_)
  simp only [pass, lose, List.mem_filter, decide_eq_true_eq, and_assoc]

theorem ListsColumns.forwardFrom_ok (mark : ℕ) {steps : ℕ} (hw : Window rows n top bottom (done ++ rest))
    (hsteps : rest.length ≤ steps) : f.forwardFrom rows bottom mark steps (table n ξ) rest.head? =
      .ok (table n (rest.foldl (pass column l bottom mark) ξ)) := by
  induction steps generalizing done rest ξ with
  | zero =>
      rw [List.eq_nil_of_length_eq_zero (Nat.le_zero.1 hsteps)]
      rfl
  | succ steps ih =>
      cases rest with
      | nil => rfl
      | cons j rest =>
          have hj : j < n := (hw.between j (by simp)).2.trans_le hw.le
          rw [List.head?_cons, forwardFrom]
          by_cases hmark : j < mark
          · have hw' : Window rows n top bottom ((done ++ [j]) ++ rest) := by simpa using hw
            rw [if_pos hmark, fetch_table hj, ok_bind, h.live j hj, ok_bind, h.subtract_marked j, ok_bind, pure_bind_ok]
            exact bind_eq_ok_iff.2 ⟨_, hw.nextBelow_eq, ih hw' (by simpa using hsteps)⟩
          · obtain ⟨chain, last, left, hsplit, hok⟩ := h.forwardChain_ok (ξ := ξ) hw
            have hasc := (List.pairwise_cons.1 (List.pairwise_append.1 hw.ascending).2.1).1
            have hmarked : ∀ i ∈ chain ++ [last], mark ≤ i := by
              intro i hi
              have hmem : i ∈ j :: rest := by
                rw [hsplit, List.append_cons]
                exact List.mem_append_left left hi
              rcases List.mem_cons.1 hmem with rfl | hmem
              · exact not_lt.1 hmark
              · exact (not_lt.1 hmark).trans (hasc i hmem).le
            rw [hsplit] at hw hsteps ⊢
            have hpass : (chain ++ [last]).foldl (pass column l bottom 0) ξ =
                (chain ++ [last]).foldl (pass column l bottom mark) ξ :=
              List.foldl_ext _ _ _ fun ζ i hi => pass_zero_eq (hmarked i hi) fun k hk => (h.lt i k hk).1
            rw [if_neg hmark, hok, ok_bind, hpass]
            have hnext : Window rows n top bottom ((done ++ chain) ++ last :: left) := by simpa using hw
            have hleft : Window rows n top bottom ((done ++ chain ++ [last]) ++ left) := by simpa using hw
            refine bind_eq_ok_iff.2 ⟨_, hnext.nextBelow_eq, ?_⟩
            rw [ih hleft ?_, ← List.foldl_append]
            · simp
            · simp only [List.length_append, List.length_cons] at hsteps
              omega

theorem ListsColumns.forwardSolve_ok (mark : Option ℕ) (hw : Window rows n top bottom inner) :
    f.forwardSolve rows (table n ξ) top bottom mark =
      .ok (table n (inner.foldl (pass column l bottom (mark.getD 0)) ξ)) := by
  have hw' : Window rows n top bottom ([] ++ inner) := hw
  rw [forwardSolve, hw.seek_eq, ok_bind]
  exact h.forwardFrom_ok (mark.getD 0) hw' (hw.length_le.trans (Nat.le_succ _))

end Forward

/-- Row `j` is solved for, given the rows after it. -/
def solveRow (column : ℕ → List ℕ) (l : ℕ → ℕ → K) (d y : ℕ → K) (bottom j : ℕ) (υ : ℕ → K) : ℕ → K :=
  Function.update υ j (y j / d j - (((column j).takeWhile fun i => decide (i < bottom)).map fun i => l i j * υ i).sum)

/-- The inner product of a column with `υ` over the rows before `bottom`. -/
def dotBefore (bottom : ℕ) (is : List ℕ) (v υ : ℕ → K) : K :=
  ((is.takeWhile fun i => decide (i < bottom)).map fun i => v i * υ i).sum

section Dots

variable {is : List ℕ} (v w z : ℕ → K) (hn : ∀ i ∈ is, i < n)

include hn

/-- A sum over the rows of a column before `bottom`. -/
theorem foldlM_dot_table {σ : Type} [AddMonoid σ] (g : ℕ → K → σ) (s : σ) :
    (is.takeWhile fun i => decide (i < bottom)).foldlM (fun s i => do return s + g i (← fetch (table n υ) i)) s =
      (.ok (s + ((is.takeWhile fun i => decide (i < bottom)).map fun i => g i (υ i)).sum) : Checked σ) := by
  have hlt : ∀ i ∈ is.takeWhile fun i => decide (i < bottom), i < n := fun i hi =>
    hn i ((List.takeWhile_sublist _).subset hi)
  generalize is.takeWhile (fun i => decide (i < bottom)) = ks at hlt
  induction ks generalizing s with
  | nil => simp [pure, Except.pure]
  | cons i ks ih =>
      rw [List.foldlM_cons, fetch_table (hlt i List.mem_cons_self), ok_bind, pure_bind_ok, List.map_cons, List.sum_cons,
        ← add_assoc]
      exact ih _ fun k hk => hlt k (List.mem_cons_of_mem i hk)

theorem dotOne_table : dotOne (before bottom (is.map fun i => (i, v i))) (table n υ) =
    .ok (dotBefore bottom is v υ) := by
  rw [dotOne, before, List.takeWhile_map, List.foldlM_map]
  exact (foldlM_dot_table hn (fun i x => v i * x) 0).trans (congrArg Except.ok (zero_add _))

theorem dotTwo_table : dotTwo (before bottom (is.map fun i => (i, v i))) (is.map fun i => (i, w i)) (table n υ) =
    .ok (dotBefore bottom is v υ, dotBefore bottom is w υ) := by
  rw [dotTwo, before, List.takeWhile_map]
  simp only [Function.comp_def]
  rw [zip_takeWhile_map, List.foldlM_map]
  refine (foldlM_dot_table hn (fun i x => (v i * x, w i * x)) 0).trans (congrArg Except.ok ?_)
  rw [zero_add]
  refine Prod.ext ?_ ?_
  · exact (map_list_sum (AddMonoidHom.fst K K) _).trans (congrArg List.sum (List.map_map ..))
  · exact (map_list_sum (AddMonoidHom.snd K K) _).trans (congrArg List.sum (List.map_map ..))

theorem dotThree_table : dotThree (before bottom (is.map fun i => (i, v i))) (is.map fun i => (i, w i))
    (is.map fun i => (i, z i)) (table n υ) =
      .ok (dotBefore bottom is v υ, dotBefore bottom is w υ, dotBefore bottom is z υ) := by
  rw [dotThree, before, List.takeWhile_map, List.zip_map']
  simp only [Function.comp_def]
  rw [zip_takeWhile_map, List.foldlM_map]
  refine (foldlM_dot_table hn (fun i x => (v i * x, w i * x, z i * x)) 0).trans (congrArg Except.ok ?_)
  rw [zero_add]
  refine Prod.ext ?_ (Prod.ext ?_ ?_)
  · exact (map_list_sum (AddMonoidHom.fst K (K × K)) _).trans (congrArg List.sum (List.map_map ..))
  · exact (map_list_sum ((AddMonoidHom.fst K K).comp (AddMonoidHom.snd K (K × K))) _).trans
      (congrArg List.sum (List.map_map ..))
  · exact (map_list_sum ((AddMonoidHom.snd K K).comp (AddMonoidHom.snd K (K × K))) _).trans
      (congrArg List.sum (List.map_map ..))

end Dots

theorem dotBefore_cons {is : List ℕ} {v : ℕ → K} (hj : j < bottom) :
    dotBefore bottom (j :: is) v υ = v j * υ j + dotBefore bottom is v υ := by
  rw [dotBefore, List.takeWhile_cons, if_pos (decide_eq_true hj), List.map_cons, List.sum_cons, dotBefore]

/-- A row that is not in a column does not matter to it. -/
theorem dotBefore_update {is : List ℕ} {v : ℕ → K} (x : K) (hj : j ∉ is) :
    dotBefore bottom is v (Function.update υ j x) = dotBefore bottom is v υ := by
  refine congrArg List.sum (List.map_congr_left fun i hi => ?_)
  have hij : i ≠ j := fun hij => hj (hij ▸ (List.takeWhile_sublist _).subset hi)
  rw [Function.update_of_ne hij]

theorem solveRow_eq {y : ℕ → K} : solveRow column l d y bottom j υ =
    Function.update υ j (y j / d j - dotBefore bottom (column j) (fun i => l i j) υ) :=
  rfl

section Solve

variable {y : ℕ → K} (hkj : column k = j :: column j) (hj : j ∉ column j) (hjb : j < bottom)

include hkj hj hjb

/-- Rows `j` and `k` are solved for at once if the rows of column `j` follow in column `k`. -/
theorem solveRow_solveRow {x : K} (hx : x = y j / d j - dotBefore bottom (column j) (fun i => l i j) υ) :
    solveRow column l d y bottom k (solveRow column l d y bottom j υ) = Function.update (Function.update υ j x) k
      (y k / d k - dotBefore bottom (column j) (fun i => l i k) υ - l j k * x) := by
  rw [solveRow_eq (j := j), ← hx, solveRow_eq, hkj, dotBefore_cons hjb, Function.update_self, dotBefore_update _ hj]
  congr 1
  ring

/-- And so is a third one. -/
theorem solveRow_solveRow_solveRow {i : ℕ} {x z : K} (hik : column i = k :: column k) (hk : k ∉ column j) (hkne : k ≠ j)
    (hkb : k < bottom) (hx : x = y j / d j - dotBefore bottom (column j) (fun i => l i j) υ)
    (hz : z = y k / d k - dotBefore bottom (column j) (fun i => l i k) υ - l j k * x) :
    solveRow column l d y bottom i (solveRow column l d y bottom k (solveRow column l d y bottom j υ)) =
      Function.update (Function.update (Function.update υ j x) k z) i
        (y i / d i - dotBefore bottom (column j) (fun c => l c i) υ - l k i * z - l j i * x) := by
  rw [solveRow_solveRow hkj hj hjb hx, ← hz, solveRow_eq, hik, dotBefore_cons hkb, hkj, dotBefore_cons hjb,
    Function.update_self, Function.update_of_ne hkne.symm, Function.update_self, dotBefore_update _ hk,
    dotBefore_update _ hj]
  congr 1
  ring

end Solve

/-- The last rows of a list belong to a chain of columns. -/
def EndsChain (column : ℕ → List ℕ) : ChainEnd → List ℕ → Prop
  | .one, _ => True
  | .two j, js => ∃ left k, js = left ++ [j, k] ∧ column j = k :: column k
  | .three j k, js => ∃ left m, js = left ++ [j, k, m] ∧ column j = k :: column k ∧ column k = m :: column m

section Backward

variable (h : f.ListsColumns n column l d)

include h

/-- A chain that is found from its end is one. -/
theorem ListsColumns.chainEnding_ok (hw : Window rows n top bottom (done ++ j :: rest)) :
    ∃ c, f.chainEnding rows top bottom j = .ok c ∧ EndsChain column c (done ++ [j]) := by
  rw [chainEnding, hw.prevFrom_eq, ok_bind]
  rcases List.eq_nil_or_concat done with rfl | ⟨done, k, rfl⟩
  · exact ⟨.one, rfl, trivial⟩
  rw [List.concat_eq_append, List.append_assoc] at hw
  have hw' : Window rows n top bottom (done ++ k :: j :: rest) := by simpa using hw
  obtain ⟨c, hdetect, hchain⟩ := h.detectChain_ok hw'
  have hprev := hw'.prevFrom_eq
  have hlast : c ≠ .one → column k = j :: column j := by
    intro hc
    cases c with
    | one => exact absurd rfl hc
    | two =>
        obtain ⟨_, _, _, heq, hkj⟩ := hchain
        simp only [List.cons.injEq] at heq
        obtain ⟨rfl, rfl, -⟩ := heq
        exact hkj
    | three =>
        obtain ⟨_, _, _, _, heq, hkj, -⟩ := hchain
        simp only [List.cons.injEq] at heq
        obtain ⟨rfl, rfl, -⟩ := heq
        exact hkj
  have htwo : ∃ c', (if c ≠ .one then pure (ChainEnd.two k) else pure ChainEnd.one : Checked ChainEnd) = .ok c' ∧
      EndsChain column c' (done ++ [k] ++ [j]) := by
    by_cases hc : c = .one
    · exact ⟨.one, if_neg (not_not.2 hc), trivial⟩
    · exact ⟨.two k, if_pos hc, done, j, by simp, hlast hc⟩
  simp only [List.concat_eq_append, List.getLast?_append, List.getLast?_singleton, Option.some_or, hprev, ok_bind,
    hdetect]
  rcases List.eq_nil_or_concat done with rfl | ⟨done, i, rfl⟩
  · exact htwo
  have hw'' : Window rows n top bottom (done ++ i :: k :: j :: rest) := by simpa using hw
  obtain ⟨c', hdetect', hchain'⟩ := h.detectChain_ok hw''
  simp only [List.concat_eq_append, List.getLast?_append, List.getLast?_singleton, Option.some_or, hdetect', ok_bind]
  cases c' with
  | one => simpa using htwo
  | two => simpa using htwo
  | three =>
      obtain ⟨_, _, _, _, heq, hik, hkj⟩ := hchain'
      simp only [List.cons.injEq] at heq
      obtain ⟨rfl, rfl, rfl, -⟩ := heq
      exact ⟨.three i k, if_pos rfl, done, j, by simp, hik, hkj⟩

theorem ListsColumns.scaledEntry_ok (hj : j < n) (hpivot : d j ≠ 0) :
    f.scaledEntry (table n ξ) j = .ok (ξ j / d j) := by
  rw [scaledEntry, fetch_table hj, ok_bind, h.diag j hj, ok_bind, ExactScalar.quotient_of_ne_zero hpivot]

/-- The rows of a chain are solved for one after the other, from the last one on. -/
theorem ListsColumns.backChain_ok (hw : Window rows n top bottom (done ++ j :: rest))
    (hpivot : ∀ i ∈ done ++ [j], d i ≠ 0) :
    ∃ left first chain, done ++ [j] = left ++ first :: chain ∧
      f.backChain rows (table n ξ) top bottom (table n υ) j =
        .ok (table n ((first :: chain).foldr (solveRow column l d ξ bottom) υ), first) := by
  have hlt : ∀ i ∈ done ++ [j], i < n := fun i hi =>
    (hw.between i (by simp only [List.mem_append, List.mem_cons] at hi ⊢; tauto)).2.trans_le hw.le
  have hbottom : ∀ i ∈ done ++ [j], i < bottom := fun i hi =>
    (hw.between i (by simp only [List.mem_append, List.mem_cons] at hi ⊢; tauto)).2
  have hj : j < n := hlt j (by simp)
  have hrows : ∀ k, ∀ i ∈ column k, i < n := fun k i hi => (h.lt k i hi).2
  have hself : ∀ c, c ∉ column c := fun c hc => lt_irrefl c (h.lt c c hc).1
  obtain ⟨c, hending, hchain⟩ := h.chainEnding_ok hw
  rw [backChain, h.live j hj, ok_bind, hending, ok_bind]
  cases c with
  | one =>
      refine ⟨done, j, [], rfl, ?_⟩
      simp only [h.scaledEntry_ok hj (hpivot j (by simp)), dotOne_table _ (hrows j), ok_bind, store_table _ hj]
      rfl
  | two k =>
      obtain ⟨left, m, heq, hkj⟩ := hchain
      have hsplit : done ++ [j] = (left ++ [k]) ++ [m] := heq.trans (List.append_cons left k [m])
      obtain ⟨rfl, hlast⟩ := List.append_inj' hsplit rfl
      obtain rfl := List.singleton_inj.1 hlast
      have hk : k < n := hlt k (by simp)
      refine ⟨left, k, [j], by simp, ?_⟩
      simp only [hkj, List.map_cons, h.live k hk, ok_bind, dotTwo_table _ _ (hrows j),
        h.scaledEntry_ok hj (hpivot j (by simp)), h.scaledEntry_ok hk (hpivot k (by simp)), store_table _ hj, store_table _ hk]
      exact congrArg (fun υ => Except.ok (table n υ, k))
        (solveRow_solveRow hkj (hself j) (hbottom j (by simp)) rfl).symm
  | three i k =>
      obtain ⟨left, m, heq, hik, hkj⟩ := hchain
      have hsplit : done ++ [j] = (left ++ [i, k]) ++ [m] := heq.trans (by simp)
      obtain ⟨rfl, hlast⟩ := List.append_inj' hsplit rfl
      obtain rfl := List.singleton_inj.1 hlast
      have hi : i < n := hlt i (by simp)
      have hk : k < n := hlt k (by simp)
      have hlt' : k < j := (h.lt k j (by rw [hkj]; exact List.mem_cons_self)).1
      refine ⟨left, i, [k, j], by simp, ?_⟩
      simp only [hik, hkj, List.map_cons, h.live i hi, h.live k hk, ok_bind, dotThree_table _ _ _ (hrows j),
        h.scaledEntry_ok hi (hpivot i (by simp)), h.scaledEntry_ok hj (hpivot j (by simp)),
        h.scaledEntry_ok hk (hpivot k (by simp)), store_table _ hi, store_table _ hj, store_table _ hk]
      exact congrArg (fun υ => Except.ok (table n υ, i)) (solveRow_solveRow_solveRow hkj (hself j) (hbottom j (by simp))
        hik (fun hmem => lt_asymm hlt' (h.lt j k hmem).1) hlt'.ne (hbottom k (by simp)) rfl rfl).symm

theorem ListsColumns.backFrom_ok {steps : ℕ} (hw : Window rows n top bottom (done ++ rest))
    (hpivot : ∀ i ∈ done, d i ≠ 0) (hsteps : done.length ≤ steps) :
    f.backFrom rows (table n ξ) top bottom steps (table n υ) done.getLast? =
      .ok (table n (done.foldr (solveRow column l d ξ bottom) υ)) := by
  induction steps generalizing done rest υ with
  | zero =>
      rw [List.eq_nil_of_length_eq_zero (Nat.le_zero.1 hsteps)]
      rfl
  | succ steps ih =>
      rcases List.eq_nil_or_concat done with rfl | ⟨done, j, rfl⟩
      · rfl
      · rw [List.concat_eq_append] at hw hsteps hpivot ⊢
        have hw' : Window rows n top bottom (done ++ j :: rest) := by simpa using hw
        obtain ⟨left, first, chain, hsplit, hok⟩ := h.backChain_ok (ξ := ξ) (υ := υ) hw' hpivot
        rw [hsplit] at hw hsteps ⊢
        have hlast : (left ++ first :: chain).getLast? = some j := by
          rw [← hsplit, List.getLast?_concat]
        rw [hlast, backFrom, hok, ok_bind]
        have hprev : Window rows n top bottom (left ++ first :: (chain ++ rest)) := by simpa using hw
        refine bind_eq_ok_iff.2 ⟨_, hprev.prevFrom_eq, ?_⟩
        rw [ih hprev (fun i hi => hpivot i (hsplit ▸ List.mem_append_left _ hi)) ?_, ← List.foldr_append]
        simp only [List.length_append, List.length_cons] at hsteps
        omega

theorem ListsColumns.backSolve_ok (hw : Window rows n top bottom inner) (hpivot : ∀ i ∈ inner, d i ≠ 0) :
    f.backSolve rows (table n ξ) (table n υ) top bottom =
      .ok (table n (inner.foldr (solveRow column l d ξ bottom) υ)) := by
  have hw' : Window rows n top bottom (inner ++ []) := by rwa [List.append_nil]
  rw [backSolve, hw.lastLinked_eq, ok_bind]
  exact h.backFrom_ok hw' hpivot (hw.length_le.trans (Nat.le_succ _))

end Backward

theorem foldr_solveRow_of_not_mem {y : ℕ → K} {i : ℕ} (hi : i ∉ inner) :
    inner.foldr (solveRow column l d y bottom) υ i = υ i := by
  induction inner with
  | nil => rfl
  | cons j inner ih =>
      rw [List.mem_cons, not_or] at hi
      rw [List.foldr_cons, solveRow, Function.update_of_ne hi.1, ih hi.2]

/-- A solve looks at the entries of its window only. -/
theorem foldl_pass_congr (hinner : ∀ j ∈ inner, top ≤ j ∧ j < bottom)
    (hξ : ∀ i, top ≤ i → i < bottom → ξ i = ξ' i) {i : ℕ} (htop : top ≤ i) (hbottom : i < bottom) :
    inner.foldl (pass column l bottom mark) ξ i = inner.foldl (pass column l bottom mark) ξ' i := by
  induction inner generalizing ξ ξ' with
  | nil => exact hξ i htop hbottom
  | cons j inner ih =>
      have hj := hinner j List.mem_cons_self
      rw [List.foldl_cons, List.foldl_cons]
      refine ih (fun k hk => hinner k (List.mem_cons_of_mem j hk)) fun k hk hkb => ?_
      rw [pass, pass, hξ k hk hkb, hξ j hj.1 hj.2]

section Solutions

variable (hlt : ∀ j, ∀ i ∈ column j, j < i)

include hlt

theorem foldl_pass_of_le {i : ℕ} (hi : ∀ j ∈ inner, i ≤ j) :
    inner.foldl (pass column l bottom mark) ξ i = ξ i := by
  induction inner generalizing ξ with
  | nil => rfl
  | cons j inner ih =>
      rw [List.foldl_cons, ih fun k hk => hi k (List.mem_cons_of_mem j hk), pass, if_neg]
      exact fun hall => absurd (hlt j i hall.1) (not_lt.2 (hi j List.mem_cons_self))

/-- The forward solution: each row has lost the parts of the rows before it. -/
theorem foldl_pass_eq (hinner : inner.Pairwise (· < ·)) (i : ℕ) :
    inner.foldl (pass column l bottom mark) ξ i = ξ i - (inner.map fun j =>
      if i ∈ column j ∧ mark ≤ i ∧ i < bottom then l i j * inner.foldl (pass column l bottom mark) ξ j else 0).sum := by
  induction inner generalizing ξ with
  | nil => simp
  | cons j inner ih =>
      rw [List.pairwise_cons] at hinner
      have hself : inner.foldl (pass column l bottom mark) (pass column l bottom mark ξ j) j = ξ j := by
        rw [foldl_pass_of_le hlt fun k hk => (hinner.1 k hk).le, pass, if_neg]
        exact fun hall => lt_irrefl j (hlt j j hall.1)
      rw [List.foldl_cons, List.map_cons, List.sum_cons, hself, ih hinner.2]
      conv_lhs => rw [pass]
      split_ifs <;> ring

/-- With its right-hand side or its solution, a row is solved for from the mark on as the rows before it are. -/
theorem foldl_pass_marked_step (hinner : inner.Pairwise (· < ·)) {i : ℕ}
    (hbefore : i < mark → ξ' i = inner.foldl (pass column l bottom 0) ξ i) (hafter : mark ≤ i → ξ' i = ξ i)
    (hrows : ∀ j ∈ inner, j < i →
      inner.foldl (pass column l bottom mark) ξ' j = inner.foldl (pass column l bottom 0) ξ j) :
    inner.foldl (pass column l bottom mark) ξ' i = inner.foldl (pass column l bottom 0) ξ i := by
  rw [foldl_pass_eq hlt hinner i]
  by_cases hi : mark ≤ i
  · rw [foldl_pass_eq hlt hinner i, hafter hi]
    congr 2
    refine List.map_congr_left fun j hmem => ?_
    by_cases hj : i ∈ column j ∧ i < bottom
    · rw [if_pos ⟨hj.1, hi, hj.2⟩, if_pos ⟨hj.1, Nat.zero_le i, hj.2⟩, hrows j hmem (hlt j i hj.1)]
    · rw [if_neg fun hall => hj ⟨hall.1, hall.2.2⟩, if_neg fun hall => hj ⟨hall.1, hall.2.2⟩]
  · rw [hbefore (not_le.1 hi)]
    simp [hi]

/-- With the solution before the mark and the right-hand side from the mark on, a solve from the mark on gives the whole
solution. -/
theorem foldl_pass_marked_of_mem (hinner : inner.Pairwise (· < ·))
    (hbefore : ∀ i ∈ inner, i < mark → ξ' i = inner.foldl (pass column l bottom 0) ξ i)
    (hafter : ∀ i ∈ inner, mark ≤ i → ξ' i = ξ i) {i : ℕ} (hi : i ∈ inner) :
    inner.foldl (pass column l bottom mark) ξ' i = inner.foldl (pass column l bottom 0) ξ i := by
  induction i using Nat.strong_induction_on with
  | _ i ih =>
      exact foldl_pass_marked_step hlt hinner (hbefore i hi) (hafter i hi) fun j hj hji => ih j hji hj

theorem foldl_pass_marked (hinner : inner.Pairwise (· < ·))
    (hbefore : ∀ i < mark, ξ' i = inner.foldl (pass column l bottom 0) ξ i) (hafter : ∀ i, mark ≤ i → ξ' i = ξ i)
    (i : ℕ) : inner.foldl (pass column l bottom mark) ξ' i = inner.foldl (pass column l bottom 0) ξ i :=
  foldl_pass_marked_step hlt hinner (hbefore i) (hafter i) fun _ hj _ =>
    foldl_pass_marked_of_mem hlt hinner (fun k _ => hbefore k) (fun k _ => hafter k) hj

theorem foldl_pass_outside (hinner : ∀ j ∈ inner, top ≤ j) {i : ℕ} (hi : i < top ∨ bottom ≤ i) :
    inner.foldl (pass column l bottom mark) ξ i = ξ i := by
  induction inner generalizing ξ with
  | nil => rfl
  | cons j inner ih =>
      have hj := hinner j List.mem_cons_self
      rw [List.foldl_cons, ih fun k hk => hinner k (List.mem_cons_of_mem j hk), pass, if_neg]
      rintro ⟨hmem, -, hib⟩
      have := hlt j i hmem
      omega

/-- The back solution: each row has lost the parts of the rows after it. -/
theorem foldr_solveRow_eq {y : ℕ → K} (hinner : inner.Pairwise (· < ·)) {j : ℕ} (hj : j ∈ inner) :
    inner.foldr (solveRow column l d y bottom) υ j = y j / d j -
      (((column j).takeWhile fun i => decide (i < bottom)).map fun i =>
        l i j * inner.foldr (solveRow column l d y bottom) υ i).sum := by
  induction inner with
  | nil => cases hj
  | cons k inner ih =>
      rw [List.pairwise_cons] at hinner
      rw [List.foldr_cons]
      rcases List.mem_cons.1 hj with rfl | hmem
      · conv_lhs => rw [solveRow, Function.update_self]
        exact congrArg (y j / d j - ·) (dotBefore_update _ fun hmem => lt_irrefl j (hlt j j hmem)).symm
      · have hkj := hinner.1 j hmem
        rw [solveRow, Function.update_of_ne hkj.ne']
        refine (ih hinner.2 hmem).trans (congrArg (y j / d j - ·) (dotBefore_update _ fun hk => ?_).symm)
        exact lt_asymm hkj (hlt j k hk)

theorem foldr_solveRow_congr {y y' : ℕ → K} (hinner : ∀ j ∈ inner, top ≤ j ∧ j < bottom)
    (hy : ∀ j, top ≤ j → j < bottom → y j = y' j) (hυ : ∀ i, top ≤ i → i < bottom → υ i = υ' i) {i : ℕ}
    (htop : top ≤ i) (hbottom : i < bottom) :
    inner.foldr (solveRow column l d y bottom) υ i = inner.foldr (solveRow column l d y' bottom) υ' i := by
  induction inner generalizing i with
  | nil => exact hυ i htop hbottom
  | cons j inner ih =>
      have hj := hinner j List.mem_cons_self
      have ih := fun i => ih (fun k hk => hinner k (List.mem_cons_of_mem j hk)) (i := i)
      rw [List.foldr_cons, List.foldr_cons, solveRow, solveRow]
      by_cases hij : i = j
      · rw [hij, Function.update_self, Function.update_self, hy j hj.1 hj.2]
        congr 2
        refine List.map_congr_left fun k hk => ?_
        have hmem := (List.takeWhile_sublist _).subset hk
        have hkb : k < bottom := by simpa using List.mem_takeWhile_imp hk
        rw [ih k (hj.1.trans (hlt j k hmem).le) hkb]
      · rw [Function.update_of_ne hij, Function.update_of_ne hij]
        exact ih i htop hbottom

end Solutions

end LdlFactor

end PolyProjection
