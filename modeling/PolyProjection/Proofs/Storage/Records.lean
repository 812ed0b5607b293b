import PolyProjection.Proofs.BlockTree
import PolyProjection.Proofs.Json.Codec
import PolyProjection.Storage.Problem

/-! What is stored and read back. Counts are kept as long as they are words, trees because they are computed anew
from what is stored of them, and bounds unless a finite one has a value that stands for an infinite one: then the
infinite one is read, which is stored as the same number. -/

namespace PolyProjection.Storage

open Json Json.Codec

/-! ### Bounds -/

/-- Numbers that are in order are in order with themselves. -/
theorem beq_self_of_le {v w : Float} (h : v ≤ w) : (v == v) = true ∧ (w == w) = true := by
  have hle : (v.toModel.unpack.compare w.toModel.unpack).any (·.isLE) = true := of_decide_eq_true h
  have hv : v.toModel.unpack ≠ .notANumber := by
    intro hnan
    rw [hnan] at hle
    simp [Float.Model.UnpackedFloat.compare] at hle
  have hw : w.toModel.unpack ≠ .notANumber := by
    intro hnan
    rw [hnan] at hle
    cases hcases : v.toModel.unpack
    all_goals simp [hcases, Float.Model.UnpackedFloat.compare] at hle
  exact ⟨(Float.Model.UnpackedFloat.beq_iff_ne_notANumber_and_eq _ _).2 ⟨hv, hv, .inl rfl⟩,
    (Float.Model.UnpackedFloat.beq_iff_ne_notANumber_and_eq _ _).2 ⟨hw, hw, .inl rfl⟩⟩

/-- The finite ends of an interval have a place in the order. -/
theorem not_isNaN_of_isInterval {l u : Bound Float} (h : l.isInterval u = true) {v : Float}
    (hv : l = .finite v ∨ u = .finite v) : Scalar.isNaN v = false := by
  cases l with
  | negInf =>
      cases u with
      | negInf => simp [Bound.isInterval] at h
      | posInf => simp at hv
      | finite w => simp_all [Bound.isInterval]
  | posInf => simp [Bound.isInterval] at h
  | finite w =>
      cases u with
      | negInf => simp [Bound.isInterval] at h
      | posInf => simp_all [Bound.isInterval]
      | finite w' =>
          obtain ⟨hlower, hupper⟩ := beq_self_of_le (of_decide_eq_true h)
          simp only [Bound.finite.injEq] at hv
          obtain rfl | rfl := hv
          · simp [Scalar.isNaN, hlower]
          · simp [Scalar.isNaN, hupper]

/-- A number that equals one other than zero is that number. -/
theorem eq_of_beq {v w : Float} (h : (v == w) = true) (hw : (w == 0) = false) : v = w := by
  have hzero : ∀ s, w.toModel.unpack ≠ .zero s := by
    intro s hs
    have hequal : (w == 0) = (Float.Model.UnpackedFloat.zero s).beq (0 : Float).toModel.unpack := by
      rw [← hs]
      rfl
    rw [hw] at hequal
    cases s
    all_goals exact absurd hequal (by decide +kernel)
  obtain ⟨-, -, hunpacked | ⟨-, hs⟩ | ⟨-, hs⟩⟩ := (Float.Model.UnpackedFloat.beq_iff_ne_notANumber_and_eq _ _).1 h
  · have hbits := (Float.Model.UnpackedFloat.unpack_inj_of_valid v.toModel.valid w.toModel.valid).1 hunpacked
    obtain ⟨⟨bits, hvalid⟩⟩ := v
    obtain ⟨⟨bits', hvalid'⟩⟩ := w
    obtain rfl := UInt64.toBitVec_inj.1 hbits
    rfl
  · exact absurd hs (hzero _)
  · exact absurd hs (hzero _)

/-- The bound that is read back. -/
def reread (b : Bound Float) : Bound Float :=
  boundOfFloat (boundToFloat b)

/-- A bound and what is read back of it are stored as the same number. -/
theorem boundToFloat_reread (b : Bound Float) : boundToFloat (reread b) = boundToFloat b := by
  unfold reread boundOfFloat
  split_ifs with hposInf hnegInf
  · exact (eq_of_beq hposInf (by decide +kernel)).symm
  · exact (eq_of_beq hnegInf (by decide +kernel)).symm
  · rfl

theorem reread_reread (b : Bound Float) : reread (reread b) = reread b := by
  rw [reread, boundToFloat_reread]
  rfl

/-- The bound is infinite, or finite and neither of the numbers that stand for infinite bounds. -/
def IsStorable (b : Bound Float) : Prop :=
  ∀ v, b = .finite v → (v == largest) = false ∧ (v == -largest) = false

theorem reread_of_storable {b : Bound Float} (h : IsStorable b) : reread b = b := by
  cases b with
  | negInf => decide +kernel
  | posInf => decide +kernel
  | finite v =>
      obtain ⟨hposInf, hnegInf⟩ := h v rfl
      simp [reread, boundToFloat, boundOfFloat, hposInf, hnegInf]

/-- The stored number of a bound is finite if the bound comes from a scalar with a place in the order. -/
theorem isFinite_boundToFloat {x : Float} (hx : ∀ v, Bound.ofScalar x = .finite v → Scalar.isNaN v = false) :
    Scalar.isFinite (boundToFloat (.ofScalar x)) = true := by
  cases hposInf : Scalar.isPosInf x with
  | true =>
      rw [Bound.ofScalar, if_pos hposInf]
      decide +kernel
  | false =>
      cases hnegInf : Scalar.isNegInf x with
      | true =>
          have hnegative : Bound.ofScalar x = .negInf := by simp [Bound.ofScalar, hposInf, hnegInf]
          rw [hnegative]
          decide +kernel
      | false =>
          have hfinite : Bound.ofScalar x = .finite x := by simp [Bound.ofScalar, hposInf, hnegInf]
          have hself := hx x hfinite
          rw [hfinite]
          simpa [boundToFloat, Scalar.isFinite, Scalar.isNaN, hposInf, hnegInf] using hself

/-- The number is read back from its text. -/
def IsKept (x : Float) : Prop :=
  float.ofText (float.write x) = .ok x

theorem keeps_bound {b : Bound Float} (h : IsKept (boundToFloat b)) : bound.Keeps (reread b) := by
  refine Keeps.via ?_ (congrArg some (reread_reread b))
  rw [boundToFloat_reread]
  exact keeps_float h

/-- Bounds have the text of what is read back of them. -/
theorem write_map_reread (bs : Array (Bound Float)) : (array bound).write (bs.map reread) = (array bound).write bs := by
  have hbound : ∀ b, bound.write (reread b) = bound.write b := fun b =>
    congrArg float.write (boundToFloat_reread b)
  simp only [Codec.array, ofArray, Array.toList_map, List.map_map]
  congr 3
  exact List.map_congr_left fun b _ => hbound b

/-! ### Matrices, settings and trees -/

theorem keeps_matrix {a : SparseMatrix Float} (hrows : a.nrows < UInt64.size) (hcols : a.ncols < UInt64.size)
    (hstarts : ∀ k ∈ a.colStart, k < UInt64.size) (hindices : ∀ i ∈ a.rowIndex, i < UInt64.size)
    (hvalues : ∀ v ∈ a.values, IsKept v) : matrix.Keeps a := by
  unfold matrix
  apply keeps_record
  · refine .cons (keeps_field (keeps_word64 hrows)) <| .cons (keeps_field (keeps_word64 hcols)) <|
      .cons (keeps_field (.array fun k hk => keeps_word64 (hstarts k hk))) <|
      .cons (keeps_field (.array fun i hi => keeps_word64 (hindices i hi))) <|
      .cons (keeps_field (.array fun v hv => keeps_float (hvalues v hv))) .nil
  · simp [field, IsPlain]
  · simp [field]
  · rfl

/-- The counts among the settings are words of their size. -/
structure SettingsFit (s : Settings Float) : Prop where
  maxSweeps : s.maxSweeps < UInt32.size
  maxOuterIter : s.maxOuterIter < UInt32.size
  printLevel : s.printLevel < UInt32.size

def settingsNumbers (s : Settings Float) : List Float :=
  [s.sigma, s.tolFeas, s.coorCost, s.ssorCost]

theorem keeps_settings {s : Settings Float} (hfit : SettingsFit s) (hkept : ∀ x ∈ settingsNumbers s, IsKept x) :
    settings.Keeps s := by
  simp only [settingsNumbers, List.forall_mem_cons] at hkept
  obtain ⟨hsigma, htol, hcoor, hssor, -⟩ := hkept
  unfold settings
  apply keeps_record
  · refine .cons (keeps_field (keeps_float hsigma)) <| .cons (keeps_field (keeps_bool _)) <|
      .cons (keeps_field (keeps_word32 hfit.maxSweeps)) <|
      .cons (keeps_field (keeps_word32 hfit.maxOuterIter)) <|
      .cons (keeps_field (keeps_float htol)) <| .cons (keeps_field (keeps_float hcoor)) <|
      .cons (keeps_field (keeps_float hssor)) <| .cons (keeps_field (keeps_bool _)) <|
      .cons (keeps_field (keeps_bool _)) <|
      .cons (keeps_field (keeps_word32 hfit.printLevel)) .nil
  · simp [field, IsPlain]
  · simp [field]
  · rfl

/-- A parent below the number that stands for none is kept. -/
theorem keeps_parent {p : Option Nat} (h : ∀ k, p = some k → k < noBlock) : parent.Keeps p := by
  refine Keeps.via (keeps_word64 ?_) ?_
  · cases p with
    | none => decide
    | some k => exact (h k rfl).trans (by decide)
  · cases p with
    | none => rfl
    | some k =>
        have hne : k ≠ noBlock := (h k rfl).ne
        simp [parentOfWord, hne]

/-- An accepted tree is computed from its parents and starts. -/
theorem ofParents_of_accepted {t : BlockTree} (h : t.Accepted) :
    BlockTree.ofParents t.parent t.rowStart t.colStart = .ok t := by
  obtain ⟨parents, rowStart, colStart, hok⟩ := h
  have hparts : t.parent = parents ∧ t.rowStart = rowStart ∧ t.colStart = colStart := by
    unfold BlockTree.ofParents at hok
    dsimp only at hok
    split_ifs at hok
    split at hok
    · cases hok
    · split at hok
      · cases hok
      · rw [← Except.ok.inj hok]
        exact ⟨rfl, rfl, rfl⟩
  obtain ⟨rfl, rfl, rfl⟩ := hparts
  exact hok

theorem keeps_tree {t : BlockTree} (h : t.Accepted) (hblocks : t.size < UInt64.size) (hrows : t.nrows < UInt64.size)
    (hcols : t.ncols < UInt64.size) : tree.Keeps t := by
  have htested := h.tested
  have hparents : ∀ p ∈ t.parent, ∀ k, p = some k → k < noBlock := by
    intro p hp k hk
    obtain ⟨b, hb⟩ := Array.getElem?_of_mem hp
    have hlt : b < t.size := (Array.getElem?_eq_some_iff.1 hb).1
    rcases Nat.lt_or_ge b (t.size - 1) with hinner | hlast
    · obtain ⟨q, hq, -, hsize⟩ := htested.parent_lt b hinner
      rw [hb, hk] at hq
      have hkq : k = q := by simpa using hq
      rw [hkq, noBlock]
      omega
    · have hroot := htested.root
      rw [show t.size - 1 = b by omega, hb, hk] at hroot
      simp at hroot
  have hrowStarts : ∀ i ∈ t.rowStart, i < UInt64.size := by
    intro i hi
    obtain ⟨b, hb⟩ := Array.getElem?_of_mem hi
    exact (htested.rowStart_le hb).trans_lt hrows
  have hcolStarts : ∀ j ∈ t.colStart, j < UInt64.size := by
    intro j hj
    obtain ⟨b, hb⟩ := Array.getElem?_of_mem hj
    exact (htested.colStart_le hb).trans_lt hcols
  refine Keeps.via ?_ (by simp [ofParents_of_accepted h, Except.toOption])
  unfold treeParts
  apply keeps_record
  · refine .cons (keeps_field (.array fun p hp => keeps_parent (hparents p hp))) <|
      .cons (keeps_field (.array fun i hi => keeps_word64 (hrowStarts i hi))) <|
      .cons (keeps_field (.array fun j hj => keeps_word64 (hcolStarts j hj))) .nil
  · simp [field, IsPlain]
  · simp [field]
  · rfl

end PolyProjection.Storage
