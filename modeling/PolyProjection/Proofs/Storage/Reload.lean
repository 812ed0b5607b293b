import PolyProjection.Proofs.Engine.Setup
import PolyProjection.Proofs.Problem
import PolyProjection.Proofs.Storage.Records
import PolyProjection.Proofs.Task

/-! Saved projections are loaded again. What is saved passes every test that the problem and the settings passed when
the projection was set up, because it is the same data, and no solve changes them. -/

namespace PolyProjection

set_option linter.unusedSectionVars false

variable {α σ : Type} [Scalar α]

/-- A matrix that has a transpose is small enough for its counts to be words. -/
theorem SparseMatrix.counts_of_transpose {a aT : SparseMatrix α} (h : a.check = .ok ()) (hT : a.transpose = .ok aT) :
    a.nrows < UInt64.size ∧ a.rowIndex.size < UInt64.size := by
  obtain ⟨nnz, hnnz, hT⟩ := bind_eq_ok_iff.1 hT
  obtain ⟨room, hroom, -⟩ := bind_eq_ok_iff.1 hT
  simp only [allocate, bind_eq_ok_iff, requireLength, require_eq_ok, decide_eq_true_eq] at hroom
  obtain ⟨_, hrows, _, hentries, -⟩ := hroom
  obtain ⟨-, ⟨-, hlast⟩, -⟩ := of_check h
  have hsize : nnz = a.rowIndex.size := by
    rw [SparseMatrix.nnz, fetch_eq_ok_iff, hlast, Option.some.injEq] at hnnz
    exact hnnz.symm
  have hwords : maxLength < UInt64.size := by decide
  omega

namespace Problem

/-- A problem over any scalars that was accepted, perhaps with its rows and columns put into the blocks of accepted
trees. -/
inductive Posed : Problem α → Prop where
  | create {a : SparseMatrix α} {bl bu lo hi : Array (Bound α)} {y : Array α} {p : Problem α} :
      Problem.create a bl bu lo hi y = .ok (.ok p) → Posed p
  | withBlockTree {p q : Problem α} {tree : BlockTree} : Posed p → tree.Accepted →
      p.withBlockTree tree = .ok (.ok q) → Posed q

variable {p q : Problem α}

/-- One block owns all rows and columns. -/
theorem Tested.withBlockTree_single (h : p.Tested) :
    p.withBlockTree (.single p.nrows p.ncols) = .ok (.ok p.undivided) := by
  have howner : ∀ n k, k < n → BlockTree.owner #[0, n] k = 0 := fun n k hk => by
    simp [BlockTree.owner, List.takeWhile, Nat.not_le.2 hk]
  have hdissected : ∀ j ∈ List.range p.ncols, isDissected p.a (.single p.nrows p.ncols) j = .ok true := by
    intro j hj
    have hj : j < p.ncols := List.mem_range.1 hj
    obtain ⟨c, hc, hentries⟩ := (SparseMatrix.fits_of_check h.check).column_ok hj
    have hrows : ∀ e ∈ c.toList, BlockTree.isAncestorOrSelf (.single p.nrows p.ncols)
        (BlockTree.blockOfRow (.single p.nrows p.ncols) e.1) (BlockTree.blockOfCol (.single p.nrows p.ncols) j) =
        .ok true := by
      intro e he
      rw [hentries] at he
      have hi := SparseMatrix.row_lt_of_check h.check j e he
      have hrow : BlockTree.blockOfRow (.single p.nrows p.ncols) e.1 = 0 := howner p.nrows e.1 hi
      have hcol : BlockTree.blockOfCol (.single p.nrows p.ncols) j = 0 := howner p.ncols j hj
      rw [hrow, hcol]
      rfl
    rw [isDissected, hc, ok_bind, allM_of_forall hrows]
    simp
  have hnone : (List.range p.ncols).filterM (fun j => do
      return !(← isDissected p.a (.single p.nrows p.ncols) j)) = (.ok [] : Checked (List Nat)) := by
    rw [filterM_of_forall (p := fun _ => false) fun j hj => by rw [hdissected j hj]; rfl]
    simp
  unfold withBlockTree
  rw [if_neg (by simp [BlockTree.single, BlockTree.nrows, BlockTree.ncols, BlockTree.size]), hnone]
  rfl

theorem Posed.tested (h : p.Posed) : p.Tested := by
  induction h with
  | create h => exact (tested_of_create h).1
  | withBlockTree _ _ h ih =>
      rw [(of_withBlockTree h).1]
      exact ⟨ih.check, ih.transpose, ih.sizes, ih.rows, ih.cols, ih.point⟩

theorem Posed.tree (h : p.Posed) : p.tree.Accepted ∧ p.tree.nrows = p.nrows ∧ p.tree.ncols = p.ncols := by
  cases h with
  | create h =>
      rw [← (tested_of_create h).2]
      exact ⟨BlockTree.accepted_single _ _, rfl, rfl⟩
  | withBlockTree _ htree h =>
      obtain ⟨rfl, hsizes⟩ := of_withBlockTree h
      exact ⟨htree, hsizes⟩

/-- The tree of an accepted problem is accepted again. -/
theorem Posed.withBlockTree_eq (h : p.Posed) : p.undivided.withBlockTree p.tree = .ok (.ok p) := by
  cases h with
  | create h =>
      obtain ⟨htested, hp⟩ := tested_of_create h
      have htree : p.tree = .single p.nrows p.ncols := congrArg Problem.tree hp.symm
      have hagain := htested.withBlockTree_single
      rw [hp] at hagain
      rw [hp, htree]
      exact hagain
  | withBlockTree _ _ h =>
      obtain ⟨rfl, -⟩ := of_withBlockTree h
      exact h

/-- The bounds of the rows and columns. -/
def bounds (p : Problem α) : Array (Bound α) :=
  p.bl ++ p.bu ++ p.lo ++ p.hi

theorem not_isNaN_of_badInterval? {l u : Array (Bound Float)} (h : badInterval? l u = none) (hsize : l.size = u.size)
    {v : Float} (hv : Bound.finite v ∈ l ∨ Bound.finite v ∈ u) : Scalar.isNaN v = false := by
  have hends : ∃ (i : Nat) (b c : Bound Float), l[i]? = some b ∧ u[i]? = some c ∧ (b = .finite v ∨ c = .finite v) := by
    obtain hl | hu := hv
    · obtain ⟨i, hi, hv⟩ := Array.mem_iff_getElem.1 hl
      exact ⟨i, _, u[i], Array.getElem?_eq_getElem hi, Array.getElem?_eq_getElem (hsize ▸ hi), .inl hv⟩
    · obtain ⟨i, hi, hv⟩ := Array.mem_iff_getElem.1 hu
      exact ⟨i, l[i], _, Array.getElem?_eq_getElem (hsize ▸ hi), Array.getElem?_eq_getElem hi, .inr hv⟩
  obtain ⟨i, b, c, hb, hc, hfinite⟩ := hends
  exact Storage.not_isNaN_of_isInterval (isInterval_of_badInterval?_eq_none h hb hc) hfinite

/-- A finite bound of an accepted problem has a place in the order. -/
theorem Tested.not_isNaN {p : Problem Float} (h : p.Tested) {v : Float} (hv : Bound.finite v ∈ p.bounds) :
    Scalar.isNaN v = false := by
  obtain ⟨hbl, hbu, hlo, hhi, -⟩ := h.sizes
  simp only [bounds, Array.mem_append] at hv
  obtain ((hv | hv) | hv) | hv := hv
  · exact not_isNaN_of_badInterval? h.rows (hbl.trans hbu.symm) (.inl hv)
  · exact not_isNaN_of_badInterval? h.rows (hbl.trans hbu.symm) (.inr hv)
  · exact not_isNaN_of_badInterval? h.cols (hlo.trans hhi.symm) (.inl hv)
  · exact not_isNaN_of_badInterval? h.cols (hlo.trans hhi.symm) (.inr hv)

end Problem

namespace Projection

/-- A projection that was set up for the problem and the settings and may have solved since, with inner methods or
without. -/
inductive Arises (p : Problem α) (settings : Settings α) : Projection α σ → Prop where
  | create {s : Projection α σ} : Projection.create p settings = .ok (.ok s) → Arises p settings s
  | setInner {s : Projection α σ} (method : InnerMethod α σ) (state : σ) : Arises p settings s →
      Arises p settings { s with inner := some (method, state) }
  | solve {s s' : Projection α σ} {status : Status} : Arises p settings s → s.solve = .ok (status, s') →
      Arises p settings s'

variable {p : Problem α} {settings : Settings α} {s : Projection α σ}

theorem of_create (h : create p settings = .ok (.ok s)) :
    settings.validate = .ok () ∧ s.engine.task = (p, settings) := by
  obtain ⟨e, hengine, h⟩ := bind_eq_ok_iff.1 h
  cases e with
  | error _ => simp at h
  | ok e =>
      rw [pure_eq_ok_iff, Except.ok.injEq] at h
      subst h
      obtain ⟨hvalid, f, -, rfl⟩ := Engine.create_eq_ok_iff.1 hengine
      exact ⟨hvalid, rfl⟩

/-- A projection keeps what it was set up with, and another one can be set up with that. -/
theorem Arises.of (h : Arises p settings s) : s.engine.task = (p, settings) ∧ settings.validate = .ok () ∧
    ∃ t : Projection α σ, Projection.create p settings = .ok (.ok t) ∧ t.engine.task = (p, settings) := by
  induction h with
  | create h =>
      obtain ⟨hvalid, htask⟩ := of_create h
      exact ⟨htask, hvalid, _, h, htask⟩
  | setInner _ _ _ ih => exact ih
  | solve _ h ih => exact ⟨(task_solve h).trans ih.1, ih.2⟩

end Projection

namespace Storage

open Json Json.Codec

/-- Counts that the fields of a stored record have room for. -/
structure Fits (p : Problem Float) (settings : Settings Float) : Prop where
  ncols : p.ncols < UInt64.size
  blocks : p.tree.size < UInt64.size
  settings : SettingsFit settings

/-- The numbers that are written for a problem and settings. -/
def numbers (p : Problem Float) (settings : Settings Float) : List Float :=
  p.a.values.toList ++ p.bounds.toList.map boundToFloat ++ p.y.toList ++ settingsNumbers settings

variable {p : Problem Float} {settings : Settings Float} {s : Projection Float σ}

theorem isFinite_of_settings (h : settings.validate = .ok ()) {x : Float} (hx : x ∈ settingsNumbers settings) :
    Scalar.isFinite x = true := by
  have hall := Settings.validate_eq_ok_iff.1 h
  simp only [Settings.verdicts, Settings.isPositive, Settings.isNonnegative, List.forall_mem_cons,
    Bool.and_eq_true] at hall
  obtain ⟨⟨hsigma, -⟩, ⟨htol, -⟩, ⟨hcoor, -⟩, ⟨hssor, -⟩, -⟩ := hall
  simp only [settingsNumbers, List.mem_cons, List.not_mem_nil, or_false] at hx
  obtain rfl | rfl | rfl | rfl := hx
  all_goals assumption

/-- Only finite numbers are written. -/
theorem isFinite_of_numbers (hp : p.Tested) (hsettings : settings.validate = .ok ())
    (hbounds : ∀ b ∈ p.bounds, ∃ x, b = .ofScalar x) {x : Float} (hx : x ∈ numbers p settings) :
    Scalar.isFinite x = true := by
  simp only [numbers, List.mem_append, List.mem_map, Array.mem_toList_iff] at hx
  obtain ((hx | ⟨b, hb, rfl⟩) | hx) | hx := hx
  · obtain ⟨-, -, -, -, -, hvalues⟩ := SparseMatrix.of_check hp.check
    exact hvalues x hx
  · obtain ⟨y, rfl⟩ := hbounds b hb
    apply isFinite_boundToFloat
    intro v hv
    exact hp.not_isNaN (hv ▸ hb)
  · have hpoint := Array.findIdx?_eq_none_iff.1 hp.point x hx
    simpa using hpoint
  · exact isFinite_of_settings hsettings hx

/-- What is saved of a problem and settings, with the bounds that are read back. -/
def kept (p : Problem Float) (settings : Settings Float) : Saved :=
  ⟨p.a, p.bl.map reread, p.bu.map reread, p.lo.map reread, p.hi.map reread, p.y, p.tree, settings⟩

theorem keeps_kept (hp : p.Posed) (hfit : Fits p settings) (hkept : ∀ x ∈ numbers p settings, IsKept x) :
    saved.Keeps (kept p settings) := by
  have hcheck := hp.tested.check
  obtain ⟨hnrows, hnnz⟩ := SparseMatrix.counts_of_transpose hcheck hp.tested.transpose
  obtain ⟨-, ⟨-, hlast⟩, ⟨-, hchain⟩, hrows, -, -⟩ := SparseMatrix.of_check hcheck
  obtain ⟨htree, htreeRows, htreeCols⟩ := hp.tree
  simp only [numbers, List.forall_mem_append, List.forall_mem_map, Array.mem_toList_iff] at hkept
  obtain ⟨⟨⟨hvalues, hstored⟩, hpoint⟩, hnumbers⟩ := hkept
  have hstarts : ∀ k ∈ p.a.colStart, k < UInt64.size := by
    intro k hk
    obtain ⟨j, hj⟩ := Array.getElem?_of_mem hk
    have hj' := (Array.getElem?_eq_some_iff.1 hj).1
    have hsize := (SparseMatrix.fits_of_check hcheck).size_colStart
    exact (BlockTree.start_le_of_chain hchain (by omega) hj hlast).trans_lt hnnz
  have hmatrix : matrix.Keeps p.a :=
    keeps_matrix hnrows hfit.ncols hstarts (fun i hi => (hrows i hi).trans hnrows) hvalues
  have hbounds : ∀ bs : Array (Bound Float), (∀ b ∈ bs, b ∈ p.bounds) → (array bound).Keeps (bs.map reread) := by
    intro bs hbs
    apply Keeps.array
    intro c hc
    obtain ⟨b, hb, rfl⟩ := Array.mem_map.1 hc
    exact keeps_bound (hstored b (hbs b hb))
  have hblocks : tree.Keeps p.tree :=
    keeps_tree htree hfit.blocks (htreeRows ▸ hnrows) (htreeCols ▸ hfit.ncols)
  unfold saved
  apply keeps_record
  · refine .cons (keeps_field hmatrix) <| .cons (keeps_field (hbounds p.bl ?_)) <|
      .cons (keeps_field (hbounds p.bu ?_)) <| .cons (keeps_field (hbounds p.lo ?_)) <|
      .cons (keeps_field (hbounds p.hi ?_)) <|
      .cons (keeps_field (.array fun y hy => keeps_float (hpoint y hy))) <| .cons (keeps_field hblocks) <|
      .cons (keeps_field (keeps_settings hfit.settings hnumbers)) .nil
    all_goals
      intro b hb
      simp [Problem.bounds, hb]
  · simp [field, IsPlain]
  · simp [field]
  · rfl

/-- A saved projection is read with its data, but for the bounds that stand for infinite ones. -/
theorem ofText_save (hp : p.Posed) (hs : s.Arises p settings) (hfit : Fits p settings)
    (hscalars : ∀ b ∈ p.bounds, ∃ x, b = .ofScalar x)
    (hkept : ∀ x ∈ numbers p settings, Scalar.isFinite x = true → IsKept x) :
    saved.ofText (save s) = .ok (kept p settings) := by
  obtain ⟨htask, hsettings, -⟩ := hs.of
  have hproblem : s.engine.problem = p := congrArg Prod.fst htask
  have hsame : s.engine.settings = settings := congrArg Prod.snd htask
  have hwrite : save s = saved.write (kept p settings) := by
    simp only [save, saved, record, kept, field, List.map_cons, List.map_nil, write_map_reread, hproblem, hsame]
  rw [hwrite]
  apply Keeps.ofText
  apply keeps_kept hp hfit
  intro x hx
  exact hkept x hx (isFinite_of_numbers hp.tested hsettings hscalars hx)

instance (x : Float) : Decidable (IsKept x) :=
  inferInstanceAs (Decidable (float.ofText (float.write x) = .ok x))

theorem storable_infinite {b : Bound Float} (h : b = .negInf ∨ b = .posInf) :
    (∃ x, b = .ofScalar x) ∧ IsStorable b := by
  obtain rfl | rfl := h
  · exact ⟨⟨-1.0 / 0.0, by decide +kernel⟩, fun v hv => by cases hv⟩
  · exact ⟨⟨1.0 / 0.0, by decide +kernel⟩, fun v hv => by cases hv⟩

theorem storable_one : (∃ x, Bound.finite (1 : Float) = .ofScalar x) ∧ IsStorable (.finite 1) := by
  refine ⟨⟨1, by decide +kernel⟩, fun v hv => ?_⟩
  obtain rfl := Bound.finite.inj hv
  decide +kernel

/-- The numbers that are at least one, and the nearest of them to zero. -/
def solvedHalfLine : Checked (Problem Float × Projection Float Unit) := do
  let p ← accepted (Problem.create ⟨1, 1, #[0, 1], #[0], #[1]⟩ #[.finite 1] #[.posInf] #[.negInf] #[.posInf] #[0])
  let s ← accepted (Projection.create p .default)
  let solved ← s.solve
  return (p, solved.2)

/-- A row at the largest number, which is read back as infinite. -/
def savedAtLargest : Checked (Problem Float × Projection Float Unit) := do
  let p ← accepted (Problem.create ⟨1, 1, #[0, 1], #[0], #[1]⟩ #[.finite largest] #[.finite largest] #[.negInf]
    #[.posInf] #[0])
  let s ← accepted (Projection.create p .default)
  return (p, s)

end Storage

end PolyProjection
