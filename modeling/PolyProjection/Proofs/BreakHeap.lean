import Mathlib
import PolyProjection.BreakHeap
import PolyProjection.Proofs.Vector

/-! The heap of candidates by its slots. Candidates are ranked by break value and number; in a valid heap the
positions are those of the slots, and no candidate is ranked before its parent. Sifting repairs an order that is
broken at one slot. -/

namespace PolyProjection.BreakHeap

set_option linter.unusedSectionVars false

variable {K : Type} [Field K] [LinearOrder K] [IsStrictOrderedRing K]

/-- The candidate in a slot, zero outside the range. -/
def slotAt (h : BreakHeap K) (p : Nat) : Nat :=
  h.slots[p]?.getD 0

/-- What candidates are compared by. -/
def rank (h : BreakHeap K) (c : Nat) : K ×ₗ Nat :=
  toLex (coord h.keys c, c)

/-- A candidate has a slot. -/
def Has (h : BreakHeap K) (c : Nat) : Prop :=
  ∃ p < h.slots.size, h.slotAt p = c

/-- The positions are those of the slots, for candidates below `n`. -/
structure Placed (h : BreakHeap K) (n : Nat) : Prop where
  size_position : h.position.size = n
  size_keys : h.keys.size = n
  slot_lt : ∀ p < h.slots.size, h.slotAt p < n
  position_iff : ∀ c < n, ∀ p, h.position[c]? = some (some p) ↔ p < h.slots.size ∧ h.slotAt p = c

/-- The candidate in slot `q` is not ranked before the one in slot `p`. -/
def InOrder (h : BreakHeap K) (p q : Nat) : Prop :=
  h.rank (h.slotAt p) ≤ h.rank (h.slotAt q)

/-- A heap over the candidates below `n`. -/
structure Valid (h : BreakHeap K) (n : Nat) : Prop extends h.Placed n where
  ordered : ∀ q, 0 < q → q < h.slots.size → h.InOrder ((q - 1) / 2) q

/-- The same candidates with the same break values. -/
structure Same (h h' : BreakHeap K) : Prop where
  keys : h'.keys = h.keys
  size : h'.slots.size = h.slots.size
  has_iff : ∀ c, h'.Has c ↔ h.Has c

/-! The scalars are ordered like their values under `r` in a linear order; a field is its own such order. Scalars that
are equal but not the same, such as the two zeros, have one value. -/

section Ordered

variable {α : Type} [Scalar α] {L : Type} [LinearOrder L] {r : α → L}

/-- Scalars compare as their values under `r`. -/
structure Orders (r : α → L) : Prop where
  lt_iff : ∀ a b, a < b ↔ r a < r b
  beq_iff : ∀ a b, (a == b) = true ↔ r a = r b

/-- The break value of a candidate, zero outside the range. -/
def keyOf (h : BreakHeap α) (c : Nat) : α :=
  h.keys[c]?.getD 0

/-- What candidates are compared by. -/
def placeBy (r : α → L) (h : BreakHeap α) (c : Nat) : L ×ₗ Nat :=
  toLex (r (h.keyOf c), c)

/-- The candidate in slot `q` does not come before the one in slot `p`. -/
def InOrderBy (r : α → L) (h : BreakHeap α) (p q : Nat) : Prop :=
  h.placeBy r (h.slotAt p) ≤ h.placeBy r (h.slotAt q)

/-- The order of a heap, except that the candidate in slot `p` may be ranked before its parent. -/
structure UpOrder (r : α → L) (h : BreakHeap α) (p : Nat) : Prop where
  other : ∀ q, 0 < q → q < h.slots.size → q ≠ p → h.InOrderBy r ((q - 1) / 2) q
  around : ∀ q, q < h.slots.size → 0 < p → 0 < q → (q - 1) / 2 = p → h.InOrderBy r ((p - 1) / 2) q

/-- The order of a heap, except that the children of slot `p` may be ranked before it. -/
structure DownOrder (r : α → L) (h : BreakHeap α) (p : Nat) : Prop where
  other : ∀ q, 0 < q → q < h.slots.size → (q - 1) / 2 ≠ p → h.InOrderBy r ((q - 1) / 2) q
  around : ∀ q, q < h.slots.size → 0 < p → 0 < q → (q - 1) / 2 = p → h.InOrderBy r ((p - 1) / 2) q

/-- The order of a heap, and the positions of its candidates, which are below `n`. -/
structure Heaped (r : α → L) (h : BreakHeap α) (n : Nat) : Prop extends h.Placed n where
  ordered : ∀ q, 0 < q → q < h.slots.size → h.InOrderBy r ((q - 1) / 2) q

variable {h h' h'' : BreakHeap α} {n : Nat}

theorem Same.refl (h : BreakHeap α) : Same h h := ⟨rfl, rfl, fun _ => Iff.rfl⟩

theorem Same.trans (h₁ : Same h h') (h₂ : Same h' h'') : Same h h'' :=
  ⟨h₂.keys.trans h₁.keys, h₂.size.trans h₁.size, fun c => (h₂.has_iff c).trans (h₁.has_iff c)⟩

theorem Same.placeBy_eq (hs : Same h h') (c : Nat) : h'.placeBy r c = h.placeBy r c := by
  rw [placeBy, placeBy, keyOf, keyOf, hs.keys]

theorem placeBy_lt_iff {a b : Nat} : h.placeBy r a < h.placeBy r b ↔
    r (h.keyOf a) < r (h.keyOf b) ∨ r (h.keyOf a) = r (h.keyOf b) ∧ a < b := by
  rw [placeBy, placeBy, Prod.Lex.toLex_lt_toLex]

theorem fetch_keyOf {c : Nat} (hc : c < h.keys.size) : fetch h.keys c = .ok (h.keyOf c) := by
  rw [fetch_of_lt hc, keyOf, Array.getElem?_eq_getElem hc, Option.getD_some]

/-- One break value is written. -/
theorem keyOf_set {c : Nat} {key : α} (hs : h'.keys = h.keys.setIfInBounds c key) (hc : c < h.keys.size) (d : Nat) :
    h'.keyOf d = if d = c then key else h.keyOf d := by
  rw [keyOf, keyOf, hs, Array.getElem?_setIfInBounds]
  by_cases hdc : d = c
  · rw [if_pos hdc.symm, if_pos hc, if_pos hdc, Option.getD_some]
  · rw [if_neg (Ne.symm hdc), if_neg hdc]

theorem fetch_slot {p : Nat} (hp : p < h.slots.size) : fetch h.slots p = .ok (h.slotAt p) := by
  rw [fetch_of_lt hp, slotAt, Array.getElem?_eq_getElem hp, Option.getD_some]

theorem slotAt_eq_of_getElem? {p c : Nat} (hc : h.slots[p]? = some c) : p < h.slots.size ∧ h.slotAt p = c := by
  refine ⟨(Array.getElem?_eq_some_iff.1 hc).1, ?_⟩
  rw [slotAt, hc, Option.getD_some]

theorem getElem?_slots {p : Nat} (hp : p < h.slots.size) : h.slots[p]? = some (h.slotAt p) := by
  rw [slotAt, Array.getElem?_eq_getElem hp, Option.getD_some]

/-- Each candidate has at most one slot. -/
theorem Placed.slot_unique (hp : h.Placed n) {p q : Nat} (hpl : p < h.slots.size) (hql : q < h.slots.size)
    (heq : h.slotAt p = h.slotAt q) : p = q := by
  have h1 := (hp.position_iff _ (hp.slot_lt p hpl) p).2 ⟨hpl, rfl⟩
  have h2 := (hp.position_iff _ (hp.slot_lt p hpl) q).2 ⟨hql, heq.symm⟩
  rw [h1] at h2
  simpa using h2

theorem Placed.nodup_slots (hp : h.Placed n) : h.slots.toList.Nodup := by
  rw [List.nodup_iff_injective_getElem]
  rintro ⟨p, hpl⟩ ⟨q, hql⟩ heq
  rw [Array.length_toList] at hpl hql
  refine Fin.ext (hp.slot_unique hpl hql (Option.some.inj ?_))
  rw [← getElem?_slots hpl, ← getElem?_slots hql, Array.getElem?_eq_getElem hpl, Array.getElem?_eq_getElem hql]
  simpa using heq

theorem mem_slots {c : Nat} : c ∈ h.slots.toList ↔ h.Has c := by
  rw [Array.mem_toList_iff, Array.mem_iff_getElem?]
  constructor
  · rintro ⟨p, hp⟩
    exact ⟨p, slotAt_eq_of_getElem? hp⟩
  · rintro ⟨p, hp, rfl⟩
    exact ⟨p, getElem?_slots hp⟩

theorem Has.lt (hc : h.Has c) (hp : h.Placed n) : c < n := by
  obtain ⟨p, hpl, rfl⟩ := hc
  exact hp.slot_lt p hpl

theorem Placed.fetch_position (hp : h.Placed n) {p : Nat} (hpl : p < h.slots.size) :
    fetch h.position (h.slotAt p) = .ok (some p) :=
  fetch_eq_ok_iff.2 ((hp.position_iff _ (hp.slot_lt p hpl) p).2 ⟨hpl, rfl⟩)

theorem Placed.fetch_position_none (hp : h.Placed n) {c : Nat} (hc : c < n) (hnot : ¬ h.Has c) :
    fetch h.position c = .ok none := by
  have hlt : c < h.position.size := by rw [hp.size_position]; exact hc
  rw [fetch_of_lt hlt, Except.ok.injEq]
  by_contra hsome
  obtain ⟨p, hpos⟩ := Option.ne_none_iff_exists'.1 hsome
  exact hnot ⟨p, (hp.position_iff c hc p).1 (by rw [Array.getElem?_eq_getElem hlt, hpos])⟩

open Classical in
theorem Placed.contains_eq (hp : h.Placed n) {c : Nat} (hc : c < n) : h.contains c = .ok (decide (h.Has c)) := by
  by_cases hhas : h.Has c
  · obtain ⟨p, hpl, rfl⟩ := hhas
    rw [contains, hp.fetch_position hpl, ok_bind, decide_eq_true ⟨p, hpl, rfl⟩]
    rfl
  · rw [contains, hp.fetch_position_none hc hhas, ok_bind, decide_eq_false hhas]
    rfl

open Classical in
theorem Placed.slotLess_eq (hr : Orders r) (hp : h.Placed n) {p q : Nat} (hpl : p < h.slots.size)
    (hql : q < h.slots.size) :
    h.slotLess p q = .ok (decide (h.placeBy r (h.slotAt p) < h.placeBy r (h.slotAt q))) := by
  have hkp : h.slotAt p < h.keys.size := by rw [hp.size_keys]; exact hp.slot_lt p hpl
  have hkq : h.slotAt q < h.keys.size := by rw [hp.size_keys]; exact hp.slot_lt q hql
  rw [slotLess, fetch_slot hpl, fetch_slot hql]
  simp only [ok_bind, less]
  rw [fetch_keyOf hkp, fetch_keyOf hkq]
  simp only [ok_bind, pure_eq_ok_iff, placeBy_lt_iff]
  rw [Bool.eq_iff_iff, Bool.or_eq_true, Bool.and_eq_true, decide_eq_true_eq, decide_eq_true_eq, decide_eq_true_eq,
    hr.lt_iff, hr.beq_iff]

theorem slotAt_setIfInBounds {slots : Array Nat} {p c : Nat} (hs : h.slots = slots.setIfInBounds p c) (q : Nat) :
    h.slotAt q = if q = p ∧ p < slots.size then c else slots[q]?.getD 0 := by
  rw [slotAt, hs, Array.getElem?_setIfInBounds]
  by_cases hq : q = p
  · by_cases hp : p < slots.size
    · rw [if_pos hq.symm, if_pos hp, if_pos ⟨hq, hp⟩, Option.getD_some]
    · rw [if_pos hq.symm, if_neg hp, if_neg fun h => hp h.2, hq, Array.getElem?_eq_none (not_lt.1 hp)]
  · rw [if_neg fun h => hq h.symm, if_neg fun h => hq h.1]

/-- Two candidates exchange their slots. -/
theorem Placed.swap_ok (hp : h.Placed n) {p q : Nat} (hpl : p < h.slots.size) (hql : q < h.slots.size) :
    ∃ h', h.swap p q = .ok h' ∧ h'.Placed n ∧ Same h h' ∧
      ∀ r, h'.slotAt r = if r = q then h.slotAt p else if r = p then h.slotAt q else h.slotAt r := by
  have hpos : ∀ r < h.slots.size, h.slotAt r < h.position.size := fun r hr => by
    rw [hp.size_position]
    exact hp.slot_lt r hr
  refine ⟨⟨(h.slots.setIfInBounds p (h.slotAt q)).setIfInBounds q (h.slotAt p),
    (h.position.setIfInBounds (h.slotAt q) (some p)).setIfInBounds (h.slotAt p) (some q), h.keys⟩, ?_, ?_⟩
  · rw [swap, fetch_slot hpl, fetch_slot hql, ok_bind, ok_bind, store_of_lt' _ hpl, ok_bind,
      store_of_lt' _ (by simpa using hql), ok_bind, store_of_lt' _ (hpos q hql), ok_bind,
      store_of_lt' _ (by simpa using hpos p hpl)]
    rfl
  · have hslot : ∀ r, slotAt ⟨(h.slots.setIfInBounds p (h.slotAt q)).setIfInBounds q (h.slotAt p),
        (h.position.setIfInBounds (h.slotAt q) (some p)).setIfInBounds (h.slotAt p) (some q), h.keys⟩ r =
        if r = q then h.slotAt p else if r = p then h.slotAt q else h.slotAt r := by
      intro r
      simp only [slotAt, Array.getElem?_setIfInBounds, Array.size_setIfInBounds]
      grind
    refine ⟨⟨by simp [hp.size_position], hp.size_keys, ?_, ?_⟩, ⟨rfl, by simp, ?_⟩, hslot⟩
    · intro r hr
      rw [hslot]
      split_ifs
      · exact hp.slot_lt p hpl
      · exact hp.slot_lt q hql
      · exact hp.slot_lt r (by simpa using hr)
    · intro c hc r
      rw [hslot]
      simp only [Array.getElem?_setIfInBounds, Array.size_setIfInBounds]
      have hinj := fun r hr s hs => hp.slot_unique (p := r) (q := s) hr hs
      have hiff := hp.position_iff c hc r
      have hcn : c < h.position.size := by rw [hp.size_position]; exact hc
      grind
    · intro c
      constructor
      · rintro ⟨r, hr, hc⟩
        rw [hslot] at hc
        have hr' : r < h.slots.size := by simpa using hr
        split_ifs at hc
        exacts [⟨p, hpl, hc⟩, ⟨q, hql, hc⟩, ⟨r, hr', hc⟩]
      · rintro ⟨r, hr, rfl⟩
        refine ⟨if r = p then q else if r = q then p else r, by simp only [Array.size_setIfInBounds]; grind, ?_⟩
        rw [hslot]
        grind

/-- One exchange with the parent moves the place of disorder there. -/
theorem UpOrder.swap {p : Nat} (ho : h.UpOrder r p) (hs : Same h h') (hp0 : 0 < p) (hpl : p < h.slots.size)
    (hlt : h.placeBy r (h.slotAt p) < h.placeBy r (h.slotAt ((p - 1) / 2)))
    (hslot : ∀ r, h'.slotAt r =
      if r = (p - 1) / 2 then h.slotAt p else if r = p then h.slotAt ((p - 1) / 2) else h.slotAt r) :
    h'.UpOrder r ((p - 1) / 2) := by
  have hpar : (p - 1) / 2 < p := by omega
  constructor
  · intro q hq0 hql hqne
    rw [hs.size] at hql
    rw [InOrderBy, hs.placeBy_eq, hs.placeBy_eq, hslot, hslot, if_neg hqne]
    by_cases hqp : q = p
    · rw [hqp, if_pos rfl, if_pos rfl]
      exact hlt.le
    · rw [if_neg hqp]
      have hold := ho.other q hq0 hql hqp
      by_cases hsib : (q - 1) / 2 = (p - 1) / 2
      · rw [if_pos hsib]
        rw [InOrderBy, hsib] at hold
        exact hlt.le.trans hold
      · rw [if_neg hsib]
        by_cases hkid : (q - 1) / 2 = p
        · rw [if_pos hkid]
          exact ho.around q hql hp0 hq0 hkid
        · rw [if_neg hkid]
          exact hold
  · intro q hql hpar0 hq0 hsib
    rw [hs.size] at hql
    have hup := ho.other ((p - 1) / 2) hpar0 (by omega) (by omega)
    rw [InOrderBy, hs.placeBy_eq, hs.placeBy_eq, hslot, hslot,
      if_neg (show ((p - 1) / 2 - 1) / 2 ≠ (p - 1) / 2 by omega),
      if_neg (show ((p - 1) / 2 - 1) / 2 ≠ p by omega), if_neg (show q ≠ (p - 1) / 2 by omega)]
    by_cases hqp : q = p
    · rw [if_pos hqp]
      exact hup
    · rw [if_neg hqp]
      have hold := ho.other q hq0 hql hqp
      rw [InOrderBy, hsib] at hold
      exact le_trans hup hold

/-- Sifting up repairs an order that is broken between a slot and its parent. -/
theorem Placed.siftUp_ok (hr : Orders r) (hp : h.Placed n) {p : Nat} (hpl : p < h.slots.size) (ho : h.UpOrder r p) :
    ∃ h', h.siftUp p = .ok h' ∧ h'.Heaped r n ∧ Same h h' := by
  induction p using Nat.strong_induction_on generalizing h with
  | _ p ih =>
      rw [siftUp]
      by_cases hp0 : 0 < p
      · rw [dif_pos hp0]
        dsimp only
        rw [hp.slotLess_eq hr hpl (by omega), ok_bind]
        by_cases hlt : h.placeBy r (h.slotAt p) < h.placeBy r (h.slotAt ((p - 1) / 2))
        · obtain ⟨h₁, hswap, hp₁, hs₁, hslot⟩ := hp.swap_ok hpl (show (p - 1) / 2 < h.slots.size by omega)
          obtain ⟨h₂, hsift, hv₂, hs₂⟩ := ih ((p - 1) / 2) (by omega) hp₁ (by rw [hs₁.size]; omega)
            (ho.swap hs₁ hp0 hpl hlt hslot)
          exact ⟨h₂, by rw [if_pos (decide_eq_true hlt), hswap, ok_bind, hsift], hv₂, hs₁.trans hs₂⟩
        · refine ⟨h, by rw [if_neg (by simpa using hlt)]; rfl, ⟨hp, fun q hq0 hql => ?_⟩, Same.refl h⟩
          by_cases hqp : q = p
          · rw [hqp]
            exact le_of_not_gt hlt
          · exact ho.other q hq0 hql hqp
      · rw [dif_neg hp0]
        exact ⟨h, rfl, ⟨hp, fun q hq0 hql => ho.other q hq0 hql (by omega)⟩, Same.refl h⟩

/-- One exchange with the first child moves the place of disorder there. -/
theorem DownOrder.swap {p c : Nat} (ho : h.DownOrder r p) (hs : Same h h') (hc0 : 0 < c) (hcl : c < h.slots.size)
    (hpar : (c - 1) / 2 = p) (hlt : h.placeBy r (h.slotAt c) < h.placeBy r (h.slotAt p))
    (hmin : ∀ q, 0 < q → q < h.slots.size → (q - 1) / 2 = p → h.InOrderBy r c q)
    (hslot : ∀ r, h'.slotAt r = if r = c then h.slotAt p else if r = p then h.slotAt c else h.slotAt r) :
    h'.DownOrder r c := by
  have hpc : p < c := by omega
  constructor
  · intro q hq0 hql hqne
    rw [hs.size] at hql
    rw [InOrderBy, hs.placeBy_eq, hs.placeBy_eq, hslot, hslot, if_neg hqne]
    by_cases hkid : (q - 1) / 2 = p
    · rw [if_pos hkid]
      by_cases hqc : q = c
      · rw [if_pos hqc]
        exact hlt.le
      · rw [if_neg hqc, if_neg (show q ≠ p by omega)]
        exact hmin q hq0 hql hkid
    · rw [if_neg hkid, if_neg (show q ≠ c from fun h => hkid (h ▸ hpar))]
      by_cases hqp : q = p
      · rw [if_pos hqp, hqp]
        exact ho.around c hcl (by omega) hc0 hpar
      · rw [if_neg hqp]
        exact ho.other q hq0 hql hkid
  · intro q hql _ hq0 hkid
    rw [hs.size] at hql
    rw [InOrderBy, hs.placeBy_eq, hs.placeBy_eq, hslot, hslot, hpar, if_neg (show p ≠ c by omega), if_pos rfl,
      if_neg (show q ≠ c by omega), if_neg (show q ≠ p by omega)]
    have hold := ho.other q hq0 hql (by omega)
    rwa [InOrderBy, hkid] at hold

/-- The order is that of a heap if it is not broken between the slot and its children. -/
theorem DownOrder.heaped {p : Nat} (ho : h.DownOrder r p) (hp : h.Placed n)
    (hkids : ∀ q, 0 < q → q < h.slots.size → (q - 1) / 2 = p → h.InOrderBy r p q) : h.Heaped r n := by
  refine ⟨hp, fun q hq0 hql => ?_⟩
  by_cases hkid : (q - 1) / 2 = p
  · rw [hkid]
    exact hkids q hq0 hql hkid
  · exact ho.other q hq0 hql hkid

/-- Sifting down repairs an order that is broken between a slot and its children. -/
theorem Placed.siftDown_ok (hr : Orders r) (hp : h.Placed n) {p : Nat} (ho : h.DownOrder r p) :
    ∃ h', h.siftDown h.slots.size p = .ok h' ∧ h'.Heaped r n ∧ Same h h' := by
  obtain ⟨left, hleft⟩ : ∃ left, left = h.slots.size - p := ⟨_, rfl⟩
  induction left using Nat.strong_induction_on generalizing h p with
  | _ left ih =>
      -- The child in slot `c` comes first among the children of `p`, and both branches for it are alike.
      have hstep : ∀ c, 0 < c → c < h.slots.size → (c - 1) / 2 = p →
          (∀ q, 0 < q → q < h.slots.size → (q - 1) / 2 = p → h.InOrderBy r c q) →
          ∃ h', (do if ← h.slotLess c p then let g ← h.swap p c; g.siftDown h.slots.size c else return h) = .ok h' ∧
            h'.Heaped r n ∧ Same h h' := by
        intro c hc0 hcl hpar hmin
        rw [hp.slotLess_eq hr hcl (by omega), ok_bind]
        by_cases hlt : h.placeBy r (h.slotAt c) < h.placeBy r (h.slotAt p)
        · obtain ⟨h₁, hswap, hp₁, hs₁, hslot⟩ := hp.swap_ok (show p < h.slots.size by omega) hcl
          obtain ⟨h₂, hsift, hv₂, hs₂⟩ := ih (h.slots.size - c) (by omega) hp₁
            (ho.swap hs₁ hc0 hcl hpar hlt hmin hslot) (by rw [hs₁.size])
          rw [hs₁.size] at hsift
          exact ⟨h₂, by rw [if_pos (decide_eq_true hlt), hswap, ok_bind, hsift], hv₂, hs₁.trans hs₂⟩
        · exact ⟨h, by rw [if_neg (by simpa using hlt)]; rfl, ho.heaped hp fun q hq0 hql hkid =>
            (le_of_not_gt hlt).trans (hmin q hq0 hql hkid), Same.refl h⟩
      rw [siftDown]
      by_cases hl : 2 * p + 1 < h.slots.size
      · rw [dif_pos hl]
        by_cases hright : 2 * p + 2 < h.slots.size
        · rw [if_pos hright, hp.slotLess_eq hr hright hl, ok_bind]
          dsimp only
          by_cases hlt : h.placeBy r (h.slotAt (2 * p + 2)) < h.placeBy r (h.slotAt (2 * p + 1))
          · rw [dif_pos ⟨decide_eq_true hlt, hright⟩]
            refine hstep (2 * p + 2) (by omega) hright (by omega) fun q hq0 hql hkid => ?_
            rcases show q = 2 * p + 1 ∨ q = 2 * p + 2 by omega with rfl | rfl
            · exact hlt.le
            · exact le_rfl
          · rw [dif_neg fun hboth => hlt (of_decide_eq_true hboth.1)]
            refine hstep (2 * p + 1) (by omega) hl (by omega) fun q hq0 hql hkid => ?_
            rcases show q = 2 * p + 1 ∨ q = 2 * p + 2 by omega with rfl | rfl
            · exact le_rfl
            · exact le_of_not_gt hlt
        · rw [if_neg hright, pure_bind_ok]
          dsimp only
          rw [dif_neg fun hboth => hright hboth.2]
          refine hstep (2 * p + 1) (by omega) hl (by omega) fun q hq0 hql hkid => ?_
          rw [show q = 2 * p + 1 by omega]
          exact le_rfl
      · rw [dif_neg hl]
        exact ⟨h, rfl, ho.heaped hp fun q _ _ _ => by omega, Same.refl h⟩

theorem Heaped.upOrder (hv : h.Heaped r n) (p : Nat) (hpl : p < h.slots.size) : h.UpOrder r p :=
  ⟨fun q hq0 hql _ => hv.ordered q hq0 hql, fun q hql hp0 hq0 hkid =>
    (hv.ordered p hp0 hpl).trans (hkid ▸ hv.ordered q hq0 hql)⟩

theorem Heaped.downOrder (hv : h.Heaped r n) (p : Nat) : h.DownOrder r p :=
  ⟨fun q hq0 hql _ => hv.ordered q hq0 hql, fun q hql hp0 hq0 hkid =>
    (hv.ordered p hp0 (by omega)).trans (hkid ▸ hv.ordered q hq0 hql)⟩

/-- The first slot holds the candidate that is ranked first. -/
theorem Heaped.first_le (hv : h.Heaped r n) {p : Nat} (hpl : p < h.slots.size) :
    h.placeBy r (h.slotAt 0) ≤ h.placeBy r (h.slotAt p) := by
  induction p using Nat.strong_induction_on with
  | _ p ih =>
      rcases Nat.eq_zero_or_pos p with rfl | hp0
      · exact le_rfl
      · exact (ih ((p - 1) / 2) (by omega) (by omega)).trans (hv.ordered p hp0 hpl)

theorem heaped_empty (n : Nat) : (empty n : BreakHeap α).Heaped r n := by
  refine ⟨⟨by simp [empty], by simp [empty], fun p hp => absurd hp (by simp [empty]), fun c hc p => ?_⟩,
    fun q _ hq => absurd hq (by simp [empty])⟩
  simp [empty, hc]

theorem not_has_empty (n c : Nat) : ¬ (empty n : BreakHeap α).Has c := by
  rintro ⟨p, hp, -⟩
  simp [empty] at hp

/-- The first candidate has the least break value. -/
theorem Heaped.peekMin_eq (hv : h.Heaped r n) : (h.slots.size = 0 ∧ h.peekMin = .ok none) ∨
    ∃ c, h.peekMin = .ok (some (c, h.keyOf c)) ∧ h.Has c ∧ ∀ d, h.Has d → h.placeBy r c ≤ h.placeBy r d := by
  rcases Nat.eq_zero_or_pos h.slots.size with hsize | hpos
  · left
    refine ⟨hsize, ?_⟩
    rw [peekMin, Array.getElem?_eq_none (by omega)]
    rfl
  · right
    have hkey : h.slotAt 0 < h.keys.size := by rw [hv.size_keys]; exact hv.slot_lt 0 hpos
    refine ⟨h.slotAt 0, ?_, ⟨0, hpos, rfl⟩, ?_⟩
    · rw [peekMin, getElem?_slots hpos]
      dsimp only
      rw [fetch_keyOf hkey, ok_bind]
      rfl
    · rintro d ⟨p, hpl, rfl⟩
      exact hv.first_le hpl

/-- The heap with a new candidate in the last slot, before it is sifted up. -/
def appended (h : BreakHeap α) (c : Nat) (key : α) : BreakHeap α :=
  ⟨h.slots.push c, h.position.setIfInBounds c (some h.slots.size), h.keys.setIfInBounds c key⟩

section Appended

variable {c : Nat} {key : α}

@[simp] theorem size_slots_appended : (h.appended c key).slots.size = h.slots.size + 1 := by
  simp [appended]

theorem slotAt_appended (p : Nat) : (h.appended c key).slotAt p = if p = h.slots.size then c else h.slotAt p := by
  simp only [appended, slotAt, Array.getElem?_push]
  split <;> rfl

theorem has_appended_iff {d : Nat} : (h.appended c key).Has d ↔ d = c ∨ h.Has d := by
  constructor
  · rintro ⟨p, hp, rfl⟩
    rw [size_slots_appended] at hp
    rw [slotAt_appended]
    split_ifs with hlast
    · exact .inl rfl
    · exact .inr ⟨p, by omega, rfl⟩
  · rintro (rfl | ⟨p, hp, rfl⟩)
    · exact ⟨h.slots.size, by simp, by rw [slotAt_appended, if_pos rfl]⟩
    · exact ⟨p, by rw [size_slots_appended]; omega, by rw [slotAt_appended, if_neg (by omega)]⟩

theorem Placed.appended (hp : h.Placed n) (hc : c < n) (hnot : ¬ h.Has c) : (h.appended c key).Placed n := by
  refine ⟨by simp [BreakHeap.appended, hp.size_position], by simp [BreakHeap.appended, hp.size_keys], fun p hlt => ?_,
    fun d hd p => ?_⟩
  · rw [size_slots_appended] at hlt
    rw [slotAt_appended]
    split_ifs with hlast
    · exact hc
    · exact hp.slot_lt p (by omega)
  · have hiff := hp.position_iff d hd p
    have hdn : d < h.position.size := by rw [hp.size_position]; exact hd
    have hhas : ∀ q, q < h.slots.size → h.slotAt q ≠ c := fun q hq heq => hnot ⟨q, hq, heq⟩
    rw [slotAt_appended, size_slots_appended]
    simp only [BreakHeap.appended, Array.getElem?_setIfInBounds]
    grind

/-- Only the new candidate may be ranked before its parent. -/
theorem Heaped.upOrder_appended (hv : h.Heaped r n) (hc : c < n) (hnot : ¬ h.Has c) (key : α) :
    (h.appended c key).UpOrder r h.slots.size := by
  have hplace : ∀ p < h.slots.size,
      (h.appended c key).placeBy r ((h.appended c key).slotAt p) = h.placeBy r (h.slotAt p) := by
    intro p hp
    rw [slotAt_appended, if_neg (by omega), placeBy, placeBy,
      keyOf_set (h := h) rfl (by rw [hv.size_keys]; exact hc), if_neg fun heq => hnot ⟨p, hp, heq⟩]
  refine ⟨fun q hq0 hql hqne => ?_, fun q hql hp0 hq0 hkid => ?_⟩
  all_goals rw [size_slots_appended] at hql
  · rw [InOrderBy, hplace _ (by omega), hplace _ (by omega)]
    exact hv.ordered q hq0 (by omega)
  · omega

end Appended

/-- A new candidate gets the given break value, and the others keep theirs. -/
theorem Heaped.insert_ok (hr : Orders r) (hv : h.Heaped r n) {c : Nat} (hc : c < n) (hnot : ¬ h.Has c) (key : α) :
    ∃ h', h.insert c key = .ok h' ∧ h'.Heaped r n ∧ (∀ d, h'.Has d ↔ d = c ∨ h.Has d) ∧
      h'.keys = h.keys.setIfInBounds c key := by
  obtain ⟨h', hsift, hv', hs⟩ := (hv.toPlaced.appended hc hnot).siftUp_ok hr (p := h.slots.size) (by simp)
    (hv.upOrder_appended hc hnot key)
  refine ⟨h', ?_, hv', fun d => (hs.has_iff d).trans has_appended_iff, hs.keys⟩
  classical
  rw [insert, hv.contains_eq hc, decide_eq_false hnot, ok_bind, require_of_true (by decide), ok_bind]
  dsimp only
  rw [store_of_lt' _ (by rw [hv.size_position]; exact hc), ok_bind,
    store_of_lt' _ (by rw [hv.size_keys]; exact hc), ok_bind]
  exact hsift

section Rekeyed

variable {g : BreakHeap α} {p : Nat}

theorem slotAt_congr (hslots : g.slots = h.slots) (q : Nat) : g.slotAt q = h.slotAt q := by
  rw [slotAt, slotAt, hslots]

theorem Placed.rekey (hp : h.Placed n) (hslots : g.slots = h.slots) (hposition : g.position = h.position)
    (hkeys : g.keys.size = h.keys.size) : g.Placed n := by
  refine ⟨by rw [hposition, hp.size_position], hkeys.trans hp.size_keys, fun q hq => ?_, fun d hd q => ?_⟩
  · rw [slotAt_congr hslots]
    exact hp.slot_lt q (hslots ▸ hq)
  · rw [hposition, hslots, slotAt_congr hslots]
    exact hp.position_iff d hd q

variable (hslots : g.slots = h.slots) (hpl : p < h.slots.size)
  (hother : ∀ q < h.slots.size, q ≠ p → g.placeBy r (h.slotAt q) = h.placeBy r (h.slotAt q))

include hslots hpl hother

/-- If a candidate comes earlier than before, only the order of it and its parent is open. -/
theorem Heaped.upOrder_of_le (hv : h.Heaped r n) (hle : g.placeBy r (h.slotAt p) ≤ h.placeBy r (h.slotAt p)) :
    g.UpOrder r p := by
  have hbelow : ∀ q < h.slots.size, g.placeBy r (h.slotAt q) ≤ h.placeBy r (h.slotAt q) := fun q hq => by
    by_cases hqp : q = p
    · rwa [hqp]
    · exact (hother q hq hqp).le
  refine ⟨fun q hq0 hql hqne => ?_, fun q hql hp0 hq0 hkid => ?_⟩
  · rw [hslots] at hql
    rw [InOrderBy, slotAt_congr hslots, slotAt_congr hslots, hother q hql hqne]
    exact (hbelow _ (by omega)).trans (hv.ordered q hq0 hql)
  · rw [hslots] at hql
    rw [InOrderBy, slotAt_congr hslots, slotAt_congr hslots, hother q hql (by omega)]
    exact (hbelow _ (by omega)).trans ((hv.upOrder p hpl).around q hql hp0 hq0 hkid)

/-- If a candidate comes later than before, only the order of it and its children is open. -/
theorem Heaped.downOrder_of_le (hv : h.Heaped r n) (hle : h.placeBy r (h.slotAt p) ≤ g.placeBy r (h.slotAt p)) :
    g.DownOrder r p := by
  have habove : ∀ q < h.slots.size, h.placeBy r (h.slotAt q) ≤ g.placeBy r (h.slotAt q) := fun q hq => by
    by_cases hqp : q = p
    · rwa [hqp]
    · exact (hother q hq hqp).ge
  refine ⟨fun q hq0 hql hqne => ?_, fun q hql hp0 hq0 hkid => ?_⟩
  · rw [hslots] at hql
    rw [InOrderBy, slotAt_congr hslots, slotAt_congr hslots, hother _ (by omega) hqne]
    exact (hv.ordered q hq0 hql).trans (habove q hql)
  · rw [hslots] at hql
    rw [InOrderBy, slotAt_congr hslots, slotAt_congr hslots, hother ((p - 1) / 2) (by omega) (by omega)]
    exact ((hv.downOrder p).around q hql hp0 hq0 hkid).trans (habove q hql)

end Rekeyed

/-- A candidate gets another break value, and the others keep theirs. -/
theorem Heaped.update_ok (hr : Orders r) (hv : h.Heaped r n) {c : Nat} (hhas : h.Has c) (key : α) :
    ∃ h', h.update c key = .ok h' ∧ h'.Heaped r n ∧ (∀ d, h'.Has d ↔ h.Has d) ∧
      h'.keys = h.keys.setIfInBounds c key := by
  obtain ⟨p, hpl, rfl⟩ := hhas
  have hkey : h.slotAt p < h.keys.size := by rw [hv.size_keys]; exact hv.slot_lt p hpl
  obtain ⟨g, hg⟩ : ∃ g : BreakHeap α, g = { h with keys := h.keys.setIfInBounds (h.slotAt p) key } := ⟨_, rfl⟩
  have hslots : g.slots = h.slots := by rw [hg]
  have hkeys : g.keys = h.keys.setIfInBounds (h.slotAt p) key := by rw [hg]
  have hplaced : g.Placed n := hv.rekey hslots (by rw [hg]) (by rw [hkeys, Array.size_setIfInBounds])
  have hother : ∀ q < h.slots.size, q ≠ p → g.placeBy r (h.slotAt q) = h.placeBy r (h.slotAt q) := by
    intro q hq hqp
    rw [placeBy, placeBy, keyOf_set hkeys hkey, if_neg fun heq => hqp (hv.slot_unique hq hpl heq)]
  have hplace : g.placeBy r (h.slotAt p) = toLex (r key, h.slotAt p) := by
    rw [placeBy, keyOf_set hkeys hkey, if_pos rfl]
  have hstart : h.update (h.slotAt p) key =
      if r key < r (h.keyOf (h.slotAt p)) then g.siftUp p else g.siftDown g.slots.size p := by
    rw [update, hv.fetch_position hpl, ok_bind]
    dsimp only
    rw [fetch_keyOf hkey, ok_bind, store_of_lt' _ hkey, ok_bind, ← hg]
    simp only [hr.lt_iff]
    rfl
  have hsifted : ∃ h', h.update (h.slotAt p) key = .ok h' ∧ h'.Heaped r n ∧ Same g h' := by
    by_cases hlt : r key < r (h.keyOf (h.slotAt p))
    · rw [hstart, if_pos hlt]
      refine hplaced.siftUp_ok hr (hslots ▸ hpl) (hv.upOrder_of_le hslots hpl hother ?_)
      rw [hplace, placeBy, Prod.Lex.toLex_le_toLex]
      exact .inl hlt
    · rw [hstart, if_neg hlt]
      refine hplaced.siftDown_ok hr (hv.downOrder_of_le hslots hpl hother ?_)
      rw [hplace, placeBy, Prod.Lex.toLex_le_toLex]
      exact (not_lt.1 hlt).lt_or_eq.imp_right fun heq => ⟨heq, le_rfl⟩
  obtain ⟨h', hok, hv', hs⟩ := hsifted
  refine ⟨h', hok, hv', fun d => (hs.has_iff d).trans ?_, hs.keys.trans hkeys⟩
  simp only [Has, hslots, slotAt_congr hslots]

/-- Nothing is exchanged where the candidate does not come before its parent. -/
theorem Placed.siftUp_stays (hr : Orders r) (hp : h.Placed n) {p : Nat} (hpl : p < h.slots.size)
    (hle : 0 < p → h.InOrderBy r ((p - 1) / 2) p) : h.siftUp p = .ok h := by
  rw [siftUp]
  by_cases hp0 : 0 < p
  · rw [dif_pos hp0]
    dsimp only
    rw [hp.slotLess_eq hr hpl (by omega), ok_bind, if_neg (by simpa [InOrderBy] using hle hp0)]
    rfl
  · rw [dif_neg hp0]
    rfl

/-- After the last candidate has taken the slot `p`, it finds its place by going up or down. -/
theorem Placed.sift_ok (hr : Orders r) (hp : h.Placed n) {p : Nat} (hpl : p < h.slots.size)
    (hother : ∀ q, 0 < q → q < h.slots.size → q ≠ p → (q - 1) / 2 ≠ p → h.InOrderBy r ((q - 1) / 2) q)
    (haround : ∀ q, q < h.slots.size → 0 < p → 0 < q → (q - 1) / 2 = p → h.InOrderBy r ((p - 1) / 2) q) :
    ∃ h₁ q h₂, h.siftUp p = .ok h₁ ∧ fetch h₁.position (h.slotAt p) = .ok (some q) ∧
      h₁.siftDown h₁.slots.size q = .ok h₂ ∧ h₂.Heaped r n ∧ Same h h₂ := by
  by_cases hlt : 0 < p ∧ h.placeBy r (h.slotAt p) < h.placeBy r (h.slotAt ((p - 1) / 2))
  · have hup : h.UpOrder r p := by
      refine ⟨fun q hq0 hql hqne => ?_, haround⟩
      by_cases hkid : (q - 1) / 2 = p
      · rw [InOrderBy, hkid]
        exact hlt.2.le.trans (haround q hql hlt.1 hq0 hkid)
      · exact hother q hq0 hql hqne hkid
    obtain ⟨h₁, hsift₁, hv₁, hs₁⟩ := hp.siftUp_ok hr hpl hup
    obtain ⟨q, hq, heq⟩ := (hs₁.has_iff _).2 ⟨p, hpl, rfl⟩
    obtain ⟨h₂, hsift₂, hv₂, hs₂⟩ := hv₁.toPlaced.siftDown_ok hr (hv₁.downOrder q)
    exact ⟨h₁, q, h₂, hsift₁, heq ▸ hv₁.fetch_position hq, hsift₂, hv₂, hs₁.trans hs₂⟩
  · have hle : 0 < p → h.InOrderBy r ((p - 1) / 2) p := fun hp0 => le_of_not_gt fun hlt' => hlt ⟨hp0, hlt'⟩
    have hdown : h.DownOrder r p := by
      refine ⟨fun q hq0 hql hkid => ?_, haround⟩
      by_cases hqp : q = p
      · rw [hqp] at hq0 ⊢
        exact hle hq0
      · exact hother q hq0 hql hqp hkid
    obtain ⟨h₂, hsift₂, hv₂, hs₂⟩ := hp.siftDown_ok hr hdown
    exact ⟨h, p, h₂, hp.siftUp_stays hr hpl hle, hp.fetch_position hpl, hsift₂, hv₂, hs₂⟩

/-- The candidate in slot `p` is gone, and the one in the last slot has taken its place. -/
structure Vacated (h g : BreakHeap α) (p last : Nat) : Prop where
  keys : g.keys = h.keys
  size : g.slots.size = last
  size_position : g.position.size = h.position.size
  slot : ∀ q < last, g.slotAt q = if q = p then h.slotAt last else h.slotAt q
  position : ∀ d < h.position.size, g.position[d]? =
    if p < last ∧ d = h.slotAt last then some (some p) else if d = h.slotAt p then some none else h.position[d]?

namespace Vacated

variable {g : BreakHeap α} {p last : Nat}

theorem placeBy_eq (hg : Vacated h g p last) (c : Nat) : g.placeBy r c = h.placeBy r c := by
  rw [placeBy, placeBy, keyOf, keyOf, hg.keys]

theorem placed (hg : Vacated h g p last) (hp : h.Placed n) (hpl : p < h.slots.size)
    (hlast : last + 1 = h.slots.size) : g.Placed n := by
  refine ⟨hg.size_position.trans hp.size_position, by rw [hg.keys, hp.size_keys], fun q hq => ?_, fun d hd q => ?_⟩
  · rw [hg.size] at hq
    rw [hg.slot q hq]
    split_ifs
    · exact hp.slot_lt last (by omega)
    · exact hp.slot_lt q (by omega)
  · have hiff := hp.position_iff d hd q
    have hunique := fun q hq q' hq' => hp.slot_unique (p := q) (q := q') hq hq'
    have hslot := hg.slot q
    rw [hg.position d (by rw [hp.size_position]; exact hd), hg.size]
    grind

theorem has_iff (hg : Vacated h g p last) (hp : h.Placed n) (hpl : p < h.slots.size)
    (hlast : last + 1 = h.slots.size) (d : Nat) : g.Has d ↔ d ≠ h.slotAt p ∧ h.Has d := by
  constructor
  · rintro ⟨q, hq, rfl⟩
    rw [hg.size] at hq
    rw [hg.slot q hq]
    split_ifs with hqp
    · exact ⟨fun heq => by have := hp.slot_unique (by omega) hpl heq; omega, last, by omega, rfl⟩
    · exact ⟨fun heq => hqp (hp.slot_unique (by omega) hpl heq), q, by omega, rfl⟩
  · rintro ⟨hne, q, hq, rfl⟩
    have hqp : q ≠ p := fun hqp => hne (by rw [hqp])
    rcases Nat.lt_or_ge q last with hql | hqge
    · exact ⟨q, by rw [hg.size]; exact hql, by rw [hg.slot q hql, if_neg hqp]⟩
    · have hplt : p < last := by omega
      exact ⟨p, by rw [hg.size]; exact hplt, by rw [hg.slot p hplt, if_pos rfl, show q = last by omega]⟩

/-- Away from the slot `p` the order is that of the heap before. -/
theorem inOrderBy_iff (hg : Vacated h g p last) {q q' : Nat} (hq : q < last) (hq' : q' < last) (hqp : q ≠ p)
    (hqp' : q' ≠ p) : g.InOrderBy r q q' ↔ h.InOrderBy r q q' := by
  rw [InOrderBy, InOrderBy, hg.slot q hq, hg.slot q' hq', if_neg hqp, if_neg hqp', hg.placeBy_eq, hg.placeBy_eq]

end Vacated

/-- A deletion lets the last candidate take the slot that becomes free and find its place from there. -/
theorem Placed.delete_eq (hv : h.Placed n) {p last : Nat} (hpl : p < h.slots.size) (hlast : last + 1 = h.slots.size) :
    ∃ g, Vacated h g p last ∧ h.delete (h.slotAt p) =
      if p < last then do
        let g ← g.siftUp p
        match ← fetch g.position (h.slotAt last) with
        | some q => g.siftDown g.slots.size q
        | none => .error .wrongState
      else return g := by
  have hback : h.slots.back? = some (h.slotAt last) := by
    rw [Array.back?_eq_getElem?, ← hlast, Nat.add_sub_cancel, getElem?_slots (by omega)]
  have hposlt : ∀ q < h.slots.size, h.slotAt q < h.position.size := fun q hq => by
    rw [hv.size_position]
    exact hv.slot_lt q hq
  have hpop : ∀ q < last, h.slots.pop[q]? = some (h.slotAt q) := fun q hq => by
    rw [Array.getElem?_pop, if_pos (by omega), getElem?_slots (by omega)]
  have hsize : h.slots.pop.size = last := by rw [Array.size_pop]; omega
  rw [delete, hv.fetch_position hpl, ok_bind, hback]
  dsimp only
  rw [store_of_lt' _ (hposlt p hpl), ok_bind, hsize]
  by_cases hlt : p < last
  · refine ⟨⟨h.slots.pop.setIfInBounds p (h.slotAt last),
      (h.position.setIfInBounds (h.slotAt p) none).setIfInBounds (h.slotAt last) (some p), h.keys⟩,
      ⟨rfl, (Array.size_setIfInBounds ..).trans hsize, by simp, fun q hq => ?_, fun d hd => ?_⟩, ?_⟩
    · rw [slotAt_setIfInBounds rfl, hpop q hq, Option.getD_some, hsize]
      simp [hlt]
    · simp only [Array.getElem?_setIfInBounds, Array.size_setIfInBounds]
      grind
    · rw [if_pos hlt, if_pos hlt, store_of_lt' _ (by rw [hsize]; exact hlt), ok_bind,
        store_of_lt' _ (by rw [Array.size_setIfInBounds]; exact hposlt last (by omega)), ok_bind]
      rfl
  · refine ⟨⟨h.slots.pop, h.position.setIfInBounds (h.slotAt p) none, h.keys⟩,
      ⟨rfl, hsize, by simp, fun q hq => ?_, fun d hd => ?_⟩, by rw [if_neg hlt, if_neg hlt]⟩
    · rw [slotAt, hpop q hq, Option.getD_some, if_neg (by omega)]
    · rw [if_neg fun h => hlt h.1, Array.getElem?_setIfInBounds]
      grind

/-- A candidate leaves the heap, and the others keep their break values. -/
theorem Heaped.delete_ok (hr : Orders r) (hv : h.Heaped r n) {c : Nat} (hhas : h.Has c) :
    ∃ h', h.delete c = .ok h' ∧ h'.Heaped r n ∧ (∀ d, h'.Has d ↔ d ≠ c ∧ h.Has d) ∧ h'.keys = h.keys := by
  obtain ⟨p, hpl, rfl⟩ := hhas
  obtain ⟨last, hlast⟩ : ∃ last, last + 1 = h.slots.size := ⟨h.slots.size - 1, by omega⟩
  obtain ⟨g, hg, hstart⟩ := hv.delete_eq hpl hlast
  have hplaced := hg.placed hv.toPlaced hpl hlast
  have hhas := hg.has_iff hv.toPlaced hpl hlast
  rw [hstart]
  by_cases hlt : p < last
  · obtain ⟨h₁, q, h₂, hsift₁, hpos, hsift₂, hv₂, hs₂⟩ := hplaced.sift_ok hr (p := p) (by rw [hg.size]; exact hlt)
      (fun q hq0 hql hqp hkid => by
        rw [hg.size] at hql
        exact (hg.inOrderBy_iff (by omega) hql hkid hqp).2 (hv.ordered q hq0 (by omega)))
      (fun q hql hp0 hq0 hkid => by
        rw [hg.size] at hql
        exact (hg.inOrderBy_iff (by omega) hql (by omega) (by omega)).2
          ((hv.downOrder p).around q (by omega) hp0 hq0 hkid))
    rw [hg.slot p hlt, if_pos rfl] at hpos
    refine ⟨h₂, ?_, hv₂, fun d => (hs₂.has_iff d).trans (hhas d), hs₂.keys.trans hg.keys⟩
    rw [if_pos hlt, hsift₁, ok_bind, hpos, ok_bind]
    exact hsift₂
  · refine ⟨g, if_neg hlt, ⟨hplaced, fun q hq0 hql => ?_⟩, hhas, hg.keys⟩
    rw [hg.size] at hql
    exact (hg.inOrderBy_iff (by omega) hql (by omega) (by omega)).2 (hv.ordered q hq0 (by omega))

/-- The first candidate is taken out. -/
theorem Heaped.popMin_ok (hr : Orders r) (hv : h.Heaped r n) {c : Nat} {key : α}
    (hpeek : h.peekMin = .ok (some (c, key))) (hhas : h.Has c) : ∃ h', h.popMin = .ok (some (c, key), h') ∧ h'.Heaped r n ∧
      (∀ d, h'.Has d ↔ d ≠ c ∧ h.Has d) ∧ h'.keys = h.keys := by
  obtain ⟨h', hdel, hv', hhas', hkeys⟩ := hv.delete_ok hr hhas
  refine ⟨h', ?_, hv', hhas', hkeys⟩
  rw [popMin, hpeek, ok_bind]
  dsimp only
  rw [hdel, ok_bind]
  rfl

/-- The positions of some candidates are taken away. -/
theorem foldlM_store_none {cs : List Nat} {ps : Array (Option Nat)} (hcs : ∀ c ∈ cs, c < ps.size) :
    ∃ ps', cs.foldlM (fun ps c => store ps c none) ps = .ok ps' ∧ ps'.size = ps.size ∧
      ∀ c, ps'[c]? = if c ∈ cs then some none else ps[c]? := by
  induction cs generalizing ps with
  | nil => exact ⟨ps, rfl, rfl, fun c => by simp⟩
  | cons d cs ih =>
      have hd := hcs d List.mem_cons_self
      obtain ⟨ps', hok, hsize, hget⟩ := @ih (ps.setIfInBounds d none) fun c hc => by
        rw [Array.size_setIfInBounds]
        exact hcs c (List.mem_cons_of_mem d hc)
      refine ⟨ps', ?_, hsize.trans Array.size_setIfInBounds, fun c => ?_⟩
      · rw [List.foldlM_cons, store_of_lt' _ hd, ok_bind, hok]
      · rw [hget, Array.getElem?_setIfInBounds]
        by_cases hcd : c = d
        · rw [hcd, if_pos rfl, if_pos hd, ite_self, if_pos List.mem_cons_self]
        · rw [if_neg (Ne.symm hcd)]
          simp only [List.mem_cons, hcd, false_or]

/-- No candidate is left in a cleared heap. -/
theorem Heaped.clear_ok (hv : h.Heaped r n) :
    ∃ h', h.clear = .ok h' ∧ h'.Heaped r n ∧ (∀ d, ¬ h'.Has d) ∧ h'.slots.size = 0 := by
  obtain ⟨position, hpos, hsize, hget⟩ := @foldlM_store_none h.slots.toList h.position fun c hc => by
    rw [hv.size_position]
    exact (mem_slots.1 hc).lt hv.toPlaced
  have hall : ∀ c < n, position[c]? = some none := fun c hc => by
    rw [hget]
    split_ifs with hmem
    · rfl
    · exact fetch_eq_ok_iff.1 (hv.fetch_position_none hc fun hhas => hmem (mem_slots.2 hhas))
  refine ⟨⟨#[], position, h.keys⟩, ?_, ⟨⟨hsize.trans hv.size_position, hv.size_keys, fun p hp => absurd hp (by simp),
    fun c hc p => ?_⟩, fun q _ hq => absurd hq (by simp)⟩, ?_, rfl⟩
  · rw [clear, ← Array.foldlM_toList, hpos, ok_bind]
    rfl
  · rw [hall c hc]
    simp
  · rintro d ⟨p, hp, -⟩
    simp at hp

/-- As many candidates have a position as there are slots. -/
theorem Placed.countP_position (hp : h.Placed n) : h.position.countP Option.isSome = h.slots.size := by
  have hlist : h.position.toList = (List.range n).map fun c => h.position[c]?.join := by
    refine List.ext_getElem (by simp [hp.size_position]) fun c hc _ => ?_
    rw [Array.length_toList] at hc
    simp [hc]
  have hperm : ((List.range n).filter fun c => h.position[c]?.join.isSome).Perm h.slots.toList := by
    refine (List.perm_ext_iff_of_nodup (List.nodup_range.filter _) hp.nodup_slots).2 fun c => ?_
    rw [List.mem_filter, List.mem_range, mem_slots, Option.isSome_iff_exists]
    simp only [Option.join_eq_some_iff]
    constructor
    · rintro ⟨hc, p, hpos⟩
      exact ⟨p, (hp.position_iff c hc p).1 hpos⟩
    · intro hc
      have hlt := hc.lt hp
      obtain ⟨p, hpl⟩ := hc
      exact ⟨hlt, p, (hp.position_iff c hlt p).2 hpl⟩
  rw [← Array.countP_toList, hlist, List.countP_map, List.countP_eq_length_filter, ← Array.length_toList]
  exact hperm.length_eq

theorem Heaped.isValid_ok (hr : Orders r) (hv : h.Heaped r n) : h.isValid = .ok true := by
  have hordered : ((List.range (h.slots.size - 1)).allM fun p => do return !(← h.slotLess (p + 1) (p / 2))) =
      .ok true := by
    rw [allM_of_forall (p := fun _ => true) fun p hp => ?_, List.all_eq_true.2 fun _ _ => rfl]
    have hp := List.mem_range.1 hp
    have hle := hv.ordered (p + 1) (Nat.succ_pos p) (by omega)
    rw [InOrderBy, Nat.add_sub_cancel] at hle
    rw [hv.slotLess_eq hr (by omega) (by omega), ok_bind, decide_eq_false (not_lt.2 hle)]
    rfl
  have hplaced : ((List.range h.slots.size).allM fun p => do
      return (← fetch h.position (← fetch h.slots p)) == some p) = .ok true := by
    rw [allM_of_forall (p := fun _ => true) fun p hp => ?_, List.all_eq_true.2 fun _ _ => rfl]
    have hp := List.mem_range.1 hp
    rw [fetch_slot hp, ok_bind, hv.fetch_position hp, ok_bind, beq_self_eq_true]
    rfl
  rw [isValid, hordered, ok_bind, hplaced, ok_bind, hv.countP_position, beq_self_eq_true]
  rfl

end Ordered

section Exact

variable {h h' : BreakHeap K} {n : Nat}

/-- A field is ordered by its own values. -/
theorem orders_id : Orders (id : K → K) :=
  ⟨fun _ _ => Iff.rfl, fun _ _ => decide_eq_true_iff⟩

theorem Valid.heaped (hv : h.Valid n) : h.Heaped id n :=
  ⟨hv.toPlaced, hv.ordered⟩

theorem Heaped.valid (hv : h.Heaped id n) : h.Valid n :=
  ⟨hv.toPlaced, hv.ordered⟩

theorem key_le_of_rank_le {a b : Nat} (hle : h.rank a ≤ h.rank b) : coord h.keys a ≤ coord h.keys b := by
  rw [rank, rank, Prod.Lex.toLex_le_toLex] at hle
  rcases hle with hlt | ⟨heq, -⟩
  · exact hlt.le
  · exact heq.le

theorem valid_empty (n : Nat) : (empty n : BreakHeap K).Valid n :=
  (heaped_empty n).valid

theorem Valid.peekMin_eq (hv : h.Valid n) : (h.slots.size = 0 ∧ h.peekMin = .ok none) ∨
    ∃ c, h.peekMin = .ok (some (c, coord h.keys c)) ∧ h.Has c ∧ ∀ d, h.Has d → h.rank c ≤ h.rank d :=
  hv.heaped.peekMin_eq

theorem Valid.insert_ok (hv : h.Valid n) {c : Nat} (hc : c < n) (hnot : ¬ h.Has c) (key : K) :
    ∃ h', h.insert c key = .ok h' ∧ h'.Valid n ∧ (∀ d, h'.Has d ↔ d = c ∨ h.Has d) ∧
      h'.keys = h.keys.setIfInBounds c key := by
  obtain ⟨h', hok, hv', hrest⟩ := hv.heaped.insert_ok orders_id hc hnot key
  exact ⟨h', hok, hv'.valid, hrest⟩

theorem Valid.update_ok (hv : h.Valid n) {c : Nat} (hhas : h.Has c) (key : K) :
    ∃ h', h.update c key = .ok h' ∧ h'.Valid n ∧ (∀ d, h'.Has d ↔ h.Has d) ∧
      h'.keys = h.keys.setIfInBounds c key := by
  obtain ⟨h', hok, hv', hrest⟩ := hv.heaped.update_ok orders_id hhas key
  exact ⟨h', hok, hv'.valid, hrest⟩

theorem Valid.delete_ok (hv : h.Valid n) {c : Nat} (hhas : h.Has c) :
    ∃ h', h.delete c = .ok h' ∧ h'.Valid n ∧ (∀ d, h'.Has d ↔ d ≠ c ∧ h.Has d) ∧ h'.keys = h.keys := by
  obtain ⟨h', hok, hv', hrest⟩ := hv.heaped.delete_ok orders_id hhas
  exact ⟨h', hok, hv'.valid, hrest⟩

theorem Valid.popMin_ok (hv : h.Valid n) {c : Nat} {key : K} (hpeek : h.peekMin = .ok (some (c, key)))
    (hhas : h.Has c) : ∃ h', h.popMin = .ok (some (c, key), h') ∧ h'.Valid n ∧
      (∀ d, h'.Has d ↔ d ≠ c ∧ h.Has d) ∧ h'.keys = h.keys := by
  obtain ⟨h', hok, hv', hrest⟩ := hv.heaped.popMin_ok orders_id hpeek hhas
  exact ⟨h', hok, hv'.valid, hrest⟩

theorem Valid.clear_ok (hv : h.Valid n) :
    ∃ h', h.clear = .ok h' ∧ h'.Valid n ∧ (∀ d, ¬ h'.Has d) ∧ h'.slots.size = 0 := by
  obtain ⟨h', hok, hv', hrest⟩ := hv.heaped.clear_ok
  exact ⟨h', hok, hv'.valid, hrest⟩

/-- The break value of a candidate in the heap. -/
def keyAt (h : BreakHeap K) (c : Nat) : Option K :=
  h.position[c]?.join.map fun _ => coord h.keys c

theorem Placed.keyAt_eq_some_iff (hp : h.Placed n) {c : Nat} {v : K} :
    h.keyAt c = some v ↔ h.Has c ∧ coord h.keys c = v := by
  rw [keyAt, Option.map_eq_some_iff]
  constructor
  · rintro ⟨p, hjoin, hv⟩
    have hpos : h.position[c]? = some (some p) := Option.join_eq_some_iff.1 hjoin
    have hc : c < n := hp.size_position ▸ (Array.getElem?_eq_some_iff.1 hpos).1
    exact ⟨⟨p, (hp.position_iff c hc p).1 hpos⟩, hv⟩
  · rintro ⟨⟨p, hpl, rfl⟩, hv⟩
    exact ⟨p, Option.join_eq_some_iff.2 ((hp.position_iff _ (hp.slot_lt p hpl) p).2 ⟨hpl, rfl⟩), hv⟩

theorem Placed.keyAt_eq_none_iff (hp : h.Placed n) {c : Nat} : h.keyAt c = none ↔ ¬ h.Has c := by
  rw [Option.eq_none_iff_forall_ne_some]
  constructor
  · intro hne hhas
    exact hne _ (hp.keyAt_eq_some_iff.2 ⟨hhas, rfl⟩)
  · intro hnot v hv
    exact hnot (hp.keyAt_eq_some_iff.1 hv).1

theorem Placed.keyAt_ext (hp : h.Placed n) {c : Nat} {o : Option K}
    (ho : ∀ v, o = some v ↔ h.Has c ∧ coord h.keys c = v) : h.keyAt c = o := by
  refine Option.ext fun v => ?_
  rw [ho v]
  exact hp.keyAt_eq_some_iff

theorem Placed.keyAt_of_set (hp : h.Placed n) (hp' : h'.Placed n) {c : Nat} {key : K} (hc : c < n)
    (hhas : ∀ d, h'.Has d ↔ d = c ∨ h.Has d) (hkeys : h'.keys = h.keys.setIfInBounds c key) (d : Nat) :
    h'.keyAt d = if d = c then some key else h.keyAt d := by
  refine hp'.keyAt_ext fun v => ?_
  rw [hhas, hkeys, coord_setIfInBounds, hp.size_keys]
  by_cases hdc : d = c
  · simp [hdc, hc]
  · simp [hdc, hp.keyAt_eq_some_iff]

theorem Placed.keyAt_of_delete (hp : h.Placed n) (hp' : h'.Placed n) {c : Nat}
    (hhas : ∀ d, h'.Has d ↔ d ≠ c ∧ h.Has d) (hkeys : h'.keys = h.keys) (d : Nat) :
    h'.keyAt d = if d = c then none else h.keyAt d := by
  refine hp'.keyAt_ext fun v => ?_
  rw [hhas, hkeys]
  by_cases hdc : d = c
  · simp [hdc]
  · simp [hdc, hp.keyAt_eq_some_iff]

theorem Placed.of_contains (hp : h.Placed n) {c : Nat} {b : Bool} (hok : h.contains c = .ok b) :
    c < n ∧ b = (h.keyAt c).isSome := by
  rw [contains, bind_eq_ok_iff] at hok
  obtain ⟨link, hlink, hok⟩ := hok
  refine ⟨hp.size_position ▸ follow_lt hlink, ?_⟩
  rw [fetch_eq_ok_iff] at hlink
  rw [pure_eq_ok_iff] at hok
  rw [keyAt, hlink, ← hok]
  cases link <;> rfl

/-- Only a candidate that is not in the heap can be added. -/
theorem Valid.of_insert (hv : h.Valid n) {c : Nat} {key : K} (hok : h.insert c key = .ok h') :
    c < n ∧ h.keyAt c = none ∧ h'.Valid n ∧ ∀ d, h'.keyAt d = if d = c then some key else h.keyAt d := by
  have hok' := hok
  unfold insert at hok'
  simp only [bind_eq_ok_iff, require_eq_ok] at hok'
  obtain ⟨b, hb, _, hnot, -⟩ := hok'
  obtain ⟨hc, rfl⟩ := hv.of_contains hb
  have hnone : h.keyAt c = none := by simpa using hnot
  obtain ⟨g, hg, hvalid, hhas, hkeys⟩ := hv.insert_ok hc (hv.keyAt_eq_none_iff.1 hnone) key
  rw [hok, Except.ok.injEq] at hg
  subst hg
  exact ⟨hc, hnone, hvalid, hv.keyAt_of_set hvalid.toPlaced hc hhas hkeys⟩

theorem Valid.of_update (hv : h.Valid n) {c : Nat} {key : K} (hsome : (h.keyAt c).isSome = true)
    (hok : h.update c key = .ok h') :
    h'.Valid n ∧ ∀ d, h'.keyAt d = if d = c then some key else h.keyAt d := by
  obtain ⟨v, hkey⟩ := Option.isSome_iff_exists.1 hsome
  have hhas := (hv.keyAt_eq_some_iff.1 hkey).1
  obtain ⟨g, hg, hvalid, hhas', hkeys⟩ := hv.update_ok hhas key
  rw [hok, Except.ok.injEq] at hg
  subst hg
  refine ⟨hvalid, hv.keyAt_of_set hvalid.toPlaced (hhas.lt hv.toPlaced) (fun d => ?_) hkeys⟩
  rw [hhas' d]
  exact ⟨.inr, fun h' => h'.elim (fun h' => h' ▸ hhas) id⟩

theorem Valid.of_delete (hv : h.Valid n) {c : Nat} (hsome : (h.keyAt c).isSome = true)
    (hok : h.delete c = .ok h') : h'.Valid n ∧ ∀ d, h'.keyAt d = if d = c then none else h.keyAt d := by
  obtain ⟨v, hkey⟩ := Option.isSome_iff_exists.1 hsome
  obtain ⟨g, hg, hvalid, hhas, hkeys⟩ := hv.delete_ok (hv.keyAt_eq_some_iff.1 hkey).1
  rw [hok, Except.ok.injEq] at hg
  subst hg
  exact ⟨hvalid, hv.keyAt_of_delete hvalid.toPlaced hhas hkeys⟩

/-- What is seen first is in the heap and has the least break value. -/
theorem Valid.of_peekMin (hv : h.Valid n) {c : Nat} {key : K} (hok : h.peekMin = .ok (some (c, key))) :
    h.keyAt c = some key ∧ ∀ d v, h.keyAt d = some v → key ≤ v := by
  rcases hv.peekMin_eq with ⟨-, hpeek⟩ | ⟨d, hpeek, hhas, hmin⟩
  · rw [hok] at hpeek
    cases hpeek
  · rw [hok, Except.ok.injEq, Option.some.injEq, Prod.mk.injEq] at hpeek
    obtain ⟨rfl, rfl⟩ := hpeek
    refine ⟨hv.keyAt_eq_some_iff.2 ⟨hhas, rfl⟩, fun d v hd => ?_⟩
    obtain ⟨hhasd, rfl⟩ := hv.keyAt_eq_some_iff.1 hd
    exact key_le_of_rank_le (hmin d hhasd)

theorem Valid.of_peekMin_none (hv : h.Valid n) (hok : h.peekMin = .ok none) (d : Nat) : h.keyAt d = none := by
  rw [hv.keyAt_eq_none_iff]
  rcases hv.peekMin_eq with ⟨hsize, -⟩ | ⟨d, hpeek, -, -⟩
  · rintro ⟨p, hp, -⟩
    omega
  · rw [hok] at hpeek
    cases hpeek

theorem Valid.size_eq_zero_iff (hv : h.Valid n) : h.size = 0 ↔ ∀ d, h.keyAt d = none := by
  simp only [hv.keyAt_eq_none_iff, Has, size]
  constructor
  · rintro hsize d ⟨p, hp, -⟩
    omega
  · intro hnone
    by_contra hne
    exact hnone (h.slotAt 0) ⟨0, Nat.pos_of_ne_zero hne, rfl⟩

/-- Which candidate is seen first depends on the break values only. -/
theorem Valid.peekMin_congr (hv : h.Valid n) (hv' : h'.Valid n) (hkeys : ∀ d, h'.keyAt d = h.keyAt d) :
    h'.peekMin = h.peekMin := by
  have hsame : ∀ d, h.Has d → h'.Has d ∧ coord h'.keys d = coord h.keys d := fun d hd => by
    rw [← hv'.keyAt_eq_some_iff, hkeys, hv.keyAt_eq_some_iff]
    exact ⟨hd, rfl⟩
  have hempty : h.slots.size = 0 ↔ h'.slots.size = 0 := by
    have hsize := hv'.size_eq_zero_iff
    simp only [hkeys] at hsize
    exact hv.size_eq_zero_iff.trans hsize.symm
  rcases hv.peekMin_eq with ⟨hsize, hpeek⟩ | ⟨c, hpeek, hhas, hmin⟩
  · rcases hv'.peekMin_eq with ⟨-, hpeek'⟩ | ⟨c', -, ⟨p, hp, -⟩, -⟩
    · rw [hpeek, hpeek']
    · rw [hempty.1 hsize] at hp
      cases hp
  · obtain ⟨hhas', hkey⟩ := hsame c hhas
    rcases hv'.peekMin_eq with ⟨hsize', -⟩ | ⟨c', hpeek', hin', hmin'⟩
    · obtain ⟨p, hp, -⟩ := hhas
      rw [hempty.2 hsize'] at hp
      cases hp
    · -- each of the two is not ranked behind the other
      have hin : h.Has c' := by
        by_contra hnot
        have hnone := hv.keyAt_eq_none_iff.2 hnot
        rw [← hkeys] at hnone
        exact hv'.keyAt_eq_none_iff.1 hnone hin'
      have hle := hmin c' hin
      have hle' := hmin' c hhas'
      rw [rank, rank, hkey, (hsame c' hin).2] at hle'
      have hrank := le_antisymm hle hle'
      obtain rfl : c = c' := congrArg Prod.snd (toLex.injective hrank)
      rw [hpeek, hpeek', hkey]

theorem Valid.of_popMin (hv : h.Valid n) {c : Nat} {key : K} {r : Option (Nat × K)}
    (hpeek : h.peekMin = .ok (some (c, key))) (hok : h.popMin = .ok (r, h')) :
    h'.Valid n ∧ ∀ d, h'.keyAt d = if d = c then none else h.keyAt d := by
  obtain ⟨g, hg, hvalid, hhas, hkeys⟩ := hv.popMin_ok hpeek (hv.keyAt_eq_some_iff.1 (hv.of_peekMin hpeek).1).1
  rw [hok, Except.ok.injEq, Prod.mk.injEq] at hg
  obtain ⟨-, rfl⟩ := hg
  exact ⟨hvalid, hv.keyAt_of_delete hvalid.toPlaced hhas hkeys⟩

theorem Valid.of_clear (hv : h.Valid n) (hok : h.clear = .ok h') : h'.Valid n ∧ ∀ d, h'.keyAt d = none := by
  obtain ⟨g, hg, hvalid, hhas, -⟩ := hv.clear_ok
  rw [hok, Except.ok.injEq] at hg
  subst hg
  exact ⟨hvalid, fun d => hvalid.keyAt_eq_none_iff.2 (hhas d)⟩

end Exact

end PolyProjection.BreakHeap
