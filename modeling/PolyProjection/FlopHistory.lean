/-! Decisions between a fresh factorization and updates of the old one, from the flops observed so far. Updates
of the root block are counted apart from all others, which are called partial. -/

namespace PolyProjection

/-- The cost of a numeric factorization. -/
structure FactorFlops where
  /-- Forming the active part of the normal matrix. -/
  aat : Float
  /-- The elimination alone. -/
  numeric : Float

def FactorFlops.total (f : FactorFlops) : Float :=
  f.aat + f.numeric

/-- Which cheap inner methods are worth a try before the engine. -/
structure CheapAdvice where
  coordinateAscent : Bool
  ssor : Bool
  deriving DecidableEq, Repr

def CheapAdvice.any (a : CheapAdvice) : Bool :=
  a.coordinateAscent || a.ssor

/-- The worth of an update flop in factorization flops, from the flops per nonzero of a factorization. -/
def updateSpeed (flops lnz : Float) : Float :=
  if lnz ≤ 0 then 1
  else
    let ratio := flops / lnz
    if ratio < 100 then 1 else if ratio < 500 then 0.6 else 0.3333

structure FlopHistory where
  /-- The elimination of the last factorization. -/
  cholFlops : Float
  /-- Forming the normal matrix at the last factorization. -/
  aatFlops : Float
  /-- Nonzeros of the factor after the last factorization. -/
  lnnz : Float
  rootFlops : Float
  rootCount : Nat
  partialFlops : Float
  partialCount : Nat
  /-- Partial updates since the last factorization. -/
  partialRecent : Nat
  /-- Whether there is a factorization. -/
  factored : Bool

namespace FlopHistory

def empty : FlopHistory :=
  ⟨0, 0, 0, 0, 0, 0, 0, 0, false⟩

def recordRefactor (h : FlopHistory) (flops : FactorFlops) (lnnz : Nat) : FlopHistory :=
  { h with
    cholFlops := flops.numeric
    aatFlops := flops.aat
    lnnz := Float.ofNat lnnz
    partialRecent := 0
    factored := true }

/-- Count a batch of `count` modifications that cost `flops` together. -/
def recordUpdate (h : FlopHistory) (flops : Float) (count : Nat) (isPartial : Bool) : FlopHistory :=
  if count = 0 then h
  else if isPartial then
    { h with
      partialFlops := h.partialFlops + flops
      partialCount := h.partialCount + count
      partialRecent := h.partialRecent + count }
  else { h with rootFlops := h.rootFlops + flops, rootCount := h.rootCount + count }

/-- Flops of one update of the root block, on average. -/
def rootRate (h : FlopHistory) : Float :=
  if 0 < h.rootCount then h.rootFlops / Float.ofNat h.rootCount else h.lnnz

/-- Flops of one partial update, on average. -/
def partialRate (h : FlopHistory) : Float :=
  if 0 < h.partialCount then h.partialFlops / Float.ofNat h.partialCount else 0

/-- Whether a fresh factorization is cheaper than `nmod` modifications of a system with `nactive` active rows.
Recent partial updates count on both sides. -/
def shouldRefactor (h : FlopHistory) (nactive nmod : Nat) : Bool :=
  if !h.factored || nactive ≤ 5 then true
  else
    let rate := h.rootRate
    let recent := Float.ofNat h.partialRecent
    let refactor := 2 * h.aatFlops + updateSpeed h.cholFlops h.lnnz * h.cholFlops + recent * h.partialRate
    let update := (Float.ofNat nmod + recent) * rate
    refactor ≤ update

/-- Flops of one update, from whichever updates there were. -/
def flopsPerUpdate (h : FlopHistory) : Float :=
  if 0 < h.partialCount then h.partialFlops / Float.ofNat h.partialCount
  else if 0 < h.rootCount then h.rootFlops / Float.ofNat h.rootCount
  else 4 * h.lnnz

/-- Whether sweeps over a matrix of `annz` nonzeros are expected to be cheaper than updates of the factor, or so
many rows are new that they should be tried anyway. -/
def cheapAdvice (h : FlopHistory) (coorCost ssorCost : Float) (annz nactive nrowadd : Nat) : CheapAdvice :=
  let flops := h.flopsPerUpdate
  let nnz := Float.ofNat annz
  let many : Bool := 10 < nactive && decide (0.1 * Float.ofNat nactive ≤ Float.ofNat nrowadd)
  ⟨coorCost * nnz ≤ flops || many, ssorCost * nnz ≤ flops || many⟩

end FlopHistory

end PolyProjection
