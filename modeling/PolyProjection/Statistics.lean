/-! Counts over all runs of an engine. -/

namespace PolyProjection

structure Statistics where
  runs : Nat
  sweeps : Nat
  jobs : Nat
  factorizations : Nat
  /-- Changes of the factor by one row or column. -/
  updates : Nat
  rowsAdded : Nat
  rowsDropped : Nat
  colsFreed : Nat
  colsBound : Nat
  /-- Pairs of a forward and a back solve. -/
  solves : Nat
  deriving DecidableEq, Repr

def Statistics.zero : Statistics :=
  ⟨0, 0, 0, 0, 0, 0, 0, 0, 0, 0⟩

end PolyProjection
