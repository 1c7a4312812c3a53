import GcScope.Monitor.Cursor

/-!
# Reconstructing the Collections a poll never got to read

`account` prices a ring's span from the cumulative totals at its two ends, against what was read of
it in between.

* `secsToNs`: seconds in the nanoseconds everything downstream counts in.
* `account`: the account of one accumulator.
* `account_of_priced`: the account of a span whose pauses are priced.
-/

set_option autoImplicit false

namespace GcScope

open MachineInt

/-- What one ring did over its accounted span, against what was read of it. -/
structure LossAccount (F : Type) where
  exactCollections : ℤ
  observedCollections : ℤ
  lostCollections : ℤ
  /-- The observed share of the span. -/
  coverage : F
  exactPauseNs : Option ℤ
  measuredPauseNs : Option ℤ
  lostPauseNs : Option ℤ
  scaleFactor : Option F
  deriving DecidableEq

variable {F : Type} [F64 F]

/-- The account for a ring nothing has been read from. -/
def unobserved : LossAccount F := ⟨0, 0, 0, F64.ofInt 1, none, none, none, none⟩

def secsToNs (secs : F) : ℤ := F64.toI64 (F64.round (F64.mul secs (F64.ofInt 1000000000)))

/-- Account for what one ring did against what was read of it. -/
def account (observation : RingObservation F) : LossAccount F :=
  if observation.isEmpty then unobserved
  else
    let first := observation.first
    let last := observation.last
    let timed := observation.timed
    let exactCollections :=
      wrap64 (wrap64 (last.collections - first.collections) + if timed then 1 else 0)
    let observedCollections := if timed then wrap64 observation.sampled else 0
    let coverage : F :=
      if timed then F64.div (F64.ofInt observedCollections) (F64.ofInt exactCollections)
      else F64.ofInt 0
    let account : LossAccount F :=
      { unobserved with
        exactCollections
        observedCollections
        lostCollections := wrap64 (exactCollections - observedCollections)
        coverage }
    if !timed then account
    else
      let measured := observation.measuredPauseNs
      let account := { account with measuredPauseNs := some measured }
      if observation.pricesPause then
        let delta := F64.sub last.duration first.duration
        let spanned :=
          if F64.isFinite delta then saturatingAdd64 (secsToNs delta) observation.firstPauseNs
          else measured
        let exact := max spanned measured
        { account with
          exactPauseNs := some exact
          lostPauseNs := some (wrap64 (exact - measured))
          scaleFactor := some (F64.div (F64.ofInt exact) (F64.ofInt measured)) }
      else account

theorem account_of_priced {o : RingObservation F} (he : o.isEmpty = false) (ht : o.timed = true)
    (hp : o.pricesPause = true) :
    let span := wrap64 (wrap64 (o.last.collections - o.first.collections) + 1)
    let delta := F64.sub o.last.duration o.first.duration
    (account o).exactCollections = span ∧
      (account o).observedCollections = wrap64 o.sampled ∧
      (account o).lostCollections = wrap64 (span - wrap64 o.sampled) ∧
      (account o).measuredPauseNs = some o.measuredPauseNs ∧
      (account o).exactPauseNs = some (max (if F64.isFinite delta then
        saturatingAdd64 (secsToNs delta) o.firstPauseNs else o.measuredPauseNs)
          o.measuredPauseNs) := by
  simp [account, he, ht, hp]

end GcScope
