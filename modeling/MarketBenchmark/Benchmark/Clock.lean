import MarketBenchmark.Model

/-!
# Clock health

The last clock sample and its assessment at a publication.  Offsets and error
bounds are rational; a reading that is not finite is `none`.
-/

namespace MarketBenchmark

/-- `CLOCK_SAMPLE_MAX_AGE.as_millis()`. -/
def clockSampleMaxAgeMs : Nat := 30000

structure ClockHealthSnapshot where
  checkedAtWallMs : Nat
  verified : Bool
  synchronized : Bool
  offsetMs : Option Rat
  errorBoundMs : Option Rat
  maxOffsetMs : Rat
  deriving DecidableEq, Repr

structure ClockAssessment where
  healthy : Bool
  status : String
  ageMs : Option Nat
  deriving DecidableEq, Repr

def ClockHealthSnapshot.assess (clock : ClockHealthSnapshot) (wallNowMs : Nat) :
    ClockAssessment :=
  let ageMs :=
    if 0 < clock.checkedAtWallMs ∧ clock.checkedAtWallMs ≤ wallNowMs then
      some (wallNowMs - clock.checkedAtWallMs)
    else none
  let unhealthy := fun status : String => ClockAssessment.mk false status ageMs
  let fresh :=
    match ageMs with
    | none => false
    | some age => decide (age ≤ clockSampleMaxAgeMs)
  if !fresh then unhealthy "clock-check-stale"
  else if !clock.verified then unhealthy "clock-unverified"
  else if !clock.synchronized then unhealthy "clock-unsynchronized"
  else
    match clock.offsetMs with
    | none => unhealthy "clock-unverified"
    | some offset =>
        if clock.maxOffsetMs < |offset| then unhealthy "clock-offset-exceeded"
        else
          match clock.errorBoundMs with
          | none => unhealthy "clock-unverified"
          | some errorBound =>
              if clock.maxOffsetMs < errorBound then unhealthy "clock-error-bound-exceeded"
              else { healthy := true, status := "healthy", ageMs := ageMs }

end MarketBenchmark
