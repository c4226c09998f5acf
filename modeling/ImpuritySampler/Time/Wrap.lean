import ImpuritySampler.Decimal.Binary
import ImpuritySampler.Scalar.Binary64
import ImpuritySampler.Time.Cycle

/-!
# Real times on the cycle

A real time is reduced modulo the period without rounding, divided by the period and rounded to the
nearest tick.
-/

set_option autoImplicit false

namespace ImpuritySampler

/-- Remainder of the division that truncates, exact and with the sign of `x`. -/
def Binary64.remainder (x y : Float) : Float :=
  match Decimal.Binary.ofFloat x, Decimal.Binary.ofFloat y with
  | .finite negative m e, .finite _ n f =>
    let low := min e f
    Decimal.Binary.toFloat negative
      ((m * Nat.pow 2 (e - low).toNat) % (n * Nat.pow 2 (f - low).toNat)) low
  | .finite .., .infinite _ => x
  | _, _ => 0 / 0

namespace Time

def ofFloat (tau beta : Float) : Outcome Float (Time Float) := do
  requirePeriod beta
  Outcome.require tau.isFinite (.timeNotFinite tau)
  let r := Binary64.remainder tau beta
  let fraction := (if r < 0 then r + beta else r) / beta
  pure ⟨Scalar.round (fraction * (ticksPerPeriod : Float)) % ticksPerPeriod, beta⟩

end Time
end ImpuritySampler
