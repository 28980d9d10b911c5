import Mathlib

/-!
# Means that are rounded down

The values of several weights at their prices are rounded down to a unit `u` one by one, and their sum is divided by
the sum of the weights and rounded down again.
-/

namespace Mean

/-! ## Sums of quotients -/

end Mean
