/-!
Powers of natural numbers.
-/

namespace MorphLex.Power

/-- Powers are those of the core library, also where the algebraic ones are at hand. -/
scoped instance (priority := high) powers : Pow Nat Nat := instPowNat

end MorphLex.Power
