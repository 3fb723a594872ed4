import Mathlib.Algebra.GroupWithZero.Nat

/-!
# Sizes of small tables

A literal of `Fin n` needs that `n` is not zero. Here is one instance for each size that is used.
-/

instance neZeroThree : NeZero 3 := ⟨by decide⟩

instance neZeroFour : NeZero 4 := ⟨by decide⟩

instance neZeroEight : NeZero 8 := ⟨by decide⟩

instance neZeroTwelve : NeZero 12 := ⟨by decide⟩

instance neZeroSixteen : NeZero 16 := ⟨by decide⟩

instance neZeroThirtyTwo : NeZero 32 := ⟨by decide⟩
