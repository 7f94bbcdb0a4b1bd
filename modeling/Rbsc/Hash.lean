import Mathlib

/-!
# The mixing function

`randomize` stands in both programs: three xor-shifts, four multiplications by odd constants and a
rotation.  Each of them is injective on the 64-bit words, so `randomize` is.
-/

namespace Rbsc

/-- `uint64_t`. -/
abbrev Word := BitVec 64

/-- `uint64_t randomize(uint64_t z)`. -/
def randomize (z : Word) : Word :=
  let z := z + 0x9e3779b97f4a7c15#64
  let z := (z ^^^ (z >>> 30)) * 0xbf58476d1ce4e5b9#64
  let z := (z ^^^ (z >>> 27)) * 0x94d049bb133111eb#64
  let z := (z ^^^ (z >>> 31)) * 5#64
  ((z <<< 7) ||| (z >>> (64 - 7))) * 9#64

/-- The top bits of `x ^ (x >> k)` are those of `x`, and every other bit of `x` is read off it
with the help of a higher one. -/
theorem xorShift_injective {k : ℕ} (hk : 0 < k) :
    Function.Injective fun x : Word => x ^^^ (x >>> k) := by
  intro x y h
  have hbit : ∀ i, (x.getLsbD i ^^ x.getLsbD (k + i)) = (y.getLsbD i ^^ y.getLsbD (k + i)) := by
    intro i
    have := congrArg (fun z : Word => z.getLsbD i) h
    simpa [BitVec.getLsbD_xor, BitVec.getLsbD_ushiftRight] using this
  -- from the top bit down
  have key : ∀ d i, 64 ≤ i + d → x.getLsbD i = y.getLsbD i := by
    intro d
    induction d with
    | zero =>
      intro i hi
      rw [BitVec.getLsbD_of_ge _ _ (by omega), BitVec.getLsbD_of_ge _ _ (by omega)]
    | succ d ih =>
      intro i hi
      have hhigh := ih (k + i) (by omega)
      have := hbit i
      rw [hhigh] at this
      exact Bool.xor_left_inj.1 this
  exact BitVec.eq_of_getLsbD_eq fun i _ => key 64 i (by omega)

theorem mul_injective {c d : Word} (h : c * d = 1) : Function.Injective fun x : Word => x * c := by
  intro x y hxy
  have : x * c * d = y * c * d := congrArg (· * d) hxy
  simpa [mul_assoc, h] using this

theorem rotate_injective : Function.Injective fun x : Word => (x <<< 7) ||| (x >>> (64 - 7)) := by
  intro x y h
  have hbit : ∀ i, ((x <<< 7) ||| (x >>> (64 - 7))).getLsbD i =
      ((y <<< 7) ||| (y >>> (64 - 7))).getLsbD i := fun i => congrArg (fun z : Word => z.getLsbD i) h
  refine BitVec.eq_of_getLsbD_eq fun i hi => ?_
  by_cases hlow : i < 57
  · have hx : x.getLsbD (57 + (i + 7)) = false := BitVec.getLsbD_of_ge _ _ (by omega)
    have hy : y.getLsbD (57 + (i + 7)) = false := BitVec.getLsbD_of_ge _ _ (by omega)
    have := hbit (i + 7)
    simpa [BitVec.getLsbD_or, BitVec.getLsbD_shiftLeft, BitVec.getLsbD_ushiftRight,
      show i + 7 < 64 by omega, hx, hy, BitVec.getLsbD_eq_getElem hi] using this
  · have := hbit (i - 57)
    simpa [BitVec.getLsbD_or, BitVec.getLsbD_shiftLeft, BitVec.getLsbD_ushiftRight,
      show i - 57 < 7 by omega, show i - 57 < 64 by omega, show 57 + (i - 57) = i by omega]
      using this

/-- **`randomize` tells all words apart.** -/
theorem randomize_injective : Function.Injective randomize := by
  have h₁ := mul_injective (c := 0xbf58476d1ce4e5b9#64) (d := 0x96de1b173f119089#64) (by decide)
  have h₂ := mul_injective (c := 0x94d049bb133111eb#64) (d := 0x319642b2d24d8ec3#64) (by decide)
  have h₃ := mul_injective (c := 5#64) (d := 0xcccccccccccccccd#64) (by decide)
  have h₄ := mul_injective (c := 9#64) (d := 0x8e38e38e38e38e39#64) (by decide)
  intro x y h
  have := xorShift_injective (by norm_num) (h₁ (xorShift_injective (by norm_num)
    (h₂ (xorShift_injective (by norm_num) (h₃ (rotate_injective (h₄ h)))))))
  exact add_right_cancel this

/-- The word that is mixed to `0` is large. -/
theorem randomize_ne_zero {x : Word} (hx : x.toNat < 2 ^ 62) : randomize x ≠ 0 := by
  intro h
  have h0 : randomize 0x61c8864680b583eb#64 = 0 := by decide
  rw [randomize_injective (h.trans h0.symm)] at hx
  exact absurd hx (by decide)

theorem randomize_add_injective (it : Word) : Function.Injective fun x => randomize (x + it) :=
  fun _ _ h => add_right_cancel (randomize_injective h)

end Rbsc
