import Bimatrix.Random.Keystream

/-! # Uniform draws

Numbers below a bound, and payoffs between zero and ten, from numbers of 64 bits.
-/
namespace Bimatrix.Random

/-- The greatest low half with which the product of a draw and `n` is accepted.  It is `n` times a
power of two, less one, so that every value below `n` comes from equally many draws. -/
def zone (n : Nat) : Nat := (n <<< (63 - n.log2)) - 1

def scaled (v : UInt64) (n : Nat) : Nat := v.toNat * n / UInt64.size

theorem scaled_lt (v : UInt64) {n : Nat} (h : 0 < n) : scaled v n < n := by
  unfold scaled
  rw [Nat.div_lt_iff_lt_mul (by decide), Nat.mul_comm n]
  exact Nat.mul_lt_mul_of_pos_right v.toNat_lt_size h

def accepted (key : Key) (n : Nat) (i : Nat) : (tries : Nat) → UInt64
  | 0 => draw key i
  | tries + 1 =>
    let v := draw key i
    if v.toNat * n % UInt64.size ≤ zone n then v else accepted key n (i + 1) tries

/-- The number of draws after which a stream repeats: eight for each block. -/
def period : Nat := 8 * UInt64.size

def below (seed : UInt64) (n : Nat) (h : 0 < n) : Fin n :=
  ⟨scaled (accepted (keyOfSeed seed) n 0 period) n, scaled_lt _ h⟩

/-- The upper 52 bits of a draw as the fraction of a number in `[1, 2)`, moved to `[0, 10)`. -/
def payoffOfDraw (v : UInt64) : Float :=
  (Float.ofBits ((0x3FF0000000000000 : UInt64) ||| (v >>> 12)) - 1) * 10 + 0

end Bimatrix.Random
