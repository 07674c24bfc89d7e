import Mathlib.Tactic

/-! Delays between attempts: doubled after each one, up to a cap; and a word generator for jitter, a
counter that is stepped by an odd constant and mixed by invertible operations, so that no word comes
twice before all of them have come. -/

namespace Backoff

variable {first cap : Nat}

/-- The delay after so many failed attempts. -/
def delay (first cap : Nat) : Nat → Nat
  | 0 => first
  | n + 1 => min (delay first cap n * 2) cap

/-- All delays up to the `n`-th. -/
def total (first cap n : Nat) : Nat := ((List.range n).map (delay first cap)).sum

theorem total_succ (n : Nat) : total first cap (n + 1) = total first cap n + delay first cap n := by
  rw [total, List.range_succ, List.map_append, List.sum_append, total, List.map_singleton,
    List.sum_singleton]

theorem total_mono {m n : Nat} (h : m ≤ n) : total first cap m ≤ total first cap n := by
  induction n with
  | zero =>
      obtain rfl : m = 0 := by omega
      exact le_refl _
  | succ n ih =>
      rw [total_succ]
      rcases Nat.lt_or_ge n m with hgt | hle
      · obtain rfl : m = n + 1 := by omega
        rw [total_succ]
      · exact (ih hle).trans (Nat.le_add_right _ _)

section Words

variable {w : Nat}

theorem xor_shift_injective {k : Nat} (hk : 0 < k) :
    Function.Injective fun x : BitVec w => x ^^^ (x >>> k) := by
  intro x y h
  -- the difference of the two words is its own shift
  have hshift : (x ^^^ y) >>> k = x ^^^ y := by
    have hxor : x ^^^ (x >>> k) ^^^ (y ^^^ (y >>> k)) = 0#w := by
      show x ^^^ (x >>> k) ^^^ (y ^^^ (y >>> k)) = 0#w
      rw [show x ^^^ (x >>> k) = y ^^^ (y >>> k) from h, BitVec.xor_self]
    have hmix : (x ^^^ y) ^^^ ((x ^^^ y) >>> k) = 0#w := by
      rw [BitVec.ushiftRight_xor_distrib, ← hxor]
      ac_rfl
    exact (BitVec.xor_eq_zero_iff.mp hmix).symm
  have hzero : (x ^^^ y).toNat = 0 := by
    have hnat := congrArg BitVec.toNat hshift
    rw [BitVec.toNat_ushiftRight, Nat.shiftRight_eq_div_pow] at hnat
    by_contra hne
    have hlt : (x ^^^ y).toNat / 2 ^ k < (x ^^^ y).toNat :=
      Nat.div_lt_self (Nat.pos_of_ne_zero hne) (Nat.one_lt_two_pow hk.ne')
    omega
  exact BitVec.xor_eq_zero_iff.mp (BitVec.eq_of_toNat_eq hzero)

theorem mul_injective {c : BitVec w} (inverse : BitVec w) (h : c * inverse = 1#w) :
    Function.Injective fun x : BitVec w => x * c := by
  intro x y hxy
  have hmul : x * c * inverse = y * c * inverse := congrArg (· * inverse) hxy
  rwa [BitVec.mul_assoc, BitVec.mul_assoc, h, BitVec.mul_one, BitVec.mul_one] at hmul

/-- The counter after so many steps. -/
def counter (start step : BitVec w) (n : Nat) : BitVec w := start + BitVec.ofNat w n * step

theorem counter_zero (start step : BitVec w) : counter start step 0 = start := by
  rw [counter, BitVec.zero_mul, BitVec.add_zero]

theorem counter_succ (start step : BitVec w) (n : Nat) :
    counter start step (n + 1) = counter start step n + step := by
  rw [counter, counter, BitVec.add_assoc]
  congr 1
  rw [BitVec.ofNat_add, BitVec.add_mul]
  congr 1
  exact BitVec.one_mul step

/-- A step with an inverse visits every word before one comes twice. -/
theorem counter_injOn {start step : BitVec w} (inverse : BitVec w) (h : step * inverse = 1#w)
    {m n : Nat} (hm : m < 2 ^ w) (hn : n < 2 ^ w)
    (heq : counter start step m = counter start step n) : m = n := by
  have hmul := mul_injective inverse h ((BitVec.add_right_inj start).mp heq)
  have hnat := congrArg BitVec.toNat hmul
  rwa [BitVec.toNat_ofNat, BitVec.toNat_ofNat, Nat.mod_eq_of_lt hm, Nat.mod_eq_of_lt hn] at hnat

end Words

end Backoff
