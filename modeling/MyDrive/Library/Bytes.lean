import Mathlib.Algebra.Ring.Nat

-- Numbers of a fixed count of bytes, the lowest first.

namespace Bytes

def fromLe : List UInt8 → Nat
  | []      => 0
  | b :: bs => b.toNat + 256 * fromLe bs

def toLe : Nat → Nat → List UInt8
  | 0,     _ => []
  | k + 1, n => .ofNat n :: toLe k (n / 256)

variable {bs : List UInt8} {k m n : Nat}

@[simp]
theorem length_toLe : (toLe k n).length = k := by
  induction k generalizing n
  case zero      => rfl
  case succ k ih => simp [toLe, ih]

theorem fromLe_lt : fromLe bs < 256 ^ bs.length := by
  induction bs
  case nil => simp [fromLe]
  case cons b bs ih =>
    have := b.toNat_lt
    rw [fromLe, List.length_cons, Nat.pow_succ]
    omega

theorem toLe_fromLe : toLe bs.length (fromLe bs) = bs := by
  induction bs
  case nil => rfl
  case cons b bs ih =>
    have := b.toNat_lt
    have rest : (b.toNat + 256 * fromLe bs) / 256 = fromLe bs := by omega
    have first : UInt8.ofNat (b.toNat + 256 * fromLe bs) = b := by
      apply UInt8.toNat_inj.mp
      rw [UInt8.toNat_ofNat']
      omega
    rw [List.length_cons, fromLe, toLe, rest, first, ih]

theorem fromLe_toLe (h : n < 256 ^ k) : fromLe (toLe k n) = n := by
  induction k generalizing n
  case zero =>
    simp at h
    simp [toLe, fromLe, h]
  case succ k ih =>
    have : n / 256 < 256 ^ k := by
      rw [Nat.pow_succ] at h
      omega
    rw [toLe, fromLe, ih this, UInt8.toNat_ofNat']
    omega

theorem toLe_inj (hm : m < 256 ^ k) (hn : n < 256 ^ k) (h : toLe k m = toLe k n) : m = n := by
  rw [← fromLe_toLe hm, ← fromLe_toLe hn, h]

end Bytes
