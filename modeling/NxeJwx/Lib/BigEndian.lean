/-
# Unsigned integers as big-endian octet strings

The value of an octet string, the fixed-width string of a number, and the shortest string of
a number.  On strings of one fixed width the two directions are inverse (`ofBytes_toBytes`,
`toBytes_ofBytes`); leading zero octets do not change the value (`ofBytes_zeros_append`);
and the shortest string of a number determines it (`minimal_injective`) and starts with a
non-zero octet (`minimal_head_ne_zero`).
-/
import Mathlib.Data.List.Induction
import Mathlib.Data.Nat.Log
import Mathlib.Tactic.Ring

namespace BigEndian

/-- The number an octet string stands for, most significant octet first. -/
def ofBytes (b : List UInt8) : Nat := b.foldl (fun acc x => acc * 256 + x.toNat) 0

/-- The `len` low octets of `n`, most significant first. -/
def toBytes : Nat → Nat → List UInt8
  | 0, _ => []
  | len + 1, n => toBytes len (n / 256) ++ [UInt8.ofNat n]

/-- The number of bits of `n`, zero for zero. -/
def bitLength (n : Nat) : Nat := if n = 0 then 0 else n.log2 + 1

/-- The number of octets needed for `n`, zero for zero. -/
def byteLength (n : Nat) : Nat := (bitLength n + 7) / 8

/-- The shortest octet string of `n`. -/
def minimal (n : Nat) : List UInt8 := toBytes (byteLength n) n

/-! ## 1. Fixed width -/

@[simp] theorem length_toBytes (len n : Nat) : (toBytes len n).length = len := by
  induction len generalizing n with
  | zero => rfl
  | succ len ih => simp [toBytes, ih]

@[simp] theorem ofBytes_nil : ofBytes [] = 0 := rfl

@[simp] theorem ofBytes_concat (b : List UInt8) (x : UInt8) :
    ofBytes (b ++ [x]) = ofBytes b * 256 + x.toNat := by
  simp [ofBytes]

theorem ofBytes_lt (b : List UInt8) : ofBytes b < 256 ^ b.length := by
  induction b using List.reverseRecOn with
  | nil => simp
  | append_singleton b x ih =>
    have hx : x.toNat < 256 := x.toNat_lt
    rw [ofBytes_concat, List.length_append, List.length_singleton, pow_succ]
    omega

/-- Writing at a width that fits loses nothing. -/
theorem ofBytes_toBytes {len n : Nat} (h : n < 256 ^ len) : ofBytes (toBytes len n) = n := by
  induction len generalizing n with
  | zero =>
    obtain rfl : n = 0 := by simpa using h
    rfl
  | succ len ih =>
    have hd : n / 256 < 256 ^ len := by
      rw [pow_succ] at h
      exact Nat.div_lt_of_lt_mul (by rwa [Nat.mul_comm] at h)
    rw [toBytes, ofBytes_concat, ih hd, UInt8.toNat_ofNat']
    omega

/-- A string is the one of its width that has its value. -/
theorem toBytes_ofBytes (b : List UInt8) : toBytes b.length (ofBytes b) = b := by
  induction b using List.reverseRecOn with
  | nil => rfl
  | append_singleton b x ih =>
    have hx : x.toNat < 256 := x.toNat_lt
    have hdiv : (ofBytes b * 256 + x.toNat) / 256 = ofBytes b := by omega
    have hmod : UInt8.ofNat (ofBytes b * 256 + x.toNat) = x := by
      apply UInt8.toNat_inj.mp
      rw [UInt8.toNat_ofNat']
      omega
    rw [List.length_append, List.length_singleton, toBytes, ofBytes_concat, hdiv, hmod, ih]

/-- The most significant octet of a string stands first. -/
theorem toBytes_succ_eq_cons (len n : Nat) :
    toBytes (len + 1) n = UInt8.ofNat (n / 256 ^ len) :: toBytes len n := by
  induction len generalizing n with
  | zero => simp [toBytes]
  | succ len ih =>
    rw [toBytes, ih, toBytes, Nat.div_div_eq_div_mul, Nat.mul_comm, ← pow_succ, List.cons_append]

/-- At one width, the string determines the number. -/
theorem toBytes_injOn {len n m : Nat} (hn : n < 256 ^ len) (hm : m < 256 ^ len)
    (h : toBytes len n = toBytes len m) : n = m := by
  rw [← ofBytes_toBytes hn, ← ofBytes_toBytes hm, h]

/-- Leading zero octets do not count. -/
theorem ofBytes_zeros_append (z : Nat) (b : List UInt8) :
    ofBytes (List.replicate z 0 ++ b) = ofBytes b := by
  induction b using List.reverseRecOn with
  | nil =>
    induction z with
    | zero => rfl
    | succ z ih => simpa [ofBytes, List.replicate_succ] using ih
  | append_singleton b x ih =>
    rw [← List.append_assoc, ofBytes_concat, ofBytes_concat, ih]

/-! ## 2. The shortest string -/

theorem pow_256 (len : Nat) : (256 : Nat) ^ len = 2 ^ (8 * len) := by
  rw [pow_mul]
  norm_num

theorem bitLength_le_iff {n k : Nat} : bitLength n ≤ k ↔ n < 2 ^ k := by
  unfold bitLength
  split
  next h =>
    subst h
    simp
  next h => exact Nat.log2_lt h

/-- A number has a string of exactly the widths that are large enough. -/
theorem byteLength_le_iff {n len : Nat} : byteLength n ≤ len ↔ n < 256 ^ len := by
  rw [pow_256, ← bitLength_le_iff]
  unfold byteLength
  omega

theorem byteLength_pos {n : Nat} (h : n ≠ 0) : 0 < byteLength n := by
  by_contra h0
  have hone : n < 256 ^ 0 := byteLength_le_iff.mp (Nat.le_of_not_lt h0)
  omega

/-- A number fits the width its bit count asks for. -/
theorem lt_pow_byteLength (n : Nat) : n < 256 ^ byteLength n := byteLength_le_iff.mp le_rfl

/-- ... and no smaller one. -/
theorem pow_le_of_byteLength {n : Nat} (h : n ≠ 0) : 256 ^ (byteLength n - 1) ≤ n := by
  by_contra hlt
  have hle : byteLength n ≤ byteLength n - 1 := byteLength_le_iff.mpr (Nat.lt_of_not_le hlt)
  have hpos := byteLength_pos h
  omega

@[simp] theorem ofBytes_minimal (n : Nat) : ofBytes (minimal n) = n :=
  ofBytes_toBytes (lt_pow_byteLength n)

/-- The shortest string determines the number. -/
theorem minimal_injective : Function.Injective minimal := by
  intro n m h
  rw [← ofBytes_minimal n, ← ofBytes_minimal m, h]

@[simp] theorem length_minimal (n : Nat) : (minimal n).length = byteLength n :=
  length_toBytes _ _

/-- The shortest string has no leading zero octet. -/
theorem minimal_head_ne_zero {n : Nat} {t : List UInt8} : minimal n ≠ 0 :: t := by
  intro h
  have hlen : byteLength n = t.length + 1 := by
    rw [← length_minimal, h, List.length_cons]
  have hn : n ≠ 0 := by
    rintro rfl
    simp [byteLength, bitLength] at hlen
  have hval : n = ofBytes t := by
    rw [← ofBytes_minimal n, h]
    exact ofBytes_zeros_append 1 t
  have hge := pow_le_of_byteLength hn
  rw [hlen, Nat.add_sub_cancel] at hge
  have hlt := ofBytes_lt t
  omega

end BigEndian
