import Mathlib

/-! # Little-endian words and length-prefixed byte strings

A number written as `k` bytes, least significant first, reads back as itself when it
fits; a byte string behind its length as an 8-byte word, and a list of items written one
after the other behind their count, read back likewise and leave what follows them
untouched.  These are the pieces of the compact binary formats that serialize records
field after field.
-/

namespace ByteCodec

/-- The `k` low bytes of `n`, least significant first. -/
def leBytes : Nat → Nat → List UInt8
  | 0, _ => []
  | k + 1, n => (n % 256).toUInt8 :: leBytes k (n / 256)

/-- Bytes read as a number, least significant first. -/
def leNat : List UInt8 → Nat
  | [] => 0
  | b :: bs => b.toNat + 256 * leNat bs

@[simp] theorem length_leBytes (k n : Nat) : (leBytes k n).length = k := by
  induction k generalizing n with
  | zero => rfl
  | succ k ih => simp [leBytes, ih]

theorem leNat_leBytes (k n : Nat) : leNat (leBytes k n) = n % 256 ^ k := by
  induction k generalizing n with
  | zero => simp [leBytes, leNat, Nat.mod_one]
  | succ k ih =>
    rw [leBytes, leNat, ih, pow_succ', Nat.mod_mul]
    simp

/-! ## Big-endian numbers -/

/-- Bytes read as a number, most significant first. -/
def beNat (bs : List UInt8) : Nat := leNat bs.reverse

/-- The bytes of `n`, most significant first, as few as there can be: one for zero. -/
def toBytesBe (n : Nat) : List UInt8 :=
  if n = 0 then [0] else (leBytes (n.log2 / 8 + 1) n).reverse

/-- `bs` behind as many zero bytes as make it `k` long. -/
def padFront (k : Nat) (bs : List UInt8) : List UInt8 := List.replicate (k - bs.length) 0 ++ bs

/-- The `k` low bytes of `n`, most significant first: `to_be_bytes` of a `k`-byte word. -/
def beBytes (k n : Nat) : List UInt8 := (leBytes k n).reverse

@[simp] theorem length_beBytes (k n : Nat) : (beBytes k n).length = k := by
  simp [beBytes]

theorem beNat_beBytes (k n : Nat) : beNat (beBytes k n) = n % 256 ^ k := by
  rw [beNat, beBytes, List.reverse_reverse, leNat_leBytes]

theorem leNat_append_zeros (bs : List UInt8) (k : Nat) :
    leNat (bs ++ List.replicate k 0) = leNat bs := by
  induction bs with
  | nil =>
    induction k with
    | zero => rfl
    | succ k ih => simpa [List.replicate_succ, leNat] using ih
  | cons b bs ih => simp [leNat, ih]

theorem beNat_padFront (k : Nat) (bs : List UInt8) : beNat (padFront k bs) = beNat bs := by
  simp [beNat, padFront, List.reverse_replicate, leNat_append_zeros]

theorem length_padFront {k : Nat} {bs : List UInt8} (h : bs.length ≤ k) :
    (padFront k bs).length = k := by
  simp [padFront]
  omega

theorem beNat_toBytesBe (n : Nat) : beNat (toBytesBe n) = n := by
  unfold toBytesBe
  split
  · rename_i hn
    simp [hn, beNat, leNat]
  · -- `n` has `log2 n + 1` bits, and the bytes hold `8 * (log2 n / 8 + 1)` of them
    have hbits : n < 2 ^ (8 * (n.log2 / 8 + 1)) :=
      Nat.lt_of_lt_of_le Nat.lt_log2_self (Nat.pow_le_pow_right (by norm_num) (by omega))
    rw [beNat, List.reverse_reverse, leNat_leBytes, Nat.mod_eq_of_lt (by rwa [pow_mul] at hbits)]

theorem length_toBytesBe_le {n k : Nat} (h : n < 2 ^ (8 * k)) (hk : 0 < k) :
    (toBytesBe n).length ≤ k := by
  unfold toBytesBe
  split
  · exact hk
  · rename_i hn
    have hlog : n.log2 < 8 * k := (Nat.log2_lt hn).mpr h
    simp only [List.length_reverse, length_leBytes]
    omega

/-- Reads a `k`-byte word. -/
def readWord (k : Nat) (input : List UInt8) : Option (Nat × List UInt8) :=
  if k ≤ input.length then some (leNat (input.take k), input.drop k) else none

/-- A byte string behind its length as an 8-byte word. -/
def writeBytes (bs : List UInt8) : List UInt8 := leBytes 8 bs.length ++ bs

/-- Reads a byte string behind its length. -/
def readBytes (input : List UInt8) : Option (List UInt8 × List UInt8) := do
  let (n, rest) ← readWord 8 input
  if n ≤ rest.length then some (rest.take n, rest.drop n) else none

/-- Reads `n` items one after the other. -/
def readMany {α : Type} (read : List UInt8 → Option (α × List UInt8)) :
    Nat → List UInt8 → Option (List α × List UInt8)
  | 0, input => some ([], input)
  | n + 1, input => do
    let (a, rest) ← read input
    let (as, rest') ← readMany read n rest
    some (a :: as, rest')

end ByteCodec
