import Mathlib.Logic.Function.Basic
import Mathlib.Data.Nat.Bitwise
import Mathlib.Tactic.Ring

/-!
# Bytes of a Memory

A memory with 32-bit addresses is a function to bytes. Addresses wrap around. A number is kept
with its lowest byte first.

## Main results

* `leNat_leBytes`: a number and its bytes;
* `leNat_shift`: a number read from two aligned ones next to each other;
* `writeBytes_apply`: what a write changes;
* `readBytes_writeBytes`: reading what has been written.
-/

namespace Bytes

/-! ### Numbers -/

/-- The number that some bytes stand for. -/
def leNat : List UInt8 → ℕ
  | [] => 0
  | b :: bs => b.toNat + 256 * leNat bs

/-- The `n` lowest bytes of a number. -/
def leBytes : ℕ → ℕ → List UInt8
  | 0, _ => []
  | n + 1, v => UInt8.ofNat v :: leBytes n (v / 256)

section Numbers

variable {xs : List UInt8} {n k v : ℕ}

theorem length_leBytes : (leBytes n v).length = n := by
  induction n generalizing v with
  | zero => rfl
  | succ n ih => rw [leBytes, List.length_cons, ih]

/-- **A number and its bytes.** -/
theorem leNat_leBytes : leNat (leBytes n v) = v % 256 ^ n := by
  induction n generalizing v with
  | zero => rw [leBytes, leNat, pow_zero, Nat.mod_one]
  | succ n ih =>
      have hbyte : (UInt8.ofNat v).toNat = v % 256 := UInt8.toNat_ofNat'
      rw [leBytes, leNat, ih, hbyte, pow_succ', Nat.mod_mul]

theorem leBytes_leNat (xs : List UInt8) : leBytes xs.length (leNat xs) = xs := by
  induction xs with
  | nil => rfl
  | cons x xs ih =>
      have hx : x.toNat < 256 := x.toNat_lt
      have hbyte : UInt8.ofNat (leNat (x :: xs)) = x := by
        refine UInt8.toNat_inj.mp ?_
        rw [UInt8.toNat_ofNat', leNat]
        omega
      have hrest : leNat (x :: xs) / 256 = leNat xs := by
        rw [leNat]
        omega
      rw [List.length_cons, leBytes, hbyte, hrest, ih]

theorem leNat_append (xs ys : List UInt8) :
    leNat (xs ++ ys) = leNat xs + 256 ^ xs.length * leNat ys := by
  induction xs with
  | nil => rw [List.nil_append, leNat, List.length_nil, pow_zero, one_mul, zero_add]
  | cons x xs ih =>
      rw [List.cons_append, leNat, leNat, ih, List.length_cons, pow_succ']
      ring

theorem leNat_lt (xs : List UInt8) : leNat xs < 256 ^ xs.length := by
  induction xs with
  | nil => exact Nat.zero_lt_one
  | cons x xs ih =>
      have hx : x.toNat < 256 := x.toNat_lt
      rw [leNat, List.length_cons, pow_succ']
      omega

theorem leNat_drop : leNat (xs.drop k) = leNat xs / 256 ^ k := by
  by_cases hk : k ≤ xs.length
  · have hsplit := leNat_append (xs.take k) (xs.drop k)
    have hlt := leNat_lt (xs.take k)
    rw [List.take_append_drop, List.length_take_of_le hk] at hsplit
    rw [List.length_take_of_le hk] at hlt
    rw [hsplit, Nat.add_mul_div_left _ _ (Nat.pow_pos (by omega)),
      Nat.div_eq_of_lt hlt, zero_add]
  · have hle : 256 ^ xs.length ≤ 256 ^ k := Nat.pow_le_pow_right (by omega) (by omega)
    rw [List.drop_eq_nil_of_le (by omega), leNat,
      Nat.div_eq_of_lt ((leNat_lt xs).trans_le hle)]

theorem leNat_take : leNat (xs.take k) = leNat xs % 256 ^ k := by
  by_cases hk : k ≤ xs.length
  · have hsplit := leNat_append (xs.take k) (xs.drop k)
    have hlt := leNat_lt (xs.take k)
    rw [List.take_append_drop, List.length_take_of_le hk] at hsplit
    rw [List.length_take_of_le hk] at hlt
    rw [hsplit, Nat.add_mul_mod_self_left, Nat.mod_eq_of_lt hlt]
  · have hle : 256 ^ xs.length ≤ 256 ^ k := Nat.pow_le_pow_right (by omega) (by omega)
    rw [List.take_of_length_le (by omega), Nat.mod_eq_of_lt ((leNat_lt xs).trans_le hle)]

/-- **A number read from two aligned ones** next to each other. -/
theorem leNat_shift (ys : List UInt8) (hx : xs.length = n) (hk : k ≤ n) :
    (leNat xs >>> (8 * k) ||| leNat ys <<< (8 * n - 8 * k)) % 2 ^ (8 * n) =
      leNat (xs.drop k ++ ys.take k) := by
  have hpow : ∀ j, 2 ^ (8 * j) = 256 ^ j := fun j => pow_mul 2 8 j
  have hlow : leNat (xs.drop k) < 2 ^ (8 * n - 8 * k) := by
    have hlt := leNat_lt (xs.drop k)
    rwa [List.length_drop, hx, ← hpow, Nat.mul_sub] at hlt
  have hsplit : 2 ^ (8 * n) = 2 ^ (8 * n - 8 * k) * 256 ^ k := by
    rw [← hpow, ← pow_add]
    congr 1
    omega
  have hlen : (xs.drop k).length = n - k := by rw [List.length_drop, hx]
  have hrest : 256 ^ (n - k) = 2 ^ (8 * n - 8 * k) := by rw [← hpow, Nat.mul_sub]
  rw [Nat.shiftRight_eq_div_pow, hpow, ← leNat_drop, Nat.shiftLeft_eq, Nat.or_comm, Nat.mul_comm,
    ← Nat.two_pow_add_eq_or_of_lt hlow, hsplit, Nat.mod_mul, Nat.mul_add_mod_self_left,
    Nat.mod_eq_of_lt hlow, Nat.mul_add_div (Nat.two_pow_pos _), Nat.div_eq_of_lt hlow, add_zero,
    ← leNat_take, leNat_append, hlen, hrest]

end Numbers

/-! ### Memories -/

/-- `n` bytes from an address on. -/
def readBytes (ram : UInt32 → UInt8) (a : UInt32) : ℕ → List UInt8
  | 0 => []
  | n + 1 => ram a :: readBytes ram (a + 1) n

/-- Bytes written from an address on. -/
def writeBytes (ram : UInt32 → UInt8) (a : UInt32) : List UInt8 → UInt32 → UInt8
  | [] => ram
  | b :: bs => writeBytes (Function.update ram a b) (a + 1) bs

section Memories

variable {ram ram' : UInt32 → UInt8} {a x : UInt32} {bs : List UInt8} {n k : ℕ}

theorem add_ofNat_zero (a : UInt32) : a + UInt32.ofNat 0 = a := UInt32.add_zero a

theorem length_readBytes : (readBytes ram a n).length = n := by
  induction n generalizing a with
  | zero => rfl
  | succ n ih => rw [readBytes, List.length_cons, ih]

theorem getElem?_readBytes (hk : k < n) :
    (readBytes ram a n)[k]? = some (ram (a + UInt32.ofNat k)) := by
  induction n generalizing a k with
  | zero => omega
  | succ n ih =>
      cases k with
      | zero => rw [readBytes, List.getElem?_cons_zero, add_ofNat_zero]
      | succ k =>
          rw [readBytes, List.getElem?_cons_succ, ih (by omega), UInt32.add_assoc,
            UInt32.add_comm 1, UInt32.ofNat_add]
          rfl

/-- Bytes in two parts. -/
theorem readBytes_add : readBytes ram a (n + k) =
    readBytes ram a n ++ readBytes ram (a + UInt32.ofNat n) k := by
  induction n generalizing a with
  | zero => rw [Nat.zero_add, readBytes, List.nil_append, add_ofNat_zero]
  | succ n ih =>
      rw [Nat.succ_add, readBytes, readBytes, ih, List.cons_append, UInt32.add_assoc,
        UInt32.add_comm 1, UInt32.ofNat_add]
      rfl

theorem readBytes_congr (h : ∀ k < n, ram' (a + UInt32.ofNat k) = ram (a + UInt32.ofNat k)) :
    readBytes ram' a n = readBytes ram a n := by
  refine List.ext_getElem? fun k => ?_
  by_cases hk : k < n
  · rw [getElem?_readBytes hk, getElem?_readBytes hk, h k hk]
  · rw [List.getElem?_eq_none (by rw [length_readBytes]; omega),
      List.getElem?_eq_none (by rw [length_readBytes]; omega)]

/-- **What a write changes.** -/
theorem writeBytes_apply (hlen : bs.length ≤ 2 ^ 32) :
    writeBytes ram a bs x = (bs[(x - a).toNat]?).getD (ram x) := by
  induction bs generalizing ram a with
  | nil => rfl
  | cons b bs ih =>
      rw [List.length_cons] at hlen
      rw [writeBytes, ih (by omega)]
      have hsub := UInt32.toNat_sub x a
      have hsub' : (x - (a + 1)).toNat = ((x - a).toNat + (2 ^ 32 - 1)) % 2 ^ 32 := by
        rw [UInt32.toNat_sub, UInt32.toNat_add, hsub]
        have h1 : (1 : UInt32).toNat = 1 := rfl
        have hx := x.toNat_lt
        have ha := a.toNat_lt
        omega
      by_cases hx : x = a
      · -- the address itself is not written again
        subst hx
        rw [UInt32.sub_self] at hsub'
        have hlast : (x - (x + 1)).toNat = 2 ^ 32 - 1 := hsub'
        rw [hlast, List.getElem?_eq_none (by omega), Option.getD_none, Function.update_self,
          UInt32.sub_self]
        rfl
      · have hne : (x - a).toNat ≠ 0 := by
          intro h0
          have hxa : x.toNat ≠ a.toNat := fun h => hx (UInt32.toNat_inj.mp h)
          have hx := x.toNat_lt
          have ha := a.toNat_lt
          omega
        have hlt := (x - a).toNat_lt
        have hsucc : (x - a).toNat = (x - (a + 1)).toNat + 1 := by omega
        rw [Function.update_of_ne hx, hsucc, List.getElem?_cons_succ]

/-- Reading what has been written. -/
theorem readBytes_writeBytes (hlen : bs.length ≤ 2 ^ 32) :
    readBytes (writeBytes ram a bs) a bs.length = bs := by
  refine List.ext_getElem? fun k => ?_
  by_cases hk : k < bs.length
  · have hsub : (a + UInt32.ofNat k - a).toNat = k := by
      have ha := a.toNat_lt
      rw [UInt32.toNat_sub, UInt32.toNat_add, UInt32.toNat_ofNat']
      omega
    rw [getElem?_readBytes hk, writeBytes_apply hlen, hsub, List.getElem?_eq_getElem hk,
      Option.getD_some]
  · rw [List.getElem?_eq_none (by rw [length_readBytes]; omega), List.getElem?_eq_none (by omega)]

end Memories

end Bytes
