import Mathlib.Tactic

/-!
# Unsigned machine numbers

Values of an unsigned type are natural numbers; `u32` and `u64` are the
reductions that follow every operation whose exact result may leave the range.
In network byte order they are a fixed number of bytes, the highest first.
-/

namespace Library

/-- The largest value of an unsigned 32-bit type. -/
def uintMax : ℕ := 2 ^ 32 - 1

/-- Reduction of an exact result to an unsigned 32-bit value. -/
def u32 (n : ℕ) : ℕ := n % 2 ^ 32

theorem u32_of_lt {n : ℕ} (h : n < 2 ^ 32) : u32 n = n := Nat.mod_eq_of_lt h

theorem u32_add (n m : ℕ) : u32 (u32 n + m) = u32 (n + m) := Nat.mod_add_mod n (2 ^ 32) m

theorem u32_pred (n : ℕ) : u32 (u32 (n + 1) + 2 ^ 32 - 1) = u32 n := by
  unfold u32
  omega

/-- Reduction of an exact result to an unsigned 64-bit value. -/
def u64 (n : ℕ) : ℕ := n % 2 ^ 64

theorem u64_of_lt {n : ℕ} (h : n < 2 ^ 64) : u64 n = n := Nat.mod_eq_of_lt h

/-- The lowest `w` bytes of a number, the highest of them first. -/
def nboBytes : ℕ → ℕ → List UInt8
  | 0, _ => []
  | w + 1, n => UInt8.ofNat (n / 256 ^ w) :: nboBytes w n

/-- The number that a sequence of bytes stands for. -/
def nboValue (bytes : List UInt8) : ℕ := bytes.foldl (fun acc b => acc * 256 + b.toNat) 0

@[simp] theorem length_nboBytes (w n : ℕ) : (nboBytes w n).length = w := by
  induction w with
  | zero => rfl
  | succ w ih => simp [nboBytes, ih]

theorem foldl_nboBytes (w n acc : ℕ) :
    (nboBytes w n).foldl (fun acc b => acc * 256 + b.toNat) acc = acc * 256 ^ w + n % 256 ^ w := by
  induction w generalizing acc with
  | zero => simp [nboBytes, Nat.mod_one]
  | succ w ih =>
    have hbyte : (UInt8.ofNat (n / 256 ^ w)).toNat = n / 256 ^ w % 256 := rfl
    rw [nboBytes, List.foldl_cons, ih, hbyte, Nat.mod_pow_succ, pow_succ]
    ring

theorem nboValue_nboBytes {w n : ℕ} (h : n < 256 ^ w) : nboValue (nboBytes w n) = n := by
  rw [nboValue, foldl_nboBytes, Nat.mod_eq_of_lt h]
  simp

/-- A byte, by its two halves: what holds for all of them can be decided. -/
theorem forall_uint8 {P : UInt8 → Prop} (h : ∀ high low : Fin 16, P (UInt8.ofNat (16 * high + low)))
    (b : UInt8) : P b := by
  have hlt := b.toNat_lt
  have hb := h ⟨b.toNat / 16, by omega⟩ ⟨b.toNat % 16, by omega⟩
  rwa [Nat.div_add_mod, UInt8.ofNat_toNat] at hb

end Library
