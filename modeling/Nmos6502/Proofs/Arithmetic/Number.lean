import Mathlib.Data.Nat.Digits.Defs
import Mathlib.Tactic.Ring
import Nmos6502.Word

namespace Nmos6502

/-- The number that the bytes denote, lowest byte first. -/
def number (bytes : List Byte) : Nat :=
  Nat.ofDigits 256 (bytes.map BitVec.toNat)

/-- The number that the bytes denote in two's complement, lowest byte first. -/
def signedNumber (bytes : List Byte) : Int :=
  if 2 * number bytes < 256 ^ bytes.length then number bytes
  else number bytes - 256 ^ bytes.length

/-- Whether a number has a two's complement of `n` bytes. -/
def FitsSigned (n : Nat) (value : Int) : Prop :=
  -2 ^ (8 * n - 1) ≤ value ∧ value ≤ 2 ^ (8 * n - 1) - 1

theorem carry_inj {c d : Bool} (h : c.toNat = d.toNat) : c = d := by
  revert h
  cases c <;> cases d <;> decide

variable (byte : Byte) (bytes : List Byte)

@[simp] theorem number_nil : number [] = 0 :=
  rfl

@[simp] theorem number_cons : number (byte :: bytes) = byte.toNat + 256 * number bytes :=
  Nat.ofDigits_cons

theorem number_append (xs ys : List Byte) :
    number (xs ++ ys) = number xs + 256 ^ xs.length * number ys := by
  simp [number, Nat.ofDigits_append]

theorem number_complement :
    number (bytes.map fun byte => ~~~byte) + number bytes + 1 = 256 ^ bytes.length := by
  induction bytes with
  | nil => rfl
  | cons byte bytes ih =>
    have hbyte := byte.isLt
    simp only [List.map_cons, number_cons, List.length_cons, pow_succ, BitVec.toNat_not]
    omega

theorem exists_half_pow (hne : bytes ≠ []) : ∃ half, 256 ^ bytes.length = 2 * half := by
  obtain _ | ⟨first, rest⟩ := bytes
  · exact absurd rfl hne
  · exact ⟨128 * 256 ^ rest.length, by rw [List.length_cons, pow_succ]; ring⟩

theorem signedNumber_singleton : signedNumber [byte] = byte.toInt := by
  have hbyte := byte.isLt
  simp only [signedNumber, number_cons, number_nil, List.length_singleton, BitVec.toInt]
  norm_num

theorem signedNumber_cons (hne : bytes ≠ []) :
    signedNumber (byte :: bytes) = byte.toNat + 256 * signedNumber bytes := by
  obtain ⟨half, hhalf⟩ := exists_half_pow bytes hne
  have hbyte := byte.isLt
  have hcast : (256 : Int) ^ bytes.length = 2 * half := by exact_mod_cast hhalf
  simp only [signedNumber, number_cons, List.length_cons, pow_succ, hhalf, hcast]
  split <;> split <;> push_cast <;> omega

theorem signedNumber_complement (hne : bytes ≠ []) :
    signedNumber (bytes.map fun byte => ~~~byte) = -1 - signedNumber bytes := by
  obtain ⟨half, hhalf⟩ := exists_half_pow bytes hne
  have hcast : (256 : Int) ^ bytes.length = 2 * half := by exact_mod_cast hhalf
  have hsum := number_complement bytes
  simp only [signedNumber, List.length_map, hhalf, hcast] at hsum ⊢
  split <;> split <;> omega

theorem fitsSigned_succ {n : Nat} (hn : 0 < n) (value : Int) :
    FitsSigned (n + 1) (byte.toNat + 256 * value) ↔ FitsSigned n value := by
  have hbyte := byte.isLt
  -- Both bounds grow by the factor 256, and a byte is less than one unit of the number above it.
  have hexp : 8 * (n + 1) - 1 = 8 * n - 1 + 8 := by omega
  simp only [FitsSigned, hexp, pow_add]
  generalize (2 : Int) ^ (8 * n - 1) = bound
  norm_num
  omega

end Nmos6502
