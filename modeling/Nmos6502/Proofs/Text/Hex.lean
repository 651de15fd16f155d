import Mathlib.Tactic.Ring
import Nmos6502.Text.Hex

namespace Nmos6502.Hex

/-- The digits that are printed. -/
def digits : List Char := "0123456789ABCDEF".toList

theorem digits_getElem? : ∀ n < 16, digits[n]? = some (digit n) := by
  decide

theorem digit_mem {n : Nat} (h : n < 16) : digit n ∈ digits :=
  List.mem_of_getElem? (digits_getElem? n h)

theorem digit_injective {m n : Nat} (hm : m < 16) (hn : n < 16) (h : digit m = digit n) :
    m = n := by
  have hnodup : digits.Nodup := by decide
  have hsame : digits[m]? = digits[n]? := by
    rw [digits_getElem? m hm, digits_getElem? n hn, h]
  exact (List.getElem?_inj hm hnodup).mp hsame

theorem mem_fixed {width n : Nat} {c : Char} (h : c ∈ fixed width n) : c ∈ digits := by
  induction width generalizing n with
  | zero => cases h
  | succ width ih =>
    rw [fixed, List.mem_append, List.mem_singleton] at h
    rcases h with h | rfl
    · exact ih h
    · exact digit_mem (Nat.mod_lt n (by decide))

theorem fixed_succ_inj {width m n : Nat} (h : fixed (width + 1) m = fixed (width + 1) n) :
    fixed width (m / 16) = fixed width (n / 16) ∧ m % 16 = n % 16 := by
  obtain ⟨hinit, hlast⟩ := List.append_inj' h rfl
  exact ⟨hinit, digit_injective (Nat.mod_lt m (by decide)) (Nat.mod_lt n (by decide))
    (List.singleton_inj.mp hlast)⟩

theorem fixed_injective {width m n : Nat} (hm : m < 16 ^ width) (hn : n < 16 ^ width)
    (h : fixed width m = fixed width n) : m = n := by
  induction width generalizing m n with
  | zero => omega
  | succ width ih =>
    obtain ⟨hinit, hlast⟩ := fixed_succ_inj h
    rw [pow_succ] at hm hn
    have hquotient := ih (by omega) (by omega) hinit
    omega

theorem ofByte_injective {b b' : Byte} (h : ofByte b = ofByte b') : b = b' :=
  BitVec.eq_of_toNat_eq (@fixed_injective 2 _ _ b.isLt b'.isLt (String.ofList_injective h))

theorem length_toDigits_le_two {n : Nat} (h : n < 256) : (Nat.toDigits 16 n).length ≤ 2 := by
  rw [Nat.length_toDigits_le_iff (by decide) (by decide)]
  exact h

theorem atLeast_two {n : Nat} (h : n < 256) : atLeast 2 n = String.ofList (fixed 2 n) :=
  if_pos (length_toDigits_le_two h)

end Nmos6502.Hex
