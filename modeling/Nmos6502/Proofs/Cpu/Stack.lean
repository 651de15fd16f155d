import Nmos6502.Proofs.Cpu.Fields

namespace Nmos6502.Cpu

universe u

variable {β : Type u}

/-- The slot that a push writes when `n` others have gone before. -/
def slotAfter (c : Cpu β) (n : Nat) : Word :=
  stackPage + BitVec.ofNat 16 (c.sp.toNat - n)

/-- The byte that a pull reads when `n` others have gone before. -/
def pulled [Bus β] (c : Cpu β) (n : Nat) : Byte :=
  if c.sp.toNat + n < 255 then Bus.read c.bus (stackPage + BitVec.ofNat 16 (c.sp.toNat + n + 1))
  else 0

theorem slotAfter_inj (c : Cpu β) {m n : Nat} (hm : m ≤ c.sp.toNat) (hn : n ≤ c.sp.toNat) :
    c.slotAfter m = c.slotAfter n ↔ m = n := by
  have hlt := c.sp.isLt
  constructor
  · intro h
    have hoffset := congrArg BitVec.toNat ((BitVec.add_right_inj _).mp h)
    rw [BitVec.toNat_ofNat, BitVec.toNat_ofNat] at hoffset
    omega
  · rintro rfl
    rfl

theorem pulled_congr [Bus β] {c d : Cpu β} (hsp : c.sp = d.sp) (hbus : c.bus = d.bus) (n : Nat) :
    c.pulled n = d.pulled n := by
  simp only [pulled, hsp, hbus]

variable [Bus β]

theorem push_sp_toNat (c : Cpu β) (value : Byte) :
    (c.push value).sp.toNat = c.sp.toNat - 1 := by
  unfold push
  dsimp only
  split
  case isTrue h =>
    have h0 : c.sp = 0 := h
    simp [h0]
  case isFalse h =>
    have h0 : c.sp.toNat ≠ 0 := fun e => h (BitVec.eq_of_toNat_eq e)
    have hlt := c.sp.isLt
    simp only [setSp, assign_fields, store_fields, if_true, Word.low_toWord, BitVec.toNat_sub]
    change (2 ^ 8 - 1 + c.sp.toNat) % 2 ^ 8 = _
    omega

theorem push_slotAfter (c : Cpu β) (value : Byte) (n : Nat) :
    (c.push value).slotAfter n = c.slotAfter (n + 1) := by
  simp only [slotAfter, push_sp_toNat, Nat.sub_sub, Nat.add_comm]

theorem push_status (c : Cpu β) (value : Byte) :
    (c.push value).status =
      if c.sp = 0 then c.status.assign Flag.brk.mask true else c.status := by
  unfold push
  dsimp only
  simp only [store_fields]
  split <;> simp

/-- A word does not fit if it finds the stack pointer at its lowest value or one above. -/
theorem pushWord_status (c : Cpu β) (value : Word) :
    (c.pushWord value).status =
      if c.sp.toNat < 2 then c.status.assign Flag.brk.mask true else c.status := by
  have hzero : ∀ sp : Byte, sp = 0 ↔ sp.toNat = 0 := fun sp => BitVec.toNat_inj.symm
  simp only [pushWord, push_status, hzero, push_sp_toNat]
  rcases Decidable.em (c.sp.toNat = 0) with h0 | h0
  · simp [h0, Status.assign_assign]
  · rcases Decidable.em (c.sp.toNat = 1) with h1 | h1
    · simp [h1]
    · rw [if_neg (by omega), if_neg h0, if_neg (by omega)]

theorem pull_eq (c : Cpu β) (h : c.sp ≠ 0xFF) :
    c.pull = (Bus.read c.bus (c.setSp (c.sp + 1)).stackSlot, c.setSp (c.sp + 1)) := by
  rw [pull, if_neg h]
  simp

theorem pull_of_empty (c : Cpu β) (h : c.sp = 0xFF) : c.pull = (0, c.stop .stackUnderflow) := by
  rw [pull, if_pos h]

theorem sp_succ_toNat {sp : Byte} (h : sp ≠ 0xFF) : (sp + 1).toNat = sp.toNat + 1 := by
  have hne : sp.toNat ≠ 255 := fun e => h (BitVec.eq_of_toNat_eq e)
  have hlt := sp.isLt
  rw [BitVec.toNat_add]
  change (sp.toNat + 1) % 2 ^ 8 = _
  omega

theorem pull_fst (c : Cpu β) : c.pull.1 = c.pulled 0 := by
  rcases Decidable.em (c.sp = 0xFF) with h | h
  · rw [pull_of_empty c h, pulled, h]
    rfl
  · have hsp := sp_succ_toNat h
    have hlt := (c.sp + 1).isLt
    rw [pull_eq c h, pulled, if_pos (by omega)]
    simp only [stackSlot, setSp, assign_fields, if_true, Word.low_toWord]
    rw [Byte.toWord, hsp, Nat.add_zero]

theorem pull_pulled (c : Cpu β) (n : Nat) : c.pull.2.pulled n = c.pulled (n + 1) := by
  rcases Decidable.em (c.sp = 0xFF) with h | h
  · rw [pull_of_empty c h]
    have h255 : c.sp.toNat = 255 := by rw [h]; rfl
    simp only [pulled, stop_fields, h255]
    rw [if_neg (by omega), if_neg (by omega)]
  · have hsp := sp_succ_toNat h
    rw [pull_eq c h]
    simp only [pulled, setSp, assign_fields, if_true, Word.low_toWord, hsp]
    rw [show c.sp.toNat + 1 + n = c.sp.toNat + (n + 1) by omega]

@[simp] theorem pullWord_fst (c : Cpu β) :
    c.pullWord.1 = Word.ofBytes (c.pulled 0) (c.pulled 1) := by
  simp only [pullWord, pull_fst, pull_pulled]

@[simp] theorem pushWord_fields (c : Cpu β) (value : Word) :
    (c.pushWord value).a = c.a ∧ (c.pushWord value).x = c.x ∧ (c.pushWord value).y = c.y ∧
      (c.pushWord value).pc = c.pc ∧ (c.pushWord value).servicing = c.servicing ∧
      (c.pushWord value).fetched = c.fetched ∧
      (c.pushWord value).undocumented = c.undocumented := by
  simp [pushWord]

@[simp] theorem pullWord_fields (c : Cpu β) :
    c.pullWord.2.a = c.a ∧ c.pullWord.2.x = c.x ∧ c.pullWord.2.y = c.y ∧ c.pullWord.2.pc = c.pc ∧
      c.pullWord.2.bus = c.bus ∧ c.pullWord.2.servicing = c.servicing ∧
      c.pullWord.2.fetched = c.fetched ∧ c.pullWord.2.undocumented = c.undocumented := by
  simp [pullWord]

end Nmos6502.Cpu
