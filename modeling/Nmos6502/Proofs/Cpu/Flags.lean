import Nmos6502.Cpu.Status

namespace Nmos6502

namespace Flag

def index : Flag → Nat
  | carry => 0
  | zero => 1
  | interruptDisable => 2
  | decimal => 3
  | brk => 4
  | unused => 5
  | overflow => 6
  | negative => 7

theorem mask_eq_twoPow (flag : Flag) : flag.mask = BitVec.twoPow 8 flag.index := by
  cases flag <;> rfl

theorem index_lt (flag : Flag) : flag.index < 8 := by
  cases flag <;> decide

theorem index_inj {f g : Flag} : f.index = g.index ↔ f = g := by
  cases f <;> cases g <;> decide

theorem exists_index : ∀ {i : Nat}, i < 8 → ∃ flag : Flag, flag.index = i
  | 0, _ => ⟨carry, rfl⟩
  | 1, _ => ⟨zero, rfl⟩
  | 2, _ => ⟨interruptDisable, rfl⟩
  | 3, _ => ⟨decimal, rfl⟩
  | 4, _ => ⟨brk, rfl⟩
  | 5, _ => ⟨unused, rfl⟩
  | 6, _ => ⟨overflow, rfl⟩
  | 7, _ => ⟨negative, rfl⟩
  | n + 8, h => absurd h (by omega)

end Flag

namespace Status

theorem has_eq_getLsbD (s : Status) (flag : Flag) : s.has flag = s.bits.getLsbD flag.index := by
  obtain ⟨bits⟩ := s
  have key : ∀ bits : Byte, (Status.mk bits).has flag = bits.getLsbD flag.index := by
    cases flag <;> decide +kernel
  exact key bits

theorem has_assign (s : Status) (f g : Flag) (on : Bool) :
    (s.assign f.mask on).has g = if g = f then on else s.has g := by
  have hg := g.index_lt
  rw [has_eq_getLsbD, has_eq_getLsbD, assign, Flag.mask_eq_twoPow]
  rcases Decidable.em (g = f) with rfl | hne
  · cases on <;> simp [hg]
  · have hindex : ¬ g.index = f.index := fun h => hne (Flag.index_inj.mp h)
    cases on <;> simp [hg, hne, hindex]

theorem assign_assign (s : Status) (mask : Byte) (on : Bool) :
    (s.assign mask on).assign mask on = s.assign mask on := by
  cases on <;> simp [assign, BitVec.or_assoc, BitVec.and_assoc]

theorem assign_has (s : Status) (flag : Flag) : s.assign flag.mask (s.has flag) = s := by
  obtain ⟨bits⟩ := s
  refine congrArg Status.mk (BitVec.eq_of_getLsbD_eq fun i hi => ?_)
  rw [has_eq_getLsbD, Flag.mask_eq_twoPow]
  rcases Decidable.em (i = flag.index) with rfl | hne
  · cases h : bits.getLsbD flag.index <;> simp [hi]
  · cases h : bits.getLsbD flag.index <;> simp [hne, hi]

theorem has_packed (s : Status) (flag : Flag) :
    (Status.mk s.packed).has flag = (s.has flag || flag == .unused) := by
  have hindex := flag.index_lt
  rw [has_eq_getLsbD, has_eq_getLsbD, packed, Flag.mask_eq_twoPow]
  rcases Decidable.em (flag = .unused) with rfl | hne
  · simp [Flag.index]
  · have hbit : ¬ Flag.unused.index = flag.index := fun h => hne (Flag.index_inj.mp h).symm
    simp [hne, hbit]

theorem packed_congr {s t : Status} (h : ∀ flag, flag ≠ .unused → s.has flag = t.has flag) :
    s.packed = t.packed := by
  refine BitVec.eq_of_getLsbD_eq fun i hi => ?_
  obtain ⟨flag, rfl⟩ := Flag.exists_index hi
  have hs := has_eq_getLsbD ⟨s.packed⟩ flag
  have ht := has_eq_getLsbD ⟨t.packed⟩ flag
  rw [has_packed] at hs ht
  rw [← hs, ← ht]
  rcases Decidable.em (flag = .unused) with rfl | hne
  · simp
  · rw [h flag hne]

end Status

end Nmos6502
