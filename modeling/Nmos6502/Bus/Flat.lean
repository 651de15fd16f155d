import Nmos6502.Bus.Basic
import Nmos6502.Table

namespace Nmos6502

structure FlatMemory where
  cells : Table Byte 16

namespace FlatMemory

def zeroed : FlatMemory :=
  ⟨Table.replicate 16 0⟩

instance : Bus FlatMemory where
  read memory address := memory.cells.get address.toNat
  write memory address value := ⟨memory.cells.set address.toNat value⟩

@[simp] theorem read_zeroed (address : Word) : Bus.read zeroed address = 0 :=
  Table.get_replicate ..

theorem read_write (memory : FlatMemory) (a b : Word) (value : Byte) :
    Bus.read (Bus.write memory a value) b = if b = a then value else Bus.read memory b := by
  have := Table.get_set memory.cells a.toNat b.toNat value a.isLt b.isLt
  simpa only [Bus.read, Bus.write, BitVec.toNat_inj] using this

theorem ext {m n : FlatMemory} (h : ∀ address : Word, Bus.read m address = Bus.read n address) :
    m = n := by
  obtain ⟨cells⟩ := m
  obtain ⟨cells'⟩ := n
  refine congrArg mk (Table.ext fun i hi => ?_)
  have hi' : (BitVec.ofNat 16 i).toNat = i := Nat.mod_eq_of_lt hi
  have hcell := h (BitVec.ofNat 16 i)
  simpa only [Bus.read, hi'] using hcell

theorem write_comm (memory : FlatMemory) {a b : Word} (h : a ≠ b) (u v : Byte) :
    Bus.write (Bus.write memory a u) b v = Bus.write (Bus.write memory b v) a u := by
  refine ext fun address => ?_
  simp only [read_write]
  by_cases ha : address = a
  · have hb : address ≠ b := fun hb => h (ha.symm.trans hb)
    rw [if_neg hb, if_pos ha, if_pos ha]
  · rw [if_neg ha, if_neg ha]

end FlatMemory

end Nmos6502
