import Mathlib.Data.List.Chain
import Nmos6502.Bus.Flat
import Nmos6502.Proofs.Assembly

namespace Nmos6502

universe u

namespace Instruction

/-- The instructions of a disassembly from an address on, of at most so many. -/
structure Tiles {β : Type u} [Bus β] (bus : β) (start : Word) (count : Nat)
    (listed : List Instruction) : Prop where
  first : ∀ i ∈ listed.head?, i.address = start
  next : listed.IsChain fun i j => j.address.toNat = i.address.toNat + i.size
  decoded : ∀ i ∈ listed, i = decode bus i.address
  bytes : listed.flatMap bytes = Bus.readAll bus start (listed.flatMap bytes).length
  /-- Only the last instruction may reach the top. -/
  inside : ∀ i ∈ listed.dropLast, i.address.toNat + i.size < 0x10000
  stopped : listed.length = count ∨ ∃ i ∈ listed.getLast?, 0x10000 ≤ i.address.toNat + i.size
  atMost : listed.length ≤ count
  length_le : listed.length ≤ 0x10000 - start.toNat

variable {β : Type u} [Bus β] {bus : β}

theorem size_pos (i : Instruction) : 0 < i.size :=
  Nat.lt_of_lt_of_le Nat.zero_lt_one (Nat.le_add_right ..)

theorem length_bytes (i : Instruction) : i.bytes.length = i.size :=
  Nat.add_comm ..

theorem toNat_address_decode {address : Nat} (h : address < 0x10000) :
    (decode bus (BitVec.ofNat 16 address)).address.toNat = address := by
  rw [address_decode, BitVec.toNat_ofNat, Nat.mod_eq_of_lt h]

theorem decodeFrom_of_lt {address : Nat} (h : address < 0x10000) (count : Nat) :
    decodeFrom bus (count + 1) address =
      decode bus (BitVec.ofNat 16 address) ::
        decodeFrom bus count (address + (decode bus (BitVec.ofNat 16 address)).size) := by
  rw [decodeFrom, if_pos h]

theorem decodeFrom_of_le {address : Nat} (h : 0x10000 ≤ address) (count : Nat) :
    decodeFrom bus count address = [] := by
  cases count with
  | zero => rfl
  | succ count => rw [decodeFrom, if_neg (Nat.not_lt.mpr h)]

theorem address_of_mem_head? {count address : Nat} {i : Instruction}
    (h : i ∈ (decodeFrom bus count address).head?) :
    i.address.toNat = address ∧ address < 0x10000 := by
  cases count with
  | zero => cases h
  | succ count =>
    rcases Nat.lt_or_ge address 0x10000 with hlt | hge
    · rw [decodeFrom_of_lt hlt, List.head?_cons, Option.mem_some_iff] at h
      rw [← h]
      exact ⟨toNat_address_decode hlt, hlt⟩
    · rw [decodeFrom_of_le hge] at h
      cases h

theorem isChain_decodeFrom (count address : Nat) : (decodeFrom bus count address).IsChain
    fun i j => j.address.toNat = i.address.toNat + i.size := by
  induction count generalizing address with
  | zero => exact .nil
  | succ count ih =>
    rcases Nat.lt_or_ge address 0x10000 with hlt | hge
    · rw [decodeFrom_of_lt hlt, List.isChain_cons]
      refine ⟨fun j hj => ?_, ih _⟩
      rw [(address_of_mem_head? hj).1, toNat_address_decode hlt]
    · rw [decodeFrom_of_le hge]
      exact .nil

theorem flatMap_bytes_decodeFrom (count address : Nat) :
    (decodeFrom bus count address).flatMap bytes =
      Bus.readAll bus (BitVec.ofNat 16 address)
        ((decodeFrom bus count address).flatMap bytes).length := by
  induction count generalizing address with
  | zero => rfl
  | succ count ih =>
    rcases Nat.lt_or_ge address 0x10000 with hlt | hge
    · rw [decodeFrom_of_lt hlt, List.flatMap_cons, List.length_append, length_bytes,
        Bus.readAll_add, ← BitVec.ofNat_add, ← ih, bytes_decode]
    · rw [decodeFrom_of_le hge]
      rfl

theorem length_decodeFrom_le (count address : Nat) :
    (decodeFrom bus count address).length ≤ count ∧
      (decodeFrom bus count address).length ≤ 0x10000 - address := by
  induction count generalizing address with
  | zero => exact ⟨Nat.le_refl 0, Nat.zero_le _⟩
  | succ count ih =>
    rcases Nat.lt_or_ge address 0x10000 with hlt | hge
    · have hpos := (decode bus (BitVec.ofNat 16 address)).size_pos
      obtain ⟨hcount, hroom⟩ := ih (address + (decode bus (BitVec.ofNat 16 address)).size)
      rw [decodeFrom_of_lt hlt, List.length_cons]
      omega
    · rw [decodeFrom_of_le hge]
      exact ⟨Nat.zero_le _, Nat.zero_le _⟩

theorem end_lt_of_mem_dropLast {count address : Nat} {i : Instruction}
    (h : i ∈ (decodeFrom bus count address).dropLast) : i.address.toNat + i.size < 0x10000 := by
  induction count generalizing address with
  | zero => cases h
  | succ count ih =>
    rcases Nat.lt_or_ge address 0x10000 with hlt | hge
    · rw [decodeFrom_of_lt hlt] at h
      cases hrest : decodeFrom bus count
          (address + (decode bus (BitVec.ofNat 16 address)).size) with
      | nil => simp [hrest] at h
      | cons j rest =>
        have hhead : j ∈ (decodeFrom bus count
            (address + (decode bus (BitVec.ofNat 16 address)).size)).head? := by
          rw [hrest]
          rfl
        have hnext := address_of_mem_head? hhead
        rw [hrest, List.dropLast_cons_cons, List.mem_cons] at h
        rcases h with rfl | h
        · rw [toNat_address_decode hlt]
          exact hnext.2
        · exact ih (hrest ▸ h)
    · rw [decodeFrom_of_le hge] at h
      cases h

theorem decodeFrom_stopped (count : Nat) {address : Nat} (h : address < 0x10000) :
    (decodeFrom bus count address).length = count ∨
      ∃ i ∈ (decodeFrom bus count address).getLast?, 0x10000 ≤ i.address.toNat + i.size := by
  induction count generalizing address with
  | zero => exact .inl rfl
  | succ count ih =>
    rw [decodeFrom_of_lt h]
    rcases Nat.lt_or_ge (address + (decode bus (BitVec.ofNat 16 address)).size) 0x10000 with
      hlt | hge
    · refine (ih hlt).imp (congrArg Nat.succ) ?_
      rintro ⟨i, hi, htop⟩
      refine ⟨i, ?_, htop⟩
      rw [List.getLast?_cons, Option.mem_def.mp hi]
      rfl
    · rw [decodeFrom_of_le hge]
      refine .inr ⟨_, List.getLast?_singleton, ?_⟩
      rw [toNat_address_decode h]
      exact hge

theorem tiles_decodeFrom (bus : β) (start : Word) (count : Nat) :
    Tiles bus start count (decodeFrom bus count start.toNat) where
  first i hi := BitVec.eq_of_toNat_eq (address_of_mem_head? hi).1
  next := isChain_decodeFrom count start.toNat
  decoded i hi := eq_decode_of_mem_decodeFrom hi
  bytes := by
    have hbytes : (decodeFrom bus count start.toNat).flatMap Instruction.bytes = _ :=
      flatMap_bytes_decodeFrom count start.toNat
    rwa [BitVec.ofNat_toNat, BitVec.setWidth_eq] at hbytes
  inside i hi := end_lt_of_mem_dropLast hi
  stopped := decodeFrom_stopped count start.isLt
  atMost := (length_decodeFrom_le count start.toNat).1
  length_le := (length_decodeFrom_le count start.toNat).2

/-- As long as there can be room for the instructions that are asked for, they are listed, and they
tile memory. -/
theorem disassemble?_tiles (bus : β) (start : Word) (count : Nat) (h : count ≤ maxListed) :
    ∃ listed, disassemble? bus count start = some listed ∧ Tiles bus start count listed :=
  ⟨_, if_neg (Nat.not_lt.mpr h), tiles_decodeFrom bus start count⟩

/-- A jump across the top of memory: the bytes of its operand come from the bottom, and nothing is
listed after it. -/
theorem disassemble?_tiles_acrossTop :
    let memory := Bus.replay FlatMemory.zeroed
      [(0xFFFD, 0xCA), (0xFFFE, 0x4C), (0xFFFF, 0x34), (0x0000, 0x12)]
    ∃ listed, disassemble? memory 5 0xFFFD = some listed ∧
      listed.map Instruction.bytes = [[0xCA], [0x4C, 0x34, 0x12]] ∧
      Tiles memory 0xFFFD 5 listed := by
  intro memory
  obtain ⟨listed, hlisted, htiles⟩ := disassemble?_tiles memory 0xFFFD 5 (by decide)
  have hbytes : (disassemble? memory 5 0xFFFD).map (List.map Instruction.bytes) =
      some [[0xCA], [0x4C, 0x34, 0x12]] := by
    decide +kernel
  rw [hlisted] at hbytes
  exact ⟨listed, hlisted, Option.some.inj hbytes, htiles⟩

/-- Where two instructions are left below the top of memory, a demand for too many is refused. -/
theorem disassemble?_refused :
    (decodeFrom FlatMemory.zeroed 3 0xFFFE).length = 2 ∧
      ¬ ∃ listed, disassemble? FlatMemory.zeroed 0x400000000000000 0xFFFE = some listed := by
  refine ⟨by decide +kernel, ?_⟩
  rintro ⟨listed, hlisted⟩
  rw [disassemble?, if_pos (by decide)] at hlisted
  cases hlisted

end Instruction

end Nmos6502
