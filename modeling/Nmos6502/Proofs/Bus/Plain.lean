import Nmos6502.Proofs.Bus.Block
import Nmos6502.Proofs.Bus.Protection

namespace Nmos6502

namespace MappedMemory

variable {m : MappedMemory}

structure IsPlain (m : MappedMemory) : Prop where
  devices : ∃ bank : Bank, bank.size = addressSpace ∧ m.devices = #[.ram 0 bank]
  ownerOf : ∀ address, m.ownerOf address = some 0

namespace IsPlain

theorem deviceAt (h : m.IsPlain) (address : Word) :
    ∃ bank, m.deviceAt address = some (.ram 0 bank) := by
  obtain ⟨bank, -, hdevices⟩ := h.devices
  exact ⟨bank, by simp [MappedMemory.deviceAt, h.ownerOf, hdevices]⟩

theorem read_write (h : m.IsPlain) (a b : Word) (value : Byte) :
    Bus.read (Bus.write m b value) a = if a = b then value else Bus.read m a := by
  obtain ⟨bank, hdevice⟩ := h.deviceAt b
  have htakes : m.takes b = true := by
    simp [takes, hdevice, Device.keepsWrites]
  have hcustom : ∀ d, m.deviceAt b = some d → d.isCustom = false := by
    intro d hd
    obtain rfl := Option.some.inj (hdevice.symm.trans hd)
    rfl
  rw [MappedMemory.read_write m a hcustom]
  simp only [htakes, and_true]

theorem signal (h : m.IsPlain) (address : Word) (value : Byte) :
    Bus.signal m address value = none := by
  obtain ⟨bank, hdevice⟩ := h.deviceAt address
  simp [Bus.signal, hdevice, Device.signal]

theorem write (h : m.IsPlain) (address : Word) (value : Byte) :
    (Bus.write m address value).IsPlain where
  devices := by
    obtain ⟨bank, hsize, hdevices⟩ := h.devices
    refine ⟨bank.set (address - 0).toNat value, hsize, ?_⟩
    rw [write_eq, h.ownerOf, hdevices]
    rfl
  ownerOf other := by
    rw [ownerOf_write]
    exact h.ownerOf other

theorem replay (h : m.IsPlain) (writes : List (Word × Byte)) : (Bus.replay m writes).IsPlain := by
  induction writes generalizing m with
  | nil => exact h
  | cons entry writes ih => exact ih (h.write entry.1 entry.2)

theorem isMemory (h : m.IsPlain) : Bus.IsMemory m :=
  fun writes a b value => (h.replay writes).read_write b a value

theorem read (h : m.IsPlain) {bank : Bank} (hbank : m.devices = #[.ram 0 bank])
    (address : Word) : Bus.read m address = bank.get address.toNat := by
  have hdevice : m.deviceAt address = some (.ram 0 bank) := by
    simp [MappedMemory.deviceAt, h.ownerOf, hbank]
  simp [Bus.read, hdevice, Device.readable, Device.read, Device.base]

theorem install {bank : Bank} (hsize : bank.size = addressSpace) :
    (empty.carryOut (.install (.ram 0 bank))).IsPlain ∧
      (empty.carryOut (.install (.ram 0 bank))).devices = #[.ram 0 bank] := by
  have hfits : (Device.ram 0 bank).fits = true := by
    simp [Device.fits, Device.base, Device.size, hsize]
  rcases empty.install_cases (.ram 0 bank) with ⟨error, -, hwhy⟩ | ⟨-, -, hok⟩
  · rw [hfits] at hwhy
    rcases hwhy with hwhy | hwhy <;> simp [empty, capacity] at hwhy
  · rw [carryOut_install_of_ok hok]
    refine ⟨⟨⟨bank, hsize, rfl⟩, ?_⟩, rfl⟩
    intro address
    have hin : address.toNat < 0 + bank.size := by
      rw [hsize]
      simp [addressSpace, address.isLt]
    rw [MappedMemory.ownerOf, Table.get_fill _ _ _ _ _ address.isLt]
    exact if_pos ⟨Nat.zero_le _, hin⟩

end IsPlain

end MappedMemory

/-- Flat memory and plain mapped memory with the same bytes. -/
structure Twin where
  flat : FlatMemory
  mapped : MappedMemory
  plain : mapped.IsPlain
  same : ∀ address, Bus.read mapped address = Bus.read flat address

namespace Twin

instance : Bus Twin where
  read t := Bus.read t.flat
  write t address value :=
    { flat := Bus.write t.flat address value
      mapped := Bus.write t.mapped address value
      plain := t.plain.write address value
      same other := by
        rw [t.plain.read_write, FlatMemory.read_write, t.same] }

theorem flat_faithful : Bus.Faithful flat :=
  ⟨fun _ _ => rfl, fun _ _ _ => rfl, fun _ _ _ => rfl⟩

theorem mapped_faithful : Bus.Faithful mapped :=
  ⟨same, fun _ _ _ => rfl, fun t => t.plain.signal⟩

end Twin

end Nmos6502
