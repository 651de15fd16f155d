import Nmos6502.Proofs.Bus.Ownership
import Nmos6502.Proofs.Run.Written

/-!
To those who use it, a mapped memory is a map from addresses to bytes in which a write changes the
byte at its address or nothing at all. Behind the map, a write leaves alone what it must not reach:
read-only memory that is not being burned, and the cells that a later device hides.
-/

namespace Nmos6502

theorem Bank.get_set (bank : Bank) (i j : Word) (value : Byte) :
    (bank.set i.toNat value).get j.toNat = if j = i then value else bank.get j.toNat := by
  have hcells := Table.get_set bank.cells i.toNat j.toNat value i.isLt j.isLt
  simp only [BitVec.toNat_inj] at hcells
  exact hcells

namespace Device

/-- Plain memory, or read-only memory that is being burned. -/
def keepsWrites : Device → Bool
  | ram .. => true
  | rom _ _ burning => burning
  | peripheral _ | custom _ => false

def isCustom : Device → Bool
  | custom _ => true
  | ram .. | rom .. | peripheral _ => false

theorem readable_of_keepsWrites {d : Device} (h : d.keepsWrites = true) : d.readable = true := by
  cases d with
  | ram base bank => rfl
  | rom base bank burning => rfl
  | peripheral p => cases h
  | custom c => cases h

theorem written_base (d : Device) (address : Word) (value : Byte) :
    ((Change.written address value).apply d).base = d.base :=
  base_eq_of_extent ((Change.written address value).extent_apply d)

variable {d : Device}

theorem written_isCustom (d : Device) (address : Word) (value : Byte) :
    ((Change.written address value).apply d).isCustom = d.isCustom := by
  rw [Change.written_apply]
  split
  · cases d <;> rfl
  · rfl

theorem written_readable (h : d.isCustom = false) (address : Word) (value : Byte) :
    ((Change.written address value).apply d).readable = d.readable := by
  rw [Change.written_apply]
  split
  · cases d with
    | custom c => cases h
    | ram base bank | rom base bank burning | peripheral p => rfl
  · rfl

theorem written_read (h : d.isCustom = false) (address offset : Word) (value : Byte) :
    ((Change.written address value).apply d).read offset =
      if offset = address - d.base ∧ d.keepsWrites = true then value else d.read offset := by
  rw [Change.written_apply]
  cases d with
  | custom c => cases h
  | ram base bank =>
    simpa [writable, write, read, keepsWrites, Device.base] using
      bank.get_set (address - base) offset value
  | rom base bank burning =>
    cases burning with
    | true =>
      simpa [writable, write, read, keepsWrites, Device.base] using
        bank.get_set (address - base) offset value
    | false => simp [writable, keepsWrites]
  | peripheral p =>
    split <;> simp [write, read, keepsWrites]

end Device

namespace MappedMemory

theorem ownerOf_write (m : MappedMemory) (a b : Word) (value : Byte) :
    (Bus.write m b value).ownerOf a = m.ownerOf a := by
  rw [write_eq]
  rfl

theorem getElem?_devices_write (m : MappedMemory) (number : Nat) (address : Word) (value : Byte) :
    (Bus.write m address value).devices[number]? = (m.devices[number]?).map fun d =>
      if m.ownerOf address = some number then (Device.Change.written address value).apply d
      else d := by
  rw [write_eq]
  cases howner : m.ownerOf address with
  | none => simp
  | some owner =>
    simp only [Option.elim_some, Array.getElem?_modify, Option.some.injEq]
    split
    · rfl
    · simp

theorem deviceAt_write (m : MappedMemory) (a b : Word) (value : Byte) :
    (Bus.write m b value).deviceAt a = (m.deviceAt a).map fun d =>
      if m.ownerOf b = m.ownerOf a then (Device.Change.written b value).apply d else d := by
  simp only [deviceAt, ownerOf_write]
  cases howner : m.ownerOf a with
  | none => rfl
  | some number => exact m.getElem?_devices_write number b value

/-- Whether the owner of the address keeps what is written there. -/
def takes (m : MappedMemory) (address : Word) : Bool :=
  (m.deviceAt address).any Device.keepsWrites

theorem read_write_of_owner_ne {a b : Word} (m : MappedMemory) (h : m.ownerOf a ≠ m.ownerOf b)
    (value : Byte) : Bus.read (Bus.write m b value) a = Bus.read m a := by
  simp only [Bus.read, deviceAt_write, if_neg (Ne.symm h), Option.map_id']

theorem read_write (m : MappedMemory) (a : Word) {b : Word}
    (hcustom : ∀ d, m.deviceAt b = some d → d.isCustom = false) (value : Byte) :
    Bus.read (Bus.write m b value) a =
      if a = b ∧ m.takes b = true then value else Bus.read m a := by
  by_cases howner : m.ownerOf a = m.ownerOf b
  case neg =>
    have hab : ¬ a = b := fun h => howner (congrArg m.ownerOf h)
    rw [m.read_write_of_owner_ne howner, if_neg fun h => hab h.1]
  have hsame : m.deviceAt b = m.deviceAt a := by
    rw [deviceAt, deviceAt, howner]
  rw [hsame] at hcustom
  simp only [Bus.read, deviceAt_write, howner, if_true]
  cases hdevice : m.deviceAt a with
  | none =>
    have htakes : ¬ (a = b ∧ m.takes b = true) := by
      rintro ⟨rfl, htakes⟩
      simp [takes, hdevice] at htakes
    rw [if_neg htakes]
    rfl
  | some d =>
    have hplain := hcustom d hdevice
    have htakes : m.takes b = d.keepsWrites := by
      simp [takes, hsame, hdevice]
    simp only [Option.map_some, Device.written_readable hplain, Device.written_base,
      Device.written_read hplain, htakes]
    by_cases hab : a = b
    · subst hab
      by_cases hkeeps : d.keepsWrites = true
      · simp [hkeeps, Device.readable_of_keepsWrites hkeeps]
      · simp [hkeeps]
    · have hoffset : a - d.base ≠ b - d.base := by
        intro h
        exact hab (by bv_omega)
      simp only [hab, hoffset, false_and, if_false]

end MappedMemory

/-- Nothing is done to the device of this number except through the bus. -/
def BusDeed.Spares (number : Nat) : BusDeed → Prop
  | change other _ => other ≠ number
  | install _ | write _ _ | resetWatermark => True

namespace MappedMemory

variable {m : MappedMemory} {number : Nat}

theorem carryOut_install_keeps {d : Device} (h : m.devices[number]? = some d) (d' : Device) :
    (m.carryOut (.install d')).devices[number]? = some d ∧
      ∀ address, m.ownerOf address ≠ some number →
        (m.carryOut (.install d')).ownerOf address ≠ some number := by
  obtain ⟨hnumber, -⟩ := Array.getElem?_eq_some_iff.mp h
  rcases m.install_cases d' with ⟨error, herror, -⟩ | ⟨-, -, hok⟩
  · rw [carryOut_install_of_error herror]
    exact ⟨h, fun _ howner => howner⟩
  · rw [carryOut_install_of_ok hok]
    constructor
    · rw [Array.getElem?_push, if_neg (Nat.ne_of_lt hnumber)]
      exact h
    · intro address howner
      rw [ownerOf, Table.get_fill _ _ _ _ _ address.isLt]
      split
      · simp only [ne_eq, Option.some.injEq]
        omega
      · exact howner

theorem carryOut_change_of_spares {c : Device.Change} {other : Nat} (hother : other ≠ number) :
    (m.carryOut (.change other c)).devices[number]? = m.devices[number]? := by
  rw [carryOut, modifyDevice, Array.getElem?_modify, if_neg hother]

theorem rom_carryOut {base : Word} {bank : Bank}
    (h : m.devices[number]? = some (.rom base bank false)) (deed : BusDeed)
    (hspares : deed.Spares number) :
    (m.carryOut deed).devices[number]? = some (.rom base bank false) := by
  cases deed with
  | install d => exact (carryOut_install_keeps h d).1
  | write address value =>
    rw [carryOut, getElem?_devices_write, h]
    simp [Device.Change.written_apply, Device.writable]
  | change other c =>
    rw [carryOut_change_of_spares hspares]
    exact h
  | resetWatermark => exact h

theorem rom_after (deeds : List BusDeed) {base : Word} {bank : Bank}
    (h : m.devices[number]? = some (.rom base bank false))
    (hspares : ∀ deed ∈ deeds, deed.Spares number) :
    (m.after deeds).devices[number]? = some (.rom base bank false) := by
  induction deeds generalizing m with
  | nil => exact h
  | cons deed deeds ih =>
    rw [List.forall_mem_cons] at hspares
    exact ih (rom_carryOut h deed hspares.1) hspares.2

/-- The cell of a device with the given value, at an address that belongs to another device. -/
def Hides (m : MappedMemory) (number : Nat) (base offset : Word) (value : Byte) : Prop :=
  m.ownerOf (base + offset) ≠ some number ∧
    ∃ d, m.devices[number]? = some d ∧ d.isCustom = false ∧ d.base = base ∧ d.read offset = value

theorem hides_carryOut {base offset : Word} {value : Byte} (h : m.Hides number base offset value)
    (deed : BusDeed) (hspares : deed.Spares number) :
    (m.carryOut deed).Hides number base offset value := by
  obtain ⟨howner, d, hd, hplain, hbase, hvalue⟩ := h
  cases deed with
  | install d' =>
    obtain ⟨hkept, howners⟩ := carryOut_install_keeps hd d'
    exact ⟨howners _ howner, d, hkept, hplain, hbase, hvalue⟩
  | write address byte =>
    refine ⟨by rwa [carryOut, ownerOf_write], ?_⟩
    rw [carryOut, getElem?_devices_write, hd]
    refine ⟨_, rfl, ?_⟩
    split
    case isTrue hwritten =>
      have hoffset : offset ≠ address - d.base := by
        rintro rfl
        exact howner (by rw [← hbase, BitVec.add_comm, BitVec.sub_add_cancel, hwritten])
      rw [Device.written_isCustom, Device.written_base, Device.written_read hplain,
        if_neg fun hat => hoffset hat.1]
      exact ⟨hplain, hbase, hvalue⟩
    case isFalse => exact ⟨hplain, hbase, hvalue⟩
  | change other c =>
    refine ⟨howner, d, ?_, hplain, hbase, hvalue⟩
    rw [carryOut_change_of_spares hspares]
    exact hd
  | resetWatermark => exact ⟨howner, d, hd, hplain, hbase, hvalue⟩

theorem hides_after (deeds : List BusDeed) {base offset : Word} {value : Byte}
    (h : m.Hides number base offset value) (hspares : ∀ deed ∈ deeds, deed.Spares number) :
    (m.after deeds).Hides number base offset value := by
  induction deeds generalizing m with
  | nil => exact h
  | cons deed deeds ih =>
    rw [List.forall_mem_cons] at hspares
    exact ih (hides_carryOut h deed hspares.1) hspares.2

theorem rom_obeyAll (machine : Machine MappedMemory) (commands : List Command) {base : Word}
    {bank : Bank} (h : machine.cpu.bus.devices[number]? = some (.rom base bank false)) :
    (machine.obeyAll commands).cpu.bus.devices[number]? = some (.rom base bank false) ∧
      ∀ address, machine.cpu.bus.ownerOf address = some number →
        Bus.read (machine.obeyAll commands).cpu.bus address =
          Bus.read machine.cpu.bus address := by
  have hwritten := machine.obeyAll_written commands
  have howners : ∀ address, (machine.obeyAll commands).cpu.bus.ownerOf address =
      machine.cpu.bus.ownerOf address := by
    intro address
    exact hwritten.keeps (P := fun bus => bus.ownerOf address = machine.cpu.bus.ownerOf address)
      (fun bus b value hbus => (bus.ownerOf_write address b value).trans hbus) rfl
  have hdevice : (machine.obeyAll commands).cpu.bus.devices[number]? =
      some (.rom base bank false) :=
    hwritten.keeps (P := fun bus => bus.devices[number]? = some (.rom base bank false))
      (fun bus b value hbus => rom_carryOut hbus (.write b value) trivial) h
  refine ⟨hdevice, fun address howner => ?_⟩
  simp only [Bus.read, deviceAt, howners, howner, Option.bind_eq_bind, Option.bind_some, hdevice, h]

/-- How a mapped memory takes writes, and what it protects from them. -/
structure WriteProtected (m : MappedMemory) : Prop where
  /-- The owner keeps the byte if it is plain memory or read-only memory that is being burned.
  Otherwise the write changes nothing, and it never changes another address. Only what a device with
  a behavior of its own does with a write is its own affair. -/
  read_write : ∀ (a b : Word) (value : Byte),
    (∀ d, m.deviceAt b = some d → d.isCustom = false) →
      Bus.read (Bus.write m b value) a =
        if a = b ∧ m.takes b = true then value else Bus.read m a
  apart : ∀ (a b : Word) (value : Byte), m.ownerOf a ≠ m.ownerOf b →
    Bus.read (Bus.write m b value) a = Bus.read m a
  rom : ∀ number base bank, m.devices[number]? = some (.rom base bank false) →
    ∀ deeds : List BusDeed, (∀ deed ∈ deeds, deed.Spares number) →
      (m.after deeds).devices[number]? = some (.rom base bank false)
  hidden : ∀ number d (offset : Word), m.devices[number]? = some d → d.isCustom = false →
    m.ownerOf (d.base + offset) ≠ some number →
    ∀ deeds : List BusDeed, (∀ deed ∈ deeds, deed.Spares number) →
      ∃ d', (m.after deeds).devices[number]? = some d' ∧ d'.base = d.base ∧
        d'.read offset = d.read offset
  /-- Programs of any length, with any interrupts. -/
  programs : ∀ (machine : Machine MappedMemory) (commands : List Command), machine.cpu.bus = m →
    ∀ number base bank, m.devices[number]? = some (.rom base bank false) →
      (machine.obeyAll commands).cpu.bus.devices[number]? = some (.rom base bank false) ∧
        ∀ address, m.ownerOf address = some number →
          Bus.read (machine.obeyAll commands).cpu.bus address = Bus.read m address

/-- Whatever has been installed, written, burned and hidden, a mapped memory is a byte map whose
protected cells no write reaches. -/
theorem mapped_write_protected (deeds : List BusDeed) : (empty.after deeds).WriteProtected where
  read_write a _ value hcustom := read_write _ a hcustom value
  apart _ _ value howner := read_write_of_owner_ne _ howner value
  rom _ _ _ hrom deeds hspares := rom_after deeds hrom hspares
  hidden number d offset hd hplain howner deeds hspares := by
    have hhides : (empty.after _).Hides number d.base offset (d.read offset) :=
      ⟨howner, d, hd, hplain, rfl, rfl⟩
    obtain ⟨-, d', hd', -, hkept⟩ := hides_after deeds hhides hspares
    exact ⟨d', hd', hkept⟩
  programs machine commands hbus number base bank hrom := by
    rw [← hbus] at hrom ⊢
    exact rom_obeyAll machine commands hrom

end MappedMemory

end Nmos6502
