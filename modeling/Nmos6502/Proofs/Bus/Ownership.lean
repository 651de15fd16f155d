import Nmos6502.Bus.Mapped

namespace Nmos6502

namespace Device

def Covers (d : Device) (address : Word) : Prop :=
  d.base.toNat ≤ address.toNat ∧ address.toNat < d.base.toNat + d.size

def extent (d : Device) : Word × Nat :=
  (d.base, d.size)

def fits (d : Device) : Bool :=
  decide (d.base.toNat + d.size ≤ addressSpace)

theorem base_eq_of_extent {d d' : Device} (h : d.extent = d'.extent) : d.base = d'.base :=
  (Prod.mk.inj h).1

theorem size_eq_of_extent {d d' : Device} (h : d.extent = d'.extent) : d.size = d'.size :=
  (Prod.mk.inj h).2

theorem covers_congr {d d' : Device} (h : d.extent = d'.extent) (address : Word) :
    d.Covers address ↔ d'.Covers address := by
  simp only [Covers, base_eq_of_extent h, size_eq_of_extent h]

@[simp] theorem extent_write (d : Device) (offset : Word) (value : Byte) :
    (d.write offset value).extent = d.extent := by
  cases d with
  | ram base bank => rfl
  | rom base bank burning => cases burning <;> rfl
  | peripheral p => rfl
  | custom c => rfl

/-- Something done to a device that leaves it where it is and as large as it is. -/
structure Change where
  apply : Device → Device
  extent_apply : ∀ d, (apply d).extent = d.extent

namespace Change

def burn (on : Bool) : Change where
  apply := setBurning on
  extent_apply d := by cases d <;> rfl

/-- What the bus does to the owner of an address that is written. -/
def written (address : Word) (value : Byte) : Change where
  apply d := if d.writable then d.write (address - d.base) value else d
  extent_apply d := by
    split
    · exact d.extent_write _ _
    · rfl

theorem written_apply (address : Word) (value : Byte) (d : Device) :
    (written address value).apply d =
      if d.writable then d.write (address - d.base) value else d :=
  rfl

end Change

section Offsets

variable {d : Device} {address : Word} (h : d.Covers address)

include h

theorem base_le_of_covers : d.base ≤ address :=
  h.1

theorem offset_toNat : (address - d.base).toNat = address.toNat - d.base.toNat :=
  BitVec.toNat_sub_of_le h.1

theorem offset_lt_size : (address - d.base).toNat < d.size := by
  rw [offset_toNat h]
  obtain ⟨hbase, hstop⟩ := h
  omega

theorem hasCell_offset : d.hasCell (address - d.base) = true := by
  have hlt := offset_lt_size h
  cases d with
  | ram base bank => exact decide_eq_true hlt
  | rom base bank burning => exact decide_eq_true hlt
  | peripheral p => rfl
  | custom c => rfl

theorem readCell_offset : d.readCell (address - d.base) = .ok (d.read (address - d.base)) := by
  rw [readCell, if_pos (hasCell_offset h)]

theorem writeCell_offset (value : Byte) :
    d.writable = true →
      d.writeCell (address - d.base) value = .ok (d.write (address - d.base) value) := by
  have hcell := hasCell_offset h
  intro hwritable
  unfold writeCell
  split
  · exact absurd hwritable (by simp [writable])
  · rw [if_pos hcell]

end Offsets

end Device

namespace MappedMemory

theorem addChecked_eq (d : Device) :
    (∃ fault, (addChecked d.base.toNat d.size).mapError DeviceError.overflow = .error fault ∧
        addressSpace < d.base.toNat + d.size) ∨
      (addChecked d.base.toNat d.size).mapError DeviceError.overflow =
        .ok (d.base.toNat + d.size) := by
  rw [addChecked]
  split
  case isTrue => exact .inr rfl
  case isFalse h =>
    refine .inl ⟨_, rfl, ?_⟩
    rw [addressSpace]
    omega

/-- An install either fails, for one of two reasons, or puts the device at the end of the row and
gives it its addresses. -/
theorem install_cases (m : MappedMemory) (d : Device) :
    (∃ error, m.install d = .error error ∧
        (d.fits = false ∨ capacity ≤ m.devices.size)) ∨
      (d.fits = true ∧ m.devices.size < capacity ∧
        m.install d = .ok ({ m with
          devices := m.devices.push d
          owners := m.owners.fill d.base.toNat (d.base.toNat + d.size) (some m.devices.size) },
          m.devices.size)) := by
  rcases addChecked_eq d with ⟨fault, hfault, hpast⟩ | hstop
  · refine .inl ⟨fault, ?_, .inl (decide_eq_false (Nat.not_le.mpr hpast))⟩
    simp [install, hfault, bind, Except.bind]
  · rcases Nat.lt_or_ge addressSpace (d.base.toNat + d.size) with hpast | hfits
    · refine .inl ⟨.pastEnd d.base d.size, ?_, .inl (decide_eq_false (Nat.not_le.mpr hpast))⟩
      simp [install, hstop, bind, Except.bind, hpast]
    · rcases Nat.lt_or_ge m.devices.size capacity with hroom | hfull
      · refine .inr ⟨decide_eq_true hfits, hroom, ?_⟩
        simp [install, hstop, bind, Except.bind, Nat.not_lt.mpr hfits, Nat.not_le.mpr hroom]
      · refine .inl ⟨.tooMany, ?_, .inr hfull⟩
        simp [install, hstop, bind, Except.bind, Nat.not_lt.mpr hfits, hfull]

theorem install_eq_error_iff (m : MappedMemory) (d : Device) :
    (∃ error, m.install d = .error error) ↔
      addressSpace < d.base.toNat + d.size ∨ capacity ≤ m.devices.size := by
  have hfits : d.fits = false ↔ addressSpace < d.base.toNat + d.size := by
    simp [Device.fits]
  rw [← hfits]
  rcases m.install_cases d with ⟨error, herror, hwhy⟩ | ⟨htrue, hroom, hok⟩
  · exact ⟨fun _ => hwhy, fun _ => ⟨error, herror⟩⟩
  · constructor
    · rintro ⟨error, herror⟩
      rw [hok] at herror
      cases herror
    · rintro (hfalse | hfull)
      · rw [htrue] at hfalse
        cases hfalse
      · omega

end MappedMemory

inductive BusDeed where
  | install (d : Device)
  | write (address : Word) (value : Byte)
  | change (number : Nat) (c : Device.Change)
  | resetWatermark

namespace BusDeed

def device? : BusDeed → Option Device
  | install d => some d
  | write .. | change .. | resetWatermark => none

/-- The devices that somebody tries to install. -/
def offered (deeds : List BusDeed) : List Device :=
  deeds.filterMap device?

end BusDeed

namespace MappedMemory

/-- The memory after a deed. An install that fails changes nothing. -/
def carryOut (m : MappedMemory) : BusDeed → MappedMemory
  | .install d => (m.installCopies d none 1).1
  | .write address value => Bus.write m address value
  | .change number c => m.modifyDevice number c.apply
  | .resetWatermark => m.resetWatermark

def after (m : MappedMemory) (deeds : List BusDeed) : MappedMemory :=
  deeds.foldl carryOut m

theorem carryOut_install_of_error {m : MappedMemory} {d : Device} {error : DeviceError}
    (h : m.install d = .error error) : m.carryOut (.install d) = m := by
  simp only [carryOut, installCopies, h]

theorem carryOut_install_of_ok {m m' : MappedMemory} {d : Device} {number : Nat}
    (h : m.install d = .ok (m', number)) : m.carryOut (.install d) = m' := by
  simp only [carryOut, installCopies, h]

theorem write_eq (m : MappedMemory) (address : Word) (value : Byte) :
    Bus.write m address value =
      { m with
        watermark := some (widen m.watermark address)
        devices := (m.ownerOf address).elim m.devices fun number =>
          m.devices.modify number (Device.Change.written address value).apply } := by
  simp only [Bus.write]
  cases m.ownerOf address <;> rfl

/-- Whether `owner` is the last device that wants the address, or there is none. -/
def Owns (m : MappedMemory) (address : Word) : Option Nat → Prop
  | some number => (∃ d, m.devices[number]? = some d ∧ d.Covers address) ∧
      ∀ (later : Nat) (d : Device), number < later → m.devices[later]? = some d → ¬ d.Covers address
  | none => ∀ (number : Nat) (d : Device), m.devices[number]? = some d → ¬ d.Covers address

theorem Owns.unique {m : MappedMemory} {address : Word} {owner owner' : Option Nat}
    (h : m.Owns address owner) (h' : m.Owns address owner') : owner = owner' := by
  cases owner with
  | none =>
    cases owner' with
    | none => rfl
    | some number =>
      obtain ⟨⟨d, hd, hcovers⟩, -⟩ := h'
      exact absurd hcovers (h number d hd)
  | some number =>
    obtain ⟨⟨d, hd, hcovers⟩, hlast⟩ := h
    cases owner' with
    | none => exact absurd hcovers (h' number d hd)
    | some number' =>
      obtain ⟨⟨d', hd', hcovers'⟩, hlast'⟩ := h'
      rcases Nat.lt_trichotomy number number' with hlt | rfl | hgt
      · exact absurd hcovers' (hlast number' d' hlt hd')
      · rfl
      · exact absurd hcovers (hlast' number d hgt hd)

theorem Owns.congr {m m' : MappedMemory} {address : Word} {owner : Option Nat}
    (h : m.Owns address owner)
    (hextents : m'.devices.map Device.extent = m.devices.map Device.extent) :
    m'.Owns address owner := by
  have hback : ∀ (number : Nat) (d' : Device), m'.devices[number]? = some d' →
      ∃ d : Device, m.devices[number]? = some d ∧ d.extent = d'.extent := by
    intro number d' hd'
    have hat := congrArg (fun a => a[number]?) hextents
    rw [Array.getElem?_map, Array.getElem?_map, hd'] at hat
    exact Option.map_eq_some_iff.mp hat.symm
  have hforth : ∀ (number : Nat) (d : Device), m.devices[number]? = some d →
      ∃ d' : Device, m'.devices[number]? = some d' ∧ d'.extent = d.extent := by
    intro number d hd
    have hat := congrArg (fun a => a[number]?) hextents
    rw [Array.getElem?_map, Array.getElem?_map, hd] at hat
    exact Option.map_eq_some_iff.mp hat
  cases owner with
  | none =>
    intro number d' hd'
    obtain ⟨d, hd, hsame⟩ := hback number d' hd'
    rw [← Device.covers_congr hsame]
    exact h number d hd
  | some number =>
    obtain ⟨⟨d, hd, hcovers⟩, hlast⟩ := h
    constructor
    · obtain ⟨d', hd', hsame⟩ := hforth number d hd
      exact ⟨d', hd', (Device.covers_congr hsame address).mpr hcovers⟩
    · intro later d' hlater hd'
      obtain ⟨d, hd, hsame⟩ := hback later d' hd'
      rw [← Device.covers_congr hsame]
      exact hlast later d hlater hd

theorem Owns.push {m m' : MappedMemory} {d : Device} {address : Word} {owner : Option Nat}
    (h : m.Owns address owner) (hdevices : m'.devices = m.devices.push d) :
    m'.Owns address
      (if d.base.toNat ≤ address.toNat ∧ address.toNat < d.base.toNat + d.size
        then some m.devices.size else owner) := by
  have hold : ∀ {number : Nat} {d' : Device}, m'.devices[number]? = some d' →
      number = m.devices.size ∧ d' = d ∨ m.devices[number]? = some d' := by
    intro number d' hd'
    rw [hdevices, Array.getElem?_push] at hd'
    split at hd'
    · rename_i hnumber
      exact .inl ⟨hnumber, (Option.some.inj hd').symm⟩
    · exact .inr hd'
  have hkept : ∀ {number : Nat} {d' : Device}, m.devices[number]? = some d' →
      m'.devices[number]? = some d' := by
    intro number d' hd'
    obtain ⟨hlt, -⟩ := Array.getElem?_eq_some_iff.mp hd'
    rw [hdevices, Array.getElem?_push, if_neg (Nat.ne_of_lt hlt)]
    exact hd'
  split
  case isTrue hcovers =>
    constructor
    · refine ⟨d, ?_, hcovers⟩
      rw [hdevices, Array.getElem?_push, if_pos rfl]
    · intro later d' hlater hd'
      obtain ⟨hlt, -⟩ := Array.getElem?_eq_some_iff.mp hd'
      rw [hdevices, Array.size_push] at hlt
      omega
  case isFalse hcovers =>
    cases owner with
    | none =>
      intro number d' hd'
      rcases hold hd' with ⟨-, rfl⟩ | hd'
      · exact hcovers
      · exact h number d' hd'
    | some number =>
      obtain ⟨⟨d₀, hd₀, hcovers₀⟩, hlast⟩ := h
      refine ⟨⟨d₀, hkept hd₀, hcovers₀⟩, ?_⟩
      intro later d' hlater hd'
      rcases hold hd' with ⟨-, rfl⟩ | hd'
      · exact hcovers
      · exact hlast later d' hlater hd'

/-- The table tells the owner of every address, and the devices in the row are those of `offered`
that fit, as many as there is room for. -/
structure Consistent (m : MappedMemory) (offered : List Device) : Prop where
  owns : ∀ address, m.Owns address (m.ownerOf address)
  accepted : m.devices.toList.map Device.extent =
    ((offered.filter Device.fits).take capacity).map Device.extent

namespace Consistent

variable {m m' : MappedMemory} {offered : List Device}

theorem size_eq (h : m.Consistent offered) :
    m.devices.size = min capacity (offered.filter Device.fits).length := by
  have hlength := congrArg List.length h.accepted
  simpa using hlength

theorem congr (h : m.Consistent offered) (howners : m'.owners = m.owners)
    (hextents : m'.devices.map Device.extent = m.devices.map Device.extent) :
    m'.Consistent offered where
  owns address := by
    have howner : m'.ownerOf address = m.ownerOf address := by
      rw [ownerOf, ownerOf, howners]
    rw [howner]
    exact (h.owns address).congr hextents
  accepted := by
    rw [← h.accepted, ← Array.toList_map, ← Array.toList_map, hextents]

theorem modify (h : m.Consistent offered) (number : Nat) (c : Device.Change) :
    (m.modifyDevice number c.apply).Consistent offered := by
  refine h.congr rfl (Array.ext_getElem? fun i => ?_)
  rw [modifyDevice, Array.getElem?_map, Array.getElem?_modify, Array.getElem?_map]
  split
  · cases m.devices[i]? with
    | none => rfl
    | some d => exact congrArg some (c.extent_apply d)
  · rfl

theorem write (h : m.Consistent offered) (address : Word) (value : Byte) :
    (Bus.write m address value).Consistent offered := by
  rw [write_eq]
  cases m.ownerOf address with
  | none => exact h.congr rfl rfl
  | some number => exact (h.modify number (.written address value)).congr rfl rfl

theorem refuse (h : m.Consistent offered) {d : Device}
    (hwhy : d.fits = false ∨ capacity ≤ m.devices.size) : m.Consistent (offered ++ [d]) where
  owns := h.owns
  accepted := by
    rw [h.accepted, List.filter_append]
    cases hfits : d.fits with
    | false => simp [hfits]
    | true =>
      have hfull : capacity ≤ (offered.filter Device.fits).length := by
        have hsize := h.size_eq
        rw [hfits] at hwhy
        have hle := hwhy.resolve_left (by simp)
        omega
      rw [List.take_append_of_le_length hfull]

theorem install (h : m.Consistent offered) {d : Device} (hfits : d.fits = true)
    (hroom : m.devices.size < capacity) :
    Consistent { m with
      devices := m.devices.push d
      owners := m.owners.fill d.base.toNat (d.base.toNat + d.size) (some m.devices.size) }
      (offered ++ [d]) where
  owns address := by
    have howner := Table.get_fill m.owners d.base.toNat (d.base.toNat + d.size) address.toNat
      (some m.devices.size) address.isLt
    rw [ownerOf, howner]
    exact (h.owns address).push rfl
  accepted := by
    have hsize := h.size_eq
    have hshort : (offered.filter Device.fits).length < capacity := by omega
    have hbefore := h.accepted
    rw [List.take_of_length_le (Nat.le_of_lt hshort)] at hbefore
    have hafter : ((offered ++ [d]).filter Device.fits).length ≤ capacity := by
      simpa [hfits] using Nat.succ_le_of_lt hshort
    rw [List.take_of_length_le hafter]
    simp [hbefore, hfits]

theorem carryOut (h : m.Consistent offered) (deed : BusDeed) :
    (m.carryOut deed).Consistent (offered ++ deed.device?.toList) := by
  cases deed with
  | install d =>
    rcases m.install_cases d with ⟨error, herror, hwhy⟩ | ⟨hfits, hroom, hok⟩
    · rw [carryOut_install_of_error herror]
      exact h.refuse hwhy
    · rw [carryOut_install_of_ok hok]
      exact h.install hfits hroom
  | write address value =>
    rw [BusDeed.device?, Option.toList_none, List.append_nil]
    exact h.write address value
  | change number c =>
    rw [BusDeed.device?, Option.toList_none, List.append_nil]
    exact h.modify number c
  | resetWatermark =>
    rw [BusDeed.device?, Option.toList_none, List.append_nil]
    exact h.congr rfl rfl

theorem after (deeds : List BusDeed) (h : m.Consistent offered) :
    (m.after deeds).Consistent (offered ++ BusDeed.offered deeds) := by
  induction deeds generalizing m offered with
  | nil => simpa [BusDeed.offered, MappedMemory.after] using h
  | cons deed deeds ih =>
    have hrest := ih (h.carryOut deed)
    rw [List.append_assoc] at hrest
    have hoffered : BusDeed.offered (deed :: deeds) =
        deed.device?.toList ++ BusDeed.offered deeds := by
      rw [BusDeed.offered, List.filterMap_cons]
      cases deed.device? <;> rfl
    rw [hoffered]
    exact hrest

end Consistent

theorem consistent_empty : empty.Consistent [] where
  owns address := by
    have howner : empty.ownerOf address = none := Table.get_replicate ..
    rw [howner]
    intro number d hd
    cases hd
  accepted := rfl

/-- Every access to the address goes to this device, at an offset that the device has. -/
structure Routes (m : MappedMemory) (address : Word) (number : Nat) (d : Device) : Prop where
  device : m.devices[number]? = some d
  base_le : d.base ≤ address
  offset_eq : (address - d.base).toNat = address.toNat - d.base.toNat
  offset_lt : (address - d.base).toNat < d.size
  reads : Bus.read m address = if d.readable then d.read (address - d.base) else 0
  /-- The cell that is read is there. -/
  readCell : d.readCell (address - d.base) = .ok (d.read (address - d.base))
  /-- So is the cell that is written, and no other device learns of the write. -/
  writes : ∀ value, ∃ d', (Bus.write m address value).devices = m.devices.setIfInBounds number d' ∧
    if d.writable then d.writeCell (address - d.base) value = .ok d' else d' = d
  signals : ∀ value, Bus.signal m address value =
    if d.writable then d.signal (address - d.base) value else none

theorem Consistent.routes {m : MappedMemory} {offered : List Device} (h : m.Consistent offered)
    {address : Word} {number : Nat} (howner : m.ownerOf address = some number) :
    ∃ d, m.Routes address number d := by
  have howns := h.owns address
  rw [howner] at howns
  obtain ⟨⟨d, hd, hcovers⟩, -⟩ := howns
  have hdevice : m.deviceAt address = some d := by
    simp [deviceAt, howner, hd]
  refine ⟨d, hd, Device.base_le_of_covers hcovers, Device.offset_toNat hcovers,
    Device.offset_lt_size hcovers, ?_, Device.readCell_offset hcovers, ?_, ?_⟩
  · simp only [Bus.read, hdevice]
  · intro value
    refine ⟨(Device.Change.written address value).apply d, ?_, ?_⟩
    · rw [write_eq, howner]
      refine Array.ext_getElem? fun i => ?_
      simp only [Option.elim_some, Array.getElem?_modify, Array.getElem?_setIfInBounds]
      split
      · rename_i hi
        subst hi
        obtain ⟨hlt, -⟩ := Array.getElem?_eq_some_iff.mp hd
        rw [hd, if_pos hlt, Option.map_some]
      · rfl
    · rw [Device.Change.written_apply]
      split
      · rename_i hwritable
        exact Device.writeCell_offset hcovers value hwritable
      · rfl
  · intro value
    simp only [Bus.signal, hdevice]

/-- How a mapped memory stands to the devices that somebody has tried to install. -/
structure Orderly (m : MappedMemory) (offered : List Device) : Prop where
  /-- The devices are those that fit, in the order of their coming, as long as there was room. -/
  accepted : m.devices.toList.map Device.extent =
    ((offered.filter Device.fits).take capacity).map Device.extent
  ownerOf_eq_iff : ∀ address owner, m.ownerOf address = owner ↔ m.Owns address owner
  routes : ∀ address number, m.ownerOf address = some number → ∃ d, m.Routes address number d
  unowned : ∀ address, m.ownerOf address = none → Bus.read m address = 0 ∧
    ∀ value, (Bus.write m address value).devices = m.devices ∧ Bus.signal m address value = none
  refuses_iff : ∀ d, (∃ error, m.install d = .error error) ↔
    addressSpace < d.base.toNat + d.size ∨ capacity ≤ m.devices.size
  refused : ∀ d error, m.install d = .error error → m.carryOut (.install d) = m
  /-- The number of a device is its place in the row. -/
  installed : ∀ d m' number, m.install d = .ok (m', number) →
    m.carryOut (.install d) = m' ∧ number = m.devices.size ∧ m'.devices = m.devices.push d ∧
      m'.watermark = m.watermark

/-- Whatever is installed, written and changed, every address belongs to the last device that wants
it, and is found within that device. -/
theorem mapped_orderly (deeds : List BusDeed) :
    (empty.after deeds).Orderly (BusDeed.offered deeds) := by
  have hconsistent := consistent_empty.after deeds
  rw [List.nil_append] at hconsistent
  generalize empty.after deeds = m at hconsistent ⊢
  constructor
  · exact hconsistent.accepted
  · intro address owner
    constructor
    · rintro rfl
      exact hconsistent.owns address
    · intro howns
      exact (hconsistent.owns address).unique howns
  · intro address number howner
    exact hconsistent.routes howner
  · intro address howner
    have hdevice : m.deviceAt address = none := by
      simp [deviceAt, howner]
    refine ⟨by simp only [Bus.read, hdevice], fun value => ⟨?_, by simp only [Bus.signal, hdevice]⟩⟩
    rw [write_eq, howner]
    rfl
  · exact m.install_eq_error_iff
  · intro d error herror
    exact carryOut_install_of_error herror
  · intro d m' number hok
    refine ⟨carryOut_install_of_ok hok, ?_⟩
    rcases m.install_cases d with ⟨error, herror, -⟩ | ⟨-, -, hinstall⟩
    · rw [herror] at hok
      cases hok
    · rw [hinstall] at hok
      cases hok
      exact ⟨rfl, rfl, rfl⟩

end MappedMemory

end Nmos6502
