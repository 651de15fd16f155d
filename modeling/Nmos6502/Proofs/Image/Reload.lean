import Nmos6502.Proofs.Bus.Watermark
import Nmos6502.Proofs.Image.Format
import Nmos6502.Proofs.Interchange
import Nmos6502.Proofs.Loader.Record

namespace Nmos6502

universe u v

namespace Workbench

/-- What may write to the memory of a workbench. -/
inductive Use where
  /-- A write past everything but the memory. -/
  | write (address : Word) (value : Byte)
  | operation (operation : Operation)

variable {β : Type u} {γ : Type v} [Bus β] [Bus γ] {f : β → γ}

def use (b : Workbench β) : Use → Workbench β
  | .write address value => b.transfer fun memory => Bus.write memory address value
  | .operation operation => b.operate operation

def afterUses (b : Workbench β) (uses : List Use) : Workbench β :=
  uses.foldl use b

theorem load_written (b : Workbench β) (calls : List Loader.Call) :
    Bus.Written b.memory (b.load calls).memory := by
  let called := (Loader.start b.memory b.labels).after calls
  have hmemory : (b.load calls).memory = called.finish.bus := by
    rw [memory, load_machine, (Machine.foldl_notice_fields _ _).1]
  have hcalled : Bus.Written b.memory called.bus :=
    ⟨_, (Loader.after_writes calls (.start b.memory b.labels)).1⟩
  have hfinished : Bus.Written called.bus called.finish.bus :=
    ⟨_, called.fixup_writes.1⟩
  rw [hmemory]
  exact hcalled.trans hfinished

theorem operate_written (b : Workbench β) (operation : Operation) :
    Bus.Written b.memory (b.operate operation).memory := by
  cases operation with
  | command command => exact b.machine.obey_written command
  | writeWord address value => exact b.machine.poke_written address _
  | load calls => exact b.load_written calls
  | setFlags mask on => exact .of_eq (by simp [memory, operate, Cpu.setFlags_bus])
  | awaitIrq =>
    refine .of_eq ?_
    simp [memory, operate, Machine.requestIrqAndEnable, Machine.setRegister, Cpu.setRegister_bus]
  | attachLines lines | observe observer | requestIrq | powerCycle | peek address count
  | readWord address => exact .refl _

theorem afterUses_written (uses : List Use) (b : Workbench β) :
    Bus.Written b.memory (b.afterUses uses).memory := by
  induction uses generalizing b with
  | nil => exact .refl _
  | cons u uses ih =>
    have hfirst : Bus.Written b.memory (b.use u).memory := by
      cases u with
      | write address value => exact .write _ address value
      | operation operation => exact b.operate_written operation
    exact hfirst.trans (ih (b.use u))

theorem transfer_afterUses (hf : Bus.Faithful f) (uses : List Use) (b : Workbench β) :
    (b.transfer f).afterUses uses = (b.afterUses uses).transfer f := by
  induction uses generalizing b with
  | nil => rfl
  | cons u uses ih =>
    have hfirst : (b.transfer f).use u = (b.use u).transfer f := by
      cases u with
      | write address value =>
        exact congrArg b.transfer (funext fun memory => hf.write memory address value)
      | operation operation => exact transfer_operate hf b operation
    rw [afterUses, List.foldl_cons, hfirst]
    exact ih (b.use u)

/-- Everything that is written, oldest first. -/
def writesOf (b : Workbench β) (uses : List Use) : List (Word × Byte) :=
  ((b.transfer fun bus => (⟨bus, []⟩ : Recorded β)).afterUses uses).memory.writes

theorem memory_afterUses (b : Workbench β) (uses : List Use) :
    (b.afterUses uses).memory = Bus.replay b.memory (b.writesOf uses) := by
  let r : Workbench (Recorded β) := b.transfer fun bus => ⟨bus, []⟩
  have hb : r.transfer Recorded.bus = b := rfl
  obtain ⟨writes, hwrites⟩ := afterUses_written uses r
  have hrecord : b.writesOf uses = writes := by
    rw [writesOf, hwrites, Recorded.writes_replay]
    rfl
  have hmemory : (b.afterUses uses).memory = (r.afterUses uses).memory.bus := by
    rw [← hb, transfer_afterUses Recorded.faithful]
    rfl
  rw [hmemory, hwrites, Recorded.bus_replay, hrecord]
  rfl

end Workbench

namespace Image

variable {β : Type u} {γ : Type v} [Bus β] [Bus γ] {bus : β} {lowest highest : Word}

/-- A loader puts the image between the two addresses and its bus then reads like another one. -/
structure Restores (image : Image) (bus : β) (lowest highest : Word) (l : Loader γ) : Prop where
  loaded : (l.loadImage image.encode none).2 = .ok lowest
  read : ∀ x, Bus.read (l.loadImage image.encode none).1.bus x = Bus.read bus x
  cursor : (l.loadImage image.encode none).1.cursor = highest + 1
  record : ∃ made, (l.loadImage image.encode none).1.record = l.record ++ made ∧
    ∀ entry ∈ made, lowest ≤ entry.1 ∧ entry.1 ≤ highest

theorem capture_all (bus : β) : capture bus 0 0xFFFF = .error (.outOfBounds 0 0x10000) := by
  have hlength : (Bus.readAll bus 0 0x10000).length = 0x10000 := Bus.length_readAll ..
  have hnot : ¬ FitsImage 0 (Bus.readAll bus 0 0x10000).length := by
    rw [hlength]
    exact fun h => Nat.lt_irrefl _ h.1
  exact (of_of_not_fits hnot).trans (by rw [hlength])

theorem exists_capture (bus : β) (hle : lowest ≤ highest)
    (hpart : ¬ (lowest = 0 ∧ highest = 0xFFFF)) :
    ∃ image, capture bus lowest highest = .ok image := by
  refine exists_of_fits ?_
  rw [Bus.length_readAll]
  constructor <;> bv_omega

theorem restores_of_capture {image : Image} (himage : capture bus lowest highest = .ok image)
    (hle : lowest ≤ highest) (houtside : ∀ x, ¬ (lowest ≤ x ∧ x ≤ highest) → Bus.read bus x = 0)
    {l : Loader γ} (hmemory : Bus.IsMemory l.bus) (hblank : ∀ x, Bus.read l.bus x = 0) :
    image.Restores bus lowest highest l := by
  obtain ⟨rfl, hbytes⟩ := of_eq_ok_iff.mp himage
  have hdecode : decodeAt image.encode none = .ok image := by
    rw [decodeAt, image.decode_encode]
    rfl
  have hload := Loader.loadImage_of_ok (l := l) hdecode
  obtain ⟨hbus, hrecord, hcursor⟩ := (l.moveTo image.address).writeAll_writes image.bytes
  have hblock (x : Word) : (∃ value, (x, value) ∈ Bus.block image.address image.bytes) ↔
      image.address ≤ x ∧ x ≤ highest := by
    rw [Bus.exists_mem_block_iff, Word.mem_range_iff, hbytes, Bus.length_readAll]
  have hvalue : ∀ x value, (x, value) ∈ Bus.block image.address image.bytes →
      Bus.read bus x = value := by
    intro x value
    rw [hbytes]
    exact Bus.read_of_mem_block_readAll
  constructor
  · rw [hload]
  · intro x
    rw [hload, hbus]
    by_cases hx : ∃ value, (x, value) ∈ Bus.block image.address image.bytes
    · obtain ⟨value, hmem⟩ := hx
      rw [hvalue x value hmem]
      refine hmemory.read_replay_of_mem (fun other hother => ?_) hmem
      exact (hvalue x other hother).symm.trans (hvalue x value hmem)
    · rw [houtside x (mt (hblock x).mpr hx), ← hblank x]
      refine hmemory.read_replay_of_forall_ne ?_
      rintro ⟨_, value⟩ hmem rfl
      exact hx ⟨value, hmem⟩
  · rw [hload, hcursor, hbytes, Bus.length_readAll]
    simp only [Loader.moveTo]
    bv_omega
  · refine ⟨Bus.block image.address image.bytes, ?_, ?_⟩
    · rw [hload, hrecord]
      rfl
    · intro entry hentry
      exact (hblock entry.1).mp ⟨entry.2, hentry⟩

end Image

/-- Whatever was written to plain memory since it was blank, the watermark tells from where to
where, and the bytes in between make blank memory the same. -/
theorem saved_region_reloads {γ : Type v} [Bus γ] (b : Workbench MappedMemory)
    (hplain : b.memory.IsPlain) (hzero : ∀ x, Bus.read b.memory x = 0)
    (hfresh : b.memory.watermark = none) (uses : List Workbench.Use) (l : Loader γ)
    (hmemory : Bus.IsMemory l.bus) (hblank : ∀ x, Bus.read l.bus x = 0) :
    let now := (b.afterUses uses).memory
    let writes := b.writesOf uses
    now = Bus.replay b.memory writes ∧ MappedMemory.Spans writes now.watermark ∧
      ∀ lowest highest, now.watermark = some (lowest, highest) →
        if lowest = 0 ∧ highest = 0xFFFF then
          Image.capture now lowest highest = .error (.outOfBounds 0 0x10000)
        else ∃ image, Image.capture now lowest highest = .ok image ∧
          image.Restores now lowest highest l := by
  intro now writes
  have hnow : now = Bus.replay b.memory writes := b.memory_afterUses uses
  have hspans : MappedMemory.Spans writes now.watermark := by
    have hnone : MappedMemory.Spans [] b.memory.watermark := by
      rw [hfresh]
      exact rfl
    rw [hnow]
    exact MappedMemory.spans_watermark hnone writes
  refine ⟨hnow, hspans, ?_⟩
  intro lowest highest hrange
  rw [hrange] at hspans
  obtain ⟨⟨value, hlowest⟩, -, hbetween⟩ := hspans
  split
  case isTrue hall =>
    obtain ⟨rfl, rfl⟩ := hall
    exact Image.capture_all now
  case isFalse hpart =>
    have hle := (hbetween _ hlowest).2
    obtain ⟨image, himage⟩ := Image.exists_capture now hle hpart
    refine ⟨image, himage, Image.restores_of_capture himage hle ?_ hmemory hblank⟩
    intro x hx
    rw [hnow, hplain.isMemory.read_replay_of_forall_ne, hzero]
    rintro entry hentry rfl
    exact hx (hbetween entry hentry)

/-- One device of plain memory, all zero, for the whole address space. -/
def MappedMemory.zeroed : MappedMemory :=
  empty.carryOut (.install (.ram 0 ⟨addressSpace, Table.replicate 16 0, Nat.le_refl _⟩))

theorem MappedMemory.isPlain_zeroed : zeroed.IsPlain :=
  (IsPlain.install rfl).1

theorem MappedMemory.read_zeroed (x : Word) : Bus.read zeroed x = 0 :=
  (isPlain_zeroed.read (IsPlain.install rfl).2 x).trans (Table.get_replicate ..)

/-- A byte that is written directly and one below it that a load writes. -/
theorem saved_region_reloads_twoBytes :
    let uses := [Workbench.Use.write 0x0300 0x34, .operation (.load [.moveTo 0x02FF, .write 0x12])]
    let now := ((Workbench.powerOn MappedMemory.zeroed .empty).afterUses uses).memory
    ∃ image, Image.capture now 0x02FF 0x0300 = .ok image ∧
      let loaded := (Loader.start FlatMemory.zeroed .empty).loadImage image.encode none
      Bus.read loaded.1.bus 0x02FF = 0x12 ∧ Bus.read loaded.1.bus 0x0300 = 0x34 ∧
        loaded.1.cursor = 0x0301 := by
  intro uses now
  have hmemory : (Workbench.powerOn MappedMemory.zeroed .empty).memory = MappedMemory.zeroed := rfl
  obtain ⟨-, -, hreload⟩ := saved_region_reloads (Workbench.powerOn MappedMemory.zeroed .empty)
    MappedMemory.isPlain_zeroed (by rw [hmemory]; exact MappedMemory.read_zeroed)
    (by decide +kernel) uses (Loader.start FlatMemory.zeroed .empty) (FlatMemory.isMemory _)
    FlatMemory.read_zeroed
  obtain ⟨image, himage, hrestores⟩ := hreload 0x02FF 0x0300 (by decide +kernel)
  refine ⟨image, himage, ?_, ?_, hrestores.cursor⟩
  · rw [hrestores.read]
    decide +kernel
  · rw [hrestores.read]
    decide +kernel

end Nmos6502
