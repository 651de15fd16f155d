import Nmos6502.Proofs.ControlFlow
import Nmos6502.Proofs.Loader.Record

namespace Nmos6502

universe u

theorem Byte.displacement_ofInt {distance : Int} (h : -0x80 ≤ distance ∧ distance < 0x80) :
    displacement (BitVec.ofInt 8 distance) = BitVec.ofInt 16 distance := by
  rw [displacement, BitVec.signExtend, BitVec.toInt_ofInt, Int.bmod_eq_of_le] <;> omega

namespace Reference

/-- How far it is from the byte after the operand at `slot` to the place that is meant. -/
def distance (r : Reference) (slot address : Word) : Int :=
  address.toNat + r.offset - (slot.toNat + 1)

/-- A branch gets there with an operand of one byte. -/
def InReach (r : Reference) (slot address : Word) : Prop :=
  -128 ≤ r.distance slot address ∧ r.distance slot address < 128

/-- The place that is meant. What lies past one end of memory is counted on from the other. -/
def place (r : Reference) (address : Word) : Word :=
  BitVec.ofInt 16 (address.toNat + r.offset)

theorem add_displacement {r : Reference} {b address : Word} (h : r.InReach (b + 1) address) :
    b + 2 + Byte.displacement (BitVec.ofInt 8 (r.distance (b + 1) address)) = r.place address := by
  have hnext : b + 2 = BitVec.ofInt 16 ((b + 1).toNat + 1) := by
    rw [BitVec.ofInt_add, BitVec.ofInt_natCast, BitVec.ofNat_toNat, BitVec.setWidth_eq,
      BitVec.add_assoc]
    rfl
  have hsum : ((b + 1).toNat + 1 : Int) + r.distance (b + 1) address =
      address.toNat + r.offset := by
    simp only [distance]
    omega
  rw [Byte.displacement_ofInt h, hnext, ← BitVec.ofInt_add, hsum, place]

end Reference

/-- The address that an error is about. What is wrong with a label has none. -/
def FixupError.slot : FixupError → Option Word
  | label _ => none
  | unresolved _ slot | branchOutOfRange _ slot _ | byteOutOfRange _ slot _
  | wordOutOfRange _ slot _ | overwritten _ slot | unknownInstruction _ slot => some slot

namespace PendingReference

variable {target : Reference} {labels : LabelTable} {slot address : Word}

theorem checked_eq_some_iff {value found : Int} :
    checked value = some found ↔ Numeral.InRange value ∧ value = found := by
  simp [checked]

theorem resolve_of_inReach (hselect : target.select = .both)
    (haddress : labels.lookup target.name = some address) (h : target.InReach slot address) :
    (mk target .relative).resolve slot labels =
      .ok (.byte (BitVec.ofInt 8 (target.distance slot address))) := by
  have hslot := slot.isLt
  have hnear := h
  simp only [Reference.InReach, Reference.distance] at hnear
  have hsum : checked (address.toNat + target.offset) = some (address.toNat + target.offset) :=
    checked_eq_some_iff.mpr ⟨by simp only [Numeral.InRange]; omega, rfl⟩
  have hdistance : checked (address.toNat + target.offset - (slot.toNat + 1)) =
      some (target.distance slot address) :=
    checked_eq_some_iff.mpr ⟨by simp only [Numeral.InRange]; omega, rfl⟩
  simp only [resolve, haddress, hselect, hsum, Option.bind_some, hdistance, Option.map_some,
    ByteSelect.apply]
  rw [if_pos (.inr h)]

theorem resolve_of_not_inReach (hselect : target.select = .both)
    (haddress : labels.lookup target.name = some address) (h : ¬ target.InReach slot address) :
    ∃ distance, (mk target .relative).resolve slot labels =
      .error (.branchOutOfRange target.text slot distance) := by
  simp only [resolve, haddress, hselect]
  split
  · exact ⟨_, rfl⟩
  · rename_i distance hfound
    obtain ⟨_, hbind, rfl⟩ := Option.map_eq_some_iff.mp hfound
    obtain ⟨_, hsum, hdistance⟩ := Option.bind_eq_some_iff.mp hbind
    obtain ⟨-, rfl⟩ := checked_eq_some_iff.mp hsum
    obtain ⟨-, rfl⟩ := checked_eq_some_iff.mp hdistance
    exact ⟨_, if_neg fun hfits => hfits.elim (fun hne => hne rfl) h⟩

theorem resolve_cases (hselect : target.select = .both) (slot : Word) (labels : LabelTable) :
    (mk target .relative).resolve slot labels = .error (.unresolved target.text slot) ∨
      ∃ address, labels.lookup target.name = some address ∧
        (target.InReach slot address ∧ (mk target .relative).resolve slot labels =
            .ok (.byte (BitVec.ofInt 8 (target.distance slot address))) ∨
          ¬ target.InReach slot address ∧ ∃ distance, (mk target .relative).resolve slot labels =
            .error (.branchOutOfRange target.text slot distance)) := by
  cases haddress : labels.lookup target.name with
  | none => exact .inl (by simp only [resolve, haddress])
  | some address =>
    refine .inr ⟨address, rfl, ?_⟩
    by_cases hreach : target.InReach slot address
    · exact .inl ⟨hreach, resolve_of_inReach hselect haddress hreach⟩
    · exact .inr ⟨hreach, resolve_of_not_inReach hselect haddress hreach⟩

theorem resolve_shape (p : PendingReference) (slot : Word) (labels : LabelTable) :
    match p.resolve slot labels with
    | .ok patch => patch.bytes.length = (Loader.placeholder p.encoding).length
    | .error error => error.slot = some slot := by
  obtain ⟨target, encoding⟩ := p
  rw [resolve]
  cases labels.lookup target.name with
  | none => rfl
  | some address =>
    cases encoding with
    | word | byte =>
      dsimp only
      split_ifs <;> rfl
    | relative =>
      dsimp only
      generalize Option.map target.select.apply _ = found
      cases found with
      | none => rfl
      | some distance =>
        dsimp only
        split_ifs <;> rfl

theorem length_of_resolve {p : PendingReference} {patch : Patch}
    (h : p.resolve slot labels = .ok patch) :
    patch.bytes.length = (Loader.placeholder p.encoding).length := by
  have hshape := p.resolve_shape slot labels
  rw [h] at hshape
  exact hshape

theorem slot_of_resolve {p : PendingReference} {error : FixupError}
    (h : p.resolve slot labels = .error error) : error.slot = some slot := by
  have hshape := p.resolve_shape slot labels
  rw [h] at hshape
  exact hshape

end PendingReference

namespace Loader

variable {β : Type u}

theorem covers_of_mem_writes {entry : Word × PendingReference} {labels : LabelTable}
    {patch : Patch} {x : Word} {u : Byte} (hresolve : entry.2.resolve entry.1 labels = .ok patch)
    (h : (x, u) ∈ patch.writes entry.1) : Covers entry x := by
  have hblock : patch.writes entry.1 = Bus.block entry.1 patch.bytes := by
    cases patch <;> rfl
  rw [hblock] at h
  rw [Covers, Bus.exists_mem_block_iff, ← PendingReference.length_of_resolve hresolve]
  exact Bus.exists_mem_block_iff.mp ⟨u, h⟩

theorem covers_of_mem_patchWrites {l : Loader β} {x : Word} {u : Byte}
    (h : (x, u) ∈ l.patchWrites) : ∃ entry ∈ l.pending, Covers entry x ∧
      ∃ patch, entry.2.resolve entry.1 l.labels = .ok patch ∧ (x, u) ∈ patch.writes entry.1 := by
  obtain ⟨⟨address, patch⟩, hpatch, hwritten⟩ := List.mem_flatMap.mp h
  obtain ⟨reference, hpending, hresolve⟩ := mem_patches.mp hpatch
  exact ⟨_, hpending, covers_of_mem_writes hresolve hwritten,
    patch, hresolve, hwritten⟩

theorem branchOutOfRange_not_mem_reported (l : Loader β) (c : Call) (label : String)
    (slot : Word) (distance : Int) : .branchOutOfRange label slot distance ∉ l.reported c := by
  cases c with
  | instruction op | label name | refer encoding text =>
    simp only [reported]
    split <;> simp
  | _ => exact List.not_mem_nil

theorem branchOutOfRange_not_mem_after [Bus β] {l : Loader β} {label : String} {slot : Word}
    {distance : Int} (h : .branchOutOfRange label slot distance ∉ l.errors) (calls : List Call) :
    .branchOutOfRange label slot distance ∉ (l.after calls).errors := by
  induction calls generalizing l with
  | nil => exact h
  | cons c calls ih =>
    refine ih ?_
    cases hfixesUp : c.fixesUp with
    | true =>
      cases c with
      | fixup | endScope => simp [call, endScope, fixup_fields]
      | _ => cases hfixesUp
    | false =>
      rw [(call_fields hfixesUp).1, List.mem_append, not_or]
      exact ⟨h, l.branchOutOfRange_not_mem_reported c label slot distance⟩

end Loader

/-- A branch whose operand is a reference to a label. -/
structure BranchLine where
  op : Opcode
  opcode : Byte
  text : String
  target : Reference
  mode_op : op.mode = .relative
  encode_op : op.encode = some opcode
  read_text : Reference.read text = .ok (.ok target)
  select_target : target.select = .both

namespace BranchLine

def reference (branch : BranchLine) : PendingReference :=
  ⟨branch.target, .relative⟩

variable {β : Type u} [Bus β] (branch : BranchLine) (l : Loader β)

theorem call_instruction :
    (l.call (.instruction branch.op)).pending = l.pending ∧
      (l.call (.instruction branch.op)).bus = Bus.write l.bus l.cursor branch.opcode := by
  simp [Loader.call, Loader.instruction, branch.encode_op, Loader.write, Loader.patch, Bus.store]

theorem call_refer :
    (l.call (.refer .relative branch.text)).pending =
        Sorted.insert l.cursor branch.reference l.pending ∧
      (l.call (.refer .relative branch.text)).bus =
        Bus.write l.bus l.cursor Loader.bytePlaceholder := by
  have hrefer : l.call (.refer .relative branch.text) =
      (l.await branch.target .relative).write Loader.bytePlaceholder := by
    simp [Loader.call, Loader.emit, Loader.relativeReference, Loader.refer, branch.read_text,
      Except.map]
  obtain ⟨hbus, -, hcursor, -⟩ := l.await_fields branch.target .relative
  rw [hrefer]
  constructor
  · exact l.await_pending branch.target .relative
  · simp only [Loader.write, Loader.patch, Bus.store, hbus, hcursor]

end BranchLine

/-- A load of memory with a branch in it, up to the fixup. The reference follows the opcode, at once
or after calls that come back there, and nothing else is written where the branch stands. -/
structure BranchLoad where
  memory : FlatMemory
  labels : LabelTable
  before : List Loader.Call
  branch : BranchLine
  between : List Loader.Call
  later : List Loader.Call
  later_waits : ∀ c ∈ later, c.fixesUp = false
  adjacent :
    let opened := (Loader.start memory labels).after before
    ((opened.call (.instruction branch.op)).after between).cursor = opened.cursor + 1
  alone :
    let opened := (Loader.start memory labels).after before
    let written := opened.call (.instruction branch.op)
    let referred := (written.after between).call (.refer .relative branch.text)
    ∀ entry ∈ (Loader.start memory labels).writes before ++ written.writes between ++
      referred.writes later, entry.1 ≠ opened.cursor ∧ entry.1 ≠ opened.cursor + 1

namespace BranchLoad

variable (s : BranchLoad)

/-- The loader when the branch is about to be written. -/
def opened : Loader FlatMemory :=
  (Loader.start s.memory s.labels).after s.before

def address : Word :=
  s.opened.cursor

def written : Loader FlatMemory :=
  s.opened.call (.instruction s.branch.op)

/-- The loader when the branch is about to refer to its label. -/
def halfway : Loader FlatMemory :=
  s.written.after s.between

def referred : Loader FlatMemory :=
  s.halfway.call (.refer .relative s.branch.text)

/-- The loader when the branch is about to be fixed up. -/
def loaded : Loader FlatMemory :=
  s.referred.after s.later

theorem referred_fields :
    s.referred.pending = Sorted.insert (s.address + 1) s.branch.reference s.halfway.pending ∧
      s.referred.bus = Bus.write s.halfway.bus (s.address + 1) Loader.bytePlaceholder := by
  have hcursor : s.halfway.cursor = s.address + 1 := s.adjacent
  rw [← hcursor]
  exact s.branch.call_refer s.halfway

variable {s} {x : Word}

theorem spared (hx : x = s.address ∨ x = s.address + 1) :
    (∀ entry ∈ (Loader.start s.memory s.labels).writes s.before, entry.1 ≠ x) ∧
      (∀ entry ∈ s.written.writes s.between, entry.1 ≠ x) ∧
      ∀ entry ∈ s.referred.writes s.later, entry.1 ≠ x := by
  rw [← and_assoc, ← List.forall_mem_append, ← List.forall_mem_append]
  intro entry hentry
  rcases hx with rfl | rfl
  · exact (s.alone entry hentry).1
  · exact (s.alone entry hentry).2

/-- No other reference holds a place where the branch stands. -/
theorem eq_of_mem_pending {entry : Word × PendingReference}
    (hx : x = s.address ∨ x = s.address + 1) (hcovers : Loader.Covers entry x)
    (h : entry ∈ s.loaded.pending) : entry = (s.address + 1, s.branch.reference) := by
  obtain ⟨hbefore, hbetween, hlater⟩ := spared hx
  have hreferred := Loader.mem_pending_after hlater hcovers h
  rw [s.referred_fields.1] at hreferred
  refine (Sorted.mem_insert hreferred).resolve_right fun hhalfway => ?_
  have hwritten := Loader.mem_pending_after hbetween hcovers hhalfway
  rw [written, (s.branch.call_instruction s.opened).1] at hwritten
  exact List.not_mem_nil (Loader.mem_pending_after hbefore hcovers hwritten)

theorem mem_pending (s : BranchLoad) :
    (s.address + 1, s.branch.reference) ∈ s.loaded.pending := by
  have hlookup : s.loaded.pending.lookup (s.address + 1) = some s.branch.reference := by
    rw [loaded, Loader.lookup_pending_after (spared (.inr rfl)).2.2 s.later_waits,
      s.referred_fields.1, Sorted.lookup_insert]
    exact if_pos rfl
  obtain ⟨before, after, hpending, -⟩ := List.lookup_eq_some_iff.mp hlookup
  rw [hpending]
  simp

theorem read_loaded_address (s : BranchLoad) :
    Bus.read s.loaded.bus s.address = s.branch.opcode := by
  obtain ⟨-, hbetween, hlater⟩ := spared (s := s) (.inl rfl)
  calc
    Bus.read s.loaded.bus s.address = Bus.read s.referred.bus s.address := by
      rw [loaded, (Loader.after_writes s.later _).1,
        (FlatMemory.isMemory _).read_replay_of_forall_ne hlater]
    _ = Bus.read s.halfway.bus s.address := by
      rw [s.referred_fields.2, FlatMemory.read_write, if_neg (by bv_omega)]
    _ = Bus.read s.written.bus s.address := by
      rw [halfway, (Loader.after_writes s.between _).1,
        (FlatMemory.isMemory _).read_replay_of_forall_ne hbetween]
    _ = s.branch.opcode := by
      rw [written, (s.branch.call_instruction s.opened).2, FlatMemory.read_write]
      exact if_pos rfl

theorem branchOutOfRange_mem_problems_iff (s : BranchLoad) {label : String} {distance : Int} :
    .branchOutOfRange label (s.address + 1) distance ∈ s.loaded.errors ++ s.loaded.unresolved ↔
      s.branch.reference.resolve (s.address + 1) s.loaded.labels =
        .error (.branchOutOfRange label (s.address + 1) distance) := by
  have hloaded : s.loaded = (Loader.start s.memory s.labels).after
      (s.before ++ .instruction s.branch.op :: s.between ++
        .refer .relative s.branch.text :: s.later) := by
    rw [Loader.after_append, Loader.after_append]
    rfl
  have hkept : .branchOutOfRange label (s.address + 1) distance ∉ s.loaded.errors := by
    rw [hloaded]
    exact Loader.branchOutOfRange_not_mem_after List.not_mem_nil _
  rw [List.mem_append, or_iff_right hkept, Loader.mem_unresolved]
  constructor
  · rintro ⟨slot, reference, hpending, hresolve⟩
    obtain rfl := Option.some.inj (PendingReference.slot_of_resolve hresolve)
    obtain ⟨-, rfl⟩ := Prod.mk.inj
      (eq_of_mem_pending (.inr rfl) (Loader.covers_self (_, reference)) hpending)
    exact hresolve
  · intro hresolve
    exact ⟨_, _, s.mem_pending, hresolve⟩

theorem reported_iff (s : BranchLoad) :
    (∃ failure distance, s.loaded.fixup.2 = .error failure ∧
      .branchOutOfRange s.branch.target.text (s.address + 1) distance ∈ failure.errors) ↔
    ∃ address, s.loaded.labels.lookup s.branch.target.name = some address ∧
      ¬ s.branch.target.InReach (s.address + 1) address := by
  have hselect := s.branch.select_target
  rw [exists_comm]
  simp only [Loader.exists_failure_iff, s.branchOutOfRange_mem_problems_iff, BranchLine.reference]
  constructor
  · rintro ⟨distance, hresolve⟩
    obtain hother | ⟨address, haddress, ⟨-, hother⟩ | ⟨hfar, -⟩⟩ :=
      PendingReference.resolve_cases hselect (s.address + 1) s.loaded.labels
    · cases hresolve.symm.trans hother
    · cases hresolve.symm.trans hother
    · exact ⟨address, haddress, hfar⟩
  · rintro ⟨address, haddress, hfar⟩
    exact PendingReference.resolve_of_not_inReach hselect haddress hfar

section Fixed

variable (hok : s.loaded.fixup.2 = .ok ())

include hok

theorem exists_resolve :
    ∃ address, s.loaded.labels.lookup s.branch.target.name = some address ∧
      s.branch.target.InReach (s.address + 1) address ∧
      s.branch.reference.resolve (s.address + 1) s.loaded.labels =
        .ok (.byte (BitVec.ofInt 8 (s.branch.target.distance (s.address + 1) address))) := by
  obtain ⟨patch, hpatch⟩ := Loader.resolve_of_unresolved_nil
    (List.append_eq_nil_iff.mp (Loader.fixup_ok_iff.mp hok)).2 s.mem_pending
  obtain hother | ⟨address, haddress, ⟨hreach, hresolve⟩ | ⟨-, distance, hother⟩⟩ :=
    PendingReference.resolve_cases s.branch.select_target (s.address + 1) s.loaded.labels
  · cases hpatch.symm.trans hother
  · exact ⟨address, haddress, hreach, hresolve⟩
  · cases hpatch.symm.trans hother

theorem read_fixed_address : Bus.read s.loaded.fixup.1.bus s.address = s.branch.opcode := by
  rw [Loader.fixup_bus_of_ok hok, (FlatMemory.isMemory _).read_replay_of_forall_ne,
    s.read_loaded_address]
  rintro ⟨x, u⟩ hwritten rfl
  obtain ⟨entry, hpending, hcovers, -⟩ := Loader.covers_of_mem_patchWrites hwritten
  obtain rfl := eq_of_mem_pending (.inl rfl) hcovers hpending
  obtain ⟨value, hvalue⟩ := hcovers
  simp [BranchLine.reference, Loader.placeholder, Bus.block] at hvalue

theorem read_fixed_operand {u : Byte}
    (hresolve : s.branch.reference.resolve (s.address + 1) s.loaded.labels = .ok (.byte u)) :
    Bus.read s.loaded.fixup.1.bus (s.address + 1) = u := by
  rw [Loader.fixup_bus_of_ok hok]
  refine (FlatMemory.isMemory _).read_replay_of_mem ?_ ?_
  · intro v hwritten
    obtain ⟨entry, hpending, hcovers, patch, hpatch, hv⟩ :=
      Loader.covers_of_mem_patchWrites hwritten
    obtain rfl := eq_of_mem_pending (.inr rfl) hcovers hpending
    obtain rfl := Except.ok.inj (hresolve.symm.trans hpatch)
    exact congrArg Prod.snd (List.mem_singleton.mp hv)
  · exact List.mem_flatMap.mpr ⟨_, Loader.mem_patches.mpr ⟨_, s.mem_pending, hresolve⟩,
      List.mem_singleton_self _⟩

end Fixed

end BranchLoad

theorem Opcode.isSome_condition_of_decode {byte : Byte} {op : Opcode}
    (h : decode byte = some op) (hmode : op.mode = .relative) :
    op.mnemonic.condition.isSome = true :=
  of_decode (P := fun op => op.mode = .relative → op.mnemonic.condition.isSome = true)
    (by decide +kernel) h hmode

theorem Cpu.executeNext_pc_of_taken {β : Type u} [Bus β] {c : Cpu β} {op : Opcode}
    (h : Opcode.decode (Bus.read c.bus c.pc) = some op) {flag : Flag} {value : Bool}
    (hcondition : op.mnemonic.condition = some (flag, value)) (htaken : c.status.has flag = value) :
    some c.executeNext.pc = (Instruction.decode c.bus c.pc).target := by
  have hmnemonic : (Instruction.decode c.bus c.pc).mnemonic = some op.mnemonic := by
    rw [Instruction.decode_of_documented h]
  rw [c.executeNext_pc, successor, hmnemonic]
  revert hcondition
  cases op.mnemonic <;> simp +contextual [Mnemonic.condition, htaken]

/-- A branch reference is reported as out of reach if and only if it is. Once it is patched, the
disassembler shows the place that was meant, and a processor that takes the branch goes on there. -/
theorem branch_reference_lands (s : BranchLoad) :
    let fixed := s.loaded.fixup
    let target := s.branch.target
    ((∃ failure distance, fixed.2 = .error failure ∧
        .branchOutOfRange target.text (s.address + 1) distance ∈ failure.errors) ↔
      ∃ address, s.loaded.labels.lookup target.name = some address ∧
        ¬ target.InReach (s.address + 1) address) ∧
    (fixed.2 = .ok () → ∃ address flag value,
      s.loaded.labels.lookup target.name = some address ∧
      s.branch.op.mnemonic.condition = some (flag, value) ∧
      (Instruction.decode fixed.1.bus s.address).target = some (target.place address) ∧
      ∀ m : Machine FlatMemory, m.cpu.bus = fixed.1.bus → m.cpu.pc = s.address →
        m.accepted = none → m.cpu.status.has flag = value →
        m.step.cpu.pc = target.place address) := by
  intro fixed target
  refine ⟨s.reported_iff, fun hok => ?_⟩
  obtain ⟨address, haddress, hreach, hresolve⟩ := BranchLoad.exists_resolve hok
  have hdecode : Opcode.decode (Bus.read fixed.1.bus s.address) = some s.branch.op := by
    rw [BranchLoad.read_fixed_address hok]
    exact Opcode.encode_eq_some_iff.mp s.branch.encode_op
  obtain ⟨⟨flag, value⟩, hcondition⟩ := Option.isSome_iff_exists.mp
    (Opcode.isSome_condition_of_decode hdecode s.branch.mode_op)
  have htarget : (Instruction.decode fixed.1.bus s.address).target =
      some (target.place address) := by
    rw [Instruction.target_decode hdecode s.branch.mode_op,
      BranchLoad.read_fixed_operand hok hresolve, Reference.add_displacement hreach]
  refine ⟨address, flag, value, haddress, hcondition, htarget, ?_⟩
  intro m hbus hpc haccepted htaken
  rw [← hbus, ← hpc] at hdecode htarget
  rw [Machine.step_cpu, Machine.boundary_of_accepted_none haccepted]
  exact Option.some.inj ((Cpu.executeNext_pc_of_taken hdecode hcondition htaken).trans htarget)

/-- `BNE loop-$20` at the last address, with the label 16 bytes above the bottom. -/
def branchAcrossTop : BranchLoad where
  memory := .zeroed
  labels := .empty
  before := [.moveTo 0x0010, .label "loop", .moveTo 0xFFFF]
  branch :=
    { op := ⟨.bne, .relative⟩
      opcode := 0xD0
      text := "loop-$20"
      target := ⟨"loop", -32, .both⟩
      mode_op := rfl
      encode_op := by decide +kernel
      read_text := by decide +kernel
      select_target := rfl }
  between := [.label "here"]
  later := []
  later_waits := by simp
  adjacent := by decide +kernel
  alone := by simp [Loader.writes, Loader.written]

theorem branch_reference_lands_acrossTop :
    let memory := branchAcrossTop.loaded.fixup.1.bus
    let m := (Machine.powerOn memory).setRegister .pc 0xFFFF
    (Instruction.decode memory 0xFFFF).target = some 0xFFF0 ∧ m.accepted = none ∧
      m.step.cpu.pc = 0xFFF0 := by
  intro memory m
  obtain ⟨address, flag, value, haddress, hcondition, htarget, hstep⟩ :=
    (branch_reference_lands branchAcrossTop).2 (Loader.fixup_ok_iff.mpr (by decide +kernel))
  obtain rfl : address = 0x0010 := Option.some.inj (haddress.symm.trans (by decide +kernel))
  obtain ⟨rfl, rfl⟩ : Flag.zero = flag ∧ false = value :=
    Prod.mk.inj (Option.some.inj hcondition)
  have haccepted : m.accepted = none := by decide +kernel
  exact ⟨htarget, haccepted, hstep m rfl rfl haccepted (by decide +kernel)⟩

end Nmos6502
