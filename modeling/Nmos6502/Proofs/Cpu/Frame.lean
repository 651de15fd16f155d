import Nmos6502.Bus.Flat
import Nmos6502.Proofs.Interrupt.Record
import Nmos6502.Proofs.Writes

namespace Nmos6502.Cpu

universe u

variable {β : Type u}

theorem setStatus_has (c : Cpu β) (packed : Byte) (flag : Flag) :
    (c.setStatus packed).status.has flag =
      if flag ∈ loadedFlags then (Status.mk packed).has flag else c.status.has flag := by
  cases flag <;> simp [setStatus, loadedFlags]

variable [Bus β]

theorem pull_of_lt (c : Cpu β) (h : c.sp.toNat < 255) :
    c.pull.2.sp.toNat = c.sp.toNat + 1 ∧ c.pull.2.status = c.status ∧
      c.pull.2.halt = c.halt := by
  have hne : c.sp ≠ 0xFF := by
    intro heq
    rw [heq] at h
    exact absurd h (by decide)
  rw [pull_eq c hne]
  refine ⟨?_, by simp, by simp⟩
  simp only [setSp, assign_fields, if_true, Word.low_toWord, sp_succ_toNat hne]

theorem pullWord_of_lt (c : Cpu β) (h : c.sp.toNat < 254) :
    c.pullWord.2.sp.toNat = c.sp.toNat + 2 ∧ c.pullWord.2.status = c.status ∧
      c.pullWord.2.halt = c.halt := by
  obtain ⟨hsp, hstatus, hhalt⟩ := c.pull_of_lt (by omega)
  obtain ⟨hsp', hstatus', hhalt'⟩ := c.pull.2.pull_of_lt (by omega)
  refine ⟨?_, hstatus'.trans hstatus, hhalt'.trans hhalt⟩
  rw [pullWord]
  dsimp only
  omega

theorem returnFromInterrupt_of_lt (c : Cpu β) (h : c.sp.toNat < 253) :
    c.returnFromInterrupt.sp.toNat = c.sp.toNat + 3 ∧ c.returnFromInterrupt.halt = c.halt ∧
      ∀ flag, c.returnFromInterrupt.status.has flag =
        if flag = .interruptDisable then false
        else if flag ∈ loadedFlags then (Status.mk (c.pulled 0)).has flag
        else c.status.has flag := by
  obtain ⟨hsp, hstatus, hhalt⟩ := c.pull_of_lt (by omega)
  have hflags := c.pull.2.setStatus_has c.pull.1
  have hfields := c.pull.2.setStatus_fields c.pull.1
  have hword := (c.pull.2.setStatus c.pull.1).pullWord_of_lt (by rw [hfields.2.2.2.1]; omega)
  rw [hfields.2.2.2.1, hsp, hfields.2.2.2.2.2.2.2.1, hhalt] at hword
  obtain ⟨hsp', hstatus', hhalt'⟩ := hword
  rw [returnFromInterrupt]
  dsimp only
  refine ⟨?_, ?_, fun flag => ?_⟩
  · simp [hsp']
  · simp [hhalt']
  · rw [setFlag_has _ _ _ (by decide), hstatus', hflags, pull_fst, hstatus]

theorem executeNext_of_atReturn {c : Cpu β} (h : c.atReturn = true) :
    ∃ mode, c.executeNext = (c.fetch.skipOperand mode).returnFromInterrupt := by
  unfold atReturn at h
  cases hop : Opcode.decode (Bus.read c.bus c.pc) with
  | none =>
    rw [hop] at h
    cases h
  | some op =>
    rw [hop] at h
    have hmnemonic : op.mnemonic = .rti := by simpa using h
    refine ⟨op.mode, ?_⟩
    rw [executeNext_of_decode c hop, execute, hmnemonic]
    rfl

theorem executeNext_fields_of_atReturn {c : Cpu β} (h : c.atReturn = true) :
    c.executeNext.a = c.a ∧ c.executeNext.x = c.x ∧ c.executeNext.y = c.y ∧
      c.executeNext.bus = c.bus ∧ c.executeNext.servicing = false := by
  obtain ⟨mode, hmode⟩ := executeNext_of_atReturn h
  simp [hmode]

theorem enter_sp (c : Cpu β) (kind : Interrupt) :
    (c.enter kind).sp.toNat = c.sp.toNat - 3 := by
  have hframe : c.pushFrame.sp.toNat = c.sp.toNat - 3 := by
    simp only [pushFrame, pushWord, push_sp_toNat, Nat.sub_sub]
  cases kind with
  | nmi => exact hframe
  | irq => simpa [enter, serve] using hframe

theorem pulled_eq_read_slotAfter {c d : Cpu β} (hroom : 3 ≤ c.sp.toNat)
    (hsp : d.sp.toNat = c.sp.toNat - 3) {n : Nat} (hn : n < 3) :
    d.pulled n = Bus.read d.bus (c.slotAfter (2 - n)) := by
  have hlt := c.sp.isLt
  have hslot : c.sp.toNat - 3 + n + 1 = c.sp.toNat - (2 - n) := by omega
  rw [pulled, slotAfter, hsp, if_pos (by omega), hslot]

theorem read_enter (c : Cpu FlatMemory) (kind : Interrupt) (hroom : 3 ≤ c.sp.toNat) :
    Bus.read (c.enter kind).bus (c.slotAfter 0) = Word.high c.pc ∧
      Bus.read (c.enter kind).bus (c.slotAfter 1) = Word.low c.pc ∧
      Bus.read (c.enter kind).bus (c.slotAfter 2) = c.status.packed := by
  have hslot : ∀ m n, m < 3 → n < 3 → (c.slotAfter m = c.slotAfter n ↔ m = n) :=
    fun m n hm hn => c.slotAfter_inj (by omega) (by omega)
  have hstatus : ¬ c.sp.toNat < 2 := by omega
  simp [enter_bus, frameWrites, FlatMemory.read_write, hslot, hstatus]

theorem has_packed_of_mem_loadedFlags {s : Status} {flag : Flag} (h : flag ∈ loadedFlags) :
    (Status.mk s.packed).has flag = s.has flag := by
  have hunused : flag ≠ .unused := by
    rintro rfl
    exact absurd h (by decide)
  simp [Status.has_packed, hunused]

/-- An `RTI` that finds the frame of an entry where the entry left it takes the entry back, but for
the two flags that are not in the frame. -/
theorem executeNext_of_frame {c d : Cpu FlatMemory} {kind : Interrupt} (hroom : 3 ≤ c.sp.toNat)
    (hreturn : d.atReturn = true) (hsp : d.sp = (c.enter kind).sp)
    (hframe : ∀ n < 3,
      Bus.read d.bus (c.slotAfter n) = Bus.read (c.enter kind).bus (c.slotAfter n)) :
    d.executeNext.pc = c.pc ∧ d.executeNext.sp = c.sp ∧ d.executeNext.halt = d.halt ∧
      ∀ flag, d.executeNext.status.has flag =
        if flag = .interruptDisable then false
        else if flag ∈ loadedFlags then c.status.has flag
        else d.status.has flag := by
  have hlow : d.sp.toNat = c.sp.toNat - 3 := by rw [hsp, c.enter_sp kind]
  obtain ⟨hhigh, hmid, hstatus⟩ := c.read_enter kind hroom
  -- The status was pushed last and is pulled first.
  have hpulled : d.pulled 0 = c.status.packed ∧ d.pulled 1 = Word.low c.pc ∧
      d.pulled 2 = Word.high c.pc := by
    refine ⟨?_, ?_, ?_⟩
    · rw [pulled_eq_read_slotAfter hroom hlow (by decide), hframe _ (by decide), hstatus]
    · rw [pulled_eq_read_slotAfter hroom hlow (by decide), hframe _ (by decide), hmid]
    · rw [pulled_eq_read_slotAfter hroom hlow (by decide), hframe _ (by decide), hhigh]
  obtain ⟨mode, hmode⟩ := executeNext_of_atReturn hreturn
  have hlt := c.sp.isLt
  obtain ⟨hsp', hhalt, hflags⟩ := (d.fetch.skipOperand mode).returnFromInterrupt_of_lt (by
    simp only [skipOperand_fields, fetch_fields]
    omega)
  have hsame : ∀ n, (d.fetch.skipOperand mode).pulled n = d.pulled n := pulled_congr rfl rfl
  rw [hmode]
  refine ⟨?_, ?_, hhalt, fun flag => ?_⟩
  · simp only [returnFromInterrupt_fields, hsame, hpulled, Word.ofBytes_low_high]
  · refine BitVec.eq_of_toNat_eq (hsp'.trans ?_)
    simp only [skipOperand_fields, fetch_fields]
    omega
  · rw [hflags, hsame, hpulled.1]
    split
    · rfl
    · split
      · exact has_packed_of_mem_loadedFlags ‹_›
      · rfl

end Nmos6502.Cpu
