import Nmos6502.Proofs.Cpu.Frame
import Nmos6502.Proofs.Run.Arrivals
import Nmos6502.Proofs.Stack.Use

namespace Nmos6502

universe u

variable {β : Type u}

namespace Cpu

/-- Two processors that are alike but for the Decimal flag. -/
structure SameButDecimal (c d : Cpu β) : Prop where
  a : c.a = d.a
  x : c.x = d.x
  y : c.y = d.y
  sp : c.sp = d.sp
  pc : c.pc = d.pc
  bus : c.bus = d.bus
  servicing : c.servicing = d.servicing
  halt : c.halt = d.halt
  fetched : c.fetched = d.fetched
  undocumented : c.undocumented = d.undocumented
  flags : ∀ flag, flag ≠ .decimal → c.status.has flag = d.status.has flag

namespace SameButDecimal

variable {c d : Cpu β}

theorem carry (h : SameButDecimal c d) : c.status.has .carry = d.status.has .carry :=
  h.flags .carry (by decide)

theorem assign (h : SameButDecimal c d) {what : Observable} (value : Word)
    (hwhat : ∀ mask, what ≠ .flag mask) :
    SameButDecimal (c.assign what value) (d.assign what value) := by
  constructor
  case flags =>
    rw [assign_status c what value hwhat, assign_status d what value hwhat]
    exact h.flags
  all_goals simp [h.a, h.x, h.y, h.sp, h.pc, h.bus, h.servicing, h.halt, h.fetched, h.undocumented]

theorem setFlag (h : SameButDecimal c d) (flag : Flag) (on : Bool) :
    SameButDecimal (c.setFlag flag on) (d.setFlag flag on) := by
  by_cases hunused : flag = .unused
  · subst hunused
    exact h
  · constructor
    case flags =>
      intro other hother
      rw [setFlag_has _ _ _ hunused, setFlag_has _ _ _ hunused, h.flags other hother]
    all_goals
      simp [h.a, h.x, h.y, h.sp, h.pc, h.bus, h.servicing, h.halt, h.fetched, h.undocumented]

theorem stop (h : SameButDecimal c d) (why : Halt) : SameButDecimal (c.stop why) (d.stop why) := by
  have hhalt : c.halt.or (some why) = d.halt.or (some why) := by rw [h.halt]
  have hlatched : SameButDecimal { c with halt := c.halt.or (some why) }
      { d with halt := d.halt.or (some why) } := { h with halt := hhalt }
  exact hlatched.setFlag .brk true

theorem withPc (h : SameButDecimal c d) (target : Word) :
    SameButDecimal { c with pc := target } { d with pc := target } :=
  { h with pc := rfl }

theorem setA (h : SameButDecimal c d) (value : Byte) :
    SameButDecimal (c.setA value) (d.setA value) :=
  h.assign _ (by simp)

theorem setX (h : SameButDecimal c d) (value : Byte) :
    SameButDecimal (c.setX value) (d.setX value) :=
  h.assign _ (by simp)

theorem setY (h : SameButDecimal c d) (value : Byte) :
    SameButDecimal (c.setY value) (d.setY value) :=
  h.assign _ (by simp)

theorem setSp (h : SameButDecimal c d) (value : Byte) :
    SameButDecimal (c.setSp value) (d.setSp value) :=
  h.assign _ (by simp)

theorem setZN (h : SameButDecimal c d) (value : Byte) :
    SameButDecimal (c.setZN value) (d.setZN value) :=
  (h.setFlag _ _).setFlag _ _

theorem setStatus (h : SameButDecimal c d) (packed : Byte) :
    SameButDecimal (c.setStatus packed) (d.setStatus packed) := by
  have hflags : ∀ (flags : List Flag) (c d : Cpu β), SameButDecimal c d →
      SameButDecimal (flags.foldl (fun c flag => c.setFlag flag ((Status.mk packed).has flag)) c)
        (flags.foldl (fun c flag => c.setFlag flag ((Status.mk packed).has flag)) d) := by
    intro flags
    induction flags with
    | nil => exact fun _ _ h => h
    | cons flag flags ih => exact fun _ _ h => ih _ _ (h.setFlag _ _)
  exact hflags loadedFlags c d h

theorem addToA (h : SameButDecimal c d) (value : Byte) :
    SameButDecimal (c.addToA value) (d.addToA value) := by
  rw [Cpu.addToA, Cpu.addToA, h.a, h.carry]
  exact (((h.setFlag _ _).setFlag _ _).setA _).setZN _

theorem resultInA (h : SameButDecimal c d) (value : Byte) :
    SameButDecimal (c.resultInA value) (d.resultInA value) :=
  (h.setA _).setZN _

theorem resultInX (h : SameButDecimal c d) (value : Byte) :
    SameButDecimal (c.resultInX value) (d.resultInX value) :=
  (h.setX _).setZN _

theorem resultInY (h : SameButDecimal c d) (value : Byte) :
    SameButDecimal (c.resultInY value) (d.resultInY value) :=
  (h.setY _).setZN _

theorem compare (h : SameButDecimal c d) (register operand : Byte) :
    SameButDecimal (c.compare register operand) (d.compare register operand) :=
  ((h.setFlag _ _).setFlag _ _).setFlag _ _

theorem testBits (h : SameButDecimal c d) (operand : Byte) :
    SameButDecimal (c.testBits operand) (d.testBits operand) := by
  rw [Cpu.testBits, Cpu.testBits, h.a]
  exact ((h.setFlag _ _).setFlag _ _).setFlag _ _

theorem branch (h : SameButDecimal c d) (taken : Bool) (target : Word) :
    SameButDecimal (c.branch taken target) (d.branch taken target) := by
  cases taken with
  | false => exact h
  | true => exact h.withPc target

theorem haltHere (h : SameButDecimal c d) : SameButDecimal c.haltHere d.haltHere := by
  rw [Cpu.haltHere, Cpu.haltHere, h.pc]
  exact (h.withPc _).stop _

variable [Bus β]

theorem store (h : SameButDecimal c d) (address : Word) (value : Byte) :
    SameButDecimal (c.store address value) (d.store address value) := by
  constructor
  case flags => simpa using h.flags
  all_goals simp [h.a, h.x, h.y, h.sp, h.pc, h.bus, h.servicing, h.halt, h.fetched, h.undocumented]

theorem push (h : SameButDecimal c d) (value : Byte) :
    SameButDecimal (c.push value) (d.push value) := by
  have hslot : c.stackSlot = d.stackSlot := by rw [stackSlot, h.sp, stackSlot]
  have hstored := h.store c.stackSlot value
  rw [Cpu.push, Cpu.push, ← hslot, hstored.sp]
  split
  · exact hstored.stop _
  · exact hstored.setSp _

theorem pushWord (h : SameButDecimal c d) (value : Word) :
    SameButDecimal (c.pushWord value) (d.pushWord value) :=
  (h.push _).push _

theorem pull (h : SameButDecimal c d) : c.pull.1 = d.pull.1 ∧ SameButDecimal c.pull.2 d.pull.2 := by
  refine ⟨by rw [pull_fst, pull_fst, pulled_congr h.sp h.bus], ?_⟩
  rw [Cpu.pull, Cpu.pull, h.sp]
  split
  · exact h.stop _
  · exact h.setSp _

theorem pullWord (h : SameButDecimal c d) :
    c.pullWord.1 = d.pullWord.1 ∧ SameButDecimal c.pullWord.2 d.pullWord.2 := by
  refine ⟨?_, h.pull.2.pull.2⟩
  rw [pullWord_fst, pullWord_fst, pulled_congr h.sp h.bus, pulled_congr h.sp h.bus]

theorem putBack (h : SameButDecimal c d) (mode : Mode) (address : Word) (value : Byte) :
    SameButDecimal (c.putBack mode address value) (d.putBack mode address value) := by
  rw [Cpu.putBack, Cpu.putBack]
  split
  · exact (h.setA _).setZN _
  · exact (h.store _ _).setZN _

theorem putShifted (h : SameButDecimal c d) (mode : Mode) (address : Word)
    (shifted : Alu.Shifted) :
    SameButDecimal (c.putShifted mode address shifted) (d.putShifted mode address shifted) :=
  (h.setFlag _ _).putBack _ _ _

theorem call (h : SameButDecimal c d) (target : Word) :
    SameButDecimal (c.call target) (d.call target) := by
  rw [Cpu.call, Cpu.call, h.pc]
  exact (h.pushWord _).withPc target

theorem returnFromCall (h : SameButDecimal c d) :
    SameButDecimal c.returnFromCall d.returnFromCall := by
  obtain ⟨haddress, hpulled⟩ := h.pullWord
  rw [Cpu.returnFromCall, Cpu.returnFromCall]
  dsimp only
  rw [haddress]
  exact hpulled.withPc _

theorem returnFromInterrupt (h : SameButDecimal c d) :
    SameButDecimal c.returnFromInterrupt d.returnFromInterrupt := by
  -- Both pull the same packed byte, and so load the same flags from it.
  obtain ⟨hpacked, hpulled⟩ := h.pull
  obtain ⟨haddress, hpulled'⟩ := (hpulled.setStatus c.pull.1).pullWord
  rw [hpacked] at haddress hpulled'
  rw [Cpu.returnFromInterrupt, Cpu.returnFromInterrupt]
  dsimp only
  rw [hpacked, haddress]
  exact { (hpulled'.withPc _).setFlag .interruptDisable false with servicing := rfl }

/-- The flag is in what `PHP` pushes; no other action looks at it. -/
theorem act (h : SameButDecimal c d) (mode : Mode) (address : Word) (operand : Byte)
    {mnemonic : Mnemonic} (hphp : mnemonic ≠ .php) :
    SameButDecimal (c.act mode address operand mnemonic) (d.act mode address operand mnemonic) := by
  have hzero := h.flags .zero (by decide)
  have hnegative := h.flags .negative (by decide)
  have hoverflow := h.flags .overflow (by decide)
  cases mnemonic with
  | adc | sbc => exact h.addToA _
  | and | ora | eor => simp only [Cpu.act, h.a]; exact h.resultInA _
  | lda => exact h.resultInA _
  | txa => simp only [Cpu.act, h.x]; exact h.resultInA _
  | tya => simp only [Cpu.act, h.y]; exact h.resultInA _
  | ldx => exact h.resultInX _
  | inx | dex => simp only [Cpu.act, h.x]; exact h.resultInX _
  | tax => simp only [Cpu.act, h.a]; exact h.resultInX _
  | tsx => simp only [Cpu.act, h.sp]; exact h.resultInX _
  | ldy => exact h.resultInY _
  | iny | dey => simp only [Cpu.act, h.y]; exact h.resultInY _
  | tay => simp only [Cpu.act, h.a]; exact h.resultInY _
  | cmp => simp only [Cpu.act, h.a]; exact h.compare _ _
  | cpx => simp only [Cpu.act, h.x]; exact h.compare _ _
  | cpy => simp only [Cpu.act, h.y]; exact h.compare _ _
  | bit => exact h.testBits _
  | bcc | bcs => simp only [Cpu.act, h.carry]; exact h.branch _ _
  | bne | beq => simp only [Cpu.act, hzero]; exact h.branch _ _
  | bpl | bmi => simp only [Cpu.act, hnegative]; exact h.branch _ _
  | bvc | bvs => simp only [Cpu.act, hoverflow]; exact h.branch _ _
  | asl | lsr => exact h.putShifted _ _ _
  | rol | ror => simp only [Cpu.act, h.carry]; exact h.putShifted _ _ _
  | inc | dec => exact h.putBack _ _ _
  | sta => simp only [Cpu.act, h.a]; exact h.store _ _
  | stx => simp only [Cpu.act, h.x]; exact h.store _ _
  | sty => simp only [Cpu.act, h.y]; exact h.store _ _
  | jmp => exact h.withPc _
  | jsr => exact h.call _
  | rts => exact h.returnFromCall
  | rti => exact h.returnFromInterrupt
  | brk => exact h.haltHere
  | nop => exact h
  | pha => simp only [Cpu.act, h.a]; exact h.push _
  | php => exact absurd rfl hphp
  | pla => simp only [Cpu.act, h.pull.1]; exact h.pull.2.resultInA _
  | plp => simp only [Cpu.act, h.pull.1]; exact h.pull.2.setStatus _
  | clc | sec | cli | sei | cld | sed | clv => exact h.setFlag _ _
  | txs => simp only [Cpu.act, h.x]; exact h.setSp _

theorem address (h : SameButDecimal c d) (mode : Mode) : c.address mode = d.address mode := by
  have haddress : c.address? mode = d.address? mode := by
    cases mode <;>
      simp only [address?, operandByte, operandWord, pointerAt, h.bus, h.pc, h.x, h.y]
  rw [Cpu.address, Cpu.address, haddress, h.pc]

theorem operand (h : SameButDecimal c d) (mode : Mode) : c.operand mode = d.operand mode := by
  rw [Cpu.operand, Cpu.operand, h.a, h.bus, h.address]

theorem executeNext (h : SameButDecimal c d) (hphp : c.mnemonic? ≠ some .php) :
    SameButDecimal c.executeNext d.executeNext := by
  have hfetch : SameButDecimal c.fetch d.fetch := by
    constructor <;> simp [h.a, h.x, h.y, h.sp, h.pc, h.bus, h.servicing, h.halt, h.fetched,
      h.undocumented]
    exact h.flags
  have hopcode : Bus.read c.bus c.pc = Bus.read d.bus d.pc := by rw [h.bus, h.pc]
  cases hop : Opcode.decode (Bus.read c.bus c.pc) with
  | none =>
    rw [executeNext_of_undocumented c hop, executeNext_of_undocumented d (hopcode ▸ hop)]
    exact { hfetch with undocumented := congrArg (· + 1) h.undocumented }
  | some op =>
    have hmnemonic : op.mnemonic ≠ .php := fun heq => hphp (by rw [mnemonic?, hop, ← heq]; rfl)
    have hskip : SameButDecimal (c.fetch.skipOperand op.mode) (d.fetch.skipOperand op.mode) :=
      { hfetch with pc := congrArg (· + _) hfetch.pc }
    rw [executeNext_of_decode c hop, executeNext_of_decode d (hopcode ▸ hop), execute, execute,
      hfetch.address, hfetch.operand]
    exact hskip.act _ _ _ hmnemonic

end SameButDecimal

end Cpu

namespace Machine

variable {m n : Machine β}

theorem accepted_congr (hservicing : m.cpu.servicing = n.cpu.servicing)
    (hflag : m.cpu.status.has .interruptDisable = n.cpu.status.has .interruptDisable)
    (hpending : m.lines.pending = n.lines.pending) : m.accepted = n.accepted := by
  have hnmi : m.lines.nmi = n.lines.nmi := congrFun hpending .nmi
  have hirq : m.lines.irq = n.lines.irq := congrFun hpending .irq
  rw [accepted, accepted, Lines.accepted, Lines.accepted, hservicing, hflag, hnmi, hirq]

variable [Bus β]

theorem step_sameButDecimal (h : m.cpu.SameButDecimal n.cpu) (hm : m.accepted = none)
    (hn : n.accepted = none) (hphp : m.cpu.mnemonic? ≠ some .php) :
    m.step.cpu.SameButDecimal n.step.cpu := by
  rw [step_cpu, step_cpu, boundary_of_accepted_none hm, boundary_of_accepted_none hn]
  exact { h.executeNext hphp with }

/-- What holds of the machine at every boundary of a row of steps, before the step. -/
def AtEach (P : Machine β → Prop) : Machine β → List (List Interrupt) → Prop
  | _, [] => True
  | m, kinds :: rest => P (m.request kinds) ∧ AtEach P (m.request kinds).step rest

/-- No step of the row executes `PHP`. -/
def NeverPhp (m : Machine β) (arriving : List (List Interrupt)) : Prop :=
  AtEach (fun m => m.cpu.mnemonic? ≠ some .php) m arriving

/-- No step of the row enters an interrupt. -/
def Uninterrupted (m : Machine β) (arriving : List (List Interrupt)) : Prop :=
  AtEach (fun m => m.accepted = none) m arriving

theorem steps_sameButDecimal {arriving arriving' : List (List Interrupt)}
    (hlength : arriving.length = arriving'.length) (h : m.cpu.SameButDecimal n.cpu)
    (hphp : m.NeverPhp arriving) (hm : m.Uninterrupted arriving)
    (hn : n.Uninterrupted arriving') (k : Nat) :
    (m.steps (arriving.take k)).cpu.SameButDecimal (n.steps (arriving'.take k)).cpu := by
  induction arriving generalizing m n arriving' k with
  | nil =>
    obtain rfl : arriving' = [] := List.length_eq_zero_iff.mp hlength.symm
    rwa [List.take_nil]
  | cons kinds rest ih =>
    obtain _ | ⟨kinds', rest'⟩ := arriving'
    · cases hlength
    cases k with
    | zero => exact h
    | succ k =>
      have hstep : (m.request kinds).step.cpu.SameButDecimal (n.request kinds').step.cpu :=
        step_sameButDecimal (m := m.request kinds) (n := n.request kinds') h hm.1 hn.1 hphp.1
      exact ih (by simpa using hlength) hstep hphp.2 hm.2 hn.2 k

theorem pending_step {m : Machine FlatMemory} (hquiet : m.Quiet) (hlog : m.cpu.log = [])
    (haccepted : m.accepted = none) : m.step.lines.pending = m.lines.pending := by
  -- Flat memory answers a write with no signal, and the observer asks only for the gate.
  have htruthful : m.cpu.executeNext.Truthful :=
    Cpu.stable_truthful.executeNext (by simp [Cpu.Truthful, hlog])
  have hgate : ∀ s ∈ m.calls Cpu.executeNext, s.movesGate = true := by
    intro s hs
    rw [calls, List.mem_flatMap] at hs
    obtain ⟨entry, hentry, hs⟩ := hs
    cases entry with
    | changed change =>
      obtain ⟨observer, hobserver, t, ht, rfl⟩ := mem_reactions_changed hs
      exact hquiet observer hobserver t ht
    | stored entry =>
      obtain ⟨bus, hbus⟩ := htruthful entry hentry
      simp [reactions, hbus, Bus.signal] at hs
  have hquiet' : (m.perform Cpu.executeNext).Quiet := by simpa [Quiet] using hquiet
  rw [step, haccepted]
  dsimp only
  rw [pending_reportPc hquiet' (by simp), perform_pending, Lines.foldl_apply_of_movesGate hgate]

theorem uninterrupted_of_sameButDecimal {m n : Machine FlatMemory}
    {arriving : List (List Interrupt)} (h : m.cpu.SameButDecimal n.cpu)
    (hpending : m.lines.pending = n.lines.pending) (hlog : m.cpu.log = []) (hlog' : n.cpu.log = [])
    (hquiet : m.Quiet) (hquiet' : n.Quiet) (hphp : m.NeverPhp arriving)
    (hm : m.Uninterrupted arriving) : n.Uninterrupted arriving := by
  induction arriving generalizing m n with
  | nil => trivial
  | cons kinds rest ih =>
    have hsame : (m.request kinds).cpu.SameButDecimal (n.request kinds).cpu := h
    have hrequest : (m.request kinds).lines.pending = (n.request kinds).lines.pending := by
      funext kind
      rw [request_pending, request_pending, hpending]
    have hcalm : (m.request kinds).accepted = none := hm.1
    have hdisabled := hsame.flags .interruptDisable (by decide)
    have hcalm' : (n.request kinds).accepted = none := by
      rw [← accepted_congr hsame.servicing hdisabled hrequest, hcalm]
    have hstep : (m.request kinds).step.lines.pending = (n.request kinds).step.lines.pending := by
      rw [pending_step (m := m.request kinds) hquiet hlog hcalm,
        pending_step (m := n.request kinds) hquiet' hlog' hcalm', hrequest]
    have hafter := step_sameButDecimal hsame hcalm hcalm' hphp.1
    refine ⟨hcalm', ih hafter hstep ?_ ?_ ?_ ?_ hphp.2 hm.2⟩
    · rw [step_cpu]
    · rw [step_cpu]
    · rw [Quiet, step_observer]
      exact hquiet
    · rw [Quiet, step_observer]
      exact hquiet'

/-- The Decimal flag never influences a result: executions that push no status register stay alike
in everything but the flag, whatever requests arrive. On flat memory with quiet observers it is
enough that one of the two enters no interrupt. -/
theorem decimal_has_no_effect :
    (∀ (m n : Machine β) (arriving arriving' : List (List Interrupt)),
      arriving.length = arriving'.length → m.cpu.SameButDecimal n.cpu → m.NeverPhp arriving →
      m.Uninterrupted arriving → n.Uninterrupted arriving' →
      ∀ k, (m.steps (arriving.take k)).cpu.SameButDecimal (n.steps (arriving'.take k)).cpu) ∧
    ∀ (m n : Machine FlatMemory) (arriving : List (List Interrupt)),
      m.cpu.SameButDecimal n.cpu → m.lines.pending = n.lines.pending →
      m.cpu.log = [] → n.cpu.log = [] → m.Quiet → n.Quiet →
      m.NeverPhp arriving → m.Uninterrupted arriving →
      ∀ k, (m.steps (arriving.take k)).cpu.SameButDecimal (n.steps (arriving.take k)).cpu := by
  refine ⟨?_, ?_⟩
  · intro m n arriving arriving' hlength h hphp hm hn k
    exact steps_sameButDecimal hlength h hphp hm hn k
  · intro m n arriving h hpending hlog hlog' hquiet hquiet' hphp hm k
    have hn := uninterrupted_of_sameButDecimal h hpending hlog hlog' hquiet hquiet' hphp hm
    exact steps_sameButDecimal rfl h hphp hm hn k

/-- A machine about to add `$45` to `$55`, to pull its flags from what it has pushed and to subtract
1. -/
def decimalSum : Machine FlatMemory :=
  (Machine.powerOn (Bus.writeAll .zeroed 0x0000 [0x69, 0x45, 0x48, 0x28, 0xE9, 0x01])).setRegister
    .a 0x55

/-- With the flag set at first the sum is `$9A` all the same. -/
theorem decimalSum_is_binary :
    let m := decimalSum.setRegister (.flag .decimal) 1
    m.cpu.status.has .decimal = true ∧ decimalSum.cpu.status.has .decimal = false ∧
      (m.steps [[]]).cpu.a = 0x9A ∧
      (m.steps [[], [], [], []]).cpu.SameButDecimal (decimalSum.steps [[], [], [], []]).cpu := by
  intro m
  have hsame : m.cpu.SameButDecimal decimalSum.cpu := by
    constructor
    case bus => rfl
    case flags =>
      intro flag hflag
      cases flag with
      | decimal => exact absurd rfl hflag
      | _ => decide +kernel
    all_goals decide +kernel
  have hphp : m.NeverPhp [[], [], [], []] :=
    ⟨by decide +kernel, by decide +kernel, by decide +kernel, by decide +kernel, trivial⟩
  have hcalm : m.Uninterrupted [[], [], [], []] :=
    ⟨by decide +kernel, by decide +kernel, by decide +kernel, by decide +kernel, trivial⟩
  have hcalm' : decimalSum.Uninterrupted [[], [], [], []] :=
    ⟨by decide +kernel, by decide +kernel, by decide +kernel, by decide +kernel, trivial⟩
  exact ⟨by decide +kernel, by decide +kernel, by decide +kernel,
    decimal_has_no_effect.1 m decimalSum _ _ rfl hsame hphp hcalm hcalm' 4⟩

end Machine

end Nmos6502
