import Nmos6502.Proofs.Bus.Recorded
import Nmos6502.Proofs.Cpu.Fields

namespace Nmos6502.Cpu

universe u

variable {β : Type u} [Bus β]

/-- The primitive operations out of which instructions are made keep `P`. -/
structure Stable (P : Cpu β → Prop) : Prop where
  assign : ∀ c what (value : Byte), what ≠ .pc → (∀ mask, what ≠ .flag mask) → P c →
    P (c.assign what (Byte.toWord value))
  setFlag : ∀ c flag on, flag ≠ .brk → P c → P (c.setFlag flag on)
  stop : ∀ c why, P c → P (c.stop why)
  store : ∀ c address value, P c → P (c.store address value)
  pc : ∀ c target, P c → P { c with pc := target }
  servicing : ∀ c on, P c → P { c with servicing := on }
  counters : ∀ c fetched undocumented,
    P c → P { c with fetched := fetched, undocumented := undocumented }

namespace Stable

variable {P : Cpu β → Prop} {c : Cpu β}

theorem setA (h : Stable P) (value : Byte) (hc : P c) : P (c.setA value) :=
  h.assign _ _ _ (by simp) (by simp) hc

theorem setX (h : Stable P) (value : Byte) (hc : P c) : P (c.setX value) :=
  h.assign _ _ _ (by simp) (by simp) hc

theorem setY (h : Stable P) (value : Byte) (hc : P c) : P (c.setY value) :=
  h.assign _ _ _ (by simp) (by simp) hc

theorem setSp (h : Stable P) (value : Byte) (hc : P c) : P (c.setSp value) :=
  h.assign _ _ _ (by simp) (by simp) hc

theorem setZN (h : Stable P) (value : Byte) (hc : P c) : P (c.setZN value) :=
  h.setFlag _ _ _ (by decide) (h.setFlag _ _ _ (by decide) hc)

theorem setStatus (h : Stable P) (packed : Byte) (hc : P c) : P (c.setStatus packed) := by
  have hflags : ∀ (flags : List Flag), .brk ∉ flags → ∀ c : Cpu β, P c →
      P (flags.foldl (fun c flag => c.setFlag flag ((Status.mk packed).has flag)) c) := by
    intro flags
    induction flags with
    | nil => exact fun _ c hc => hc
    | cons flag flags ih =>
      intro hbrk c hc
      rw [List.mem_cons, not_or] at hbrk
      exact ih hbrk.2 _ (h.setFlag _ _ _ (fun e => hbrk.1 e.symm) hc)
  exact hflags loadedFlags (by decide) c hc

theorem push (h : Stable P) (value : Byte) (hc : P c) : P (c.push value) := by
  unfold Cpu.push
  dsimp only
  split
  · exact h.stop _ _ (h.store _ _ _ hc)
  · exact h.setSp _ (h.store _ _ _ hc)

theorem pull (h : Stable P) (hc : P c) : P c.pull.2 := by
  rw [Cpu.pull]
  split
  · exact h.stop _ _ hc
  · exact h.setSp _ hc

theorem pushWord (h : Stable P) (value : Word) (hc : P c) : P (c.pushWord value) :=
  h.push _ (h.push _ hc)

theorem pullWord (h : Stable P) (hc : P c) : P c.pullWord.2 :=
  h.pull (h.pull hc)

theorem putBack (h : Stable P) (mode : Mode) (address : Word) (value : Byte) (hc : P c) :
    P (c.putBack mode address value) := by
  unfold Cpu.putBack
  dsimp only
  split
  · exact h.setZN _ (h.setA _ hc)
  · exact h.setZN _ (h.store _ _ _ hc)

theorem branch (h : Stable P) (taken : Bool) (target : Word) (hc : P c) :
    P (c.branch taken target) := by
  cases taken with
  | false => exact hc
  | true => exact h.pc _ _ hc

theorem compare (h : Stable P) (register operand : Byte) (hc : P c) :
    P (c.compare register operand) := by
  rw [Cpu.compare]
  exact h.setFlag _ _ _ (by decide) (h.setFlag _ _ _ (by decide) (h.setFlag _ _ _ (by decide) hc))

theorem testBits (h : Stable P) (operand : Byte) (hc : P c) : P (c.testBits operand) := by
  rw [Cpu.testBits]
  exact h.setFlag _ _ _ (by decide) (h.setFlag _ _ _ (by decide) (h.setFlag _ _ _ (by decide) hc))

theorem addToA (h : Stable P) (value : Byte) (hc : P c) : P (c.addToA value) := by
  rw [Cpu.addToA]
  exact h.setZN _ (h.setA _ (h.setFlag _ _ _ (by decide) (h.setFlag _ _ _ (by decide) hc)))

-- What is pulled is made a variable, lest it be computed.
theorem returnFromCall (h : Stable P) (hc : P c) : P c.returnFromCall := by
  have hpulled := h.pullWord hc
  rw [Cpu.returnFromCall]
  generalize c.pullWord = pulled at hpulled ⊢
  exact h.pc _ _ hpulled

theorem returnFromInterrupt (h : Stable P) (hc : P c) : P c.returnFromInterrupt := by
  have hpulled := h.pull hc
  rw [Cpu.returnFromInterrupt]
  generalize c.pull = pulled at hpulled ⊢
  have hpulled' := h.pullWord (h.setStatus pulled.1 hpulled)
  dsimp only
  generalize (pulled.2.setStatus pulled.1).pullWord = pulled' at hpulled' ⊢
  exact h.servicing _ _ (h.setFlag _ _ _ (by decide) (h.pc _ _ hpulled'))

theorem act (h : Stable P) (mode : Mode) (address : Word) (operand : Byte) (mnemonic : Mnemonic)
    (hc : P c) : P (c.act mode address operand mnemonic) := by
  cases mnemonic with
  | adc | sbc => exact h.addToA _ hc
  | and | ora | eor | lda | txa | tya => exact h.setZN _ (h.setA _ hc)
  | ldx | inx | dex | tax | tsx => exact h.setZN _ (h.setX _ hc)
  | ldy | iny | dey | tay => exact h.setZN _ (h.setY _ hc)
  | cmp | cpx | cpy => exact h.compare _ _ hc
  | bit => exact h.testBits _ hc
  | bcc | bcs | bne | beq | bpl | bmi | bvc | bvs => exact h.branch _ _ hc
  | asl | lsr | rol | ror => exact h.putBack _ _ _ (h.setFlag _ _ _ (by decide) hc)
  | inc | dec => exact h.putBack _ _ _ hc
  | sta | stx | sty => exact h.store _ _ _ hc
  | jmp => exact h.pc _ _ hc
  | jsr => exact h.pc _ _ (h.pushWord _ hc)
  | rts => exact h.returnFromCall hc
  | rti => exact h.returnFromInterrupt hc
  | brk => exact h.stop _ _ (h.pc _ _ hc)
  | nop => exact hc
  | pha | php => exact h.push _ hc
  | pla => exact h.setZN c.pull.1 (h.setA c.pull.1 (h.pull hc))
  | plp => exact h.setStatus c.pull.1 (h.pull hc)
  | clc | sec | cli | sei | cld | sed | clv => exact h.setFlag _ _ _ (by decide) hc
  | txs => exact h.setSp _ hc

theorem executeNext (h : Stable P) (hc : P c) : P c.executeNext := by
  have hfetched : P { c with pc := c.pc + 1, fetched := c.fetched + 1 } :=
    h.counters _ (c.fetched + 1) c.undocumented (h.pc _ (c.pc + 1) hc)
  rw [Cpu.executeNext]
  cases Opcode.decode (Bus.read c.bus c.pc) with
  | none => exact h.counters _ _ _ hfetched
  | some op => exact h.act _ _ _ _ (h.pc _ _ hfetched)

theorem serve (h : Stable P) (vector : Word) (hc : P c) : P (c.serve vector) :=
  h.pc { c with servicing := true } (Bus.readWord c.bus vector) (h.servicing c true hc)

theorem enter (h : Stable P) (kind : Interrupt) (hc : P c) : P (c.enter kind) := by
  have hframe : P c.pushFrame := h.push _ (h.pushWord _ hc)
  cases kind with
  | nmi => exact h.serve _ hframe
  | irq => exact h.serve _ (h.setFlag _ _ _ (by decide) hframe)

end Stable

/-- The Break flag is set exactly when there is a reason to halt. -/
def Latched (c : Cpu β) : Prop :=
  c.status.has .brk = c.halt.isSome

theorem stable_latched : Stable (Latched (β := β)) where
  assign c what value _ hwhat hc := by
    rw [Latched, c.assign_status what _ hwhat]
    simpa [Latched] using hc
  setFlag c flag on hflag hc := by
    rw [Latched]
    rcases Decidable.em (flag = .unused) with rfl | hunused
    · exact hc
    · rw [c.setFlag_has _ _ hunused, if_neg (Ne.symm hflag)]
      simpa [Latched] using hc
  stop c why hc := by
    simp [Latched, Status.has_assign]
  store c address value hc := by
    simpa [Latched] using hc
  pc c target hc := hc
  servicing c on hc := hc
  counters c fetched undocumented hc := hc

/-- Every write in the log stands with what the bus has signalled. -/
def Truthful (c : Cpu β) : Prop :=
  ∀ entry, .stored entry ∈ c.log →
    ∃ bus : β, entry.signal = Bus.signal bus entry.address entry.value

theorem truthful_assign {c : Cpu β} (hc : c.Truthful) (what : Observable) (value : Word) :
    (c.assign what value).Truthful := by
  intro entry hentry
  rw [log_assign] at hentry
  split at hentry
  · exact hc entry hentry
  · exact hc entry (by simpa using hentry)

theorem truthful_setFlag {c : Cpu β} (hc : c.Truthful) (flag : Flag) (on : Bool) :
    (c.setFlag flag on).Truthful := by
  rw [setFlag, setFlags]
  split
  · exact hc
  · exact truthful_assign hc _ _

theorem stable_truthful : Stable (Truthful (β := β)) where
  assign c what value _ _ hc := truthful_assign hc what _
  setFlag c flag on _ hc := truthful_setFlag hc flag on
  stop c why hc := truthful_setFlag (c := { c with halt := c.halt.or (some why) }) hc _ _
  store c address value hc := by
    intro entry hentry
    rw [log_store, List.mem_append, List.mem_singleton] at hentry
    rcases hentry with hentry | hentry
    · exact hc entry hentry
    · cases hentry
      exact ⟨c.bus, rfl⟩
  pc c target hc := hc
  servicing c on hc := hc
  counters c fetched undocumented hc := hc

end Nmos6502.Cpu
