import Nmos6502.Proofs.Interchange

/-!
The interrupt lines keep a copy of Interrupt Disable for the devices, which they learn from the log
of the processor. The log names the flags of an assignment by their mask, and the lines look for the
mask of this one flag, so an assignment of several flags at once can go past them.
-/

namespace Nmos6502

universe u

variable {β : Type u}

theorem Lines.masked_foldl_apply (ss : List Signal) (l : Lines) :
    (ss.foldl apply l).masked = l.masked := by
  induction ss generalizing l with
  | nil => rfl
  | cons s ss ih =>
    rw [List.foldl_cons, ih]
    cases s <;> rfl

/-- What the devices take Interrupt Disable to be after an entry of the log. -/
def Happening.masked (masked : Bool) : Happening → Bool
  | .changed change =>
    if change.what = .flag Flag.interruptDisable.mask then change.value != 0 else masked
  | .stored _ => masked

namespace Cpu

/-- Devices that took Interrupt Disable to be `before` learn from the log what it is. -/
def Mirrors (before : Bool) (c : Cpu β) : Prop :=
  c.log.foldl Happening.masked before = c.status.has .interruptDisable

variable {before : Bool} {c : Cpu β}

theorem masked_assign (before : Bool) {what : Observable}
    (h : what ≠ .flag Flag.interruptDisable.mask) (c : Cpu β) (value : Word) :
    (c.assign what value).log.foldl Happening.masked before =
      c.log.foldl Happening.masked before := by
  rw [log_assign]
  split
  · rfl
  · rw [List.foldl_append, List.foldl_cons, List.foldl_nil, Happening.masked, if_neg h]

theorem Mirrors.assign (hc : c.Mirrors before) {what : Observable}
    (hwhat : ∀ mask, what ≠ .flag mask) (value : Word) :
    (c.assign what value).Mirrors before := by
  rw [Mirrors, masked_assign before (hwhat _), c.assign_status what value hwhat]
  exact hc

theorem mirrors_setFlag_interruptDisable (hc : c.Mirrors before) (on : Bool) :
    (c.setFlag .interruptDisable on).Mirrors before := by
  rw [Mirrors, c.setFlag_has _ on (by decide), if_pos rfl, Cpu.setFlag, setFlags,
    if_neg (by decide), log_assign]
  rcases Decidable.em (c.value (.flag Flag.interruptDisable.mask) = if on then 1 else 0)
    with hsame | hdiff
  · rw [if_pos hsame, hc]
    change (if c.status.has .interruptDisable then (1 : Word) else 0) = _ at hsame
    revert hsame
    cases c.status.has .interruptDisable <;> cases on <;> decide
  · rw [if_neg hdiff, List.foldl_append, List.foldl_cons, List.foldl_nil, Happening.masked,
      if_pos rfl]
    cases on <;> rfl

theorem Mirrors.setFlag (hc : c.Mirrors before) (flag : Flag) (on : Bool) :
    (c.setFlag flag on).Mirrors before := by
  rcases Decidable.em (flag = .interruptDisable) with rfl | hother
  · exact mirrors_setFlag_interruptDisable hc on
  rcases Decidable.em (flag = .unused) with rfl | hunused
  · exact hc
  have hmask : (.flag flag.mask : Observable) ≠ .flag Flag.interruptDisable.mask :=
    fun h => hother (Flag.mask_injective (Observable.flag.inj h))
  rw [Mirrors, c.setFlag_has _ on hunused, if_neg (Ne.symm hother), Cpu.setFlag, setFlags]
  split
  · exact hc
  · rw [masked_assign before hmask]
    exact hc

variable [Bus β]

theorem steady_mirrors (before : Bool) : Steady (Mirrors before (β := β)) where
  assign c what value _ hwhat hc := hc.assign hwhat _
  setFlag c flag on hc := hc.setFlag flag on
  halt c halt hc := hc
  reportPc c hc := by
    rw [reportPc]
    split
    · exact hc
    · rw [Mirrors, record, List.foldl_append]
      exact hc
  store c address value hc := by
    rw [Mirrors, log_store, List.foldl_append]
    exact hc
  pc c target hc := hc
  servicing c on hc := hc
  counters c fetched undocumented hc := hc

end Cpu

namespace Machine

variable {m : Machine β}

theorem masked_signals (m : Machine β) (ss : List Signal) :
    (m.signals ss).lines.masked = m.lines.masked := by
  rw [(m.signals_fields ss).2.1, Lines.masked_foldl_apply]

theorem masked_notice (m : Machine β) (entry : Happening) :
    (m.notice entry).lines.masked = entry.masked m.lines.masked := by
  cases entry with
  | stored entry => exact m.masked_signals _
  | changed change =>
    have htold : (m.tellLines change).lines.masked =
        (Happening.changed change).masked m.lines.masked := by
      rw [tellLines, Happening.masked]
      split <;> rfl
    rw [← htold, notice, reveal]
    cases (m.tellLines change).observer with
    | none => rfl
    | some observer => exact masked_signals _ _

theorem masked_foldl_notice (log : List Happening) (m : Machine β) :
    (log.foldl notice m).lines.masked = log.foldl Happening.masked m.lines.masked := by
  induction log generalizing m with
  | nil => rfl
  | cons entry log ih => rw [List.foldl_cons, ih, masked_notice, List.foldl_cons]

theorem masked_perform (m : Machine β) (operation : Cpu β → Cpu β) :
    (m.perform operation).lines.masked =
      (operation m.cpu).log.foldl Happening.masked m.lines.masked :=
  masked_foldl_notice _ { m with cpu := { operation m.cpu with log := [] } }

/-- The devices know Interrupt Disable, and the log has been gone through. -/
structure Mirrors (m : Machine β) : Prop where
  masked : m.lines.masked = m.cpu.status.has .interruptDisable
  log : m.cpu.log = []

theorem mirrors_perform_iff {operation : Cpu β → Cpu β} :
    (m.perform operation).Mirrors ↔ (operation m.cpu).Mirrors m.lines.masked := by
  obtain ⟨hcpu, -⟩ := m.perform_fields operation
  constructor
  · intro h
    have hmasked := h.masked
    rw [masked_perform, hcpu] at hmasked
    exact hmasked
  · intro h
    refine ⟨?_, by rw [hcpu]⟩
    rw [masked_perform, hcpu]
    exact h

theorem Mirrors.cpu (h : m.Mirrors) : m.cpu.Mirrors m.lines.masked := by
  rw [Cpu.Mirrors, h.log]
  exact h.masked

/-- The devices have missed an assignment if it changes Interrupt Disable together with other
flags. -/
theorem mirrors_setFlags_iff (h : m.Mirrors) (mask : Byte) (on : Bool) :
    (m.perform fun c => c.setFlags mask on).Mirrors ↔
      (mask ≠ Flag.interruptDisable.mask → (m.cpu.setFlags mask on).status.has .interruptDisable =
        m.cpu.status.has .interruptDisable) := by
  rw [mirrors_perform_iff]
  rcases Decidable.em (mask = Flag.interruptDisable.mask) with rfl | hmask
  · exact iff_of_true (h.cpu.setFlag .interruptDisable on) fun hne => absurd rfl hne
  have hmissed : (m.cpu.setFlags mask on).log.foldl Happening.masked m.lines.masked =
      m.cpu.status.has .interruptDisable := by
    rw [Cpu.setFlags]
    split
    · exact h.cpu
    · rw [Cpu.masked_assign _ fun heq => hmask (Observable.flag.inj heq)]
      exact h.cpu
  rw [Cpu.Mirrors, hmissed, forall_prop_of_true hmask, eq_comm]

variable [Bus β]

theorem invariant_mirrors : Invariant (Mirrors (β := β)) where
  perform h task := mirrors_perform_iff.mpr ((Cpu.steady_mirrors _).run task h.cpu)
  signal h s := ⟨(Lines.masked_foldl_apply [s] _).trans h.masked, h.log⟩
  acknowledge h kind := by
    refine ⟨?_, h.log⟩
    cases kind with
    | nmi | irq => exact h.masked
  setGate h gate := ⟨h.masked, h.log⟩
  setHalt h halt := ⟨h.masked, h.log⟩
  setBreakpoints h breakpoints := ⟨h.masked, h.log⟩
  setResumePc h resumePc := ⟨h.masked, h.log⟩

theorem mirrors_powerOn (bus : β) : (powerOn bus).Mirrors :=
  ⟨(by decide : true = Status.reset.has .interruptDisable), rfl⟩

end Machine

namespace Workbench

variable [Bus β]

/-- Whether the operation changes Interrupt Disable behind the back of the devices. -/
def strays (b : Workbench β) : Operation → Bool
  | .setFlags mask on =>
    mask != Flag.interruptDisable.mask &&
      (b.machine.cpu.setFlags mask on).status.has .interruptDisable !=
        b.machine.cpu.status.has .interruptDisable
  | .command _ | .attachLines _ | .observe _ | .requestIrq | .awaitIrq | .powerCycle | .peek _ _
  | .readWord _ | .writeWord _ _ | .load _ => false

/-- Whether some operation of a history does. -/
def everStrays (b : Workbench β) : List Operation → Bool
  | [] => false
  | operation :: operations => b.strays operation || (b.operate operation).everStrays operations

variable {b : Workbench β}

theorem mirrors_load (h : b.machine.Mirrors) (calls : List Loader.Call) :
    (b.load calls).machine.Mirrors := by
  rw [load_machine]
  constructor
  · rw [Machine.masked_foldl_notice, (Machine.foldl_notice_fields _ _).1, List.foldl_map,
      List.foldl_fixed' fun _ => rfl]
    exact h.masked
  · rw [(Machine.foldl_notice_fields _ _).1]
    exact h.log

theorem mirrors_operate_iff (h : b.machine.Mirrors) (operation : Operation) :
    (b.operate operation).machine.Mirrors ↔ b.strays operation = false := by
  cases operation with
  | setFlags mask on =>
    refine (Machine.mirrors_setFlags_iff h mask on).trans ?_
    rw [strays, Bool.and_eq_false_imp, bne_iff_ne, bne_eq_false_iff_eq]
  | command command => exact iff_of_true (Machine.invariant_mirrors.obey h command) rfl
  | attachLines lines => exact iff_of_true ⟨rfl, h.log⟩ rfl
  | observe observer => exact iff_of_true ⟨h.masked, h.log⟩ rfl
  | requestIrq => exact iff_of_true ⟨h.masked, h.log⟩ rfl
  | awaitIrq =>
    have hrequested : ({ b.machine with lines := b.machine.lines.request .irq }).Mirrors :=
      ⟨h.masked, h.log⟩
    exact iff_of_true (Machine.invariant_mirrors.perform hrequested
      (.set (.flag .interruptDisable) 0)) rfl
  | powerCycle =>
    have hstarted := Machine.mirrors_powerOn b.memory
    exact iff_of_true ⟨hstarted.masked, hstarted.log⟩ rfl
  | writeWord address value => exact iff_of_true (Machine.invariant_mirrors.poke h _ _) rfl
  | load calls => exact iff_of_true (mirrors_load h calls) rfl
  | peek address count => exact iff_of_true h rfl
  | readWord address => exact iff_of_true h rfl

theorem masked_operate_iff (h : b.machine.Mirrors) (operation : Operation) :
    (b.operate operation).machine.lines.masked =
        (b.operate operation).machine.cpu.status.has .interruptDisable ↔
      b.strays operation = false := by
  rw [← mirrors_operate_iff h operation]
  refine ⟨fun hmasked => ⟨hmasked, ?_⟩, Machine.Mirrors.masked⟩
  cases operation with
  | setFlags mask on => exact congrArg Cpu.log (b.machine.perform_fields _).1
  | _ => exact ((mirrors_operate_iff h _).mpr rfl).log

theorem mirrors_after (operations : List Operation) (h : b.machine.Mirrors)
    (hstrays : b.everStrays operations = false) : (b.after operations).machine.Mirrors := by
  induction operations generalizing b with
  | nil => exact h
  | cons operation operations ih =>
    rw [everStrays, Bool.or_eq_false_iff] at hstrays
    exact ih ((mirrors_operate_iff h operation).mpr hstrays.1) hstrays.2

/-- As long as no operation strays, the devices know Interrupt Disable, and a device that asks for a
maskable interrupt is told that the processor is ready exactly when the flag is clear. The next
operation puts an end to this exactly when it strays. -/
theorem ready_iff_enabled (bus : β) (labels : LabelTable) (operations : List Operation)
    (hstrays : (powerOn bus labels).everStrays operations = false) :
    let now := (powerOn bus labels).after operations
    now.machine.lines.masked = now.machine.cpu.status.has .interruptDisable ∧
      now.answer .requestIrq = .ready (!now.machine.cpu.status.has .interruptDisable) ∧
      ∀ operation, (now.operate operation).machine.lines.masked =
          (now.operate operation).machine.cpu.status.has .interruptDisable ↔
        now.strays operation = false := by
  intro now
  have hnow : now.machine.Mirrors := mirrors_after operations (Machine.mirrors_powerOn bus) hstrays
  refine ⟨hnow.masked, ?_, masked_operate_iff hnow⟩
  rw [← hnow.masked]
  rfl

/-- Interrupt Disable goes on its own and comes back with the status, and other flags are set
together. -/
theorem ready_iff_enabled_straight :
    let operations := [Operation.setFlags 0x04 false, .setFlags 0x03 true, .requestIrq,
      .command (.set .status 0x04)]
    ((powerOn FlatMemory.zeroed .empty).after operations).answer .requestIrq = .ready false := by
  intro operations
  obtain ⟨-, hanswer, -⟩ := ready_iff_enabled FlatMemory.zeroed .empty operations
    (by decide +kernel)
  have hdisabled : ((powerOn FlatMemory.zeroed .empty).after operations).machine.cpu.status.has
      .interruptDisable = true := by
    decide +kernel
  rw [hanswer, hdisabled]
  rfl

/-- Interrupt Disable and Carry are set and cleared together. -/
theorem refused_though_enabled :
    let now := (powerOn FlatMemory.zeroed .empty).after
      [.setFlags 0x05 true, .setFlags 0x05 false]
    now.machine.cpu.status.has .interruptDisable = false ∧ now.machine.lines.masked = true ∧
      now.machine.lines.requestIrq.2 = false := by
  decide +kernel

end Workbench

end Nmos6502
