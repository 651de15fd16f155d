import Nmos6502.Proofs.Cpu.Stable
import Nmos6502.Proofs.Interrupt.Record
import Nmos6502.Proofs.Machine.Transfer
import Nmos6502.Proofs.Run.Settled

namespace Nmos6502

universe u

variable {β : Type u}

def Signal.request? : Signal → Option Interrupt
  | .nmi => some .nmi
  | .irq => some .irq
  | .clear | .go | .stop | .step | .cancel | .resetCancel => none

theorem requested_mem_lineEvents (s : Signal) (kind : Interrupt) :
    .requested kind ∈ lineEvents [s] ↔ kind ∈ s.request?.toList := by
  cases s <;> cases kind <;> decide

theorem Lines.foldl_apply_of_movesGate {ss : List Signal} (h : ∀ s ∈ ss, s.movesGate = true)
    (l : Lines) : ss.foldl Lines.apply l = l := by
  induction ss generalizing l with
  | nil => rfl
  | cons s ss ih =>
    have hfirst : l.apply s = l := by
      have hs := h s List.mem_cons_self
      cases s with
      | nmi | irq | clear => cases hs
      | go | stop | step | cancel | resetCancel => rfl
    rw [List.foldl_cons, hfirst]
    exact ih (fun s hs => h s (List.mem_cons_of_mem _ hs)) l

/-- All that a program can find out about a machine. -/
@[ext] structure Architecture (β : Type u) where
  a : Byte
  x : Byte
  y : Byte
  sp : Byte
  pc : Word
  status : Status
  memory : β
  servicing : Bool
  halt : Option Halt
  fetched : Nat
  undocumented : Nat
  nmi : Bool
  irq : Bool

namespace Machine

def architecture (m : Machine β) : Architecture β where
  a := m.cpu.a
  x := m.cpu.x
  y := m.cpu.y
  sp := m.cpu.sp
  pc := m.cpu.pc
  status := m.cpu.status
  memory := m.cpu.bus
  servicing := m.cpu.servicing
  halt := m.cpu.halt
  fetched := m.cpu.fetched
  undocumented := m.cpu.undocumented
  nmi := m.lines.nmi
  irq := m.lines.irq

def request (m : Machine β) (kinds : List Interrupt) : Machine β :=
  { m with lines := kinds.foldl Lines.request m.lines }

@[simp] theorem request_nil (m : Machine β) : m.request [] = m := rfl

theorem request_pending (m : Machine β) (kinds : List Interrupt) (kind : Interrupt) :
    (m.request kinds).lines.pending kind = (m.lines.pending kind || decide (kind ∈ kinds)) := by
  induction kinds generalizing m with
  | nil => simp
  | cons first kinds ih =>
    have hfirst : (m.request [first]).lines.pending kind =
        (m.lines.pending kind || decide (kind = first)) := by
      cases first <;> cases kind <;> simp [request, Lines.request, Lines.pending]
    have hrest := ih (m.request [first])
    rw [hfirst] at hrest
    simpa [request, Bool.or_assoc] using hrest

/-- No trigger touches the lines. -/
def Quiet (m : Machine β) : Prop :=
  ∀ observer, m.observer = some observer → ∀ t ∈ observer.triggers, t.signal.movesGate = true

/-- Neither a trigger nor a device drops requests. -/
structure NeverClears [Bus β] (m : Machine β) : Prop where
  triggers : ∀ observer, m.observer = some observer → ∀ t ∈ observer.triggers, t.signal ≠ .clear
  devices : ∀ (bus : β) address value, Bus.signal bus address value ≠ some .clear

theorem NeverClears.congr [Bus β] {m m' : Machine β} (h : m.NeverClears)
    (hobserver : m'.observer = m.observer) : m'.NeverClears where
  triggers := by
    rw [hobserver]
    exact h.triggers
  devices := h.devices

theorem mem_reactions_changed {m : Machine β} {change : Change} {s : Signal}
    (h : s ∈ m.reactions (.changed change)) :
    ∃ observer, m.observer = some observer ∧ ∃ t ∈ observer.triggers, t.signal = s := by
  cases hobserver : m.observer with
  | none => simp [reactions, hobserver] at h
  | some observer =>
    simp only [reactions, hobserver, Option.map_some, Option.getD_some, Observer.reactions,
      List.mem_map, List.mem_filter] at h
    obtain ⟨t, ht, hs⟩ := h
    exact ⟨observer, rfl, t, ht.1, hs⟩

theorem clear_not_mem_calls [Bus β] {m : Machine β} (h : m.NeverClears)
    {operation : Cpu β → Cpu β} (htruthful : (operation m.cpu).Truthful) :
    .clear ∉ m.calls operation := by
  rw [calls, List.mem_flatMap]
  rintro ⟨entry, hentry, hclear⟩
  cases entry with
  | changed change =>
    obtain ⟨observer, hobserver, t, ht, hsignal⟩ := mem_reactions_changed hclear
    exact h.triggers observer hobserver t ht hsignal
  | stored entry =>
    obtain ⟨bus, hbus⟩ := htruthful entry hentry
    have hsignal : entry.signal = some .clear := by simpa [reactions] using hclear
    exact h.devices bus entry.address entry.value (hbus.symm.trans hsignal)

theorem clear_not_mem_reportPc [Bus β] {m : Machine β} (h : m.NeverClears)
    (hlog : m.cpu.log = []) : .clear ∉ m.calls Cpu.reportPc := by
  refine clear_not_mem_calls h ?_
  rw [Cpu.reportPc]
  split
  · simp [Cpu.Truthful, hlog]
  · simp [Cpu.Truthful, Cpu.record, hlog]

theorem pending_reportPc {m : Machine β} (h : m.Quiet) (hlog : m.cpu.log = []) :
    (m.perform Cpu.reportPc).lines.pending = m.lines.pending := by
  have hgate : ∀ s ∈ m.calls Cpu.reportPc, s.movesGate = true := by
    intro s hs
    rw [calls, List.mem_flatMap] at hs
    obtain ⟨entry, hentry, hs⟩ := hs
    have hchanged : entry = .changed ⟨.pc, m.cpu.pc⟩ := by
      unfold Cpu.reportPc at hentry
      split at hentry
      · simp [hlog] at hentry
      · simpa [Cpu.record, hlog] using hentry
    subst hchanged
    obtain ⟨observer, hobserver, t, ht, rfl⟩ := mem_reactions_changed hs
    exact h observer hobserver t ht
  rw [perform_pending, Lines.foldl_apply_of_movesGate hgate]

theorem reactions_congr {r s : Machine β} (h : r.observer = s.observer) :
    r.reactions = s.reactions := by
  funext entry
  cases entry <;> simp only [reactions, h]

/-- `r` is `s` with the requests `late` on top. The program counters that the two have recorded may
differ if nobody on the lines can tell. -/
structure Tracks (r s : Machine β) (late : List Interrupt) : Prop where
  cpu : r.cpu = s.cpu.transfer (fun bus => bus) r.cpu.reportedPc
  log : s.cpu.log = []
  observer : r.observer = s.observer
  pending : ∀ kind, r.lines.pending kind = (s.lines.pending kind || decide (kind ∈ late))
  reported : r.cpu.reportedPc = s.cpu.reportedPc ∨ s.Quiet

namespace Tracks

variable {r s : Machine β} {early late : List Interrupt}

theorem congr {r' : Machine β} (h : Tracks r s late) (hcpu : r'.cpu = r.cpu)
    (hobserver : r'.observer = r.observer) (hpending : r'.lines.pending = r.lines.pending) :
    Tracks r' s late where
  cpu := by rw [hcpu, ← h.cpu]
  log := h.log
  observer := hobserver.trans h.observer
  pending kind := by rw [hpending, h.pending]
  reported := by
    rw [hcpu]
    exact h.reported

theorem log_left (h : Tracks r s late) : r.cpu.log = [] := by
  rw [h.cpu, Cpu.transfer, h.log]

theorem deliver (h : Tracks r s (early ++ late)) : Tracks r (s.request early) late where
  cpu := h.cpu
  log := h.log
  observer := h.observer
  pending kind := by
    rw [h.pending, request_pending, Bool.or_assoc]
    simp
  reported := h.reported

theorem signal (h : Tracks r s late) {x : Signal} (hclear : x ≠ .clear) :
    Tracks (r.signal x) s (late ++ x.request?.toList) where
  cpu := h.cpu
  log := h.log
  observer := h.observer
  pending kind := by
    have hsingle : Signal.clear ∉ [x] := by simpa using hclear.symm
    have hpending := Lines.pending_foldl_apply hsingle r.lines kind
    rw [h.pending] at hpending
    simp only [requested_mem_lineEvents] at hpending
    simpa [Bool.or_comm, Bool.or_left_comm, Bool.or_assoc] using hpending
  reported := h.reported

theorem deliver_all (h : Tracks r s late) : Tracks r (s.request late) [] := by
  refine Tracks.deliver ?_
  rw [List.append_nil]
  exact h

theorem lines_eq (h : Tracks r s []) :
    r.lines.nmi = s.lines.nmi ∧ r.lines.irq = s.lines.irq := by
  constructor
  · simpa [Lines.pending] using h.pending .nmi
  · simpa [Lines.pending] using h.pending .irq

theorem accepted_eq (h : Tracks r s []) : r.accepted = s.accepted := by
  obtain ⟨hnmi, hirq⟩ := h.lines_eq
  have hservicing : r.cpu.servicing = s.cpu.servicing := by rw [h.cpu, Cpu.transfer]
  have hstatus : r.cpu.status = s.cpu.status := by rw [h.cpu, Cpu.transfer]
  simp only [accepted, Lines.accepted, hnmi, hirq, hservicing, hstatus]

theorem architecture_eq (h : Tracks r s late) :
    r.architecture = (s.request late).architecture := by
  have hcpu := h.deliver_all.cpu
  obtain ⟨hnmi, hirq⟩ := h.deliver_all.lines_eq
  rw [architecture, hcpu, hnmi, hirq]
  rfl

/-- The two stay in step in what they do alike. -/
theorem perform (h : Tracks r s late) {operation : Cpu β → Cpu β}
    (htransfer : ∀ (c : Cpu β) w, operation (c.transfer (fun bus => bus) w) =
      (operation c).transfer (fun bus => bus) w)
    (hclear : .clear ∉ s.calls operation) :
    Tracks (r.perform operation) (s.perform operation) late := by
  have hcpu : operation r.cpu =
      (operation s.cpu).transfer (fun bus => bus) r.cpu.reportedPc := by
    rw [← htransfer, ← h.cpu]
  have hreported : (operation s.cpu).reportedPc = s.cpu.reportedPc := by
    have hself := htransfer s.cpu s.cpu.reportedPc
    change operation s.cpu = _ at hself
    rw [hself, Cpu.transfer]
  have hcalls : r.calls operation = s.calls operation := by
    rw [calls, calls, hcpu, reactions_congr h.observer, Cpu.transfer]
  constructor
  · simp only [perform_fields, hcpu]
    rfl
  · simp
  · simp [h.observer]
  · intro kind
    rw [perform_pending, perform_pending, hcalls, Lines.pending_foldl_apply hclear,
      Lines.pending_foldl_apply hclear, h.pending, Bool.or_assoc]
  · have hquiet : (s.perform operation).Quiet ↔ s.Quiet := by
      simp [Quiet]
    rw [hquiet]
    simpa [hcpu, hreported] using h.reported

theorem reportPc [Bus β] (h : Tracks r s late) (hclears : s.NeverClears) :
    Tracks (r.perform Cpu.reportPc) (s.perform Cpu.reportPc) late := by
  have hclear := clear_not_mem_reportPc hclears h.log
  have hpc : r.cpu.pc = s.cpu.pc := by rw [h.cpu, Cpu.transfer]
  have hpending : ∀ kind, (r.perform Cpu.reportPc).lines.pending kind =
      ((s.perform Cpu.reportPc).lines.pending kind || decide (kind ∈ late)) := by
    intro kind
    rcases h.reported with hreported | hquiet
    · have hsame : r.cpu = s.cpu := by
        rw [h.cpu, hreported]
        rfl
      have hcalls : r.calls Cpu.reportPc = s.calls Cpu.reportPc := by
        rw [calls, calls, hsame, reactions_congr h.observer]
      rw [perform_pending, perform_pending, hcalls, Lines.pending_foldl_apply hclear,
        Lines.pending_foldl_apply hclear, h.pending, Bool.or_assoc]
    · have hquiet' : r.Quiet := by simpa only [Quiet, h.observer] using hquiet
      rw [pending_reportPc hquiet' h.log_left, pending_reportPc hquiet h.log, h.pending]
  constructor
  · rw [perform_reportPc_cpu, perform_reportPc_cpu, h.cpu]
    rfl
  · simp
  · simp [h.observer]
  · exact hpending
  · rw [perform_reportPc_cpu, perform_reportPc_cpu, hpc]
    exact .inl rfl

theorem reportPc_left (h : Tracks r s late) (hreported : r.Settled ∨ s.Quiet) :
    Tracks (r.perform Cpu.reportPc) s late := by
  have hpending : (r.perform Cpu.reportPc).lines.pending = r.lines.pending := by
    rcases hreported with hsettled | hquiet
    · have hpc : r.cpu.pc = r.cpu.reportedPc := hsettled.symm
      have hcalls : r.calls Cpu.reportPc = [] := by
        simp [calls, Cpu.reportPc, hpc, h.log_left]
      rw [perform_pending, hcalls, List.foldl_nil]
    · exact pending_reportPc (by simpa only [Quiet, h.observer] using hquiet) h.log_left
  constructor
  · rw [perform_reportPc_cpu, h.cpu]
    simp [Cpu.transfer, h.log]
  · exact h.log
  · simp [h.observer]
  · intro kind
    rw [hpending, h.pending]
  · rw [perform_reportPc_cpu]
    rcases hreported with hsettled | hquiet
    · rw [← hsettled]
      exact h.reported
    · exact .inr hquiet

variable [Bus β]

theorem executeNext (h : Tracks r s late) (hclears : s.NeverClears) :
    Tracks (r.perform Cpu.executeNext) (s.perform Cpu.executeNext) late := by
  have htruthful : s.cpu.Truthful := by simp [Cpu.Truthful, h.log]
  exact h.perform (Cpu.transfer_executeNext Bus.Faithful.id)
    (clear_not_mem_calls hclears (Cpu.stable_truthful.executeNext htruthful))

theorem enter (h : Tracks r s []) (hclears : s.NeverClears) (kind : Interrupt) :
    Tracks (r.enter kind) (s.enter kind) [] := by
  have htruthful : s.cpu.Truthful := by simp [Cpu.Truthful, h.log]
  have hacknowledged : Tracks { r with lines := r.lines.acknowledge kind }
      { s with lines := s.lines.acknowledge kind } [] := by
    refine ⟨h.cpu, h.log, h.observer, ?_, h.reported⟩
    intro other
    simp [Lines.acknowledge_pending, h.pending]
  have hclear : .clear ∉ s.calls fun c => c.enter kind :=
    clear_not_mem_calls hclears (Cpu.stable_truthful.enter kind htruthful)
  exact hacknowledged.perform (fun c w => Cpu.transfer_enter Bus.Faithful.id c w kind) hclear

end Tracks

/-- The work of a step, before the program counter is recorded. -/
def work [Bus β] (m : Machine β) : Machine β :=
  match m.accepted with
  | some kind => m.enter kind
  | none => m.perform Cpu.executeNext

theorem step_eq_work [Bus β] (m : Machine β) : m.step = m.work.perform Cpu.reportPc :=
  rfl

end Machine

end Nmos6502
