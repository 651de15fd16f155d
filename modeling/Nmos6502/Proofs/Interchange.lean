import Nmos6502.Monitor.Program
import Nmos6502.Monitor.Wiring
import Nmos6502.Proofs.Bus.Plain
import Nmos6502.Proofs.Loader.Transfer
import Nmos6502.Proofs.Run.Transfer

/-!
Flat memory and plain mapped memory can take each other's place under a machine. Both are images of
one bus that keeps the two side by side, and no image of a bus can be told from another.
-/

namespace Nmos6502

universe u v

/-- A machine and the labels of its programs. -/
structure Workbench (β : Type u) where
  machine : Machine β
  labels : LabelTable

namespace Workbench

/-- What can be done at a workbench. -/
inductive Operation where
  | command (command : Command)
  | setFlags (mask : Byte) (on : Bool)
  | attachLines (lines : Lines)
  | observe (observer : Option Observer)
  /-- A device asks for a maskable interrupt. -/
  | requestIrq
  /-- A device asks and waits, and the processor enables maskable interrupts. -/
  | awaitIrq
  /-- Off and on again; the memory and the trace stay. -/
  | powerCycle
  | peek (address : Word) (count : Nat)
  | readWord (address : Word)
  | writeWord (address value : Word)
  /-- A load from beginning to end. -/
  | load (calls : List Loader.Call)

/-- What comes of an operation. -/
inductive Answer where
  | done
  /-- How far a run has come. -/
  | reached (phase : Phase)
  | ready (ready : Bool)
  | bytes (values : List Byte)
  | word (value : Word)
  | loaded (transcript : List (Loader.Reply × Word × LabelTable))

variable {β : Type u} {γ : Type v}

def memory (b : Workbench β) : β :=
  b.machine.cpu.bus

def transfer (b : Workbench β) (f : β → γ) : Workbench γ where
  machine := b.machine.transfer f
  labels := b.labels

/-- Everything but the memory. -/
def aside (b : Workbench β) : Workbench Unit :=
  b.transfer fun _ => ()

theorem transfer_eq_of_aside {b : Workbench β} {b' : Workbench γ} (h : b.aside = b'.aside)
    {f : β → γ} (hf : f b.memory = b'.memory) : b.transfer f = b' := by
  obtain ⟨⟨cpu, lines, gate, observer, trace, breakpoints, resumePc⟩, labels⟩ := b
  obtain ⟨⟨cpu', lines', gate', observer', trace', breakpoints', resumePc'⟩, labels'⟩ := b'
  cases cpu
  cases cpu'
  simp only [aside, transfer, Machine.transfer, Cpu.transfer, Workbench.mk.injEq,
    Machine.mk.injEq, Cpu.mk.injEq, memory] at h hf ⊢
  simp_all

variable [Bus β] [Bus γ] {f : β → γ}

def powerOn (bus : β) (labels : LabelTable) : Workbench β :=
  ⟨.powerOn bus, labels⟩

/-- The load works on the memory and the labels, and what devices ask for meanwhile is done when it
has ended. -/
def load (b : Workbench β) (calls : List Loader.Call) : Workbench β :=
  let ended := ((Loader.start b.memory b.labels).after calls).finish
  { machine := ended.stores.foldl (fun machine entry => machine.notice (.stored entry))
      { b.machine with cpu := { b.machine.cpu with bus := ended.bus } }
    labels := ended.labels }

theorem load_machine (b : Workbench β) (calls : List Loader.Call) :
    let ended := ((Loader.start b.memory b.labels).after calls).finish
    (b.load calls).machine = (ended.stores.toList.map .stored).foldl Machine.notice
      { b.machine with cpu := { b.machine.cpu with bus := ended.bus } } := by
  intro ended
  rw [load, List.foldl_map, ← Array.foldl_toList]

def operate (b : Workbench β) : Operation → Workbench β
  | .command command => { b with machine := b.machine.obey command }
  | .setFlags mask on => { b with machine := b.machine.perform fun c => c.setFlags mask on }
  | .attachLines lines => { b with machine := b.machine.attachLines lines }
  | .observe observer => { b with machine := { b.machine with observer := observer } }
  | .requestIrq =>
    { b with machine := { b.machine with lines := b.machine.lines.requestIrq.1 } }
  | .awaitIrq => { b with machine := b.machine.requestIrqAndEnable.1 }
  | .powerCycle => { b with machine := { Machine.powerOn b.memory with trace := b.machine.trace } }
  | .writeWord address value =>
    { b with machine := b.machine.poke address [Word.low value, Word.high value] }
  | .load calls => b.load calls
  | .peek _ _ | .readWord _ => b

def answer (b : Workbench β) : Operation → Answer
  | .command (.deed (.run options schedule)) =>
    .reached ((Engine.start b.machine options).through schedule).phase
  | .requestIrq => .ready b.machine.lines.requestIrq.2
  | .awaitIrq => .ready b.machine.requestIrqAndEnable.2
  | .peek address count => .bytes (Bus.readAll b.memory address count)
  | .readWord address => .word (Bus.readWord b.memory address)
  | .load calls => .loaded ((Loader.start b.memory b.labels).transcript calls)
  | .command _ | .setFlags _ _ | .attachLines _ | .observe _ | .powerCycle | .writeWord _ _ => .done

def after (b : Workbench β) (operations : List Operation) : Workbench β :=
  operations.foldl operate b

theorem aside_powerOn {bus : β} {bus' : γ}
    (h : ∀ address, Bus.read bus address = Bus.read bus' address) (labels : LabelTable) :
    (powerOn bus labels).aside = (powerOn bus' labels).aside := by
  simp only [aside, transfer, powerOn, Machine.powerOn, Machine.transfer, Cpu.transfer,
    Cpu.powerOn, Bus.readWord, h]

def ofMonitor (m : Monitor) : Workbench Board :=
  ⟨m.machine, m.labels⟩

/-- The operations of a monitor are those of its workbench. -/
theorem ofMonitor_operate (m : Monitor) :
    (∀ calls, ofMonitor (m.endLoad (m.beginLoad.after calls)) =
        (ofMonitor m).operate (.load calls)) ∧
      (∀ mask on, ofMonitor (m.operate fun machine => machine.perform fun c =>
        c.setFlags mask on) = (ofMonitor m).operate (.setFlags mask on)) ∧
      (∀ observer, ofMonitor (m.observe observer) = (ofMonitor m).operate (.observe observer)) ∧
      (∀ bounded, ofMonitor (m.awaitIrq bounded).1 = (ofMonitor m).operate .awaitIrq) ∧
      ofMonitor m.powerCycle = (ofMonitor m).operate .powerCycle :=
  ⟨fun _ => rfl, fun _ _ => rfl, fun _ => rfl, fun _ => rfl, rfl⟩

theorem transfer_load (hf : Bus.Faithful f) (b : Workbench β) (calls : List Loader.Call) :
    (b.transfer f).load calls = (b.load calls).transfer f := by
  have hended : ((Loader.start (f b.memory) b.labels).after calls).finish =
      ((Loader.start b.memory b.labels).after calls).finish.transfer f := by
    rw [← Loader.transfer_finish hf, ← Loader.transfer_after hf]
    rfl
  have hnotice : ∀ (stores : List Store) (m : Machine β),
      stores.foldl (fun m entry => m.notice (.stored entry)) (m.transfer f) =
        (stores.foldl (fun m entry => m.notice (.stored entry)) m).transfer f := by
    intro stores
    induction stores with
    | nil => exact fun _ => rfl
    | cons entry stores ih =>
      intro m
      simp only [List.foldl_cons, Machine.transfer_notice, ih]
  have hmemory : (b.transfer f).memory = f b.memory := rfl
  have hlabels : (b.transfer f).labels = b.labels := rfl
  simp only [load, hmemory, hlabels, hended, Loader.transfer, ← Array.foldl_toList]
  simp only [transfer, ← hnotice]
  rfl

theorem transfer_operate (hf : Bus.Faithful f) (b : Workbench β) (operation : Operation) :
    (b.transfer f).operate operation = (b.operate operation).transfer f := by
  have hmachine : ∀ {m : Machine γ} {m' : Machine β}, m = m'.transfer f →
      ({ b.transfer f with machine := m } : Workbench γ) =
        ({ b with machine := m' } : Workbench β).transfer f := by
    rintro m m' rfl
    rfl
  cases operation with
  | command command => exact hmachine (b.machine.transfer_obey hf command)
  | setFlags mask on => exact hmachine (b.machine.transfer_setFlags f mask on)
  | attachLines lines | observe observer | requestIrq | peek address count | readWord address => rfl
  | awaitIrq => exact hmachine (congrArg Prod.fst (b.machine.transfer_requestIrqAndEnable f))
  | powerCycle =>
    have hpower := Machine.transfer_powerOn hf b.memory
    exact hmachine (congrArg (fun m => { m with trace := b.machine.trace }) hpower)
  | writeWord address value => exact hmachine (b.machine.transfer_poke hf address _)
  | load calls => exact b.transfer_load hf calls

theorem transfer_answer (hf : Bus.Faithful f) (b : Workbench β) (operation : Operation) :
    (b.transfer f).answer operation = b.answer operation := by
  have hmemory : (b.transfer f).memory = f b.memory := rfl
  cases operation with
  | peek address count => simp only [answer, hmemory, Bus.readAll, hf.read]
  | readWord address => simp only [answer, hmemory, Bus.readWord, hf.read]
  | load calls =>
    exact congrArg Answer.loaded (Loader.transfer_transcript hf calls (.start b.memory b.labels))
  | awaitIrq =>
    exact congrArg (Answer.ready ·.2) (b.machine.transfer_requestIrqAndEnable f)
  | command command =>
    cases command with
    | deed deed =>
      cases deed with
      | run options schedule =>
        have hrun := Engine.transfer_run hf b.machine options schedule
        exact congrArg (Answer.reached ·.phase) hrun
      | act s | step => rfl
    | attach evaluator | set register value | poke address values | reset => rfl
  | setFlags mask on | attachLines lines | observe observer | requestIrq | powerCycle
  | writeWord address value => rfl

theorem transfer_after (hf : Bus.Faithful f) (operations : List Operation) (b : Workbench β) :
    (b.transfer f).after operations = (b.after operations).transfer f := by
  induction operations generalizing b with
  | nil => rfl
  | cons operation operations ih =>
    simp only [after, List.foldl_cons, transfer_operate hf]
    exact ih _

/-- Whatever is done at two workbenches that differ in the kind of their memory alone, comes to the
same. -/
theorem flat_mapped_interchangeable (flat : Workbench FlatMemory)
    (mapped : Workbench MappedMemory) (hplain : mapped.memory.IsPlain)
    (hsame : ∀ address, Bus.read mapped.memory address = Bus.read flat.memory address)
    (haside : mapped.aside = flat.aside) (operations : List Operation) :
    (mapped.after operations).aside = (flat.after operations).aside ∧
      (∀ address, Bus.read (mapped.after operations).memory address =
        Bus.read (flat.after operations).memory address) ∧
      ∀ operation, (mapped.after operations).answer operation =
        (flat.after operations).answer operation := by
  let twin : Workbench Twin := flat.transfer fun _ => ⟨flat.memory, mapped.memory, hplain, hsame⟩
  have htwin : twin.aside = flat.aside := rfl
  have hflat : twin.transfer Twin.flat = flat := transfer_eq_of_aside htwin rfl
  have hmapped : twin.transfer Twin.mapped = mapped :=
    transfer_eq_of_aside (htwin.trans haside.symm) rfl
  have hflat' := transfer_after Twin.flat_faithful operations twin
  have hmapped' := transfer_after Twin.mapped_faithful operations twin
  rw [hflat] at hflat'
  rw [hmapped] at hmapped'
  rw [hflat', hmapped']
  refine ⟨rfl, (twin.after operations).memory.same, ?_⟩
  intro operation
  rw [transfer_answer Twin.mapped_faithful, transfer_answer Twin.flat_faithful]

/-- A program on the largest memory there is stores a byte. -/
theorem flat_mapped_interchangeable_store :
    ∃ ram, Device.ofRam 0 addressSpace = .ok ram ∧
      Bus.read ((powerOn (MappedMemory.empty.carryOut (.install ram)) .empty).after
        [.load [.instruction ⟨.lda, .immediate⟩, .write 0x41, .instruction ⟨.sta, .absolute⟩,
            .writeWord 0x0200],
          .command (.deed .step), .command (.deed .step)]).memory 0x0200 = 0x41 := by
  let bank : Bank := ⟨addressSpace, Table.replicate 16 0, Nat.le_refl _⟩
  have hsize : bank.size = addressSpace := rfl
  have hram : Device.ofRam 0 addressSpace = .ok (.ram 0 bank) := by
    rw [Device.ofRam, Bank.zeroed?, dif_pos (Nat.le_refl addressSpace)]
  obtain ⟨hplain, hdevices⟩ := MappedMemory.IsPlain.install hsize
  have hsame : ∀ address, Bus.read (MappedMemory.empty.carryOut (.install (.ram 0 bank))) address =
      Bus.read FlatMemory.zeroed address := by
    intro address
    rw [hplain.read hdevices, FlatMemory.read_zeroed]
    exact Table.get_replicate ..
  refine ⟨.ram 0 bank, hram, ?_⟩
  generalize MappedMemory.empty.carryOut (.install (.ram 0 bank)) = memory at hplain hsame ⊢
  obtain ⟨-, hbytes, -⟩ := flat_mapped_interchangeable (powerOn FlatMemory.zeroed .empty)
    (powerOn memory .empty) hplain hsame (aside_powerOn hsame .empty) _
  rw [hbytes]
  decide +kernel

end Workbench

end Nmos6502
