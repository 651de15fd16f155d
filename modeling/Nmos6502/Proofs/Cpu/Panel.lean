import Nmos6502.Proofs.Cpu.Task

/-!
The registers and flags as someone sees them who has nothing but the changes. The log of the
processor keeps a panel up to date, and no change in it is idle. The program counter shows where it
was last recorded.
-/

namespace Nmos6502

universe u

variable {β : Type u}

/-- What a panel shows: the registers and the eight flags. -/
inductive Gauge where
  | a | x | y | sp | pc
  | flag (flag : Flag)
  deriving DecidableEq, Repr

namespace Gauge

def what : Gauge → Observable
  | a => .a
  | x => .x
  | y => .y
  | sp => .sp
  | pc => .pc
  | flag f => .flag f.mask

def name (g : Gauge) : String :=
  g.what.name

def all : List Gauge :=
  [a, x, y, sp, pc] ++ Flag.all.map flag

theorem find?_name (g : Gauge) : (all.find? fun other => other.name == g.name) = some g := by
  cases g with
  | flag f => cases f <;> decide +kernel
  | _ => decide +kernel

theorem name_injective {f g : Gauge} (h : f.name = g.name) : f = g :=
  Option.some.inj ((find?_name f).symm.trans (h ▸ find?_name g))

end Gauge

abbrev Panel := Gauge → Word

namespace Panel

variable {p : Panel}

/-- Puts the gauge that a change names on its new value. -/
def note (p : Panel) (change : Change) : Panel :=
  fun g => if g.name = change.what.name then change.value else p g

def replay (p : Panel) (changes : List Change) : Panel :=
  changes.foldl note p

/-- Every change names a gauge and puts it on a value that it does not have, a flag on 0 or 1. -/
def Informed (p : Panel) : List Change → Prop
  | [] => True
  | change :: changes =>
    (∃ g : Gauge, g.name = change.what.name ∧ p g ≠ change.value ∧
      ∀ flag, g = .flag flag → change.value = 0 ∨ change.value = 1) ∧
    (p.note change).Informed changes

theorem replay_append (p : Panel) (changes later : List Change) :
    p.replay (changes ++ later) = (p.replay changes).replay later :=
  List.foldl_append

theorem Informed.append {changes later : List Change} (h : p.Informed changes)
    (hlater : (p.replay changes).Informed later) : p.Informed (changes ++ later) := by
  induction changes generalizing p with
  | nil => exact hlater
  | cons change changes ih => exact ⟨h.1, ih h.2 hlater⟩

theorem note_of_name {g : Gauge} {change : Change} (h : g.name = change.what.name)
    (p : Panel) : p.note change = fun other => if other = g then change.value else p other := by
  funext other
  have hname : other.name = change.what.name ↔ other = g := by
    rw [← h]
    exact ⟨Gauge.name_injective, congrArg Gauge.name⟩
  simp only [note, hname]

end Panel

def Happening.change? : Happening → Option Change
  | .changed change => some change
  | .stored _ => none

namespace Cpu

def changes (c : Cpu β) : List Change :=
  c.log.filterMap Happening.change?

def reading (c : Cpu β) : Panel
  | .a => Byte.toWord c.a
  | .x => Byte.toWord c.x
  | .y => Byte.toWord c.y
  | .sp => Byte.toWord c.sp
  | .pc => c.pc
  | .flag flag => if c.flags flag.mask then 1 else 0

/-- What has been recorded of them. -/
def shown (c : Cpu β) : Panel :=
  fun g => if g = .pc then c.reportedPc else c.reading g

theorem shown_of_settled {c : Cpu β} (h : c.reportedPc = c.pc) : c.shown = c.reading := by
  funext g
  rw [shown]
  split
  case isTrue hg => rw [hg, h, reading]
  case isFalse => rfl

theorem flags_mask (c : Cpu β) (flag : Flag) :
    c.flags flag.mask = (c.status.has flag || flag == .unused) :=
  c.status.has_packed flag

theorem shown_flag (c : Cpu β) {flag : Flag} (h : flag ≠ .unused) :
    c.shown (.flag flag) = c.value (.flag flag.mask) := by
  rw [shown, if_neg (by simp), reading, flags_mask, beq_false_of_ne h, Bool.or_false]
  rfl

/-- A panel is kept up to date by the log. -/
structure Watched (p : Panel) (c : Cpu β) : Prop where
  informed : p.Informed c.changes
  replay : p.replay c.changes = c.shown

namespace Watched

variable {p : Panel} {c c' : Cpu β}

theorem start (h : c.log = []) : Watched c.shown c := by
  constructor
  · rw [changes, h]
    trivial
  · rw [changes, h]
    rfl

theorem congr (h : Watched p c) (hchanges : c'.changes = c.changes)
    (hshown : c'.shown = c.shown) : Watched p c' := by
  constructor
  · rw [hchanges]
    exact h.informed
  · rw [hchanges, hshown]
    exact h.replay

theorem change (h : Watched p c) {g : Gauge} {change : Change}
    (hlog : c'.log = c.log ++ [.changed change]) (hname : g.name = change.what.name)
    (hnews : c.shown g ≠ change.value)
    (hflag : ∀ flag, g = .flag flag → change.value = 0 ∨ change.value = 1)
    (hshown : ∀ other, c'.shown other = if other = g then change.value else c.shown other) :
    Watched p c' := by
  have hchanges : c'.changes = c.changes ++ [change] := by
    rw [changes, hlog, List.filterMap_append]
    rfl
  constructor
  · rw [hchanges]
    refine h.informed.append ⟨⟨g, hname, ?_, hflag⟩, trivial⟩
    rw [h.replay]
    exact hnews
  · rw [hchanges, Panel.replay_append, h.replay]
    exact (Panel.note_of_name hname c.shown).trans (funext hshown).symm

theorem assign (h : Watched p c) {g : Gauge} {value : Word} (hvalue : c.shown g = c.value g.what)
    (hflag : ∀ flag, g = .flag flag → value = 0 ∨ value = 1)
    (hshown : ∀ other, (c.assign g.what value).shown other =
      if other = g then value else c.shown other) : Watched p (c.assign g.what value) := by
  have hlog := c.log_assign g.what value
  split at hlog
  case isTrue hsame =>
    have hchanges : (c.assign g.what value).changes = c.changes := by rw [changes, hlog, changes]
    refine h.congr hchanges (funext fun other => (hshown other).trans ?_)
    split
    case isTrue hother => rw [hother, hvalue, hsame]
    case isFalse => rfl
  case isFalse hdiff => exact h.change hlog rfl (hvalue ▸ hdiff) hflag hshown

theorem setFlag (h : Watched p c) (flag : Flag) (on : Bool) : Watched p (c.setFlag flag on) := by
  rcases Decidable.em (flag = .unused) with rfl | hunused
  · exact h
  have hmask : flag.mask ≠ Flag.unused.mask := fun e => hunused (Flag.mask_injective e)
  have hassign : c.setFlag flag on = c.assign (Gauge.flag flag).what (if on then 1 else 0) := by
    rw [Cpu.setFlag, setFlags, if_neg hmask, Gauge.what]
  have hshown : ∀ other, (c.setFlag flag on).shown other =
      if other = .flag flag then (if on then 1 else 0) else c.shown other := by
    intro other
    cases other with
    | flag f =>
      rcases Decidable.em (f = flag) with rfl | hne
      · simp [shown, reading, flags_mask, hunused]
      · simp [shown, reading, flags_mask, hunused, hne]
    | _ => simp [shown, reading]
  rw [hassign] at hshown ⊢
  refine h.assign (c.shown_flag hunused) ?_ hshown
  intro _ _
  cases on with
  | false => exact .inl rfl
  | true => exact .inr rfl

theorem assignRegister (h : Watched p c) {what : Observable} (value : Byte) (hpc : what ≠ .pc)
    (hflag : ∀ mask, what ≠ .flag mask) : Watched p (c.assign what (Byte.toWord value)) := by
  have hshown (g : Gauge) (hg : g.what = what) (other : Gauge) :
      (c.assign g.what (Byte.toWord value)).shown other =
        if other = g then Byte.toWord value else c.shown other := by
    subst hg
    have hstatus := c.assign_status g.what (Byte.toWord value) hflag
    cases g <;> cases other <;>
      simp_all [shown, reading, flags_mask, Gauge.what]
  cases what with
  | a => exact h.assign (g := .a) rfl (by simp) (hshown .a rfl)
  | x => exact h.assign (g := .x) rfl (by simp) (hshown .x rfl)
  | y => exact h.assign (g := .y) rfl (by simp) (hshown .y rfl)
  | sp => exact h.assign (g := .sp) rfl (by simp) (hshown .sp rfl)
  | pc => exact absurd rfl hpc
  | flag mask => exact absurd rfl (hflag mask)

end Watched

/-- Whatever the processor is told to do, its log keeps a panel up to date. -/
theorem steady_watched [Bus β] (p : Panel) : Steady (Watched p (β := β)) where
  assign c what value hpc hflag h := h.assignRegister value hpc hflag
  setFlag c flag on h := h.setFlag flag on
  halt c halt h := h.congr rfl rfl
  reportPc c h := by
    rw [reportPc]
    split
    case isTrue => exact h
    case isFalse hmoved =>
      refine h.change (g := .pc) rfl rfl (fun heq => hmoved heq.symm) (by simp) fun other => ?_
      rw [shown, shown]
      split <;> rfl
  store c address value h := by
    have hchanges : (c.store address value).changes = c.changes := by
      rw [changes, log_store, List.filterMap_append]
      exact List.append_nil _
    exact h.congr hchanges rfl
  pc c target h := by
    refine h.congr rfl (funext fun g => ?_)
    cases g <;> rfl
  servicing c on h := h.congr rfl rfl
  counters c fetched undocumented h := h.congr rfl rfl

end Cpu

end Nmos6502
