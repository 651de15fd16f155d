import Nmos6502.Control.Signal

/-!
Whoever wants to execute an instruction asks the gate for a grant first. The answer depends on
whether the gate is held open, whether it owes the grant of a step and whether the run is cancelled,
and all that is said here of grants follows from this.
-/

namespace Nmos6502

/-- What happens at the gate. -/
inductive GateEvent where
  | moved (s : Signal)
  /-- The program stops the gate because of a hit, in place of the instruction it was granted. -/
  | paused
  /-- A program that has asked learns the answer. -/
  | answered (granted : Bool)
  | executed
  deriving DecidableEq, Repr

namespace GateEvent

def isMove : GateEvent → Bool
  | moved _ => true
  | paused | answered _ | executed => false

end GateEvent

structure GrantState where
  hold : Bool
  /-- The grant of a step is still to be handed out. -/
  owed : Bool
  cancelled : Bool
  /-- A grant has been handed out and not been used. -/
  granted : Bool
  deriving DecidableEq, Repr

namespace GrantState

def opens (p : GrantState) : Bool :=
  !p.cancelled && (p.hold || p.owed)

def after (p : GrantState) : GateEvent → GrantState
  | .moved .go => { p with hold := true, owed := false }
  | .moved .stop => { p with hold := false, owed := false }
  | .moved .step => { p with hold := false, owed := true }
  | .moved .cancel => { p with cancelled := true }
  | .moved .resetCancel => { p with cancelled := false }
  | .moved .nmi | .moved .irq | .moved .clear => p
  | .paused => { p with hold := false, owed := false, granted := false }
  | .answered granted => { p with owed := p.owed && !granted, granted := granted }
  | .executed => { p with granted := false }

/-- What can happen in this state. -/
def Allows (p : GrantState) : GateEvent → Prop
  | .moved _ => True
  | .answered granted => granted = p.opens ∧ p.granted = false
  | .paused | .executed => p.granted = true

def afterAll (p : GrantState) (events : List GateEvent) : GrantState :=
  events.foldl after p

def Admits (p : GrantState) : List GateEvent → Prop
  | [] => True
  | event :: events => p.Allows event ∧ (p.after event).Admits events

variable {p : GrantState} {events later : List GateEvent}

@[simp] theorem afterAll_nil (p : GrantState) : p.afterAll [] = p := rfl

@[simp] theorem afterAll_cons (p : GrantState) (event : GateEvent) (events : List GateEvent) :
    p.afterAll (event :: events) = (p.after event).afterAll events := rfl

theorem afterAll_append (p : GrantState) (events later : List GateEvent) :
    p.afterAll (events ++ later) = (p.afterAll events).afterAll later :=
  List.foldl_append

theorem admits_append :
    p.Admits (events ++ later) ↔ p.Admits events ∧ (p.afterAll events).Admits later := by
  induction events generalizing p with
  | nil => simp [Admits]
  | cons event events ih => simp only [List.cons_append, Admits, ih, and_assoc, afterAll_cons]

theorem Admits.allows {event : GateEvent} (h : p.Admits (events ++ event :: later)) :
    (p.afterAll events).Allows event :=
  (admits_append.mp h).2.1

/-- These events can happen from `p` on and lead to `p'`. -/
structure Leads (p : GrantState) (events : List GateEvent) (p' : GrantState) : Prop where
  admits : p.Admits events
  after : p.afterAll events = p'

namespace Leads

variable {p' p'' : GrantState}

theorem refl (p : GrantState) : p.Leads [] p := ⟨trivial, rfl⟩

theorem single {event : GateEvent} (h : p.Allows event) : p.Leads [event] (p.after event) :=
  ⟨⟨h, trivial⟩, rfl⟩

theorem trans (h : p.Leads events p') (h' : p'.Leads later p'') :
    p.Leads (events ++ later) p'' := by
  obtain ⟨hadmits, rfl⟩ := h
  exact ⟨admits_append.mpr ⟨hadmits, h'.admits⟩, (p.afterAll_append _ _).trans h'.after⟩

end Leads

theorem exists_origin {bit : GrantState → Bool} {origin : GateEvent} {Keeps : GateEvent → Prop}
    (hbit : ∀ p event, bit (after p event) = true → event = origin ∨ bit p = true ∧ Keeps event)
    (h : bit (p.afterAll events) = true) :
    (bit p = true ∧ ∀ event ∈ events, Keeps event) ∨
      ∃ earlier between, events = earlier ++ origin :: between ∧
        ∀ event ∈ between, Keeps event := by
  induction events generalizing p with
  | nil => exact .inl ⟨h, by simp⟩
  | cons event events ih =>
    rcases ih h with ⟨hfirst, hkeeps⟩ | ⟨earlier, between, rfl, hkeeps⟩
    · rcases hbit p event hfirst with rfl | ⟨hp, hevent⟩
      · exact .inr ⟨[], events, rfl, hkeeps⟩
      · refine .inl ⟨hp, ?_⟩
        simpa [hevent] using hkeeps
    · exact .inr ⟨event :: earlier, between, rfl, hkeeps⟩

theorem exists_grant (h : (p.afterAll events).granted = true) :
    (p.granted = true ∧ ∀ event ∈ events, event.isMove = true) ∨
      ∃ earlier between, events = earlier ++ .answered true :: between ∧
        ∀ event ∈ between, event.isMove = true := by
  refine exists_origin (fun p event hgranted => ?_) h
  cases event with
  | answered granted => exact .inl (congrArg GateEvent.answered hgranted)
  | paused | executed => cases hgranted
  | moved s =>
    refine .inr ⟨?_, rfl⟩
    cases s <;> exact hgranted

/-- Only a grant is executed, and none is used twice. -/
theorem Admits.use_origin {event : GateEvent} (h : p.Admits (events ++ event :: later))
    (hevent : event = .executed ∨ event = .paused) :
    (p.granted = true ∧ ∀ event ∈ events, event.isMove = true) ∨
      ∃ earlier between, events = earlier ++ .answered true :: between ∧
        ∀ event ∈ between, event.isMove = true := by
  have hallows := h.allows
  rcases hevent with rfl | rfl
  · exact exists_grant hallows
  · exact exists_grant hallows

theorem Admits.isMove_of_not_answered (h : p.Admits events) (hgranted : p.granted = false)
    (hanswered : ∀ granted, .answered granted ∉ events) :
    ∀ event ∈ events, event.isMove = true := by
  intro event hevent
  obtain ⟨before, later, rfl⟩ := List.append_of_mem hevent
  have hunused : ¬ (event = .executed ∨ event = .paused) := by
    intro huse
    rcases h.use_origin huse with ⟨hbefore, -⟩ | ⟨earlier, between, rfl, -⟩
    · rw [hgranted] at hbefore
      cases hbefore
    · exact hanswered true (by simp)
  cases event with
  | moved s => rfl
  | paused => exact absurd (.inr rfl) hunused
  | executed => exact absurd (.inl rfl) hunused
  | answered granted => exact absurd hevent (hanswered granted)

end GrantState

end Nmos6502
