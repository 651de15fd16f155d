import Nmos6502.Cpu.Interrupt

/-!
An arbiter knows which requests wait and whether a handler runs. It lets an interrupt be entered
when its request waits and no handler runs. Everything that is said here of its runs follows from
that one rule.
-/

namespace Nmos6502

/-- What happens on the interrupt lines. -/
inductive LineEvent where
  | requested (kind : Interrupt)
  /-- All requests are dropped. -/
  | cleared
  | entered (kind : Interrupt)
  /-- A handler returns. -/
  | returned
  deriving DecidableEq, Repr

@[ext] structure Arbiter where
  waiting : Interrupt → Bool
  /-- Whether a handler runs. -/
  handling : Bool

namespace Arbiter

def after (s : Arbiter) : LineEvent → Arbiter
  | .requested kind => { s with waiting := fun other => other == kind || s.waiting other }
  | .cleared => { s with waiting := fun _ => false }
  | .entered kind => ⟨fun other => other != kind && s.waiting other, true⟩
  | .returned => { s with handling := false }

/-- The rule of the arbiter. -/
def Allows (s : Arbiter) : LineEvent → Prop
  | .entered kind => s.waiting kind = true ∧ s.handling = false
  | .requested _ | .cleared | .returned => True

inductive Run : Arbiter → List LineEvent → Arbiter → Prop
  | nil (s : Arbiter) : Run s [] s
  | cons {s s' : Arbiter} {event : LineEvent} {events : List LineEvent}
      (hallows : s.Allows event) (hrun : Run (s.after event) events s') : Run s (event :: events) s'

namespace Run

variable {s s' s'' : Arbiter} {events events' : List LineEvent} {kind : Interrupt}

theorem append (h : Run s events s') (h' : Run s' events' s'') : Run s (events ++ events') s'' := by
  induction h with
  | nil => exact h'
  | cons hallows _ ih => exact .cons hallows (ih h')

theorem split (h : Run s (events ++ events') s'') :
    ∃ s', Run s events s' ∧ Run s' events' s'' := by
  induction events generalizing s with
  | nil => exact ⟨s, .nil s, h⟩
  | cons event events ih =>
    obtain _ | ⟨hallows, hrun⟩ := h
    obtain ⟨s', hfirst, hsecond⟩ := ih hrun
    exact ⟨s', .cons hallows hfirst, hsecond⟩

theorem waiting (h : Run s events s') (hwaiting : s.waiting kind = true)
    (hentered : .entered kind ∉ events) (hcleared : .cleared ∉ events) :
    s'.waiting kind = true := by
  induction h with
  | nil => exact hwaiting
  | @cons s _ event events _ _ ih =>
    rw [List.mem_cons, not_or] at hentered hcleared
    refine ih ?_ hentered.2 hcleared.2
    cases event with
    | requested other => simp [after, hwaiting]
    | cleared => exact absurd rfl hcleared.1
    | entered other =>
      have hne : kind ≠ other := fun h => hentered.1 (congrArg _ h)
      simp [after, hwaiting, hne]
    | returned => exact hwaiting

theorem exists_request (h : Run s events s') (hwaiting : s'.waiting kind = true) :
    (s.waiting kind = true ∧ .entered kind ∉ events) ∨
      ∃ before later, events = before ++ .requested kind :: later ∧ .entered kind ∉ later := by
  induction h with
  | nil => exact .inl ⟨hwaiting, List.not_mem_nil⟩
  | @cons s _ event events _ _ ih =>
    rcases ih hwaiting with ⟨hfirst, hentered⟩ | ⟨before, later, rfl, hentered⟩
    · cases event with
      | requested other =>
        rcases Decidable.em (kind = other) with rfl | hne
        · exact .inr ⟨[], events, rfl, hentered⟩
        · exact .inl ⟨by simpa [after, hne] using hfirst, by simp [hentered]⟩
      | cleared => exact absurd hfirst (by simp [after])
      | entered other =>
        have hboth : kind ≠ other ∧ s.waiting kind = true := by simpa [after] using hfirst
        exact .inl ⟨hboth.2, by simp [hentered, hboth.1]⟩
      | returned => exact .inl ⟨hfirst, by simp [hentered]⟩
    · exact .inr ⟨event :: before, later, rfl, hentered⟩

theorem idle (h : Run s events s') (hidle : s.waiting kind = false)
    (hrequested : .requested kind ∉ events) : s'.waiting kind = false := by
  cases hwaiting : s'.waiting kind with
  | false => rfl
  | true =>
    rcases h.exists_request hwaiting with ⟨hfirst, -⟩ | ⟨before, later, rfl, -⟩
    · exact absurd hfirst (by simp [hidle])
    · exact absurd hrequested (by simp)

theorem handling (h : Run s events s') (hhandling : s.handling = true)
    (hreturned : .returned ∉ events) : s'.handling = true := by
  induction h with
  | nil => exact hhandling
  | @cons s _ event events _ _ ih =>
    rw [List.mem_cons, not_or] at hreturned
    refine ih ?_ hreturned.2
    cases event with
    | requested other => exact hhandling
    | cleared => exact hhandling
    | entered other => rfl
    | returned => exact absurd rfl hreturned.1

theorem exists_entry (h : Run s events s') (hhandling : s'.handling = true) :
    (s.handling = true ∧ .returned ∉ events) ∨
      ∃ before kind later, events = before ++ .entered kind :: later ∧ .returned ∉ later := by
  induction h with
  | nil => exact .inl ⟨hhandling, List.not_mem_nil⟩
  | @cons s _ event events _ _ ih =>
    rcases ih hhandling with ⟨hfirst, hreturned⟩ | ⟨before, kind, later, rfl, hreturned⟩
    · cases event with
      | requested other => exact .inl ⟨hfirst, by simp [hreturned]⟩
      | cleared => exact .inl ⟨hfirst, by simp [hreturned]⟩
      | entered other => exact .inr ⟨[], other, events, rfl, hreturned⟩
      | returned => exact absurd hfirst (by simp [after])
    · exact .inr ⟨event :: before, kind, later, rfl, hreturned⟩

variable {before later : List LineEvent}

theorem entered_answers (h : Run s (before ++ .entered kind :: later) s') :
    (s.waiting kind = true ∧ .entered kind ∉ before) ∨
      ∃ earlier between, before = earlier ++ .requested kind :: between ∧
        .entered kind ∉ between := by
  obtain ⟨_, hbefore, hlater⟩ := h.split
  obtain _ | ⟨hallows, -⟩ := hlater
  exact hbefore.exists_request hallows.1

theorem requested_waits (h : Run s (before ++ .requested kind :: later) s')
    (hentered : .entered kind ∉ later) (hcleared : .cleared ∉ later) :
    s'.waiting kind = true := by
  obtain ⟨_, -, hlater⟩ := h.split
  obtain _ | ⟨-, hrun⟩ := hlater
  exact hrun.waiting (by simp [after]) hentered hcleared

theorem returned_before (h : Run s (before ++ .entered kind :: later) s')
    (hhandling : s.handling = true) : .returned ∈ before := by
  obtain ⟨_, hbefore, hlater⟩ := h.split
  obtain _ | ⟨hallows, -⟩ := hlater
  refine Decidable.byContradiction fun hreturned => ?_
  have hstill := hbefore.handling hhandling hreturned
  exact absurd hstill (by simp [hallows.2])

theorem returned_between {first second : Interrupt} {between : List LineEvent}
    (h : Run s (before ++ .entered first :: (between ++ .entered second :: later)) s') :
    .returned ∈ between := by
  obtain ⟨_, -, hlater⟩ := h.split
  obtain _ | ⟨-, hrun⟩ := hlater
  exact hrun.returned_before rfl

theorem waiting_eq (h : Run s events s') (hentered : .entered kind ∉ events)
    (hcleared : .cleared ∉ events) :
    s'.waiting kind = (decide (.requested kind ∈ events) || s.waiting kind) := by
  cases hrequested : decide (LineEvent.requested kind ∈ events) with
  | true =>
    obtain ⟨before, later, rfl⟩ := List.append_of_mem (of_decide_eq_true hrequested)
    rw [List.mem_append, List.mem_cons, not_or, not_or] at hentered hcleared
    exact h.requested_waits hentered.2.2 hcleared.2.2
  | false =>
    rw [Bool.false_or, Bool.eq_iff_iff]
    constructor
    · intro hwaiting
      rcases h.exists_request hwaiting with ⟨hfirst, -⟩ | ⟨before, later, rfl, -⟩
      · exact hfirst
      · exact absurd hrequested (by simp)
    · intro hwaiting
      exact h.waiting hwaiting hentered hcleared

theorem handling_iff (h : Run s events s') :
    s'.handling = true ↔ (s.handling = true ∧ .returned ∉ events) ∨
      ∃ before kind later, events = before ++ .entered kind :: later ∧ .returned ∉ later := by
  constructor
  · exact h.exists_entry
  · rintro (⟨hhandling, hreturned⟩ | ⟨before, kind, later, rfl, hreturned⟩)
    · exact h.handling hhandling hreturned
    · obtain ⟨_, -, hlater⟩ := h.split
      obtain _ | ⟨-, hrun⟩ := hlater
      exact hrun.handling rfl hreturned

end Run
end Arbiter

end Nmos6502
