import Nmos6502.Proofs.Gate.Record
import Nmos6502.Proofs.Run.Observation

namespace Nmos6502

universe u

variable {β : Type u}

namespace Occurrence

def signal? : Occurrence → Option Signal
  | act s => some s
  | move | wake | expire | pass _ => none

end Occurrence

/-- What controllers and devices do in a schedule. -/
def actions (schedule : List Occurrence) : List Signal :=
  schedule.filterMap Occurrence.signal?

theorem actions_cons (o : Occurrence) (schedule : List Occurrence) :
    actions (o :: schedule) = o.signal?.toList ++ actions schedule := by
  rw [actions, List.filterMap_cons]
  cases o.signal? with
  | none => rfl
  | some s => rfl

namespace Gate

theorem ask_foldl_apply {ss : List Signal} (hstop : .stop ∉ ss) (hcancel : .cancel ∉ ss) {g : Gate}
    (h : g.ask.1 = .granted) : (ss.foldl apply g).ask.1 = .granted := by
  induction ss generalizing g with
  | nil => exact h
  | cons s ss ih =>
    rw [List.mem_cons, not_or] at hstop hcancel
    refine ih hstop.2 hcancel.2 ?_
    rw [ask_fst_eq_granted_iff] at h ⊢
    cases s with
    | stop => exact absurd rfl hstop.1
    | cancel => exact absurd rfl hcancel.1
    | nmi | irq | clear => exact h
    | go => exact ⟨h.1, .inl rfl⟩
    | step => exact ⟨h.1, .inr rfl⟩
    | resetCancel => exact ⟨rfl, h.2⟩

theorem ask_apply_of_command {command : Signal} (h : command = .go ∨ command = .step) {g : Gate}
    (hcancelled : g.cancelled = false) : (g.apply command).ask.1 = .granted := by
  rw [ask_fst_eq_granted_iff]
  rcases h with rfl | rfl
  · exact ⟨hcancelled, .inl rfl⟩
  · exact ⟨hcancelled, .inr rfl⟩

end Gate

namespace Phase

/-- The program is between two instructions. -/
def idle : Phase → Bool
  | .boundary | .poll | .gate | .parked _ | .settle => true
  | .watch | .pausing _ | .notifying _ | .fetch | .announcing _ | .finished _ => false

/-- The run is over, or is about to say so. -/
def ended : Phase → Bool
  | .announcing _ | .finished _ => true
  | .boundary | .poll | .gate | .parked _ | .settle | .watch | .pausing _ | .notifying _ | .fetch =>
    false

/-- A hit has been found and not been published yet. -/
def atHit : Phase → Bool
  | .pausing _ | .notifying _ => true
  | .boundary | .poll | .gate | .parked _ | .watch | .fetch | .settle | .announcing _
  | .finished _ => false

instance decidableNotifying (hit : Hit) : (phase : Phase) → Decidable (phase = .notifying hit)
  | .notifying other => decidable_of_iff (other = hit) (by simp)
  | .boundary | .poll | .gate | .parked _ | .watch | .pausing _ | .fetch | .settle | .announcing _
  | .finished _ => isFalse (by simp)

end Phase

theorem Machine.consult_resumePc_of_hit [Bus β] (m : Machine β) {hit : Hit}
    (h : m.consult.2 = some hit) : m.consult.1.resumePc = some m.cpu.pc := by
  revert h
  rw [consult]
  dsimp only
  split
  · intro h
    cases h
  · cases m.breakpoints with
    | none =>
      intro h
      cases h
    | some evaluator =>
      dsimp only
      cases (evaluator.ask m.snapshot).1.hit with
      | none =>
        intro h
        cases h
      | some found => exact fun _ => rfl

namespace Engine

variable {e : Engine β} {base : Machine β} {ss : List Signal}

/-- Since its machine was `base`, nothing has happened to the run but these signals. -/
structure Waits (base : Machine β) (ss : List Signal) (e : Engine β) : Prop where
  machine : e.machine = base.signals ss
  phase : e.phase.idle = true

theorem askGate_of_closed (h : e.machine.gate.ask.1 = .closed) (closed : Phase) :
    e.askGate closed = { e with phase := closed } := by
  have hgate := Gate.ask_snd_of_closed h
  rw [askGate]
  rcases hask : e.machine.gate.ask with ⟨answer, gate⟩
  rw [hask] at h hgate
  obtain rfl : answer = .closed := h
  obtain rfl : gate = e.machine.gate := hgate
  rfl

theorem askGate_of_granted (h : e.machine.gate.ask.1 = .granted) (closed : Phase) :
    (e.askGate closed).phase = .watch ∧
      (e.askGate closed).machine = { e.machine with gate := e.machine.gate.ask.2 } := by
  rw [askGate]
  rcases hask : e.machine.gate.ask with ⟨answer, gate⟩
  rw [hask] at h
  obtain rfl : answer = .granted := h
  exact ⟨rfl, rfl⟩

theorem eq_of_answered_mem {granted : Bool} (h : .answered granted ∈ [e.answered]) :
    granted = decide (e.machine.gate.ask.1 = .granted) :=
  GateEvent.answered.inj (List.mem_singleton.mp h)

/-- While a hit is on its way to the subscribers, its place is remembered. -/
def Bookmarked (e : Engine β) : Prop :=
  e.phase.atHit = true → e.machine.resumePc = some e.machine.cpu.pc

theorem askGate_atHit (e : Engine β) {closed : Phase} (hclosed : closed.atHit = false) :
    (e.askGate closed).phase.atHit = false := by
  rw [askGate]
  split
  · rfl
  · rfl
  · exact hclosed

theorem bookmarked_of_atHit (h : e.phase.atHit = false) : e.Bookmarked :=
  fun hat => absurd hat (by simp [h])

theorem settleMove_bookmarked (e : Engine β) : e.settleMove.Bookmarked := by
  refine bookmarked_of_atHit ?_
  rw [settleMove]
  dsimp only
  split
  · rfl
  · cases e.overdue <;> rfl

theorem wake_bookmarked (h : e.Bookmarked) : e.wake.Bookmarked := by
  rw [wake]
  split
  · exact bookmarked_of_atHit (e.askGate_atHit rfl)
  · exact h

theorem expire_bookmarked (h : e.Bookmarked) : e.expire.Bookmarked := by
  rw [expire]
  split
  · refine bookmarked_of_atHit (askGate_atHit _ ?_)
    split <;> rfl
  · exact h

variable [Bus β]

theorem ended_meet (h : e.phase.ended = true) (o : Occurrence) : (e.meet o).phase.ended = true := by
  cases o with
  | act s => exact h
  | pass time => exact h
  | move =>
    rw [meet, advance, move]
    cases hphase : e.phase with
    | announcing outcome => rfl
    | finished result => rfl
    | _ => simp [hphase, Phase.ended] at h
  | wake =>
    rw [meet, wake]
    cases hphase : e.phase with
    | parked allowance => simp [hphase, Phase.ended] at h
    | _ => exact h
  | expire =>
    rw [meet, expire]
    cases hphase : e.phase with
    | parked allowance => simp [hphase, Phase.ended] at h
    | _ => exact h

theorem ended_through (schedule : List Occurrence) {e : Engine β} (h : e.phase.ended = true) :
    (e.through schedule).phase.ended = true := by
  induction schedule generalizing e with
  | nil => exact h
  | cons o schedule ih => exact ih (ended_meet h o)

namespace Waits

theorem move (h : e.Waits base ss) (hsettled : base.Settled) (hlog : base.cpu.log = [])
    (hanswered : ∀ granted, .answered granted ∉ e.moveGateEvents)
    (hentered : ∀ kind, .entered kind ∉ e.moveEvents) :
    e.move.phase.ended = true ∨ e.move.Waits base ss := by
  have hcpu : e.machine.cpu = base.cpu := by rw [h.machine, (base.signals_fields ss).1]
  rw [moveGateEvents] at hanswered
  rw [moveEvents] at hentered
  have hidle := h.phase
  rw [Engine.move]
  cases hphase : e.phase with
  | parked allowance => exact .inr h
  | boundary =>
    cases hcancelled : e.machine.gate.cancelled with
    | true => exact .inl rfl
    | false => exact .inr ⟨h.machine, rfl⟩
  | gate =>
    rw [hphase] at hanswered
    have hclosed : e.machine.gate.ask.1 = .closed := by
      by_contra hopen
      have hquery : e.gateQuery = [e.answered] := if_neg hopen
      refine hanswered (decide (e.machine.gate.ask.1 = .granted)) ?_
      dsimp only
      rw [hquery]
      exact List.mem_cons_self
    dsimp only
    rw [askGate_of_closed hclosed]
    exact .inr ⟨h.machine, rfl⟩
  | poll =>
    rw [hphase] at hentered
    rw [pollMove]
    cases haccepted : e.machine.accepted with
    | some kind =>
      rw [haccepted] at hentered
      exact absurd List.mem_cons_self (hentered kind)
    | none => cases e.sleepLeft <;> exact .inr ⟨h.machine, rfl⟩
  | settle =>
    have hsame : e.machine.perform Cpu.reportPc = e.machine :=
      Machine.perform_reportPc_of_settled (hsettled.congr hcpu) (by rw [hcpu, hlog])
    rw [settleMove, hsame]
    dsimp only
    split
    · exact .inl rfl
    · cases e.overdue with
      | true => exact .inl rfl
      | false => exact .inr ⟨h.machine, rfl⟩
  | _ => simp [hphase, Phase.idle] at hidle

theorem meet (h : e.Waits base ss) (hsettled : base.Settled) (hlog : base.cpu.log = [])
    {o : Occurrence} (hanswered : ∀ granted, .answered granted ∉ e.gateEvents o)
    (hentered : ∀ kind, .entered kind ∉ e.events o) :
    (e.meet o).phase.ended = true ∨ (e.meet o).Waits base (ss ++ o.signal?.toList) := by
  have hstays : e.Waits base (ss ++ []) := by rwa [List.append_nil]
  cases o with
  | pass time => exact .inr ⟨hstays.machine, h.phase⟩
  | move =>
    have hlater : ({ e with elapsed := e.elapsed + 1 } : Engine β).Waits base (ss ++ []) :=
      ⟨hstays.machine, h.phase⟩
    exact hlater.move hsettled hlog hanswered hentered
  | act s =>
    refine .inr ⟨?_, h.phase⟩
    rw [Machine.signals, List.foldl_append]
    exact congrArg (Machine.signal · s) h.machine
  | wake =>
    rw [gateEvents, waitEvents] at hanswered
    rw [Engine.meet, wake]
    cases hphase : e.phase with
    | parked allowance =>
      rw [hphase] at hanswered
      exact absurd List.mem_cons_self (hanswered _)
    | _ => exact .inr hstays
  | expire =>
    rw [gateEvents, waitEvents] at hanswered
    rw [Engine.meet, expire]
    cases hphase : e.phase with
    | parked allowance =>
      rw [hphase] at hanswered
      exact absurd List.mem_cons_self (hanswered _)
    | _ => exact .inr hstays

theorem occurrenceMarks (h : e.Waits base ss) (o : Occurrence) : e.occurrenceMarks o = [] := by
  have hidle := h.phase
  cases o with
  | act s | wake | expire | pass time => rfl
  | move =>
    rw [Engine.occurrenceMarks, moveMarks]
    cases hphase : e.phase with
    | boundary | poll | gate | parked _ | settle => rfl
    | _ => simp [hphase, Phase.idle] at hidle

theorem through (schedule : List Occurrence) {e : Engine β} {ss : List Signal}
    (h : e.Waits base ss) (hsettled : base.Settled) (hlog : base.cpu.log = [])
    (hanswered : ∀ granted, .answered granted ∉ e.gateRecord schedule)
    (hentered : ∀ kind, .entered kind ∉ e.scheduleEvents schedule) :
    (e.through schedule).phase.ended = true ∨
      ((e.through schedule).Waits base (ss ++ actions schedule) ∧ e.marks schedule = []) := by
  induction schedule generalizing e ss with
  | nil => exact .inr ⟨by simpa [actions] using h, rfl⟩
  | cons o schedule ih =>
    simp only [gateRecord, scheduleEvents, List.mem_append, not_or] at hanswered hentered
    rcases h.meet hsettled hlog (fun _ => (hanswered _).1) (fun _ => (hentered _).1) with
      hended | hwaits
    · exact .inl (ended_through schedule hended)
    · rcases ih hwaits (fun _ => (hanswered _).2) (fun _ => (hentered _).2) with hended | hlater
      · exact .inl hended
      · obtain ⟨hlater, hmarks⟩ := hlater
        refine .inr ⟨?_, ?_⟩
        · rwa [actions_cons, ← List.append_assoc]
        · rw [marks, h.occurrenceMarks, hmarks]
          rfl

end Waits

theorem of_answered_mem {o : Occurrence} {granted : Bool} (h : .answered granted ∈ e.gateEvents o) :
    e.phase.ended = false ∧ granted = decide (e.machine.gate.ask.1 = .granted) ∧
      (e.machine.gate.ask.1 = .granted → (e.meet o).phase = .watch ∧
        (e.meet o).machine = { e.machine with gate := e.machine.gate.ask.2 }) := by
  have hmoves : ∀ ss, .answered granted ∉ gateMoves ss :=
    fun ss hmem => Bool.false_ne_true (isMove_of_mem_gateMoves hmem)
  cases o with
  | act s => exact absurd h (hmoves _)
  | pass time => exact absurd h List.not_mem_nil
  | wake =>
    rw [gateEvents, waitEvents] at h
    rw [meet, wake]
    cases hphase : e.phase with
    | parked allowance =>
      rw [hphase] at h
      exact ⟨rfl, eq_of_answered_mem h, fun hgranted => askGate_of_granted hgranted _⟩
    | _ => simp [hphase] at h
  | expire =>
    rw [gateEvents, waitEvents] at h
    rw [meet, expire]
    cases hphase : e.phase with
    | parked allowance =>
      rw [hphase] at h
      refine ⟨rfl, eq_of_answered_mem h, fun hgranted => ?_⟩
      exact askGate_of_granted (e := { e with elapsed := e.elapsed + allowance }) hgranted _
    | _ => simp [hphase] at h
  | move =>
    rw [gateEvents, moveGateEvents] at h
    rw [meet, advance, move]
    cases hphase : e.phase with
    | gate =>
      rw [hphase] at h
      dsimp only at h
      rw [gateQuery] at h
      split at h
      · exact absurd h List.not_mem_nil
      · refine ⟨rfl, eq_of_answered_mem h, fun hgranted => ?_⟩
        exact askGate_of_granted (e := { e with elapsed := e.elapsed + 1 }) hgranted _
    | watch | settle =>
      rw [hphase] at h
      exact absurd h (hmoves _)
    | fetch =>
      rw [hphase] at h
      have hne : GateEvent.answered granted ≠ .executed := by simp
      exact absurd (List.mem_of_ne_of_mem hne h) (hmoves _)
    | poll =>
      rw [hphase] at h
      cases haccepted : e.machine.accepted with
      | some kind =>
        rw [haccepted] at h
        exact absurd h (hmoves _)
      | none =>
        rw [haccepted] at h
        exact absurd h List.not_mem_nil
    | _ => simp [hphase] at h

theorem watchMove_bookmarked (e : Engine β) : e.watchMove.Bookmarked := by
  rw [watchMove]
  rcases hconsult : e.machine.consult with ⟨m, hit⟩
  cases hit with
  | none => exact bookmarked_of_atHit rfl
  | some hit =>
    intro
    have hresume := e.machine.consult_resumePc_of_hit (congrArg Prod.snd hconsult)
    have hcpu := e.machine.consult_fields.1
    rw [hconsult] at hresume hcpu
    rw [hresume, hcpu]

theorem move_bookmarked (h : e.Bookmarked) : e.move.Bookmarked := by
  rw [move]
  cases hphase : e.phase with
  | watch => exact e.watchMove_bookmarked
  | pausing hit => exact fun _ => h (by rw [hphase]; rfl)
  | parked allowance => exact h
  | finished result => exact h
  | gate => exact bookmarked_of_atHit (e.askGate_atHit rfl)
  | fetch => exact bookmarked_of_atHit rfl
  | notifying hit => exact bookmarked_of_atHit rfl
  | announcing outcome => exact bookmarked_of_atHit rfl
  | settle => exact e.settleMove_bookmarked
  | boundary =>
    refine bookmarked_of_atHit ?_
    cases e.machine.gate.cancelled <;> rfl
  | poll =>
    refine bookmarked_of_atHit ?_
    rw [pollMove]
    cases e.machine.accepted with
    | some kind => rfl
    | none => cases e.sleepLeft <;> rfl

theorem meet_bookmarked (h : e.Bookmarked) (o : Occurrence) : (e.meet o).Bookmarked := by
  cases o with
  | act s => exact h
  | pass time => exact h
  | move => exact move_bookmarked (e := { e with elapsed := e.elapsed + 1 }) h
  | wake => exact wake_bookmarked h
  | expire => exact expire_bookmarked h

theorem through_bookmarked (schedule : List Occurrence) {e : Engine β} (h : e.Bookmarked) :
    (e.through schedule).Bookmarked := by
  induction schedule generalizing e with
  | nil => exact h
  | cons o schedule ih => exact ih (meet_bookmarked h o)

theorem meet_of_ne_move (e : Engine β) {o : Occurrence} (ho : o ≠ .move)
    (hparked : ∀ allowance, e.phase ≠ .parked allowance) :
    (e.meet o).phase = e.phase ∧ (e.meet o).machine.cpu = e.machine.cpu ∧
      (e.meet o).machine.resumePc = e.machine.resumePc ∧ e.occurrenceMarks o = [] := by
  cases o with
  | move => exact absurd rfl ho
  | act s => exact ⟨rfl, rfl, rfl, rfl⟩
  | pass time => exact ⟨rfl, rfl, rfl, rfl⟩
  | wake =>
    refine ⟨?_, e.wake_fields.1, e.wake_fields.2.2.1, rfl⟩
    rw [meet, wake]
    split
    · exact absurd (by assumption) (hparked _)
    · rfl
  | expire =>
    refine ⟨?_, e.expire_fields.1, e.expire_fields.2.2.1, rfl⟩
    rw [meet, expire]
    split
    · exact absurd (by assumption) (hparked _)
    · rfl

theorem marks_of_fetch (rest : List Occurrence) {e : Engine β} (hphase : e.phase = .fetch)
    (hmoves : 1 ≤ rest.count .move) : ∃ marks, e.marks rest =
      .executed e.machine.cpu.pc (Bus.read e.machine.cpu.bus e.machine.cpu.pc) :: marks := by
  induction rest generalizing e with
  | nil => cases hmoves
  | cons o rest ih =>
    rw [marks]
    rcases Decidable.em (o = .move) with rfl | ho
    · rw [occurrenceMarks, moveMarks, hphase]
      exact ⟨_, rfl⟩
    · obtain ⟨hsame, hcpu, -, hmarks⟩ := e.meet_of_ne_move ho (by simp [hphase])
      rw [List.count_cons_of_ne ho] at hmoves
      rw [hmarks, ← hcpu]
      exact ih (hsame.trans hphase) hmoves

theorem marks_of_watch (rest : List Occurrence) {e : Engine β} (hphase : e.phase = .watch)
    (hresume : e.machine.resumePc = some e.machine.cpu.pc) (hmoves : 2 ≤ rest.count .move) :
    ∃ marks, e.marks rest =
      .executed e.machine.cpu.pc (Bus.read e.machine.cpu.bus e.machine.cpu.pc) :: marks := by
  induction rest generalizing e with
  | nil => cases hmoves
  | cons o rest ih =>
    rw [marks]
    rcases Decidable.em (o = .move) with rfl | ho
    · rw [List.count_cons_self] at hmoves
      have hfetch : (e.meet .move).phase = .fetch ∧ (e.meet .move).machine.cpu = e.machine.cpu := by
        rw [meet, advance, move, hphase]
        dsimp only
        rw [watchMove, Machine.consult, if_pos hresume]
        exact ⟨rfl, rfl⟩
      rw [occurrenceMarks, moveMarks, hphase, ← hfetch.2]
      exact marks_of_fetch rest hfetch.1 (Nat.le_of_succ_le_succ hmoves)
    · obtain ⟨hsame, hcpu, hplace, hmarks⟩ := e.meet_of_ne_move ho (by simp [hphase])
      rw [List.count_cons_of_ne ho] at hmoves
      rw [hmarks, ← hcpu]
      exact ih (hsame.trans hphase) (by rw [hplace, hcpu, hresume]) hmoves

/-- What becomes of the commands that follow a hit. The run `told` is about to publish it, and
`between` happens before the gate gives an answer. -/
structure KeepsCommands (told : Engine β) (between : List Occurrence) : Prop where
  /-- The run does nothing at the gate, whoever else moves it. -/
  silent : ∀ event ∈ (told.meet .move).gateRecord between, event.isMove = true
  /-- The answer goes by all that has been done to the gate. -/
  answer : ∀ o granted, .answered granted ∈ ((told.meet .move).through between).gateEvents o →
    granted = ((told.meet .move).grantState.afterAll ((told.meet .move).gateRecord between)).opens
  /-- If no interrupt is entered, only controllers and devices move the gate. -/
  gate : (∀ kind, .entered kind ∉ (told.meet .move).scheduleEvents between) →
    ∀ o granted, .answered granted ∈ ((told.meet .move).through between).gateEvents o →
      ((told.meet .move).through between).machine.gate =
        (actions between).foldl Gate.apply (told.meet .move).machine.gate
  /-- The instruction that hit is executed, and no hit is published before. -/
  resumes : (∀ kind, .entered kind ∉ (told.meet .move).scheduleEvents between) →
    ∀ earlier command later, actions between = earlier ++ command :: later →
      command = .go ∨ command = .step → .stop ∉ later → .cancel ∉ later →
      (earlier.foldl Gate.apply (told.meet .move).machine.gate).cancelled = false →
    ∀ o granted, .answered granted ∈ ((told.meet .move).through between).gateEvents o →
      granted = true ∧ (told.meet .move).marks between = [] ∧
        ∀ rest, 2 ≤ rest.count .move →
          ∃ marks, (((told.meet .move).through between).meet o).marks rest =
            .executed told.machine.cpu.pc (Bus.read told.machine.cpu.bus told.machine.cpu.pc) ::
              marks

theorem meet_move_of_notifying {hit : Hit} (hphase : e.phase = .notifying hit) :
    (e.meet .move).phase = .settle ∧ (e.meet .move).machine =
      { e.machine with gate := e.machine.gate.publish (.breakpoint hit) } := by
  rw [meet, advance, move, hphase]
  exact ⟨rfl, rfl⟩

theorem waits_of_answered {hit : Hit} (hphase : e.phase = .notifying hit)
    (hsettled : e.machine.Settled) (hlog : e.machine.cpu.log = []) {between : List Occurrence}
    (hanswered : ∀ granted, .answered granted ∉ (e.meet .move).gateRecord between)
    (hentered : ∀ kind, .entered kind ∉ (e.meet .move).scheduleEvents between)
    {o : Occurrence} {granted : Bool}
    (ho : .answered granted ∈ ((e.meet .move).through between).gateEvents o) :
    ((e.meet .move).through between).machine =
        (e.meet .move).machine.signals (actions between) ∧
      (e.meet .move).marks between = [] := by
  obtain ⟨hsettle, hmachine⟩ := meet_move_of_notifying hphase
  have hcpu : (e.meet .move).machine.cpu = e.machine.cpu := by rw [hmachine]
  have hwaits : (e.meet .move).Waits (e.meet .move).machine [] := ⟨rfl, by rw [hsettle]; rfl⟩
  have hend := hwaits.through between (hsettled.congr hcpu) (by rw [hcpu, hlog]) hanswered hentered
  rcases hend with hended | ⟨hwaited, hmarks⟩
  · rw [(of_answered_mem ho).1] at hended
    cases hended
  · exact ⟨hwaited.machine, hmarks⟩

theorem keepsCommands {told : Engine β} {hit : Hit} (hphase : told.phase = .notifying hit)
    (hsettled : told.machine.Settled) (hlog : told.machine.cpu.log = [])
    (hbookmarked : told.Bookmarked) {between : List Occurrence}
    (hanswered : ∀ granted, .answered granted ∉ (told.meet .move).gateRecord between) :
    told.KeepsCommands between := by
  obtain ⟨hsettle, hmachine⟩ := meet_move_of_notifying hphase
  obtain ⟨hadmits, hporter⟩ := (told.meet .move).leads_through between
  constructor
  · have hgranted : (told.meet .move).grantState.granted = false := by
      rw [grantState, hsettle]
      rfl
    exact hadmits.isMove_of_not_answered hgranted hanswered
  · intro o granted ho
    rw [hporter, grantState, Gate.grantState_opens]
    exact (of_answered_mem ho).2.1
  · intro hentered o granted ho
    obtain ⟨hwaited, -⟩ := waits_of_answered hphase hsettled hlog hanswered hentered ho
    rw [hwaited, (Machine.signals_fields _ _).2.2.1]
  · intro hentered earlier command later hactions hcommand hstop hcancel hcancelled o granted ho
    obtain ⟨hwaited, hmarks⟩ := waits_of_answered hphase hsettled hlog hanswered hentered ho
    obtain ⟨hcpu, -, hgate, -, -, -, hplace⟩ :=
      Machine.signals_fields (told.meet .move).machine (actions between)
    rw [← hwaited] at hcpu hgate hplace
    have hask : ((told.meet .move).through between).machine.gate.ask.1 = .granted := by
      rw [hgate, hactions, List.foldl_append, List.foldl_cons]
      exact Gate.ask_foldl_apply hstop hcancel (Gate.ask_apply_of_command hcommand hcancelled)
    obtain ⟨-, hanswer, hnext⟩ := of_answered_mem ho
    obtain ⟨hwatch, hnow⟩ := hnext hask
    refine ⟨by rw [hanswer, hask]; rfl, hmarks, fun rest hmoves => ?_⟩
    -- The bookmark still stands at the program counter, so the breakpoints let the program pass.
    have hresume : told.machine.resumePc = some told.machine.cpu.pc :=
      hbookmarked (by rw [hphase]; rfl)
    have hcpu' : (((told.meet .move).through between).meet o).machine.cpu = told.machine.cpu := by
      rw [hnow, hcpu, hmachine]
    have hplace' : (((told.meet .move).through between).meet o).machine.resumePc =
        told.machine.resumePc := by
      rw [hnow, hplace, hmachine]
    obtain ⟨marks, hexecuted⟩ :=
      marks_of_watch rest hwatch (by rw [hplace', hcpu', hresume]) hmoves
    exact ⟨marks, by rw [hexecuted, hcpu']⟩

end Engine

/-- Whatever is done after a hit reaches the gate, and a command to go on takes the program past the
hit, unless it is taken back or the run is cancelled. -/
theorem Machine.commands_kept [Bus β] {m : Machine β} (hsettled : m.Settled)
    (options : RunOptions) (before between : List Occurrence) {hit : Hit}
    (hphase : ((Engine.start m options).through before).phase = .notifying hit)
    (hanswered : ∀ granted, .answered granted ∉
      (((Engine.start m options).through before).meet .move).gateRecord between) :
    ((Engine.start m options).through before).KeepsCommands between := by
  have htold := Engine.through_settled (Engine.start_settled hsettled options) before
  have hlog : (Engine.start m options).machine.cpu.log = [] := by simp [Engine.start]
  refine Engine.keepsCommands hphase (htold.resolve_left (by simp [hphase]))
    (invariant_log.through hlog before) (Engine.through_bookmarked before ?_) hanswered
  exact Engine.bookmarked_of_atHit rfl

/-- A program that counts up, with a breakpoint at its first instruction. -/
def watchedLoop : Machine FlatMemory :=
  countingLoop.setBreakpoints (some (Breakpoints.mk [0x0000]).evaluator)

/-- The hit of its first instruction, before it is published. -/
def hitAtStart : Engine FlatMemory :=
  (Engine.start watchedLoop ⟨none, 0⟩).through (.replicate 5 .move)

/-- A second controller steps the program that a first one has let go. -/
theorem commands_kept_watchedLoop :
    ∃ marks, (((hitAtStart.meet .move).through
        (.replicate 4 .move ++ [.act .go, .act .step])).meet .wake).marks (.replicate 3 .move) =
      .executed 0x0000 0xE8 :: marks := by
  have hsettled : watchedLoop.cpu.reportedPc = watchedLoop.cpu.pc := by decide +kernel
  have hphase : hitAtStart.phase = .notifying ⟨"PC == $0000", 0x0000, 0xE8⟩ := by decide +kernel
  have hpc : hitAtStart.machine.cpu.pc = 0x0000 := by decide +kernel
  have hopcode : Bus.read hitAtStart.machine.cpu.bus 0x0000 = 0xE8 := by decide +kernel
  have hkept : hitAtStart.KeepsCommands (.replicate 4 .move ++ [.act .go, .act .step]) :=
    Machine.commands_kept hsettled ⟨none, 0⟩ (.replicate 5 .move) _ hphase (by decide +kernel)
  obtain ⟨-, -, hexecuted⟩ := hkept.resumes (by rintro (_ | _) <;> decide +kernel) [.go] .step []
    (by decide +kernel) (.inr rfl) (by decide) (by decide) (by decide +kernel) .wake true
    (by decide +kernel)
  rw [hpc, hopcode] at hexecuted
  exact hexecuted (.replicate 3 .move) (by decide)

/-- A controller that cancels the run and then lets it go has not taken the `cancel` back, so the
gate refuses the instruction and the run ends without it. -/
theorem go_refused_after_cancel :
    let waiting : List Occurrence := .replicate 4 .move ++ [.act .cancel, .act .go]
    let rest : List Occurrence := .wake :: .replicate 3 .move
    hitAtStart.phase = .notifying ⟨"PC == $0000", 0x0000, 0xE8⟩ ∧
      (hitAtStart.meet .move).gateRecord (waiting ++ rest) =
        [.moved .cancel, .moved .go, .answered false] ∧
      (hitAtStart.meet .move).scheduleEvents (waiting ++ rest) = [] ∧
      (hitAtStart.meet .move).marks (waiting ++ rest) = [.published (.finished .cancelled)] ∧
      ((hitAtStart.meet .move).through (waiting ++ rest)).phase = .finished (.ok .cancelled) := by
  decide +kernel

end Nmos6502
