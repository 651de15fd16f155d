import Nmos6502.Proofs.Loader.Relocation

/-!
A program is put together from chunks, each with an address of its own. Chunks that write to
different addresses and define different labels may be loaded in either order: a reference waits
under its address and is resolved at the very end, so it makes no difference whether its label comes
before it or after it.
-/

namespace Nmos6502

universe u v

section Folds

variable {σ : Type u} {α : Type v} {f : σ → α → σ} {P : σ → Prop} {xs ys : List α}

/-- A step goes past a fold if it commutes with each step of it, in the states that matter. -/
theorem foldl_step_comm {x : α} (hkeep : ∀ s z, P s → P (f s z))
    (hcomm : ∀ y ∈ ys, ∀ s, P s → f (f s x) y = f (f s y) x) {s : σ} (hs : P s) :
    ys.foldl f (f s x) = f (ys.foldl f s) x := by
  induction ys generalizing s with
  | nil => rfl
  | cons y ys ih =>
    rw [List.forall_mem_cons] at hcomm
    calc
      (y :: ys).foldl f (f s x) = ys.foldl f (f (f s y) x) := by
        rw [List.foldl_cons, hcomm.1 s hs]
      _ = f ((y :: ys).foldl f s) x := ih hcomm.2 (hkeep s y hs)

theorem foldl_append_comm (hkeep : ∀ s z, P s → P (f s z))
    (hcomm : ∀ x ∈ xs, ∀ y ∈ ys, ∀ s, P s → f (f s x) y = f (f s y) x) {s : σ} (hs : P s) :
    (xs ++ ys).foldl f s = (ys ++ xs).foldl f s := by
  induction xs generalizing s with
  | nil => rw [List.nil_append, List.append_nil]
  | cons x xs ih =>
    rw [List.forall_mem_cons] at hcomm
    calc
      (x :: xs ++ ys).foldl f s = (ys ++ xs).foldl f (f s x) := ih hcomm.2 (hkeep s x hs)
      _ = xs.foldl f (f (ys.foldl f s) x) := by
        rw [List.foldl_append, foldl_step_comm hkeep hcomm.1 hs]
      _ = (ys ++ x :: xs).foldl f s := by rw [List.foldl_append, List.foldl_cons]

end Folds

theorem FlatMemory.replay_comm (memory : FlatMemory) {writes later : List (Word × Byte)}
    (h : ∀ x ∈ writes, ∀ y ∈ later, x.1 ≠ y.1) :
    Bus.replay memory (writes ++ later) = Bus.replay memory (later ++ writes) :=
  foldl_append_comm (P := fun _ => True) (fun _ _ h => h)
    (fun x hx y hy memory _ => memory.write_comm (h x hx y hy) x.2 y.2) trivial

namespace LabelTable

theorem edit_define_eq (t : LabelTable) (name : String) (address : Word) :
    t.edit (.define name address) =
      if t.inner.lookup name = none then { t with inner := Sorted.insert name address t.inner }
      else t := by
  simp only [edit, define]
  cases t.inner.lookup name <;> rfl

theorem edit_define_comm {t : LabelTable} {name other : String}
    (h : name = other → t.inner.lookup name ≠ none) (address address' : Word) :
    (t.edit (.define name address)).edit (.define other address') =
      (t.edit (.define other address')).edit (.define name address) := by
  rcases eq_or_ne name other with rfl | hne
  · have hkeep : ∀ address, t.edit (.define name address) = t := fun address => by
      rw [edit_define_eq, if_neg (h rfl)]
    simp only [hkeep]
  · simp only [edit_define_eq]
    by_cases hname : t.inner.lookup name = none <;>
      by_cases hother : t.inner.lookup other = none <;>
      simp [hname, hother, Sorted.lookup_insert, hne, hne.symm, Sorted.insert_comm hne.symm]

end LabelTable

namespace Loader

/-- Calls that put a part of a program in its place. -/
structure Chunk where
  address : Word
  calls : List Call
  plain : ∀ c ∈ calls, c.plain = true

/-- The calls that load the chunk, the first of which goes to its address. -/
def Chunk.load (chunk : Chunk) : List Call :=
  .moveTo chunk.address :: chunk.calls

variable {β : Type u} {l l' : Loader β} {c : Call} {calls : List Call}

/-- The calls give a name that the innermost scope does not have yet. -/
def Defines (l : Loader β) (calls : List Call) (name : String) : Prop :=
  .label name ∈ calls ∧ l.labels.inner.lookup name = none

/-- The references that wait when a call has been made at the cursor. -/
def Call.pending (cursor : Word) (pending : List (Word × PendingReference)) (c : Call) :
    List (Word × PendingReference) :=
  match c.reference? with
  | some p => Sorted.insert cursor p pending
  | none => pending

variable [Bus β]

theorem Call.fixesUp_of_plain (h : c.plain = true) : c.fixesUp = false := by
  cases c with
  | endScope | fixup => cases h
  | _ => rfl

theorem call_congr (hc : c.plain = true) (h : l.cursor = l'.cursor) :
    l.written c = l'.written c ∧ (l.call c).cursor = (l'.call c).cursor := by
  have hall : ∀ {m m' : Loader β} (bytes : List Byte), m.cursor = m'.cursor →
      (m.writeAll bytes).cursor = (m'.writeAll bytes).cursor := by
    intro m m' bytes hcursor
    rw [(m.writeAll_writes bytes).2.2, (m'.writeAll_writes bytes).2.2, hcursor]
  cases c with
  | pushScope | endScope | fixup => cases hc
  | moveTo address => exact ⟨rfl, rfl⟩
  | write value => simp only [written, call, write, patch, h, and_self]
  | writeWord value => exact ⟨by simp only [written, h], hall _ h⟩
  | writeAll bytes => exact ⟨by simp only [written, h], hall _ h⟩
  | instruction op =>
    refine ⟨by simp only [written, h], ?_⟩
    simp only [call, instruction]
    cases op.encode with
    | some byte => exact hall [byte] h
    | none => exact h
  | label name =>
    have hlabel : ∀ m : Loader β, (m.label name).cursor = m.cursor := by
      intro m
      rw [label]
      split <;> rfl
    exact ⟨rfl, (hlabel l).trans (h.trans (hlabel l').symm)⟩
  | refer encoding text =>
    have hawait : ∀ m : Loader β, ∀ target, (m.await target encoding).cursor = m.cursor :=
      fun m target => (m.await_fields target encoding).2.2.1
    simp only [written, call, emit_eq, refer, h]
    rcases Reference.read text with fault | error | target
    · exact ⟨rfl, h⟩
    · exact ⟨rfl, hall _ h⟩
    · exact ⟨rfl, hall _ ((hawait l target).trans (h.trans (hawait l' target).symm))⟩
  | loadImage encoded address =>
    refine ⟨rfl, ?_⟩
    simp only [call, loadImage]
    cases Image.decodeAt encoded address with
    | ok image => exact hall _ rfl
    | error error => exact h

theorem pending_call (hc : c.fixesUp = false) (l : Loader β) :
    (l.call c).pending = c.pending l.cursor l.pending := by
  rw [(call_fields hc).2, emission_eq, Call.pending]
  cases c.reference? <;> rfl

def placed (l : Loader β) : List Call → List (Word × Call)
  | [] => []
  | c :: calls => (l.cursor, c) :: (l.call c).placed calls

theorem placed_congr (hcalls : ∀ c ∈ calls, c.plain = true) (h : l.cursor = l'.cursor) :
    l.placed calls = l'.placed calls := by
  induction calls generalizing l l' with
  | nil => rfl
  | cons c calls ih =>
    rw [List.forall_mem_cons] at hcalls
    rw [placed, placed, h, ih hcalls.2 (call_congr hcalls.1 h).2]

theorem after_fields (hcalls : ∀ c ∈ calls, c.plain = true) (l : Loader β) :
    (l.after calls).labels = (l.placed calls).foldl
        (fun labels entry => entry.2.labels entry.1 labels) l.labels ∧
      (l.after calls).pending = (l.placed calls).foldl
        (fun pending entry => entry.2.pending entry.1 pending) l.pending := by
  induction calls generalizing l with
  | nil => exact ⟨rfl, rfl⟩
  | cons c calls ih =>
    rw [List.forall_mem_cons] at hcalls
    obtain ⟨hlabels, hpending⟩ := ih hcalls.2 (l.call c)
    rw [labels_call hcalls.1] at hlabels
    rw [pending_call (Call.fixesUp_of_plain hcalls.1)] at hpending
    exact ⟨hlabels, hpending⟩

theorem mem_of_mem_placed {entry : Word × Call} (h : entry ∈ l.placed calls) :
    entry.2 ∈ calls := by
  induction calls generalizing l with
  | nil => cases h
  | cons c calls ih =>
    rcases List.mem_cons.mp h with rfl | h
    · exact List.mem_cons_self
    · exact List.mem_cons_of_mem _ (ih h)

theorem mem_writes_of_mem_placed {entry : Word × Call} (h : entry ∈ l.placed calls)
    {p : PendingReference} (hp : entry.2.reference? = some p) :
    ∃ value, (entry.1, value) ∈ l.writes calls := by
  induction calls generalizing l with
  | nil => cases h
  | cons c calls ih =>
    rcases List.mem_cons.mp h with rfl | h
    · have hemission : (l.cursor, p) ∈ l.emission c := by simp [emission_eq, hp]
      obtain ⟨value, hvalue⟩ := covers_self (l.cursor, p)
      rw [← written_of_emission hemission] at hvalue
      exact ⟨value, List.mem_append_left _ hvalue⟩
    · exact (ih h).imp fun value hvalue => List.mem_append_right _ hvalue

/-- The loaders are at the same address and know the same of what the calls write and define. -/
structure Agrees (l l' : Loader β) (calls : List Call) : Prop where
  cursor : l.cursor = l'.cursor
  pending : ∀ entry ∈ l.writes calls, l.pending.lookup entry.1 = l'.pending.lookup entry.1
  labels : ∀ name, .label name ∈ calls →
    l.labels.inner.lookup name = l'.labels.inner.lookup name

theorem Agrees.reported (h : Agrees l l' (c :: calls)) (hc : c.plain = true) :
    l.reported c = l'.reported c := by
  cases c with
  | pushScope | endScope | fixup => cases hc
  | moveTo | write | writeWord | writeAll | loadImage => rfl
  | instruction op => simp only [Loader.reported, h.cursor]
  | label name =>
    have hname := h.labels name List.mem_cons_self
    simp only [Loader.reported, LabelTable.define, hname]
    cases l'.labels.inner.lookup name <;> rfl
  | refer encoding text =>
    have hwaiting : ∀ target, Reference.read text = .ok (.ok target) →
        l.pending.lookup l.cursor = l'.pending.lookup l.cursor := by
      intro target hread
      have hmem : (l.cursor, .refer encoding text) ∈ l.placed (.refer encoding text :: calls) :=
        List.mem_cons_self
      have hreference : (Call.refer encoding text).reference? = some ⟨target, encoding⟩ := by
        simp only [Call.reference?, hread]
      obtain ⟨value, hvalue⟩ := mem_writes_of_mem_placed hmem hreference
      exact h.pending _ hvalue
    simp only [Loader.reported, ← h.cursor]
    split
    case h_1 target hread => rw [hwaiting target hread]
    case h_2 => rfl
    case h_3 => rfl

theorem Agrees.call (h : Agrees l l' (c :: calls)) (hc : c.plain = true) :
    Agrees (l.call c) (l'.call c) calls where
  cursor := (call_congr hc h.cursor).2
  pending entry hentry := by
    have hbefore := h.pending entry (List.mem_append_right _ hentry)
    rw [pending_call (Call.fixesUp_of_plain hc), pending_call (Call.fixesUp_of_plain hc),
      Call.pending, Call.pending, ← h.cursor]
    cases c.reference? with
    | none => exact hbefore
    | some p => simp only [Sorted.lookup_insert, hbefore]
  labels name hname := by
    rw [labels_call hc, labels_call hc, (labels_fields c _ _).2, (labels_fields c _ _).2, h.cursor,
      h.labels name (List.mem_cons_of_mem _ hname)]

theorem Agrees.after (h : Agrees l l' calls) (hcalls : ∀ c ∈ calls, c.plain = true) :
    l.writes calls = l'.writes calls ∧ l.reports calls = l'.reports calls := by
  induction calls generalizing l l' with
  | nil => exact ⟨rfl, rfl⟩
  | cons c calls ih =>
    rw [List.forall_mem_cons] at hcalls
    obtain ⟨hwrites, hreports⟩ := ih (h.call hcalls.1) hcalls.2
    rw [writes, writes, reports, reports, (call_congr hcalls.1 h.cursor).1, h.reported hcalls.1,
      hwrites, hreports]
    exact ⟨rfl, rfl⟩

theorem lookup_inner_after (hcalls : ∀ c ∈ calls, c.plain = true) {name : String}
    (h : ¬ l.Defines calls name) :
    (l.after calls).labels.inner.lookup name = l.labels.inner.lookup name := by
  induction calls generalizing l with
  | nil => rfl
  | cons c calls ih =>
    rw [List.forall_mem_cons] at hcalls
    have hcall : (l.call c).labels.inner.lookup name = l.labels.inner.lookup name := by
      rw [labels_call hcalls.1, (labels_fields c _ _).2]
      cases hlookup : l.labels.inner.lookup name with
      | some address => rfl
      | none =>
        rw [Option.none_or, if_neg]
        rintro rfl
        exact h ⟨List.mem_cons_self, hlookup⟩
    refine (ih hcalls.2 ?_).trans hcall
    rintro ⟨hmem, hnone⟩
    exact h ⟨List.mem_cons_of_mem _ hmem, hcall.symm.trans hnone⟩

theorem labels_comm {c d : Call} {t : LabelTable}
    (h : ∀ name, c = .label name → d = .label name → t.inner.lookup name ≠ none) (p q : Word) :
    d.labels q (c.labels p t) = c.labels p (d.labels q t) := by
  cases c with
  | label name =>
    cases d with
    | label other =>
      refine LabelTable.edit_define_comm ?_ p q
      rintro rfl
      exact h name rfl rfl
    | _ => rfl
  | _ => rfl

theorem pending_comm {c d : Call} {p q : Word}
    (h : ∀ r s, c.reference? = some r → d.reference? = some s → p ≠ q)
    (waiting : List (Word × PendingReference)) :
    d.pending q (c.pending p waiting) = c.pending p (d.pending q waiting) := by
  unfold Call.pending
  cases hc : c.reference? with
  | none => rfl
  | some r =>
    cases hd : d.reference? with
    | none => rfl
    | some s => exact Sorted.insert_comm (h r s hc hd).symm s r waiting

/-- The chunks write to different addresses and define different names. -/
structure Apart (l : Loader β) (a b : Chunk) : Prop where
  writes : ∀ x ∈ l.writes a.load, ∀ y ∈ l.writes b.load, x.1 ≠ y.1
  names : ∀ name, l.Defines a.load name → ¬ l.Defines b.load name

variable {a b : Chunk}

theorem Apart.symm (h : Apart l a b) : Apart l b a where
  writes x hx y hy := (h.writes y hy x hx).symm
  names name hb ha := h.names name ha hb

/-- A name that both chunks give is in the scope already. -/
def Ready (a b : Chunk) (labels : LabelTable) : Prop :=
  ∀ name, .label name ∈ a.calls → .label name ∈ b.calls → labels.inner.lookup name ≠ none

theorem Apart.ready (h : Apart l a b) : Ready a b l.labels := fun name ha hb hnone =>
  h.names name ⟨List.mem_cons_of_mem _ ha, hnone⟩ ⟨List.mem_cons_of_mem _ hb, hnone⟩

theorem Ready.labels {labels : LabelTable} (h : Ready a b labels) (cursor : Word) (c : Call) :
    Ready a b (c.labels cursor labels) := by
  intro name ha hb
  rw [(labels_fields c cursor labels).2, ne_eq, Option.or_eq_none_iff, not_and_or]
  exact .inl (h name ha hb)

theorem Chunk.plain_load (chunk : Chunk) : ∀ c ∈ chunk.load, c.plain = true :=
  List.forall_mem_cons.mpr ⟨rfl, chunk.plain⟩

/-- The first chunk makes no difference to the second one. -/
theorem Apart.agrees (h : Apart l a b) :
    Agrees (l.moveTo b.address) ((l.after a.load).moveTo b.address) b.calls where
  cursor := rfl
  pending entry hentry :=
    (lookup_pending_after (fun x hx => h.writes x hx entry hentry)
      fun c hc => Call.fixesUp_of_plain (a.plain_load c hc)).symm
  labels name hname := by
    refine (lookup_inner_after a.plain_load fun ha => ?_).symm
    exact h.names name ha ⟨List.mem_cons_of_mem _ hname, ha.2⟩

def Chunk.placed (chunk : Chunk) (l : Loader β) : List (Word × Call) :=
  (l.moveTo chunk.address).placed chunk.calls

theorem after_load_fields (chunk : Chunk) (l' l : Loader β) :
    (l.after chunk.load).labels = (chunk.placed l').foldl
        (fun labels entry => entry.2.labels entry.1 labels) l.labels ∧
      (l.after chunk.load).pending = (chunk.placed l').foldl
        (fun pending entry => entry.2.pending entry.1 pending) l.pending := by
  have hplaced : chunk.placed l' = chunk.placed l := placed_congr chunk.plain rfl
  rw [hplaced]
  exact after_fields chunk.plain (l.moveTo chunk.address)

theorem Apart.after_fields (h : Apart l a b) :
    (l.after (a.load ++ b.load)).labels = (a.placed l ++ b.placed l).foldl
        (fun labels entry => entry.2.labels entry.1 labels) l.labels ∧
      (l.after (a.load ++ b.load)).pending = (a.placed l ++ b.placed l).foldl
        (fun pending entry => entry.2.pending entry.1 pending) l.pending ∧
      (l.after (a.load ++ b.load)).bus =
        Bus.replay l.bus (l.writes a.load ++ l.writes b.load) ∧
      (l.after (a.load ++ b.load)).errors =
        l.errors ++ (l.reports a.load ++ l.reports b.load) := by
  obtain ⟨hlabels, hpending⟩ := after_load_fields a l l
  obtain ⟨hlabels', hpending'⟩ := after_load_fields b l (l.after a.load)
  obtain ⟨hagreed, hagreed'⟩ := h.agrees.after b.plain
  have hwrites : (l.after a.load).writes b.load = l.writes b.load := hagreed.symm
  have hreports : (l.after a.load).reports b.load = l.reports b.load := hagreed'.symm
  have hfixesUp : ∀ chunk : Chunk, ∀ c ∈ chunk.load, c.fixesUp = false :=
    fun chunk c hc => Call.fixesUp_of_plain (chunk.plain_load c hc)
  rw [after_append, hlabels', hlabels, hpending', hpending, (after_writes b.load _).1,
    (after_writes a.load l).1, after_errors (hfixesUp b), after_errors (hfixesUp a), hwrites,
    hreports, List.foldl_append, List.foldl_append, Bus.replay_append, List.append_assoc]
  exact ⟨rfl, rfl, rfl, rfl⟩

/-- Loaders that differ in their cursors, in the record of their writes and in the order of their
errors at most. -/
structure Matches (l l' : Loader β) : Prop where
  bus : l.bus = l'.bus
  labels : l.labels = l'.labels
  pending : l.pending = l'.pending
  errors : l.errors.Perm l'.errors

/-- A fixup finds the same references with the same values in both loaders, and it makes the same of
both but for the order of the errors. -/
structure FixesUpAlike (l l' : Loader β) : Prop where
  pending : l.pending = l'.pending
  values : ∀ slot (p : PendingReference), p.resolve slot l.labels = p.resolve slot l'.labels
  bus : l.fixup.1.bus = l'.fixup.1.bus
  labels : l.fixup.1.labels = l'.fixup.1.labels
  ok_iff : l.fixup.2 = .ok () ↔ l'.fixup.2 = .ok ()
  failures : ∀ failure failure', l.fixup.2 = .error failure → l'.fixup.2 = .error failure' →
    failure.errors.Perm failure'.errors

theorem errors_of_fixup {failure : LoadFailure} (h : l.fixup.2 = .error failure) :
    failure.errors = l.errors ++ l.unresolved := by
  rw [fixup_eq] at h
  split at h
  · cases h
  · rw [← Except.error.inj h]

theorem Matches.fixesUpAlike (h : Matches l l') : FixesUpAlike l l' := by
  have hunresolved : l.unresolved = l'.unresolved := by
    rw [unresolved, unresolved, h.pending, h.labels]
  have hpatches : l.patchWrites = l'.patchWrites := by
    rw [patchWrites, patchWrites, patches, patches, h.pending, h.labels]
  have herrors : (l.errors ++ l.unresolved).Perm (l'.errors ++ l'.unresolved) := by
    rw [hunresolved]
    exact h.errors.append_right _
  have hempty : (l.errors ++ l.unresolved).isEmpty = (l'.errors ++ l'.unresolved).isEmpty := by
    rw [Bool.eq_iff_iff, List.isEmpty_iff, List.isEmpty_iff]
    exact ⟨fun hnil => (hnil ▸ herrors).nil_eq.symm, fun hnil => (hnil ▸ herrors).eq_nil⟩
  constructor
  · exact h.pending
  · exact fun slot p => by rw [h.labels]
  · rw [l.fixup_writes.1, l'.fixup_writes.1, written, written, hempty, h.bus, hpatches]
  · rw [l.fixup_fields.1, l'.fixup_fields.1, h.labels]
  · rw [fixup_ok_iff, fixup_ok_iff, ← List.isEmpty_iff, ← List.isEmpty_iff, hempty]
  · intro failure failure' hfailure hfailure'
    rw [errors_of_fixup hfailure, errors_of_fixup hfailure']
    exact herrors

theorem Apart.labels_comm (h : Apart l a b) :
    (l.after (a.load ++ b.load)).labels = (l.after (b.load ++ a.load)).labels := by
  rw [h.after_fields.1, h.symm.after_fields.1]
  refine foldl_append_comm (P := Ready a b) (fun labels entry hready => ?_) ?_ h.ready
  · exact hready.labels entry.1 entry.2
  · intro x hx y hy labels hready
    refine Loader.labels_comm (fun name hname hname' => ?_) x.1 y.1
    exact hready name (hname ▸ mem_of_mem_placed hx) (hname' ▸ mem_of_mem_placed hy)

theorem Apart.pending_comm (h : Apart l a b) :
    (l.after (a.load ++ b.load)).pending = (l.after (b.load ++ a.load)).pending := by
  rw [h.after_fields.2.1, h.symm.after_fields.2.1]
  refine foldl_append_comm (P := fun _ => True) (fun _ _ h => h) ?_ trivial
  intro x hx y hy waiting _
  refine Loader.pending_comm (fun r s hr hs => ?_) waiting
  obtain ⟨value, hvalue⟩ := mem_writes_of_mem_placed hx hr
  obtain ⟨value', hvalue'⟩ := mem_writes_of_mem_placed hy hs
  exact h.writes _ hvalue _ hvalue'

/-- Chunks that write to different addresses and define different names may be loaded in either
order. -/
theorem chunks_commute (l : Loader FlatMemory) (a b : Chunk) (h : Apart l a b) :
    FixesUpAlike (l.after (a.load ++ b.load)) (l.after (b.load ++ a.load)) := by
  obtain ⟨-, -, hbus, herrors⟩ := h.after_fields
  obtain ⟨-, -, hbus', herrors'⟩ := h.symm.after_fields
  refine Matches.fixesUpAlike ⟨?_, h.labels_comm, h.pending_comm, ?_⟩
  · rw [hbus, hbus', FlatMemory.replay_comm l.bus h.writes]
  · rw [herrors, herrors']
    exact List.perm_append_comm.append_left _

/-- Two chunks that refer to each other. -/
theorem chunks_commute_mutual :
    let a : Chunk := ⟨0x0200, [.label "ping", .instruction ⟨.jmp, .absolute⟩, .refer .word "pong"],
      by decide⟩
    let b : Chunk := ⟨0x0300, [.label "pong", .instruction ⟨.jmp, .absolute⟩, .refer .word "ping"],
      by decide⟩
    let here := (start FlatMemory.zeroed .empty).after (a.load ++ b.load)
    let there := (start FlatMemory.zeroed .empty).after (b.load ++ a.load)
    FixesUpAlike here there ∧ there.fixup.2 = .ok () ∧
      Bus.readWord there.fixup.1.bus 0x0201 = 0x0300 ∧
      Bus.readWord there.fixup.1.bus 0x0301 = 0x0200 := by
  intro a b here there
  have hapart : Apart (start FlatMemory.zeroed .empty) a b := by
    have ha : (start FlatMemory.zeroed .empty).writes a.load =
        [(0x0200, 0x4C), (0x0201, 0xFF), (0x0202, 0xFF)] := by
      decide +kernel
    have hb : (start FlatMemory.zeroed .empty).writes b.load =
        [(0x0300, 0x4C), (0x0301, 0xFF), (0x0302, 0xFF)] := by
      decide +kernel
    refine ⟨by simp [ha, hb], ?_⟩
    rintro name ⟨ha, -⟩ ⟨hb, -⟩
    have hping : name = "ping" := by simpa [Chunk.load, a] using ha
    have hpong : name = "pong" := by simpa [Chunk.load, b] using hb
    exact absurd (hping.symm.trans hpong) (by decide)
  have halike := chunks_commute (start FlatMemory.zeroed .empty) a b hapart
  refine ⟨halike, halike.ok_iff.mp (fixup_ok_iff.mpr (by decide +kernel)), ?_, ?_⟩
  · rw [← halike.bus]
    decide +kernel
  · rw [← halike.bus]
    decide +kernel

end Loader

end Nmos6502
