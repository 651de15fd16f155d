import Nmos6502.Loader

namespace Nmos6502

universe u

variable {β : Type u}

namespace Loader

inductive Call where
  | moveTo (address : Word)
  | write (value : Byte)
  | writeWord (value : Word)
  | writeAll (bytes : List Byte)
  | instruction (op : Opcode)
  | label (name : String)
  | refer (encoding : Encoding) (text : String)
  | loadImage (encoded : List Byte) (address : Option Word)
  | pushScope
  | endScope
  | fixup
  deriving DecidableEq, Repr

/-- What a call tells. -/
inductive Reply where
  | done
  | refused (fault : Overflow)
  | loaded (result : Except ImageError Word)
  | fixedUp (result : Except LoadFailure Unit)

def Call.fixesUp : Call → Bool
  | endScope | fixup => true
  | moveTo _ | write _ | writeWord _ | writeAll _ | instruction _ | label _ | refer _ _
  | loadImage _ _ | pushScope => false

/-- What stands for a reference that is not known yet. -/
def placeholder : Encoding → List Byte
  | .word => [Word.low wordPlaceholder, Word.high wordPlaceholder]
  | .byte | .relative => [bytePlaceholder]

/-- The error that a call leaves behind, if there is one. -/
def reported (l : Loader β) : Call → List FixupError
  | .instruction op =>
    match op.encode with
    | some _ => []
    | none => [.unknownInstruction op l.cursor]
  | .label name =>
    match l.labels.define name l.cursor with
    | .ok _ => []
    | .error error => [.label error]
  | .refer _ text =>
    match Reference.read text with
    | .ok (.ok _) =>
      (l.pending.lookup l.cursor).toList.map fun previous =>
        .overwritten previous.target.text l.cursor
    | .ok (.error error) => [.label error]
    | .error _ => []
  | .moveTo _ | .write _ | .writeWord _ | .writeAll _ | .loadImage _ _ | .pushScope | .endScope
  | .fixup => []

/-- The reference that a call emits, if it does, with the address of its placeholder. -/
def emission (l : Loader β) : Call → List (Word × PendingReference)
  | .refer encoding text =>
    match Reference.read text with
    | .ok (.ok target) => [(l.cursor, ⟨target, encoding⟩)]
    | .ok (.error _) | .error _ => []
  | .moveTo _ | .write _ | .writeWord _ | .writeAll _ | .instruction _ | .label _
  | .loadImage _ _ | .pushScope | .endScope | .fixup => []

theorem emission_cases (l : Loader β) (c : Call) :
    l.emission c = [] ∨ ∃ reference, l.emission c = [(l.cursor, reference)] ∧
      l.reported c = (l.pending.lookup l.cursor).toList.map fun previous =>
        .overwritten previous.target.text l.cursor := by
  cases c with
  | refer encoding text =>
    simp only [emission, reported]
    split
    · exact .inr ⟨_, rfl, rfl⟩
    · exact .inl rfl
    · exact .inl rfl
  | _ => exact .inl rfl

theorem refer_cases (l : Loader β) (text : String) (encoding : Encoding) :
    (∃ target, Reference.read text = .ok (.ok target) ∧
        l.refer text encoding = .ok (l.await target encoding)) ∨
      (∃ error, Reference.read text = .ok (.error error) ∧
        l.refer text encoding = .ok (l.report (.label error))) ∨
      (∃ fault, Reference.read text = .error fault ∧ l.refer text encoding = .error fault) := by
  rw [refer]
  match Reference.read text with
  | .ok (.ok target) => exact .inl ⟨target, rfl, rfl⟩
  | .ok (.error error) => exact .inr (.inl ⟨error, rfl, rfl⟩)
  | .error fault => exact .inr (.inr ⟨fault, rfl, rfl⟩)

theorem await_pending (l : Loader β) (target : Reference) (encoding : Encoding) :
    (l.await target encoding).pending = Sorted.insert l.cursor ⟨target, encoding⟩ l.pending := by
  rw [await]
  split <;> rfl

theorem await_errors (l : Loader β) (target : Reference) (encoding : Encoding) :
    (l.await target encoding).errors = l.errors ++ (l.pending.lookup l.cursor).toList.map
      fun previous => .overwritten previous.target.text l.cursor := by
  rw [await]
  cases l.pending.lookup l.cursor <;> simp [report]

variable [Bus β]

@[simp] theorem writeAll_fields (l : Loader β) (bytes : List Byte) :
    (l.writeAll bytes).labels = l.labels ∧ (l.writeAll bytes).pending = l.pending ∧
      (l.writeAll bytes).errors = l.errors := by
  induction bytes generalizing l with
  | nil => exact ⟨rfl, rfl, rfl⟩
  | cons value bytes ih => exact ih (l.write value)

/-- Lets a reference wait and writes a placeholder for it. -/
def emit (l : Loader β) (encoding : Encoding) (text : String) : Except Overflow (Loader β) :=
  match encoding with
  | .word => l.wordReference text
  | .byte => l.byteReference text
  | .relative => l.relativeReference text

theorem emit_eq (l : Loader β) (encoding : Encoding) (text : String) :
    l.emit encoding text =
      (l.refer text encoding).map fun l => l.writeAll (placeholder encoding) := by
  cases encoding <;> rfl

/-- The loader after a call. One that is refused changes nothing. -/
def call (l : Loader β) : Call → Loader β
  | .moveTo address => l.moveTo address
  | .write value => l.write value
  | .writeWord value => l.writeWord value
  | .writeAll bytes => l.writeAll bytes
  | .instruction op => l.instruction op
  | .label name => l.label name
  | .refer encoding text =>
    match l.emit encoding text with
    | .ok emitted => emitted
    | .error _ => l
  | .loadImage encoded address => (l.loadImage encoded address).1
  | .pushScope => l.pushScope
  | .endScope => l.endScope.1
  | .fixup => l.fixup.1

def reply (l : Loader β) : Call → Reply
  | .refer encoding text =>
    match l.emit encoding text with
    | .ok _ => .done
    | .error fault => .refused fault
  | .loadImage encoded address => .loaded (l.loadImage encoded address).2
  | .endScope => .fixedUp l.endScope.2
  | .fixup => .fixedUp l.fixup.2
  | .moveTo _ | .write _ | .writeWord _ | .writeAll _ | .instruction _ | .label _ | .pushScope =>
    .done

def after (l : Loader β) (calls : List Call) : Loader β :=
  calls.foldl call l

theorem after_cons (l : Loader β) (c : Call) (calls : List Call) :
    l.after (c :: calls) = (l.call c).after calls :=
  rfl

theorem after_append (l : Loader β) (calls later : List Call) :
    l.after (calls ++ later) = (l.after calls).after later :=
  List.foldl_append

/-- What is to be seen after each call: its reply, the cursor and the labels. -/
def transcript (l : Loader β) : List Call → List (Reply × Word × LabelTable)
  | [] => []
  | c :: calls =>
    (l.reply c, (l.call c).cursor, (l.call c).labels) :: (l.call c).transcript calls

/-- The errors that calls leave behind, in the order of the calls. -/
def reports (l : Loader β) : List Call → List FixupError
  | [] => []
  | c :: calls => l.reported c ++ (l.call c).reports calls

variable {l : Loader β} {c : Call}

theorem call_fields (h : c.fixesUp = false) :
    (l.call c).errors = l.errors ++ l.reported c ∧
      (l.call c).pending = (l.emission c).foldl
        (fun pending entry => Sorted.insert entry.1 entry.2 pending) l.pending := by
  cases c with
  | endScope | fixup => cases h
  | moveTo address | pushScope => exact ⟨(List.append_nil _).symm, rfl⟩
  | write value | writeWord value | writeAll bytes =>
    simp [call, write, writeWord, patch, reported, emission]
  | instruction op =>
    simp only [call, instruction, reported, emission]
    cases op.encode <;> simp [write, patch, report]
  | label name =>
    simp only [call, label, reported, emission]
    cases l.labels.define name l.cursor <;> simp [report]
  | loadImage encoded address =>
    simp only [call, loadImage, reported, emission]
    cases Image.decodeAt encoded address <;> simp [moveTo]
  | refer encoding text =>
    simp only [call, emit_eq, reported, emission]
    obtain ⟨target, hread, hrefer⟩ | ⟨error, hread, hrefer⟩ | ⟨fault, hread, hrefer⟩ :=
      l.refer_cases text encoding
    · simp [hread, hrefer, Except.map, await_errors, await_pending]
    · simp [hread, hrefer, Except.map, report]
    · simp [hread, hrefer, Except.map]

theorem after_errors {calls : List Call} (h : ∀ c ∈ calls, c.fixesUp = false) (l : Loader β) :
    (l.after calls).errors = l.errors ++ l.reports calls := by
  induction calls generalizing l with
  | nil => exact (List.append_nil _).symm
  | cons c calls ih =>
    rw [List.forall_mem_cons] at h
    calc
      ((l.call c).after calls).errors = (l.call c).errors ++ (l.call c).reports calls := ih h.2 _
      _ = l.errors ++ l.reports (c :: calls) := by
        rw [(call_fields h.1).1, List.append_assoc, reports]

end Loader

end Nmos6502
