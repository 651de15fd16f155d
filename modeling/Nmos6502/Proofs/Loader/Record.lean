import Nmos6502.Proofs.Bus.Block
import Nmos6502.Proofs.Loader.Fixup

namespace Nmos6502.Loader

universe u

variable {β : Type u}

theorem await_fields (l : Loader β) (target : Reference) (encoding : Encoding) :
    (l.await target encoding).bus = l.bus ∧ (l.await target encoding).record = l.record ∧
      (l.await target encoding).cursor = l.cursor ∧
      (l.await target encoding).labels = l.labels := by
  rw [await]
  split <;> exact ⟨rfl, rfl, rfl, rfl⟩

theorem label_fields (l : Loader β) (name : String) :
    (l.label name).bus = l.bus ∧ (l.label name).record = l.record := by
  rw [label]
  split <;> exact ⟨rfl, rfl⟩

theorem refer_ok_fields {l emitted : Loader β} {text : String} {encoding : Encoding}
    (h : l.refer text encoding = .ok emitted) :
    emitted.bus = l.bus ∧ emitted.record = l.record ∧ emitted.cursor = l.cursor := by
  obtain ⟨target, -, hrefer⟩ | ⟨error, -, hrefer⟩ | ⟨fault, -, hrefer⟩ :=
    l.refer_cases text encoding
  · obtain rfl := Except.ok.inj (hrefer.symm.trans h)
    obtain ⟨hbus, hrecord, hcursor, -⟩ := l.await_fields target encoding
    exact ⟨hbus, hrecord, hcursor⟩
  · obtain rfl := Except.ok.inj (hrefer.symm.trans h)
    exact ⟨rfl, rfl, rfl⟩
  · rw [hrefer] at h
    cases h

def written (l : Loader β) : Call → List (Word × Byte)
  | .write value => Bus.block l.cursor [value]
  | .writeWord value => Bus.block l.cursor [Word.low value, Word.high value]
  | .writeAll bytes => Bus.block l.cursor bytes
  | .instruction op => Bus.block l.cursor op.encode.toList
  | .refer encoding text =>
    match l.refer text encoding with
    | .ok _ => Bus.block l.cursor (placeholder encoding)
    | .error _ => []
  | .loadImage encoded address =>
    match Image.decodeAt encoded address with
    | .ok image => Bus.block image.address image.bytes
    | .error _ => []
  | .endScope | .fixup => if (l.errors ++ l.unresolved).isEmpty then l.patchWrites else []
  | .moveTo _ | .label _ | .pushScope => []

/-- A reference that waits at an address holds a place for the byte at another one. -/
def Covers (entry : Word × PendingReference) (x : Word) : Prop :=
  ∃ value, (x, value) ∈ Bus.block entry.1 (placeholder entry.2.encoding)

theorem covers_self (entry : Word × PendingReference) : Covers entry entry.1 := by
  obtain ⟨address, target, encoding⟩ := entry
  cases encoding <;> exact ⟨_, List.mem_cons_self⟩

theorem written_of_emission {l : Loader β} {c : Call} {entry : Word × PendingReference}
    (h : entry ∈ l.emission c) :
    l.written c = Bus.block entry.1 (placeholder entry.2.encoding) := by
  cases c with
  | refer encoding text =>
    obtain ⟨target, hread, hrefer⟩ | ⟨error, hread, hrefer⟩ | ⟨fault, hread, hrefer⟩ :=
      l.refer_cases text encoding
    · obtain rfl : entry = (l.cursor, ⟨target, encoding⟩) := by simpa [emission, hread] using h
      simp only [written, hrefer]
    · simp [emission, hread] at h
    · simp [emission, hread] at h
  | _ => cases h

variable [Bus β]

theorem writeAll_writes (l : Loader β) (bytes : List Byte) :
    (l.writeAll bytes).bus = Bus.replay l.bus (Bus.block l.cursor bytes) ∧
      (l.writeAll bytes).record = l.record ++ Bus.block l.cursor bytes ∧
      (l.writeAll bytes).cursor = l.cursor + BitVec.ofNat 16 bytes.length := by
  induction bytes generalizing l with
  | nil => exact ⟨rfl, (List.append_nil _).symm, (BitVec.add_zero _).symm⟩
  | cons value bytes ih =>
    have hrecord : (l.write value).record = l.record ++ [(l.cursor, value)] := by
      simp [write, patch, record, Bus.store]
    obtain ⟨hbus, htold, hcursor⟩ := ih (l.write value)
    rw [hrecord, List.append_assoc] at htold
    exact ⟨hbus, htold, hcursor.trans (Word.add_one_add_ofNat ..)⟩

theorem fixup_writes (l : Loader β) :
    l.fixup.1.bus = Bus.replay l.bus (l.written .fixup) ∧
      l.fixup.1.record = l.record ++ l.written .fixup := by
  rw [fixup_eq, written]
  split
  · obtain ⟨hbus, hrecord, -⟩ := l.cleared.perform_fields l.patchWrites
    exact ⟨hbus, hrecord⟩
  · exact ⟨rfl, (List.append_nil _).symm⟩

theorem fixup_bus_of_ok {l : Loader β} (h : l.fixup.2 = .ok ()) :
    l.fixup.1.bus = Bus.replay l.bus l.patchWrites := by
  rw [l.fixup_writes.1, written, fixup_ok_iff.mp h, List.isEmpty_nil, if_pos rfl]

theorem call_writes (l : Loader β) (c : Call) :
    (l.call c).bus = Bus.replay l.bus (l.written c) ∧
      (l.call c).record = l.record ++ l.written c := by
  have hblock (l : Loader β) (bytes : List Byte) :
      (l.writeAll bytes).bus = Bus.replay l.bus (Bus.block l.cursor bytes) ∧
        (l.writeAll bytes).record = l.record ++ Bus.block l.cursor bytes :=
    ⟨(l.writeAll_writes bytes).1, (l.writeAll_writes bytes).2.1⟩
  cases c with
  | moveTo address | pushScope => exact ⟨rfl, (List.append_nil _).symm⟩
  | write value => exact hblock l [value]
  | writeWord value => exact hblock l [Word.low value, Word.high value]
  | writeAll bytes => exact hblock l bytes
  | fixup | endScope => exact l.fixup_writes
  | label name =>
    obtain ⟨hbus, hrecord⟩ := l.label_fields name
    exact ⟨hbus, hrecord.trans (List.append_nil _).symm⟩
  | instruction op =>
    simp only [call, instruction, written]
    cases op.encode with
    | some byte => exact hblock l [byte]
    | none => exact ⟨rfl, (List.append_nil _).symm⟩
  | loadImage encoded address =>
    simp only [call, loadImage, written]
    cases Image.decodeAt encoded address with
    | ok image => exact hblock (l.moveTo image.address) image.bytes
    | error error => exact ⟨rfl, (List.append_nil _).symm⟩
  | refer encoding text =>
    simp only [call, emit_eq, written]
    cases hrefer : l.refer text encoding with
    | ok emitted =>
      obtain ⟨hbus, hrecord, hcursor⟩ := refer_ok_fields hrefer
      rw [← hbus, ← hrecord, ← hcursor]
      exact hblock emitted (placeholder encoding)
    | error fault => exact ⟨rfl, (List.append_nil _).symm⟩

def writes (l : Loader β) : List Call → List (Word × Byte)
  | [] => []
  | c :: calls => l.written c ++ (l.call c).writes calls

theorem after_writes (calls : List Call) (l : Loader β) :
    (l.after calls).bus = Bus.replay l.bus (l.writes calls) ∧
      (l.after calls).record = l.record ++ l.writes calls := by
  induction calls generalizing l with
  | nil => exact ⟨rfl, (List.append_nil _).symm⟩
  | cons c calls ih =>
    obtain ⟨hbus, hrecord⟩ := l.call_writes c
    obtain ⟨hbus', hrecord'⟩ := ih (l.call c)
    rw [writes, Bus.replay_append, ← hbus, ← List.append_assoc, ← hrecord]
    exact ⟨hbus', hrecord'⟩

section Spared

variable {l : Loader β} {x : Word} {entry : Word × PendingReference}

theorem mem_pending_call {c : Call} (h : entry ∈ (l.call c).pending) :
    entry ∈ l.pending ∨ entry ∈ l.emission c := by
  cases hfixesUp : c.fixesUp with
  | true =>
    rw [pending_of_fixesUp hfixesUp] at h
    cases h
  | false =>
    rw [(call_fields hfixesUp).2] at h
    rcases l.emission_cases c with hemission | ⟨reference, hemission, -⟩
    · rw [hemission] at h
      exact .inl h
    · rw [hemission] at h ⊢
      exact (Sorted.mem_insert h).symm.imp_right List.mem_singleton.mpr

theorem mem_pending_after {calls : List Call} (hspared : ∀ entry ∈ l.writes calls, entry.1 ≠ x)
    (hcovers : Covers entry x) (h : entry ∈ (l.after calls).pending) : entry ∈ l.pending := by
  induction calls generalizing l with
  | nil => exact h
  | cons c calls ih =>
    rw [writes, List.forall_mem_append] at hspared
    obtain ⟨hcall, hcalls⟩ := hspared
    refine (mem_pending_call (ih hcalls h)).resolve_right fun hemission => ?_
    obtain ⟨value, hvalue⟩ := hcovers
    rw [← written_of_emission hemission] at hvalue
    exact hcall _ hvalue rfl

theorem lookup_pending_after {calls : List Call} (hspared : ∀ entry ∈ l.writes calls, entry.1 ≠ x)
    (hcalls : ∀ c ∈ calls, c.fixesUp = false) :
    (l.after calls).pending.lookup x = l.pending.lookup x := by
  induction calls generalizing l with
  | nil => rfl
  | cons c calls ih =>
    rw [writes, List.forall_mem_append] at hspared
    rw [List.forall_mem_cons] at hcalls
    refine (ih hspared.2 hcalls.2).trans ?_
    rw [(call_fields hcalls.1).2]
    rcases l.emission_cases c with hemission | ⟨reference, hemission, -⟩
    · rw [hemission]
      rfl
    · have hmem : (l.cursor, reference) ∈ l.emission c := by simp [hemission]
      obtain ⟨value, hvalue⟩ := covers_self (l.cursor, reference)
      rw [← written_of_emission hmem] at hvalue
      rw [hemission, List.foldl_cons, List.foldl_nil, Sorted.lookup_insert,
        if_neg (hspared.1 _ hvalue).symm]

end Spared

end Nmos6502.Loader
