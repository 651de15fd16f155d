import Nmos6502.Proofs.Label.Display
import Nmos6502.Proofs.Loader.Placeholders
import Nmos6502.Proofs.Loader.Record

namespace Nmos6502

universe u

/-- The reference that an error quotes, and where it stands. -/
def FixupError.quoted? : FixupError → Option (String × Word)
  | unresolved text slot | branchOutOfRange text slot _ | byteOutOfRange text slot _
  | wordOutOfRange text slot _ | overwritten text slot => some (text, slot)
  | label _ | unknownInstruction _ _ => none

theorem PendingReference.quoted?_of_resolve {p : PendingReference} {slot : Word}
    {labels : LabelTable} {e : FixupError} (h : p.resolve slot labels = .error e) :
    e.quoted? = some (p.target.text, slot) := by
  have hif : ∀ {fits : Prop} [Decidable fits] {patch : Patch} {refusal : FixupError},
      (if fits then .ok patch else .error refusal : Except FixupError Patch) = .error e →
        refusal = e := by
    intro fits _ patch refusal heq
    split at heq
    · cases heq
    · exact Except.error.inj heq
  simp only [resolve] at h
  split at h
  case h_1 =>
    obtain rfl := Except.error.inj h
    rfl
  case h_2 =>
    split at h
    case h_1 | h_2 =>
      obtain rfl := hif h
      rfl
    case h_3 =>
      split at h
      case h_1 =>
        obtain rfl := Except.error.inj h
        rfl
      case h_2 =>
        obtain rfl := hif h
        rfl

namespace Loader

variable {β : Type u}

/-- What waits has been emitted, and every error that quotes a reference quotes one that has. -/
structure Traced (l : Loader β) (told : List (Word × PendingReference)) : Prop where
  pending : ∀ entry ∈ l.pending, entry ∈ told
  errors : ∀ e ∈ l.errors, ∀ text slot, e.quoted? = some (text, slot) →
    ∃ reference, (slot, reference) ∈ told ∧ reference.target.text = text
  named : ∀ entry ∈ told, Reference.IsName entry.2.target.name.toList

variable {l : Loader β} {told : List (Word × PendingReference)}

theorem isName_of_emission {c : Call} {entry : Word × PendingReference} (h : entry ∈ l.emission c) :
    Reference.IsName entry.2.target.name.toList := by
  cases c with
  | refer encoding text =>
    rw [emission] at h
    split at h
    case h_1 hread =>
      rw [List.mem_singleton.mp h]
      exact Reference.isName_of_read hread
    case h_2 => cases h
    case h_3 => cases h
  | _ => cases h

theorem mem_pending_of_reported {c : Call} {e : FixupError} (he : e ∈ l.reported c) {text : String}
    {slot : Word} (hquoted : e.quoted? = some (text, slot)) :
    ∃ reference, (slot, reference) ∈ l.pending ∧ reference.target.text = text := by
  cases c with
  | instruction op =>
    rw [reported] at he
    split at he
    · cases he
    · obtain rfl := List.mem_singleton.mp he
      cases hquoted
  | label name =>
    rw [reported] at he
    split at he
    · cases he
    · obtain rfl := List.mem_singleton.mp he
      cases hquoted
  | refer encoding written =>
    rw [reported] at he
    split at he
    case h_1 =>
      obtain ⟨previous, hprevious, rfl⟩ := List.mem_map.mp he
      rw [Option.mem_toList, List.lookup_eq_some_iff] at hprevious
      obtain ⟨before, behind, hpending, -⟩ := hprevious
      obtain ⟨rfl, rfl⟩ := Prod.mk.inj (Option.some.inj hquoted)
      exact ⟨previous, by simp [hpending], rfl⟩
    case h_2 =>
      obtain rfl := List.mem_singleton.mp he
      cases hquoted
    case h_3 => cases he
  | _ => cases he

variable [Bus β]

theorem traced_call (h : Traced l told) (c : Call) :
    Traced (l.call c) (if c.fixesUp then [] else told ++ l.emission c) := by
  cases hfixesUp : c.fixesUp with
  | true =>
    have herrors : (l.call c).errors = [] := by
      cases c with
      | endScope | fixup => exact l.fixup_fields.2.2.2
      | _ => cases hfixesUp
    rw [if_pos rfl]
    exact ⟨by simp [pending_of_fixesUp hfixesUp], by simp [herrors], by simp⟩
  | false =>
    obtain ⟨herrors, -⟩ := call_fields (l := l) hfixesUp
    rw [if_neg Bool.false_ne_true]
    refine ⟨fun entry hentry => ?_, fun e he text slot hquoted => ?_, ?_⟩
    · exact List.mem_append.mpr ((mem_pending_call hentry).imp_left (h.pending entry))
    · rw [herrors] at he
      obtain ⟨reference, hmem, htext⟩ :
          ∃ reference, (slot, reference) ∈ told ∧ reference.target.text = text := by
        rcases List.mem_append.mp he with he | he
        · exact h.errors e he text slot hquoted
        · obtain ⟨reference, hmem, htext⟩ := mem_pending_of_reported he hquoted
          exact ⟨reference, h.pending _ hmem, htext⟩
      exact ⟨reference, List.mem_append_left _ hmem, htext⟩
    · exact List.forall_mem_append.mpr ⟨h.named, fun entry => isName_of_emission⟩

theorem traced_after (h : Traced l told) (calls : List Call) :
    Traced (l.after calls) (l.emitted told calls) := by
  induction calls generalizing l told with
  | nil => exact h
  | cons c calls ih => exact ih (traced_call h c)

/-- What is printed can be read. Hence an error in which a load ends tells which of the references
since the last fixup it is about: one of them is quoted, no other reference is printed like it, and
what the quotation reads as is this reference if its offset is within the bounds. -/
theorem quoted_identifies (bus : β) (labels : LabelTable) (calls : List Call) :
    (∀ r : Reference, Reference.IsName r.name.toList →
      -Reference.maxOffset ≤ r.offset ∧ r.offset ≤ Reference.maxOffset →
        Reference.read r.text = .ok (.ok r)) ∧
    ∀ failure, ((start bus labels).after calls).fixup.2 = .error failure →
      ∀ e ∈ failure.errors, ∀ text slot, e.quoted? = some (text, slot) →
        ∃ reference, (slot, reference) ∈ (start bus labels).emitted [] calls ∧
          (∀ r : Reference, Reference.IsName r.name.toList ∧ r.text = text ↔
            r = reference.target) ∧
          (-Reference.maxOffset ≤ reference.target.offset ∧
              reference.target.offset ≤ Reference.maxOffset →
            Reference.read text = .ok (.ok reference.target)) := by
  refine ⟨fun r => Reference.read_text, fun failure hfailure e he text slot hquoted => ?_⟩
  have htraced : Traced ((start bus labels).after calls) ((start bus labels).emitted [] calls) :=
    traced_after ⟨by simp [start], by simp [start], by simp⟩ calls
  obtain ⟨reference, hmem, rfl⟩ : ∃ reference, (slot, reference) ∈
      (start bus labels).emitted [] calls ∧ reference.target.text = text := by
    rcases List.mem_append.mp (exists_failure_iff.mp ⟨failure, hfailure, he⟩) with he | he
    · exact htraced.errors e he text slot hquoted
    · obtain ⟨address, reference, hmem, hresolve⟩ := mem_unresolved.mp he
      rw [PendingReference.quoted?_of_resolve hresolve] at hquoted
      obtain ⟨rfl, rfl⟩ := Prod.mk.inj (Option.some.inj hquoted)
      exact ⟨reference, htraced.pending _ hmem, rfl⟩
  have hname := htraced.named _ hmem
  refine ⟨reference, hmem, fun r => ⟨?_, ?_⟩, Reference.read_text hname⟩
  · rintro ⟨hr, htext⟩
    exact Reference.text_injective hr hname htext
  · rintro rfl
    exact ⟨hname, rfl⟩

/-- A reference to a missing label that gave way to another one. -/
theorem quoted_identifies_overwritten :
    let calls := [Call.refer .byte " 0x1 - $FF:hi", .moveTo 0, .refer .word "end"]
    let failure := LoadFailure.mk [.overwritten "0x1-255:HI" 0, .unresolved "end" 0]
    ((start FlatMemory.zeroed .empty).after calls).fixup.2 = .error failure ∧
      Reference.read "0x1-255:HI" = .ok (.ok ⟨"0x1", -255, .hi⟩) := by
  intro calls failure
  have hfailure : ((start FlatMemory.zeroed .empty).after calls).fixup.2 = .error failure := by
    decide +kernel
  obtain ⟨reference, -, hprinted, hread⟩ := (quoted_identifies FlatMemory.zeroed .empty calls).2
    failure hfailure (.overwritten "0x1-255:HI" 0) List.mem_cons_self "0x1-255:HI" 0 rfl
  have hname : Reference.IsName "0x1".toList :=
    ⟨by decide, List.all_iff_forall_prop.mp (by decide)⟩
  have htarget := (hprinted ⟨"0x1", -255, .hi⟩).mp ⟨hname, by decide +kernel⟩
  rw [← htarget] at hread
  exact ⟨hfailure, hread ⟨by decide, by decide⟩⟩

end Loader

end Nmos6502
