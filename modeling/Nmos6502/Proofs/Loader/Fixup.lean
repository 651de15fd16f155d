import Nmos6502.Bus.Flat
import Nmos6502.Proofs.Bus.Recorded
import Nmos6502.Proofs.Loader.Calls

namespace Nmos6502

universe u

variable {β : Type u}

def Patch.writes (address : Word) : Patch → List (Word × Byte)
  | .byte value => [(address, value)]
  | .word value => [(address, Word.low value), (address + 1, Word.high value)]

namespace Loader

variable {l : Loader β}

/-- The references that resolve, with their addresses in ascending order. -/
def patches (l : Loader β) : List (Word × Patch) :=
  l.pending.filterMap fun entry => (entry.2.resolve entry.1 l.labels).toOption.map (entry.1, ·)

/-- An error for each of the others. -/
def unresolved (l : Loader β) : List FixupError :=
  l.pending.filterMap fun entry =>
    match entry.2.resolve entry.1 l.labels with
    | .ok _ => none
    | .error error => some error

def patchWrites (l : Loader β) : List (Word × Byte) :=
  l.patches.flatMap fun entry => entry.2.writes entry.1

theorem resolveAll_eq (l : Loader β) :
    resolveAll l.labels l.pending = (l.patches, l.unresolved) := by
  rw [patches, unresolved]
  induction l.pending with
  | nil => rfl
  | cons entry pending ih =>
    rw [resolveAll, ih]
    cases hresolve : entry.2.resolve entry.1 l.labels <;> simp [hresolve, Except.toOption]

theorem resolve_of_unresolved_nil (h : l.unresolved = []) {entry : Word × PendingReference}
    (hentry : entry ∈ l.pending) : ∃ patch, entry.2.resolve entry.1 l.labels = .ok patch := by
  have hnone := List.filterMap_eq_nil_iff.mp h entry hentry
  cases hresolve : entry.2.resolve entry.1 l.labels with
  | ok patch => exact ⟨patch, rfl⟩
  | error error => simp [hresolve] at hnone

theorem mem_patches {address : Word} {patch : Patch} : (address, patch) ∈ l.patches ↔
    ∃ reference, (address, reference) ∈ l.pending ∧
      reference.resolve address l.labels = .ok patch := by
  constructor
  · intro h
    obtain ⟨⟨a, reference⟩, hmem, hentry⟩ := List.mem_filterMap.mp h
    cases hresolve : reference.resolve a l.labels with
    | ok found =>
      simp only [hresolve, Except.toOption, Option.map_some, Option.some.injEq,
        Prod.mk.injEq] at hentry
      obtain ⟨rfl, rfl⟩ := hentry
      exact ⟨reference, hmem, hresolve⟩
    | error error => simp [hresolve, Except.toOption] at hentry
  · rintro ⟨reference, hmem, hresolve⟩
    exact List.mem_filterMap.mpr ⟨_, hmem, by simp [hresolve, Except.toOption]⟩

theorem mem_unresolved {error : FixupError} : error ∈ l.unresolved ↔
    ∃ address reference, (address, reference) ∈ l.pending ∧
      reference.resolve address l.labels = .error error := by
  simp only [unresolved, List.mem_filterMap, Prod.exists]
  refine exists_congr fun address => exists_congr fun reference => and_congr_right fun _ => ?_
  cases reference.resolve address l.labels <;> simp

theorem patches_ascending (h : Sorted.Ascending l.pending) : Sorted.Ascending l.patches := by
  refine List.Pairwise.filterMap _ ?_ h
  intro entry later hlt first hfirst second hsecond
  obtain ⟨patch, -, rfl⟩ := Option.map_eq_some_iff.mp hfirst
  obtain ⟨patch', -, rfl⟩ := Option.map_eq_some_iff.mp hsecond
  exact hlt

/-- The loader with nothing left to do. -/
def cleared (l : Loader β) : Loader β :=
  { l with pending := [], errors := [] }

def record (l : Loader β) : List (Word × Byte) :=
  l.stores.toList.map fun entry => (entry.address, entry.value)

variable [Bus β]

def perform (l : Loader β) (writes : List (Word × Byte)) : Loader β :=
  writes.foldl (fun l entry => l.patch entry.1 entry.2) l

theorem perform_fields (l : Loader β) (writes : List (Word × Byte)) :
    (l.perform writes).bus = Bus.replay l.bus writes ∧
      (l.perform writes).record = l.record ++ writes ∧
      (l.perform writes).labels = l.labels ∧ (l.perform writes).cursor = l.cursor ∧
      (l.perform writes).pending = l.pending ∧ (l.perform writes).errors = l.errors := by
  induction writes generalizing l with
  | nil => simp [perform]
  | cons entry writes ih =>
    have hrecord : (l.patch entry.1 entry.2).record = l.record ++ [entry] := by
      simp [patch, record, Bus.store]
    obtain ⟨hbus, htold, hrest⟩ := ih (l.patch entry.1 entry.2)
    refine ⟨hbus, ?_, hrest⟩
    rw [hrecord, List.append_assoc] at htold
    exact htold

theorem foldl_applyPatch (l : Loader β) (patches : List (Word × Patch)) :
    patches.foldl (fun l entry => l.applyPatch entry.1 entry.2) l =
      l.perform (patches.flatMap fun entry => entry.2.writes entry.1) := by
  induction patches generalizing l with
  | nil => rfl
  | cons entry patches ih =>
    have hfirst : l.applyPatch entry.1 entry.2 = l.perform (entry.2.writes entry.1) := by
      cases entry.2 <;> rfl
    rw [List.foldl_cons, ih, hfirst, List.flatMap_cons, perform, perform, perform,
      List.foldl_append]

theorem fixup_eq (l : Loader β) :
    l.fixup = if (l.errors ++ l.unresolved).isEmpty then (l.cleared.perform l.patchWrites, .ok ())
      else (l.cleared, .error ⟨l.errors ++ l.unresolved⟩) := by
  simp only [fixup, resolveAll_eq, foldl_applyPatch, cleared, patchWrites]

theorem fixup_ok_iff : l.fixup.2 = .ok () ↔ l.errors ++ l.unresolved = [] := by
  rw [fixup_eq]
  split
  case isTrue h => exact iff_of_true rfl (List.isEmpty_iff.mp h)
  case isFalse h => exact iff_of_false (by simp) fun hnone => h (List.isEmpty_iff.mpr hnone)

theorem exists_failure_iff {error : FixupError} :
    (∃ failure, l.fixup.2 = .error failure ∧ error ∈ failure.errors) ↔
      error ∈ l.errors ++ l.unresolved := by
  rw [fixup_eq]
  split
  case isTrue h =>
    rw [List.isEmpty_iff.mp h]
    simp
  case isFalse => simp

theorem fixup_cleared (l : Loader β) : l.cleared.fixup = (l.cleared, .ok ()) :=
  rfl

theorem fixup_fields (l : Loader β) :
    l.fixup.1.labels = l.labels ∧ l.fixup.1.cursor = l.cursor ∧ l.fixup.1.pending = [] ∧
      l.fixup.1.errors = [] := by
  rw [fixup_eq]
  split
  · obtain ⟨-, -, hrest⟩ := l.cleared.perform_fields l.patchWrites
    exact hrest
  · exact ⟨rfl, rfl, rfl, rfl⟩

theorem fixup_fixup (l : Loader β) : l.fixup.1.fixup = (l.fixup.1, .ok ()) := by
  obtain ⟨-, -, hpending, herrors⟩ := l.fixup_fields
  have hcleared : l.fixup.1.cleared = l.fixup.1 := by
    rw [cleared, ← hpending, ← herrors]
  rw [← hcleared, fixup_cleared]

/-- What a fixup makes of a loader with these problems. -/
structure FixesUp (l : Loader β) (problems : List FixupError) : Prop where
  ordered : Sorted.Ascending l.pending
  refused : problems ≠ [] → l.fixup = (l.cleared, .error ⟨problems⟩)
  patched : problems = [] → l.fixup.2 = .ok () ∧
    (∀ entry ∈ l.pending, ∃ patch, entry.2.resolve entry.1 l.labels = .ok patch) ∧
      l.fixup.1.bus = Bus.replay l.bus l.patchWrites ∧
      l.fixup.1.record = l.record ++ l.patchWrites
  settled : l.fixup.1.labels = l.labels ∧ l.fixup.1.cursor = l.cursor ∧
    l.fixup.1.pending = [] ∧ l.fixup.1.errors = []
  again : l.fixup.1.fixup = (l.fixup.1, .ok ())
  /-- A fixup at the very end makes no difference. -/
  ended : l.fixup.1.finish = l.finish

theorem fixesUp (h : Sorted.Ascending l.pending) : l.FixesUp (l.errors ++ l.unresolved) where
  ordered := h
  refused hproblems := by
    rw [fixup_eq, if_neg (by simpa using hproblems)]
  patched hproblems := by
    rw [fixup_eq, if_pos (by simpa using hproblems)]
    obtain ⟨hbus, hrecord, -⟩ := l.cleared.perform_fields l.patchWrites
    refine ⟨rfl, ?_, hbus, hrecord⟩
    intro entry hentry
    exact resolve_of_unresolved_nil (List.append_eq_nil_iff.mp hproblems).2 hentry
  settled := l.fixup_fields
  again := l.fixup_fixup
  ended := by
    rw [finish, finish, fixup_fixup]

theorem pending_of_fixesUp {c : Call} (h : c.fixesUp = true) : (l.call c).pending = [] := by
  cases c with
  | endScope | fixup => exact l.fixup_fields.2.2.1
  | _ => cases h

theorem call_ascending (h : Sorted.Ascending l.pending) (c : Call) :
    Sorted.Ascending (l.call c).pending := by
  cases hfixesUp : c.fixesUp with
  | true =>
    rw [pending_of_fixesUp hfixesUp]
    exact .nil
  | false =>
    rw [(call_fields hfixesUp).2]
    generalize l.emission c = emitted
    generalize l.pending = pending at h ⊢
    induction emitted generalizing pending with
    | nil => exact h
    | cons entry emitted ih => exact ih _ (Sorted.ascending_insert h)

theorem after_ascending (calls : List Call) (h : Sorted.Ascending l.pending) :
    Sorted.Ascending (l.after calls).pending := by
  induction calls generalizing l with
  | nil => exact h
  | cons c calls ih => exact ih (call_ascending h c)

/-- A fixup reports what has gone wrong in the calls before it, in their order, and then every
reference that does not resolve, by address. If there is nothing to report, it patches every
placeholder. -/
theorem fixup_all_or_nothing (l : Loader β) (hpending : Sorted.Ascending l.pending)
    (calls : List Call) (hcalls : ∀ c ∈ calls, c.fixesUp = false) :
    (l.after calls).FixesUp (l.errors ++ l.reports calls ++ (l.after calls).unresolved) := by
  rw [← after_errors hcalls]
  exact fixesUp (after_ascending calls hpending)

/-- A label that is defined twice, a reference that resolves and one that does not. -/
theorem fixup_all_or_nothing_refused :
    let calls := [Call.refer .word "here", .label "here", .label "here", .refer .relative "there"]
    let now := (start FlatMemory.zeroed .empty).after calls
    now.fixup = (now.cleared, .error ⟨[.label (.duplicate "here" 2), .unresolved "there" 2]⟩) := by
  intro calls now
  have hfixesUp := fixup_all_or_nothing (start FlatMemory.zeroed .empty) .nil calls
    (by decide +kernel)
  have hproblems : (start FlatMemory.zeroed .empty).errors ++
      (start FlatMemory.zeroed .empty).reports calls ++ now.unresolved =
        [.label (.duplicate "here" 2), .unresolved "there" 2] := by
    decide +kernel
  rw [hproblems] at hfixesUp
  exact hfixesUp.refused (by simp)

end Loader

end Nmos6502
