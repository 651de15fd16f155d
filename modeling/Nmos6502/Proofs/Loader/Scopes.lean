import Nmos6502.Proofs.Label.Scopes
import Nmos6502.Proofs.Loader.Placeholders
import Nmos6502.Proofs.Loader.Record

namespace Nmos6502

universe u

namespace LabelTable

/-- The same scopes as before, with more labels in the innermost one if any. -/
structure Fills (own before : LabelTable) : Prop where
  outer : own.outer = before.outer
  inner : ∀ name address, before.inner.lookup name = some address →
    own.inner.lookup name = some address

variable {own before now : LabelTable}

theorem scopes_inj (h : now.scopes = own.scopes) : now = own := by
  obtain ⟨inner, outer⟩ := now
  obtain ⟨rfl, rfl⟩ := List.cons.inj h
  rfl

theorem Fills.refl (t : LabelTable) : t.Fills t :=
  ⟨rfl, fun _ _ h => h⟩

theorem Fills.define (h : own.Fills before) (name : String) (address : Word) :
    (own.edit (.define name address)).Fills before := by
  obtain ⟨houter, hinner⟩ := own.edit_define name address
  refine ⟨houter.trans h.outer, fun other place hplace => ?_⟩
  rw [hinner, Meaning.define, h.inner other place hplace, Option.some_or]

/-- The scopes of `before` are open, with more labels in the innermost of them if any, and inside
them newer ones. -/
def Grows (before now : LabelTable) : Prop :=
  ∃ own newer, Fills own before ∧ now.scopes = newer ++ own.scopes

theorem Grows.refl (t : LabelTable) : t.Grows t :=
  ⟨t, [], .refl t, rfl⟩

theorem Grows.pushScope (h : before.Grows now) : before.Grows now.pushScope := by
  obtain ⟨own, newer, hown, hnow⟩ := h
  exact ⟨own, [] :: newer, hown, congrArg ([] :: ·) hnow⟩

theorem Grows.define (h : before.Grows now) (name : String) (address : Word) :
    before.Grows (now.edit (.define name address)) := by
  obtain ⟨own, newer, hown, hnow⟩ := h
  cases newer with
  | nil =>
    obtain rfl : now = own := scopes_inj hnow
    exact ⟨_, [], hown.define name address, rfl⟩
  | cons scope newer =>
    refine ⟨own, (now.edit (.define name address)).inner :: newer, hown, ?_⟩
    exact congrArg (_ :: ·) ((now.edit_define name address).1.trans (List.cons.inj hnow).2)

theorem lookup_of_newer {newer : List Scope} (hnow : now.scopes = newer ++ own.scopes)
    (name : String) : now.lookup name =
      (newer.findSome? fun scope => scope.lookup name).or (own.lookup name) := by
  rw [lookup, hnow, List.findSome?_append]
  rfl

end LabelTable

theorem PendingReference.resolve_congr {p : PendingReference} {labels labels' : LabelTable}
    (h : labels.lookup p.target.name = labels'.lookup p.target.name) (slot : Word) :
    p.resolve slot labels = p.resolve slot labels' := by
  simp only [resolve, h]

namespace Loader

/-- The call neither opens nor discards a scope, and it fixes nothing up. -/
def Call.plain : Call → Bool
  | .moveTo _ | .write _ | .writeWord _ | .writeAll _ | .instruction _ | .label _ | .refer _ _
  | .loadImage _ _ => true
  | .pushScope | .endScope | .fixup => false

/-- The labels when a call has been made at the cursor. -/
def Call.labels (cursor : Word) (labels : LabelTable) : Call → LabelTable
  | .label name => labels.edit (.define name cursor)
  | .moveTo _ | .write _ | .writeWord _ | .writeAll _ | .instruction _ | .refer _ _
  | .loadImage _ _ | .pushScope | .endScope | .fixup => labels

variable {β : Type u} [Bus β] {l : Loader β} {c : Call}

theorem labels_call (hc : c.plain = true) (l : Loader β) :
    (l.call c).labels = c.labels l.cursor l.labels := by
  cases c with
  | pushScope | endScope | fixup => cases hc
  | moveTo | write => rfl
  | writeWord | writeAll => exact (l.writeAll_fields _).1
  | label name =>
    rw [call, label, Call.labels, LabelTable.edit]
    cases l.labels.define name l.cursor <;> rfl
  | instruction op =>
    rw [call, instruction]
    cases op.encode <;> rfl
  | loadImage encoded address =>
    rw [call, loadImage]
    cases Image.decodeAt encoded address with
    | ok image => exact (writeAll_fields _ _).1
    | error error => rfl
  | refer encoding text =>
    simp only [call, emit_eq]
    obtain ⟨target, -, hrefer⟩ | ⟨error, -, hrefer⟩ | ⟨fault, -, hrefer⟩ :=
      l.refer_cases text encoding
    · simp only [hrefer, Except.map, writeAll_fields]
      exact (l.await_fields target encoding).2.2.2
    · simp only [hrefer, Except.map, writeAll_fields]
      rfl
    · simp only [hrefer, Except.map]
      rfl

theorem call_labels (h : c.fixesUp = false) : (l.call c).labels = l.labels ∨
    (l.call c).labels = l.labels.pushScope ∨
    ∃ name, (l.call c).labels = l.labels.edit (.define name l.cursor) := by
  cases c with
  | endScope | fixup => cases h
  | pushScope => exact .inr (.inl rfl)
  | label name => exact .inr (.inr ⟨name, labels_call rfl l⟩)
  | moveTo | write | writeWord | writeAll | instruction | refer | loadImage =>
    exact .inl (labels_call rfl l)

theorem grows_call {before : LabelTable} (h : before.Grows l.labels) (hc : c.fixesUp = false) :
    before.Grows (l.call c).labels := by
  obtain hlabels | hlabels | ⟨name, hlabels⟩ := call_labels (l := l) hc
  · rw [hlabels]
    exact h
  · rw [hlabels]
    exact h.pushScope
  · rw [hlabels]
    exact h.define name l.cursor

/-- The references that have been emitted since the last fixup, each with the labels at that
time. -/
def emittedWithLabels (l : Loader β) (told : List (LabelTable × Word × PendingReference)) :
    List Call → List (LabelTable × Word × PendingReference)
  | [] => told
  | c :: calls => (l.call c).emittedWithLabels
      (if c.fixesUp then [] else told ++ (l.emission c).map fun entry => (l.labels, entry)) calls

theorem map_snd_emittedWithLabels (calls : List Call) (l : Loader β)
    (told : List (LabelTable × Word × PendingReference)) :
    (l.emittedWithLabels told calls).map Prod.snd = l.emitted (told.map Prod.snd) calls := by
  induction calls generalizing l told with
  | nil => rfl
  | cons c calls ih =>
    rw [emittedWithLabels, ih, emitted]
    cases c.fixesUp <;> simp [Function.comp_def]

theorem grows_emittedWithLabels {told : List (LabelTable × Word × PendingReference)}
    (h : ∀ entry ∈ told, entry.1.Grows l.labels) (calls : List Call) :
    ∀ entry ∈ l.emittedWithLabels told calls, entry.1.Grows (l.after calls).labels := by
  induction calls generalizing l told with
  | nil => exact h
  | cons c calls ih =>
    refine ih (l := l.call c) fun entry hentry => ?_
    cases hc : c.fixesUp with
    | true => simp [hc] at hentry
    | false =>
      simp only [hc, Bool.false_eq_true, if_false, List.mem_append, List.mem_map] at hentry
      refine grows_call ?_ hc
      rcases hentry with hentry | ⟨emitted, -, rfl⟩
      · exact h entry hentry
      · exact .refl l.labels

/-- How the labels of a fixup stand to those of the scopes where a reference was emitted. -/
def Resolves (now before : LabelTable) (slot : Word) (p : PendingReference) : Prop :=
  ∃ own newer, LabelTable.Fills own before ∧ now.scopes = newer ++ own.scopes ∧
    (∀ name, now.lookup name =
      (newer.findSome? fun scope => scope.lookup name).or (own.lookup name)) ∧
    ((∀ scope ∈ newer, scope.lookup p.target.name = none) →
      p.resolve slot now = p.resolve slot own)

theorem resolves_of_grows {before now : LabelTable} (h : before.Grows now) (slot : Word)
    (p : PendingReference) : Resolves now before slot p := by
  obtain ⟨own, newer, hown, hnow⟩ := h
  refine ⟨own, newer, hown, hnow, LabelTable.lookup_of_newer hnow, fun hnewer => ?_⟩
  refine PendingReference.resolve_congr ?_ slot
  rw [LabelTable.lookup_of_newer hnow, List.findSome?_eq_none_iff.mpr hnewer, Option.none_or]

/-- A fixup that goes well patches the references since the last one, each in the scopes where it
was emitted with what has been defined there since, as long as no newer scope defines its label. -/
theorem reference_follows_scopes (bus : β) (labels : LabelTable) (calls : List Call)
    (hok : ((start bus labels).after calls).fixup.2 = .ok ()) :
    let now := (start bus labels).after calls
    let emitted := (start bus labels).emittedWithLabels [] calls
    (∀ c : Call, c.fixesUp = true → (now.call c).record = now.record ++ now.patchWrites) ∧
      (∀ a p, (a, p) ∈ now.patches ↔ ∃ table reference, (table, a, reference) ∈ emitted ∧
        reference.resolve a now.labels = .ok p) ∧
      ∀ table a reference, (table, a, reference) ∈ emitted →
        Resolves now.labels table a reference := by
  intro now emitted
  have hproblems : now.errors ++ now.unresolved = [] := fixup_ok_iff.mp hok
  have hkept : now.pending.Perm (emitted.map Prod.snd) := by
    rw [map_snd_emittedWithLabels]
    exact keeps_after (fun _ => .refl _) calls (List.append_eq_nil_iff.mp hproblems).1
  refine ⟨fun c hc => ?_, fun a p => ?_, fun table a reference hmem => ?_⟩
  · have hwritten : now.written c = now.patchWrites := by
      cases c with
      | endScope | fixup => exact if_pos (List.isEmpty_iff.mpr hproblems)
      | _ => cases hc
    rw [(now.call_writes c).2, hwritten]
  · rw [mem_patches]
    constructor
    · rintro ⟨reference, hpending, hresolve⟩
      obtain ⟨⟨table, entry⟩, hmem, rfl⟩ := List.mem_map.mp (hkept.mem_iff.mp hpending)
      exact ⟨table, reference, hmem, hresolve⟩
    · rintro ⟨table, reference, hmem, hresolve⟩
      exact ⟨reference, hkept.mem_iff.mpr (List.mem_map_of_mem hmem), hresolve⟩
  · exact resolves_of_grows (grows_emittedWithLabels (by simp) calls _ hmem) a reference

/-- An inner scope with another label in it. -/
theorem reference_follows_scopes_inner :
    let calls := [Call.moveTo 0x0200, .refer .word "a", .moveTo 0x0300, .label "a", .pushScope,
      .moveTo 0x1234, .label "b"]
    let now := (start FlatMemory.zeroed .empty).after calls
    ∃ table reference, Resolves now.labels table 0x0200 reference ∧
      reference.resolve 0x0200 now.labels = .ok (.word 0x0300) := by
  intro calls now
  obtain ⟨-, hpatches, hresolves⟩ := reference_follows_scopes FlatMemory.zeroed .empty calls
    (fixup_ok_iff.mpr (by decide +kernel))
  have hpatch : (0x0200, .word 0x0300) ∈ now.patches := by
    decide +kernel
  obtain ⟨table, reference, hemitted, hresolve⟩ := (hpatches _ _).mp hpatch
  exact ⟨table, reference, hresolves _ _ _ hemitted, hresolve⟩

theorem endScope_result (l : Loader β) : l.endScope.2 = l.fixup.2 :=
  rfl

/-- The label of an inner scope is taken for that of the scope where the reference stands. -/
theorem reference_captured :
    let outside := (start FlatMemory.zeroed .empty).after
      [.moveTo 0x0300, .label "a", .moveTo 0x0200, .refer .word "a"]
    let inside := outside.after [.pushScope, .moveTo 0x1234, .label "a"]
    let closed := inside.call .endScope
    outside.labels.lookup "a" = some 0x0300 ∧ inside.endScope.2 = .ok () ∧
      closed.labels = outside.labels ∧ Bus.readWord closed.bus 0x0200 = 0x1234 := by
  intro outside inside closed
  refine ⟨by decide +kernel, ?_, by decide +kernel, by decide +kernel⟩
  rw [endScope_result, fixup_ok_iff]
  decide +kernel

end Loader

end Nmos6502
