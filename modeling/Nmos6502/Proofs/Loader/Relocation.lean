import Nmos6502.Proofs.Loader.Resolution
import Nmos6502.Proofs.Loader.Scopes

/-!
A routine whose references are to its own labels can be loaded anywhere, each time in a scope of its
own. Its labels, its operands and the values that these resolve to all move with the base, so the
distances stay and the words are carried along.
-/

namespace Nmos6502

universe u

theorem LabelTable.lookup_of_inner {t : LabelTable} {name : String} {address : Word}
    (h : t.inner.lookup name = some address) : t.lookup name = some address := by
  simp [lookup, scopes, h]

namespace PendingReference

def width (p : PendingReference) : Nat :=
  (Loader.placeholder p.encoding).length

theorem exists_of_resolve_word {target : Reference} {labels : LabelTable} {slot address : Word}
    {patch : Patch} (hselect : target.select = .both)
    (haddress : labels.lookup target.name = some address)
    (h : (mk target .word).resolve slot labels = .ok patch) :
    ∃ value : Word, patch = .word value ∧ (value.toNat : Int) = address.toNat + target.offset := by
  obtain ⟨name, offset, select⟩ := target
  obtain rfl : select = .both := hselect
  rw [resolve_word haddress] at h
  split_ifs at h with hfits
  refine ⟨_, (Except.ok.inj h).symm, ?_⟩
  simp only [BitVec.toNat_ofInt]
  omega

theorem eq_of_resolve_relative {target : Reference} {labels : LabelTable} {slot address : Word}
    {patch : Patch} (hselect : target.select = .both)
    (haddress : labels.lookup target.name = some address)
    (h : (mk target .relative).resolve slot labels = .ok patch) :
    patch = .byte (BitVec.ofInt 8 (target.distance slot address)) := by
  by_cases hreach : target.InReach slot address
  · exact Except.ok.inj (h.symm.trans (resolve_of_inReach hselect haddress hreach))
  · obtain ⟨distance, herror⟩ := resolve_of_not_inReach hselect haddress hreach
    cases h.symm.trans herror

end PendingReference

namespace Loader

/-- The call may stand in a routine that is made of these calls. -/
def Call.Local (routine : List Call) : Call → Prop
  | .write _ | .writeWord _ | .writeAll _ | .instruction _ | .label _ => True
  | .refer .word text | .refer .relative text =>
    ∃ target, Reference.read text = .ok (.ok target) ∧ target.select = .both ∧
      .label target.name ∈ routine
  | .moveTo _ | .refer .byte _ | .loadImage _ _ | .pushScope | .endScope | .fixup => False

/-- What a call of a routine writes at the cursor. -/
def Call.code : Call → List Byte
  | .write value => [value]
  | .writeWord value => [Word.low value, Word.high value]
  | .writeAll bytes => bytes
  | .instruction op => op.encode.toList
  | .refer encoding _ => placeholder encoding
  | .moveTo _ | .label _ | .loadImage _ _ | .pushScope | .endScope | .fixup => []

def Call.reference? : Call → Option PendingReference
  | .refer encoding text =>
    match Reference.read text with
    | .ok (.ok target) => some ⟨target, encoding⟩
    | .ok (.error _) | .error _ => none
  | .moveTo _ | .write _ | .writeWord _ | .writeAll _ | .instruction _ | .label _
  | .loadImage _ _ | .pushScope | .endScope | .fixup => none

def machineCode (calls : List Call) : List Byte :=
  calls.flatMap Call.code

/-- The references that calls emit, with the offsets of their operands. -/
def references : List Call → List (Nat × PendingReference)
  | [] => []
  | c :: calls => c.reference?.toList.map (0, ·) ++
      (references calls).map fun entry => (c.code.length + entry.1, entry.2)

/-- The offset at which calls first define a label. -/
def offsetOf? (name : String) : List Call → Option Nat
  | [] => none
  | c :: calls =>
    if c = .label name then some 0 else (offsetOf? name calls).map (c.code.length + ·)

theorem emission_eq {β : Type u} (l : Loader β) (c : Call) :
    l.emission c = c.reference?.toList.map (l.cursor, ·) := by
  cases c with
  | refer encoding text =>
    rw [emission, Call.reference?]
    rcases Reference.read text with fault | error | target
    · rfl
    · rfl
    · rfl
  | _ => rfl

theorem length_code_of_reference? {c : Call} {p : PendingReference}
    (h : c.reference? = some p) : c.code.length = p.width := by
  cases c with
  | refer encoding text =>
    simp only [Call.reference?] at h
    split at h
    · obtain rfl := Option.some.inj h
      rfl
    · cases h
    · cases h
  | _ => cases h

theorem mem_references_cons {c : Call} {calls : List Call} {entry : Nat × PendingReference} :
    entry ∈ references (c :: calls) ↔ (entry.1 = 0 ∧ c.reference? = some entry.2) ∨
      ∃ later ∈ references calls, entry = (c.code.length + later.1, later.2) := by
  rw [references, List.mem_append, List.mem_map, List.mem_map]
  refine or_congr ?_ (exists_congr fun later => and_congr_right fun _ => eq_comm)
  obtain ⟨offset, p⟩ := entry
  simp [eq_comm, and_comm]

theorem end_le_of_mem_references {calls : List Call} {entry : Nat × PendingReference}
    (h : entry ∈ references calls) : entry.1 + entry.2.width ≤ (machineCode calls).length := by
  induction calls generalizing entry with
  | nil => cases h
  | cons c calls ih =>
    rw [machineCode, List.flatMap_cons, List.length_append, ← machineCode]
    rcases mem_references_cons.mp h with ⟨hzero, hreference⟩ | ⟨later, hlater, rfl⟩
    · rw [hzero, Nat.zero_add, length_code_of_reference? hreference]
      exact Nat.le_add_right _ _
    · rw [Nat.add_assoc]
      exact Nat.add_le_add_left (ih hlater) _

theorem references_apart (calls : List Call) :
    (references calls).Pairwise fun a b => a.1 + a.2.width ≤ b.1 := by
  induction calls with
  | nil => exact .nil
  | cons c calls ih =>
    rw [references, List.pairwise_append, List.pairwise_map, List.pairwise_map]
    refine ⟨?_, ih.imp fun h => ?_, ?_⟩
    · cases c.reference? <;> simp
    · rw [Nat.add_assoc]
      exact Nat.add_le_add_left h _
    · simp only [List.mem_map, Option.mem_toList]
      rintro _ ⟨p, hp, rfl⟩ _ ⟨later, -, rfl⟩
      rw [Nat.zero_add, length_code_of_reference? hp]
      exact Nat.le_add_right _ _

theorem exists_offsetOf? {name : String} {calls : List Call} (h : .label name ∈ calls) :
    ∃ i ≤ (machineCode calls).length, offsetOf? name calls = some i := by
  induction calls with
  | nil => cases h
  | cons c calls ih =>
    rw [offsetOf?, machineCode, List.flatMap_cons, List.length_append]
    split
    case isTrue => exact ⟨0, Nat.zero_le _, rfl⟩
    case isFalse hne =>
      obtain ⟨i, hi, hoffset⟩ := ih ((List.mem_cons.mp h).resolve_left (Ne.symm hne))
      exact ⟨_, Nat.add_le_add_left hi _, by rw [hoffset, Option.map_some]⟩

theorem local_of_mem_references {routine calls : List Call} (hcalls : ∀ c ∈ calls, c.Local routine)
    {entry : Nat × PendingReference} (h : entry ∈ references calls) :
    entry.2.encoding ≠ .byte ∧ entry.2.target.select = .both ∧
      .label entry.2.target.name ∈ routine := by
  induction calls generalizing entry with
  | nil => cases h
  | cons c calls ih =>
    rw [List.forall_mem_cons] at hcalls
    rcases mem_references_cons.mp h with ⟨-, hreference⟩ | ⟨later, hlater, rfl⟩
    · obtain ⟨offset, p⟩ := entry
      cases c with
      | refer encoding text =>
        cases encoding with
        | byte => exact hcalls.1.elim
        | word | relative =>
          obtain ⟨target, hread, hselect, hlabel⟩ := hcalls.1
          obtain rfl : PendingReference.mk target _ = p := by
            simpa [Call.reference?, hread] using hreference
          exact ⟨by simp, hselect, hlabel⟩
      | _ => cases hreference
    · exact (ih hcalls.2 hlater :)

section Run

variable {β : Type u} [Bus β] {routine calls : List Call} {c : Call}

theorem Call.Local.fixesUp (h : c.Local routine) : c.fixesUp = false := by
  cases c with
  | endScope | fixup => exact h.elim
  | _ => rfl

theorem exists_call_eq (h : c.Local routine) (l : Loader β) :
    ∃ noted : Loader β, l.call c = noted.writeAll c.code ∧ noted.bus = l.bus ∧
      noted.cursor = l.cursor ∧ noted.labels = c.labels l.cursor l.labels := by
  cases c with
  | write value | writeWord value | writeAll bytes => exact ⟨l, rfl, rfl, rfl, rfl⟩
  | instruction op =>
    simp only [call, instruction, Call.code]
    cases op.encode with
    | some byte => exact ⟨l, rfl, rfl, rfl, rfl⟩
    | none => exact ⟨l.report (.unknownInstruction op l.cursor), rfl, rfl, rfl, rfl⟩
  | label name =>
    refine ⟨l.label name, rfl, ?_⟩
    rw [label, Call.labels, LabelTable.edit]
    cases l.labels.define name l.cursor <;> exact ⟨rfl, rfl, rfl⟩
  | refer encoding text =>
    have hread : ∃ target, Reference.read text = .ok (.ok target) := by
      cases encoding with
      | byte => exact h.elim
      | word | relative => exact h.imp fun _ => And.left
    obtain ⟨target, hread⟩ := hread
    obtain ⟨hbus, -, hcursor, hlabels⟩ := l.await_fields target encoding
    refine ⟨l.await target encoding, ?_, hbus, hcursor, hlabels⟩
    simp [call, emit_eq, refer, hread, Except.map, Call.code]
  | moveTo | loadImage | pushScope | endScope | fixup => exact h.elim

theorem call_local (h : c.Local routine) (l : Loader β) :
    (l.call c).bus = Bus.replay l.bus (Bus.block l.cursor c.code) ∧
      (l.call c).cursor = l.cursor + BitVec.ofNat 16 c.code.length ∧
      (l.call c).labels = c.labels l.cursor l.labels := by
  obtain ⟨noted, hcall, hbus, hcursor, hlabels⟩ := exists_call_eq h l
  obtain ⟨hwritten, -, hmoved⟩ := noted.writeAll_writes c.code
  rw [hcall, ← hlabels, ← hbus, ← hcursor]
  exact ⟨hwritten, hmoved, (noted.writeAll_fields c.code).1⟩

theorem labels_fields (c : Call) (cursor : Word) (labels : LabelTable) :
    (c.labels cursor labels).outer = labels.outer ∧
      ∀ name, (c.labels cursor labels).inner.lookup name =
        (labels.inner.lookup name).or (if c = .label name then some cursor else none) := by
  cases c with
  | label defined =>
    obtain ⟨houter, hinner⟩ := labels.edit_define defined cursor
    refine ⟨houter, fun name => ?_⟩
    rw [Call.labels, hinner, Meaning.define]
    simp only [Call.label.injEq, eq_comm]
  | _ => simp [Call.labels]

theorem after_local (h : ∀ c ∈ calls, c.Local routine) (l : Loader β) :
    (l.after calls).bus = Bus.replay l.bus (Bus.block l.cursor (machineCode calls)) ∧
      (l.after calls).labels.outer = l.labels.outer ∧
      ∀ name, (l.after calls).labels.inner.lookup name = (l.labels.inner.lookup name).or
        ((offsetOf? name calls).map fun i => l.cursor + BitVec.ofNat 16 i) := by
  induction calls generalizing l with
  | nil => exact ⟨rfl, rfl, fun _ => (Option.or_none ..).symm⟩
  | cons c calls ih =>
    rw [List.forall_mem_cons] at h
    obtain ⟨hbus, hcursor, hlabels⟩ := call_local h.1 l
    obtain ⟨houter, hinner⟩ := labels_fields c l.cursor l.labels
    obtain ⟨hbus', houter', hinner'⟩ := ih h.2 (l.call c)
    refine ⟨?_, ?_, fun name => ?_⟩
    · rw [machineCode, List.flatMap_cons, Bus.block_append, Bus.replay_append, ← hbus, ← hcursor]
      exact hbus'
    · exact houter'.trans ((congrArg _ hlabels).trans houter)
    · -- A definition is refused where the label is defined already, so the first one stays.
      refine (hinner' name).trans ?_
      rw [hlabels, hinner, hcursor, Option.or_assoc, offsetOf?]
      split
      · rw [Option.some_or, Option.map_some, BitVec.add_zero]
      · simp [Function.comp_def, BitVec.ofNat_add, BitVec.add_assoc]

theorem emitted_local (h : ∀ c ∈ calls, c.Local routine) (l : Loader β)
    (told : List (Word × PendingReference)) :
    l.emitted told calls = told ++
      (references calls).map fun entry => (l.cursor + BitVec.ofNat 16 entry.1, entry.2) := by
  induction calls generalizing l told with
  | nil => exact (List.append_nil _).symm
  | cons c calls ih =>
    rw [List.forall_mem_cons] at h
    rw [emitted, h.1.fixesUp, if_neg Bool.false_ne_true, ih h.2, (call_local h.1 l).2.1, references,
      emission_eq]
    simp [Function.comp_def, BitVec.ofNat_add, BitVec.add_assoc]

end Run

end Loader

/-- Calls that write code with references to labels of their own, all of them without a selector. -/
structure Routine where
  calls : List Loader.Call
  local_calls : ∀ c ∈ calls, c.Local calls

namespace Routine

def code (r : Routine) : List Byte :=
  Loader.machineCode r.calls

def references (r : Routine) : List (Nat × PendingReference) :=
  Loader.references r.calls

/-- The offsets of the words that refer to labels. -/
def words (r : Routine) : List Nat :=
  (r.references.filter fun entry => entry.2.encoding = .word).map Prod.fst

/-- The loader when the routine is about to be fixed up. -/
def placed (r : Routine) (l : Loader FlatMemory) (base : Word) : Loader FlatMemory :=
  l.after (.pushScope :: .moveTo base :: r.calls)

/-- Loads the routine at an address, in a scope of its own. -/
def load (r : Routine) (l : Loader FlatMemory) (base : Word) :
    Loader FlatMemory × Except LoadFailure Unit :=
  (r.placed l base).endScope

/-- The operand of a reference takes up the byte at an offset. -/
def Occupies (entry : Nat × PendingReference) (i : Nat) : Prop :=
  entry.1 ≤ i ∧ i < entry.1 + entry.2.width

/-- A reference of the routine where it waits. -/
def shifted (base : Word) (entry : Nat × PendingReference) : Word × PendingReference :=
  (base + BitVec.ofNat 16 entry.1, entry.2)

variable {r : Routine} {l : Loader FlatMemory} {base : Word}

theorem placed_fields (r : Routine) (l : Loader FlatMemory) (base : Word) :
    (r.placed l base).bus = Bus.replay l.bus (Bus.block base r.code) ∧
      (r.placed l base).labels.outer = l.labels.scopes ∧
      ∀ name, (r.placed l base).labels.inner.lookup name =
        (Loader.offsetOf? name r.calls).map fun i => base + BitVec.ofNat 16 i :=
  Loader.after_local r.local_calls (l.pushScope.moveTo base)

theorem load_fields (r : Routine) (l : Loader FlatMemory) (base : Word) :
    (r.load l base).1.labels = l.labels ∧ (r.load l base).1.pending = [] := by
  obtain ⟨hlabels, -, hpending, -⟩ := (r.placed l base).fixup_fields
  have houter : (r.placed l base).fixup.1.labels.outer = l.labels.scopes := by
    rw [hlabels]
    exact (r.placed_fields l base).2.1
  exact ⟨LabelTable.popScope_of_outer houter, hpending⟩

theorem load_ok_iff : (r.load l base).2 = .ok () ↔
    (r.placed l base).errors ++ (r.placed l base).unresolved = [] :=
  Loader.fixup_ok_iff

theorem load_bus (hok : (r.load l base).2 = .ok ()) : (r.load l base).1.bus =
    Bus.replay (r.placed l base).bus (r.placed l base).patchWrites :=
  Loader.fixup_bus_of_ok hok

-- What a load does is to be read off these, and not off its run.
attribute [irreducible] load

theorem eq_of_occupies {entry other : Nat × PendingReference} {i : Nat}
    (hentry : entry ∈ r.references) (hother : other ∈ r.references) (h : Occupies entry i)
    (h' : Occupies other i) : entry = other := by
  have hapart : ∀ a b : Nat × PendingReference, a.1 + a.2.width ≤ b.1 → Occupies a i →
      ¬ Occupies b i := by
    intro a b hle ha hb
    exact absurd (Nat.le_trans hle hb.1) (Nat.not_le.mpr ha.2)
  have hreferences := Loader.references_apart r.calls
  refine List.Pairwise.forall_of_forall_of_flip
    (R := fun a b => Occupies a i → Occupies b i → a = b) (fun _ _ _ _ => rfl)
    (hreferences.imp fun hle ha hb => absurd hb (hapart _ _ hle ha))
    (hreferences.imp fun hle hb ha => absurd hb (hapart _ _ hle ha)) hentry hother h h'

theorem covers_shifted_iff {entry : Nat × PendingReference} (h : entry ∈ r.references) {x : Word} :
    Loader.Covers (shifted base entry) x ↔
      ∃ i < r.code.length, x = base + BitVec.ofNat 16 i ∧ Occupies entry i := by
  have hend := Loader.end_le_of_mem_references h
  rw [Loader.Covers, Bus.exists_mem_block_iff]
  constructor
  · rintro ⟨k, hk, rfl⟩
    refine ⟨entry.1 + k, ?_, ?_, Nat.le_add_right _ _, Nat.add_lt_add_left hk _⟩
    · exact Nat.lt_of_lt_of_le (Nat.add_lt_add_left hk _) hend
    · rw [BitVec.ofNat_add, ← BitVec.add_assoc, shifted]
  · rintro ⟨i, -, rfl, hfirst, hlast⟩
    refine ⟨i - entry.1, Nat.sub_lt_left_of_lt_add hfirst hlast, ?_⟩
    rw [shifted, BitVec.add_assoc, ← BitVec.ofNat_add, Nat.add_sub_cancel' hfirst]

theorem offset_inj (hfits : base.toNat + r.code.length ≤ 0xFFFF) {i j : Nat}
    (hi : i < r.code.length) (hj : j < r.code.length)
    (h : base + BitVec.ofNat 16 i = base + BitVec.ofNat 16 j) : i = j := by
  bv_omega

section Loaded

variable (hok : (r.load l base).2 = .ok ()) (hpending : l.pending = [])

include hok hpending

theorem mem_pending_iff {entry : Word × PendingReference} :
    entry ∈ (r.placed l base).pending ↔
      ∃ reference ∈ r.references, shifted base reference = entry := by
  have hopened : (l.pushScope.moveTo base).Keeps [] := fun _ => List.Perm.of_eq hpending
  have hkeeps := Loader.keeps_after hopened r.calls
  rw [Loader.emitted_local r.local_calls, List.nil_append] at hkeeps
  have herrors : (r.placed l base).errors = [] :=
    (List.append_eq_nil_iff.mp (load_ok_iff.mp hok)).1
  exact (hkeeps herrors).mem_iff.trans List.mem_map

variable (hfits : base.toNat + r.code.length ≤ 0xFFFF)

include hfits

/-- Where there is no operand of a reference, memory holds the code. -/
theorem read_load {i : Nat} (hi : i < r.code.length)
    (hfree : ∀ entry ∈ r.references, ¬ Occupies entry i) :
    r.code[i]? = some (Bus.read (r.load l base).1.bus (base + BitVec.ofNat 16 i)) := by
  have hvalue : r.code[i]? = some r.code[i] := List.getElem?_eq_getElem hi
  rw [hvalue, load_bus hok, (FlatMemory.isMemory _).read_replay_of_forall_ne,
    (r.placed_fields l base).1]
  · refine congrArg some ((FlatMemory.isMemory _).read_replay_of_mem ?_ ?_).symm
    · intro v hv
      obtain ⟨j, hj, heq⟩ := Bus.mem_block_iff.mp hv
      obtain rfl := offset_inj hfits hi (List.getElem?_eq_some_iff.mp hj).1 heq
      exact Option.some.inj (hj.symm.trans hvalue)
    · exact Bus.mem_block_iff.mpr ⟨i, hvalue, rfl⟩
  · rintro ⟨x, u⟩ hwritten rfl
    obtain ⟨_, hmem, hcovers, -⟩ := Loader.covers_of_mem_patchWrites hwritten
    obtain ⟨entry, hentry, rfl⟩ := (mem_pending_iff hok hpending).mp hmem
    obtain ⟨j, hj, heq, hoccupies⟩ := (covers_shifted_iff hentry).mp hcovers
    obtain rfl := offset_inj hfits hi hj heq
    exact hfree entry hentry hoccupies

theorem standsAt_load {entry : Nat × PendingReference} (h : entry ∈ r.references) {patch : Patch}
    (hresolve : entry.2.resolve (base + BitVec.ofNat 16 entry.1) (r.placed l base).labels =
      .ok patch) :
    patch.StandsAt (r.load l base).1.bus (base + BitVec.ofNat 16 entry.1) := by
  have hascending : Sorted.Ascending (r.placed l base).pending := by
    refine Loader.after_ascending _ ?_
    rw [hpending]
    exact .nil
  have hmem : shifted base entry ∈ (r.placed l base).pending :=
    (mem_pending_iff hok hpending).mpr ⟨entry, h, rfl⟩
  rw [load_bus hok, Loader.standsAt_iff_of_patched hascending
    (Loader.mem_patches.mpr ⟨_, hmem, hresolve⟩)]
  -- A patch with a byte in common with this one belongs to the same reference.
  intro b q hq hlt x u v hu hv
  obtain ⟨reference, hwaits, hresolve'⟩ := Loader.mem_patches.mp hq
  obtain ⟨other, hother, heq⟩ := (mem_pending_iff hok hpending).mp hwaits
  have hcovers : Loader.Covers (shifted base entry) x :=
    Loader.covers_of_mem_writes hresolve hu
  have hcovers' : Loader.Covers (b, reference) x :=
    Loader.covers_of_mem_writes hresolve' hv
  rw [← heq] at hcovers'
  obtain ⟨i, hi, rfl, hoccupies⟩ := (covers_shifted_iff h).mp hcovers
  obtain ⟨j, hj, hx, hoccupies'⟩ := (covers_shifted_iff hother).mp hcovers'
  obtain rfl := offset_inj hfits hi hj hx
  obtain rfl := eq_of_occupies h hother hoccupies hoccupies'
  obtain rfl : base + BitVec.ofNat 16 entry.1 = b := congrArg Prod.fst heq
  exact absurd hlt (BitVec.lt_irrefl _)

theorem exists_resolve {entry : Nat × PendingReference} (h : entry ∈ r.references) :
    ∃ i address patch, Loader.offsetOf? entry.2.target.name r.calls = some i ∧
      address.toNat = base.toNat + i ∧
      (r.placed l base).labels.lookup entry.2.target.name = some address ∧
      entry.2.resolve (base + BitVec.ofNat 16 entry.1) (r.placed l base).labels = .ok patch := by
  obtain ⟨-, -, hlabel⟩ := Loader.local_of_mem_references r.local_calls h
  obtain ⟨i, hi, hoffset⟩ := Loader.exists_offsetOf? hlabel
  obtain ⟨patch, hpatch⟩ := Loader.resolve_of_unresolved_nil
    (List.append_eq_nil_iff.mp (load_ok_iff.mp hok)).2
    ((mem_pending_iff hok hpending).mpr ⟨entry, h, rfl⟩)
  refine ⟨i, base + BitVec.ofNat 16 i, patch, hoffset, ?_, ?_, hpatch⟩
  · have hi' : i ≤ r.code.length := hi
    bv_omega
  · refine LabelTable.lookup_of_inner ?_
    rw [(r.placed_fields l base).2.2, hoffset, Option.map_some]

theorem readWord_load {o : Nat} {target : Reference} (h : (o, ⟨target, .word⟩) ∈ r.references) :
    ∃ i, Loader.offsetOf? target.name r.calls = some i ∧
      ((Bus.readWord (r.load l base).1.bus (base + BitVec.ofNat 16 o)).toNat : Int) =
        base.toNat + i + target.offset := by
  obtain ⟨-, hselect, -⟩ := Loader.local_of_mem_references r.local_calls h
  obtain ⟨i, address, patch, hoffset, haddress, hlookup, hresolve⟩ :=
    exists_resolve hok hpending hfits h
  obtain ⟨value, rfl, hvalue⟩ :=
    PendingReference.exists_of_resolve_word hselect hlookup hresolve
  have hstands : Bus.readWord (r.load l base).1.bus (base + BitVec.ofNat 16 o) = value :=
    standsAt_load hok hpending hfits h hresolve
  refine ⟨i, hoffset, ?_⟩
  rw [hstands, hvalue, haddress]
  push_cast
  rfl

theorem read_load_relative {o : Nat} {target : Reference}
    (h : (o, ⟨target, .relative⟩) ∈ r.references) :
    ∃ i, Loader.offsetOf? target.name r.calls = some i ∧
      Bus.read (r.load l base).1.bus (base + BitVec.ofNat 16 o) =
        BitVec.ofInt 8 (i + target.offset - (o + 1)) := by
  obtain ⟨-, hselect, -⟩ := Loader.local_of_mem_references r.local_calls h
  obtain ⟨i, address, patch, hoffset, haddress, hlookup, hresolve⟩ :=
    exists_resolve hok hpending hfits h
  obtain rfl := PendingReference.eq_of_resolve_relative hselect hlookup hresolve
  have hstands : Bus.read (r.load l base).1.bus (base + BitVec.ofNat 16 o) =
      BitVec.ofInt 8 (target.distance (base + BitVec.ofNat 16 o) address) :=
    standsAt_load hok hpending hfits h hresolve
  have hslot : (base + BitVec.ofNat 16 o).toNat = base.toNat + o := by
    have hend : o + 1 ≤ r.code.length := Loader.end_le_of_mem_references h
    bv_omega
  refine ⟨i, hoffset, ?_⟩
  rw [hstands, Reference.distance, haddress, hslot]
  congr 1
  push_cast
  omega

end Loaded

theorem mem_words_iff {o : Nat} :
    o ∈ r.words ↔ ∃ target, (o, ⟨target, .word⟩) ∈ r.references := by
  simp only [words, List.mem_map, List.mem_filter, decide_eq_true_eq]
  constructor
  · rintro ⟨⟨_, target, _⟩, ⟨hmem, rfl⟩, rfl⟩
    exact ⟨target, hmem⟩
  · rintro ⟨target, hmem⟩
    exact ⟨_, ⟨hmem, rfl⟩, rfl⟩

theorem relative_of_occupies {entry : Nat × PendingReference} (h : entry ∈ r.references) {i : Nat}
    (hi : Occupies entry i) (hwords : ∀ o ∈ r.words, i ≠ o ∧ i ≠ o + 1) :
    ∃ target, entry = (i, ⟨target, .relative⟩) := by
  obtain ⟨hbyte, -, -⟩ := Loader.local_of_mem_references r.local_calls h
  obtain ⟨o, target, encoding⟩ := entry
  obtain ⟨hfirst, hlast⟩ := hi
  cases encoding with
  | byte => exact absurd rfl hbyte
  | word =>
    have hspared := hwords o (mem_words_iff.mpr ⟨target, h⟩)
    change i < o + 2 at hlast
    change o ≤ i at hfirst
    omega
  | relative =>
    obtain rfl : i = o := Nat.le_antisymm (Nat.le_of_lt_succ hlast) hfirst
    exact ⟨target, rfl⟩

/-- Wherever a routine is loaded, it is the same up to the words that refer to its labels, and these
differ by as much as the addresses do. The label table is what it was before, even if a load fails,
and nothing waits. -/
theorem load_relocates (r : Routine) (l l' : Loader FlatMemory) (base base' : Word)
    (hpending : l.pending = []) (hpending' : l'.pending = [])
    (hfits : base.toNat + r.code.length ≤ 0xFFFF)
    (hfits' : base'.toNat + r.code.length ≤ 0xFFFF) :
    let here := r.load l base
    let there := r.load l' base'
    (here.1.labels = l.labels ∧ here.1.pending = []) ∧
    (there.1.labels = l'.labels ∧ there.1.pending = []) ∧
    (here.2 = .ok () → there.2 = .ok () →
      (∀ i < r.code.length, (∀ o ∈ r.words, i ≠ o ∧ i ≠ o + 1) →
        Bus.read there.1.bus (base' + BitVec.ofNat 16 i) =
          Bus.read here.1.bus (base + BitVec.ofNat 16 i)) ∧
      ∀ o ∈ r.words,
        ((Bus.readWord there.1.bus (base' + BitVec.ofNat 16 o)).toNat : Int) -
          (Bus.readWord here.1.bus (base + BitVec.ofNat 16 o)).toNat =
            base'.toNat - base.toNat) := by
  intro here there
  refine ⟨r.load_fields l base, r.load_fields l' base', fun hok hok' => ⟨?_, ?_⟩⟩
  · intro i hi hwords
    by_cases hfree : ∀ entry ∈ r.references, ¬ Occupies entry i
    · exact Option.some.inj ((read_load hok' hpending' hfits' hi hfree).symm.trans
        (read_load hok hpending hfits hi hfree))
    · simp only [not_forall, not_not] at hfree
      obtain ⟨entry, hentry, hoccupies⟩ := hfree
      obtain ⟨target, rfl⟩ := relative_of_occupies hentry hoccupies hwords
      obtain ⟨j, hlabel, hread⟩ := read_load_relative hok hpending hfits hentry
      obtain ⟨j', hlabel', hread'⟩ := read_load_relative hok' hpending' hfits' hentry
      obtain rfl := Option.some.inj (hlabel.symm.trans hlabel')
      exact hread'.trans hread.symm
  · intro o ho
    obtain ⟨target, hentry⟩ := mem_words_iff.mp ho
    obtain ⟨j, hlabel, hword⟩ := readWord_load hok hpending hfits hentry
    obtain ⟨j', hlabel', hword'⟩ := readWord_load hok' hpending' hfits' hentry
    obtain rfl := Option.some.inj (hlabel.symm.trans hlabel')
    rw [hword, hword']
    omega

/-- Counts down from 16 and goes on past its first instruction. -/
def delay : Routine where
  calls := [.label "delay", .instruction ⟨.ldx, .immediate⟩, .write 0x10, .label "spin",
    .instruction ⟨.dex, .implicit⟩, .instruction ⟨.bne, .relative⟩, .refer .relative "spin",
    .instruction ⟨.jmp, .absolute⟩, .refer .word "delay + 2"]
  local_calls := by
    have hspin : Reference.read "spin" = .ok (.ok ⟨"spin", 0, .both⟩) := by decide +kernel
    have hdelay : Reference.read "delay + 2" = .ok (.ok ⟨"delay", 2, .both⟩) := by decide +kernel
    simp [Loader.Call.Local, hspin, hdelay]

/-- One loader puts the routine at two places, the second time up to the last address but one. -/
theorem load_relocates_delay :
    let here := delay.load (Loader.start FlatMemory.zeroed .empty) 0x0300
    let there := delay.load here.1 0xFFF7
    delay.code.length = 8 ∧ delay.words = [6] ∧ here.2 = .ok () ∧ there.2 = .ok () ∧
      there.1.labels = here.1.labels ∧ here.1.labels = .empty ∧
      Bus.read there.1.bus (0xFFF7 + 4#16) = Bus.read here.1.bus (0x0300 + 4#16) ∧
      ((Bus.readWord there.1.bus (0xFFF7 + 6#16)).toNat : Int) -
        (Bus.readWord here.1.bus (0x0300 + 6#16)).toNat = 0xFCF7 := by
  intro here there
  have hlength : delay.code.length = 8 := by decide +kernel
  have hwords : delay.words = [6] := by decide +kernel
  have hok : here.2 = .ok () := load_ok_iff.mpr (by decide +kernel)
  have hok' : there.2 = .ok () := load_ok_iff.mpr (by decide +kernel)
  obtain ⟨⟨hlabels, -⟩, ⟨hlabels', -⟩, hloads⟩ := load_relocates delay
    (Loader.start FlatMemory.zeroed .empty) here.1 0x0300 0xFFF7 rfl (delay.load_fields _ _).2
    (by rw [hlength]; decide) (by rw [hlength]; decide)
  obtain ⟨hsame, hshifted⟩ := hloads hok hok'
  exact ⟨hlength, hwords, hok, hok', hlabels', hlabels,
    hsame 4 (by rw [hlength]; decide) (by rw [hwords]; decide),
    (hshifted 6 (by rw [hwords]; decide)).trans (by simp)⟩

end Routine

end Nmos6502
