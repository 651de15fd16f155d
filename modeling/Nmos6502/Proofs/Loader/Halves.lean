import Nmos6502.Proofs.Label.Display
import Nmos6502.Proofs.Loader.Chunks
import Nmos6502.Proofs.Loader.Resolution

/-!
In the place of a reference that waits for a word, references to the two halves of the word can wait
for a byte each. The calls of a load do not notice, and a fixup that goes well writes the same
bytes, as long as nothing else waits for the second one.
-/

namespace Nmos6502

universe u

namespace Loader

variable {β : Type u} {l : Loader β} {c : Call} {calls : List Call}
  {pending : List (Word × PendingReference)} {slot x : Word} {lo hi : PendingReference}

/-- The loader with other references waiting in it. -/
def waitingFor (l : Loader β) (pending : List (Word × PendingReference)) : Loader β :=
  { l with pending := pending }

theorem await_waitingFor (h : pending.lookup l.cursor = l.pending.lookup l.cursor)
    (target : Reference) (encoding : Encoding) :
    (l.waitingFor pending).await target encoding =
      (l.await target encoding).waitingFor (Sorted.insert l.cursor ⟨target, encoding⟩ pending) := by
  simp only [await, waitingFor, h]
  cases l.pending.lookup l.cursor <;> rfl

theorem await_of_lookup_eq_none (h : l.pending.lookup l.cursor = none) (target : Reference)
    (encoding : Encoding) : l.await target encoding =
      l.waitingFor (Sorted.insert l.cursor ⟨target, encoding⟩ l.pending) := by
  rw [await, h]
  rfl

theorem lookup_eq_none_of_reported {p : PendingReference} (hreference : c.reference? = some p)
    (h : l.reported c = []) : l.pending.lookup l.cursor = none := by
  obtain hemission | ⟨-, -, hreported⟩ := l.emission_cases c
  · simp [emission_eq, hreference] at hemission
  · simpa [hreported] using h

theorem patchWrites_append (l : Loader β) (before behind : List (Word × PendingReference)) :
    (l.waitingFor (before ++ behind)).patchWrites =
      (l.waitingFor before).patchWrites ++ (l.waitingFor behind).patchWrites := by
  simp only [patchWrites, patches, waitingFor, List.filterMap_append, List.flatMap_append]

theorem patchWrites_cons {p : PendingReference} {patch : Patch}
    (h : p.resolve slot l.labels = .ok patch) (behind : List (Word × PendingReference)) :
    (l.waitingFor ((slot, p) :: behind)).patchWrites =
      patch.writes slot ++ (l.waitingFor behind).patchWrites := by
  simp [patchWrites, patches, waitingFor, h, Except.toOption]

/-- What waits when references to the halves of a word wait in the place of the word. -/
def halved (slot : Word) (lo hi : PendingReference) (pending : List (Word × PendingReference)) :
    List (Word × PendingReference) :=
  Sorted.insert (slot + 1) hi (Sorted.insert slot lo pending)

theorem lookup_halved (hslot : x ≠ slot) (hnext : x ≠ slot + 1) :
    (halved slot lo hi pending).lookup x = pending.lookup x := by
  rw [halved, Sorted.lookup_insert, if_neg hnext, Sorted.lookup_insert, if_neg hslot]

theorem insert_halved (hslot : x ≠ slot) (hnext : x ≠ slot + 1) (p : PendingReference) :
    Sorted.insert x p (halved slot lo hi pending) =
      halved slot lo hi (Sorted.insert x p pending) := by
  rw [halved, halved, Sorted.insert_comm hnext, Sorted.insert_comm hslot]

theorem halved_insert (p : PendingReference) :
    halved slot lo hi (Sorted.insert slot p pending) = halved slot lo hi pending := by
  rw [halved, Sorted.insert_insert_self, halved]

section Calls

variable [Bus β]

theorem writeAll_waitingFor (l : Loader β) (pending : List (Word × PendingReference))
    (bytes : List Byte) :
    (l.waitingFor pending).writeAll bytes = (l.writeAll bytes).waitingFor pending := by
  induction bytes generalizing l with
  | nil => rfl
  | cons value bytes ih => exact ih (l.write value)

theorem call_waitingFor (hc : c.fixesUp = false)
    (h : ∀ p, c.reference? = some p → pending.lookup l.cursor = l.pending.lookup l.cursor) :
    (l.waitingFor pending).call c = (l.call c).waitingFor (c.pending l.cursor pending) := by
  cases c with
  | endScope | fixup => cases hc
  | moveTo | write | pushScope => rfl
  | writeWord value => exact l.writeAll_waitingFor pending _
  | writeAll bytes => exact l.writeAll_waitingFor pending bytes
  | instruction op =>
    simp only [call, instruction]
    cases op.encode <;> rfl
  | label name =>
    simp only [call, label, waitingFor]
    cases l.labels.define name l.cursor <;> rfl
  | loadImage encoded address =>
    simp only [call, loadImage]
    cases Image.decodeAt encoded address with
    | ok image => exact (l.moveTo image.address).writeAll_waitingFor pending image.bytes
    | error error => rfl
  | refer encoding text =>
    simp only [Call.reference?] at h
    simp only [call, emit_eq, refer, Call.pending, Call.reference?]
    rcases hread : Reference.read text with fault | error | target
    · rfl
    · exact (l.report (.label error)).writeAll_waitingFor pending _
    · simp only [hread, Except.map] at h ⊢
      rw [await_waitingFor (h _ rfl), writeAll_waitingFor]

theorem lookup_eq_none_of_call (hc : c.fixesUp = false)
    (h : (l.call c).pending.lookup x = none) : l.pending.lookup x = none := by
  rw [pending_call hc, Call.pending] at h
  cases hreference : c.reference? with
  | none => simpa [hreference] using h
  | some p =>
    simp only [hreference, Sorted.lookup_insert] at h
    split at h
    · cases h
    · exact h

theorem lookup_eq_none_of_after (hcalls : ∀ c ∈ calls, c.fixesUp = false)
    (h : (l.after calls).pending.lookup x = none) : l.pending.lookup x = none := by
  induction calls generalizing l with
  | nil => exact h
  | cons c calls ih =>
    rw [List.forall_mem_cons] at hcalls
    exact lookup_eq_none_of_call hcalls.1 (ih hcalls.2 h)

theorem lookup_eq_some_call {p : PendingReference} (hc : c.fixesUp = false)
    (hreported : l.reported c = []) (h : l.pending.lookup x = some p) :
    (l.call c).pending.lookup x = some p := by
  rw [pending_call hc, Call.pending]
  cases hreference : c.reference? with
  | none => exact h
  | some q =>
    have hcursor : x ≠ l.cursor := by
      rintro rfl
      cases h.symm.trans (lookup_eq_none_of_reported hreference hreported)
    simpa only [Sorted.lookup_insert, if_neg hcursor] using h

theorem lookup_eq_some_after {p : PendingReference} (hcalls : ∀ c ∈ calls, c.fixesUp = false)
    (hreports : l.reports calls = []) (h : l.pending.lookup x = some p) :
    (l.after calls).pending.lookup x = some p := by
  induction calls generalizing l with
  | nil => exact h
  | cons c calls ih =>
    rw [List.forall_mem_cons] at hcalls
    obtain ⟨hreported, hreports⟩ := List.append_eq_nil_iff.mp hreports
    exact ih hcalls.2 hreports (lookup_eq_some_call hcalls.1 hreported h)

theorem call_halved (hc : c.fixesUp = false)
    (hapart : ∀ p, c.reference? = some p → l.cursor ≠ slot ∧ l.cursor ≠ slot + 1) :
    (l.waitingFor (halved slot lo hi l.pending)).call c =
      (l.call c).waitingFor (halved slot lo hi (l.call c).pending) := by
  have hpending : c.pending l.cursor (halved slot lo hi l.pending) =
      halved slot lo hi (l.call c).pending := by
    rw [pending_call hc, Call.pending, Call.pending]
    cases hp : c.reference? with
    | none => rfl
    | some p => exact insert_halved (hapart p hp).1 (hapart p hp).2 p
  rw [call_waitingFor hc fun p hp => lookup_halved (hapart p hp).1 (hapart p hp).2, hpending]

theorem after_halved {word : PendingReference} (hcalls : ∀ c ∈ calls, c.fixesUp = false)
    (hreports : l.reports calls = []) (hslot : l.pending.lookup slot = some word)
    (hfree : (l.after calls).pending.lookup (slot + 1) = none) :
    (l.waitingFor (halved slot lo hi l.pending)).after calls =
      (l.after calls).waitingFor (halved slot lo hi (l.after calls).pending) := by
  induction calls generalizing l with
  | nil => rfl
  | cons c calls ih =>
    rw [List.forall_mem_cons] at hcalls
    obtain ⟨hreported, hreports⟩ := List.append_eq_nil_iff.mp hreports
    -- A reference at the first slot would be reported, and one at the second slot would stay there.
    have hapart : ∀ p, c.reference? = some p → l.cursor ≠ slot ∧ l.cursor ≠ slot + 1 := by
      intro p hp
      constructor
      · rintro rfl
        cases hslot.symm.trans (lookup_eq_none_of_reported hp hreported)
      · intro hcursor
        have hcall : (l.call c).pending.lookup (slot + 1) = none :=
          lookup_eq_none_of_after hcalls.2 hfree
        simp [pending_call hcalls.1, Call.pending, hp, Sorted.lookup_insert, hcursor] at hcall
    rw [after_cons, call_halved hcalls.1 hapart]
    exact ih hcalls.2 hreports (lookup_eq_some_call hcalls.1 hreported hslot) hfree

theorem lookup_eq_none_of_halved (hcalls : ∀ c ∈ calls, c.fixesUp = false)
    (hreports : (l.waitingFor (halved slot lo hi l.pending)).reports calls = [])
    (hfree : l.pending.lookup (slot + 1) = none) :
    (l.after calls).pending.lookup (slot + 1) = none := by
  induction calls generalizing l with
  | nil => exact hfree
  | cons c calls ih =>
    rw [List.forall_mem_cons] at hcalls
    obtain ⟨hreported, hreports⟩ := List.append_eq_nil_iff.mp hreports
    have hapart : ∀ p, c.reference? = some p → l.cursor ≠ slot ∧ l.cursor ≠ slot + 1 := by
      intro p hp
      have hnone : (halved slot lo hi l.pending).lookup l.cursor = none :=
        lookup_eq_none_of_reported hp hreported
      rw [halved, Sorted.lookup_insert, Sorted.lookup_insert] at hnone
      split_ifs at hnone with hnext hslot
      exact ⟨hslot, hnext⟩
    have hcall : (l.call c).pending.lookup (slot + 1) = none := by
      rw [pending_call hcalls.1, Call.pending]
      cases hp : c.reference? with
      | none => exact hfree
      | some p => simpa only [Sorted.lookup_insert, if_neg (hapart p hp).2.symm] using hfree
    rw [call_halved hcalls.1 hapart] at hreports
    exact ih hcalls.2 hreports hcall

theorem call_refer {text : String} {target : Reference} {encoding : Encoding}
    (hread : Reference.read text = .ok (.ok target)) (h : l.pending.lookup l.cursor = none) :
    l.call (.refer encoding text) = (l.writeAll (placeholder encoding)).waitingFor
      (Sorted.insert l.cursor ⟨target, encoding⟩ l.pending) := by
  rw [call, emit_eq, refer, hread, Except.map, await_of_lookup_eq_none h]
  exact l.writeAll_waitingFor _ _

/-- The halves of a word one behind the other leave everything as the word does, but for what
waits. -/
theorem call_halves {text textLo textHi : String} {target targetLo targetHi : Reference}
    (hread : Reference.read text = .ok (.ok target))
    (hreadLo : Reference.read textLo = .ok (.ok targetLo))
    (hreadHi : Reference.read textHi = .ok (.ok targetHi))
    (hslot : l.pending.lookup l.cursor = none) (hnext : l.pending.lookup (l.cursor + 1) = none) :
    let whole := l.call (.refer .word text)
    (l.call (.refer .byte textLo)).call (.refer .byte textHi) =
      whole.waitingFor (halved l.cursor ⟨targetLo, .byte⟩ ⟨targetHi, .byte⟩ whole.pending) := by
  intro whole
  have hwhole : whole = ((l.write bytePlaceholder).write bytePlaceholder).waitingFor
      (Sorted.insert l.cursor ⟨target, .word⟩ l.pending) := call_refer hread hslot
  have hlo : l.call (.refer .byte textLo) = (l.write bytePlaceholder).waitingFor
      (Sorted.insert l.cursor ⟨targetLo, .byte⟩ l.pending) := call_refer hreadLo hslot
  have hfree : (Sorted.insert l.cursor ⟨targetLo, .byte⟩ l.pending).lookup (l.cursor + 1) =
      none := by
    rw [Sorted.lookup_insert, if_neg (by bv_omega), hnext]
  rw [hwhole, hlo]
  refine (call_refer hreadHi hfree).trans ?_
  exact congrArg (waitingFor _) (halved_insert _).symm

end Calls

/-- A word waits at the slot, two references of a byte each resolve to its halves, and nothing else
waits for the second half. -/
structure Splits (l : Loader β) (slot : Word) (word lo hi : PendingReference) (u v : Byte) :
    Prop where
  ordered : Sorted.Ascending l.pending
  waits : l.pending.lookup slot = some word
  alone : l.pending.lookup (slot + 1) = none
  whole : ∃ patch, word.resolve slot l.labels = .ok patch ∧
    patch.writes slot = [(slot, u), (slot + 1, v)]
  low : lo.resolve slot l.labels = .ok (.byte u)
  high : hi.resolve (slot + 1) l.labels = .ok (.byte v)

namespace Splits

variable {word : PendingReference} {u v : Byte}

theorem exists_pending (h : l.Splits slot word lo hi u v) :
    ∃ before behind, l.pending = before ++ (slot, word) :: behind ∧
      Sorted.insert slot lo l.pending = before ++ (slot, lo) :: behind ∧
      (∀ entry ∈ before, entry.1 < slot ∧ entry.1 ≠ slot + 1) ∧
      ∀ entry ∈ behind, slot < entry.1 ∧ entry.1 ≠ slot + 1 := by
  obtain ⟨before, behind, hpending, -⟩ := List.lookup_eq_some_iff.mp h.waits
  have hnext : ∀ entry ∈ l.pending, entry.1 ≠ slot + 1 := fun entry hentry =>
    (bne_iff_ne.mp (List.lookup_eq_none_iff.mp h.alone entry hentry)).symm
  have hordered := h.ordered
  rw [hpending, Sorted.Ascending, List.pairwise_append, List.pairwise_cons] at hordered
  obtain ⟨-, ⟨hbehind, -⟩, hbefore⟩ := hordered
  rw [hpending, List.forall_mem_append, List.forall_mem_cons] at hnext
  have hbelow : ∀ entry ∈ before, entry.1 < slot := fun entry hentry =>
    hbefore entry hentry _ List.mem_cons_self
  refine ⟨before, behind, hpending, ?_, fun entry hentry => ?_, fun entry hentry => ?_⟩
  · rw [hpending, Sorted.insert_append_of_lt _ _ hbelow]
    simp [Sorted.insert]
  · exact ⟨hbelow entry hentry, hnext.1 entry hentry⟩
  · exact ⟨hbehind entry hentry, hnext.2.2 entry hentry⟩

theorem exists_halved_of_ne (h : l.Splits slot word lo hi u v) (hslot : slot ≠ 0xFFFF) :
    ∃ before behind, l.pending = before ++ (slot, word) :: behind ∧
      halved slot lo hi l.pending = before ++ (slot, lo) :: (slot + 1, hi) :: behind := by
  obtain ⟨before, behind, hpending, hinsert, hbefore, hbehind⟩ := h.exists_pending
  have hbelow : ∀ entry ∈ before ++ [(slot, lo)], entry.1 < slot + 1 := by
    rw [List.forall_mem_append, List.forall_mem_singleton]
    refine ⟨fun entry hentry => ?_, by bv_omega⟩
    have hlt := (hbefore entry hentry).1
    bv_omega
  have habove : ∀ entry ∈ behind, slot + 1 < entry.1 := by
    intro entry hentry
    obtain ⟨hlt, hne⟩ := hbehind entry hentry
    bv_omega
  refine ⟨before, behind, hpending, ?_⟩
  rw [halved, hinsert, List.append_cons, Sorted.insert_append_of_lt _ _ hbelow,
    Sorted.insert_of_forall_lt _ habove, ← List.append_cons]

theorem exists_halved_top (h : l.Splits slot word lo hi u v) (hslot : slot = 0xFFFF) :
    ∃ others, l.pending = others ++ [(slot, word)] ∧
      halved slot lo hi l.pending = (slot + 1, hi) :: (others ++ [(slot, lo)]) ∧
      ∀ entry ∈ others, entry.1 ≠ slot ∧ entry.1 ≠ slot + 1 := by
  obtain ⟨others, behind, hpending, hinsert, hothers, hbehind⟩ := h.exists_pending
  obtain rfl : behind = [] := by
    refine List.eq_nil_iff_forall_not_mem.mpr fun entry hentry => ?_
    have hlt := (hbehind entry hentry).1
    bv_omega
  have habove : ∀ entry ∈ others ++ [(slot, lo)], slot + 1 < entry.1 := by
    rw [List.forall_mem_append, List.forall_mem_singleton]
    refine ⟨fun entry hentry => ?_, by bv_omega⟩
    have hne := (hothers entry hentry).2
    bv_omega
  refine ⟨others, hpending, ?_, fun entry hentry => ?_⟩
  · rw [halved, hinsert, Sorted.insert_of_forall_lt _ habove]
  · obtain ⟨hlt, hne⟩ := hothers entry hentry
    exact ⟨by bv_omega, hne⟩

theorem patchWrites_eq (h : l.Splits slot word lo hi u v) (hslot : slot ≠ 0xFFFF) :
    (l.waitingFor (halved slot lo hi l.pending)).patchWrites = l.patchWrites := by
  obtain ⟨before, behind, hpending, hhalved⟩ := h.exists_halved_of_ne hslot
  obtain ⟨patch, hpatch, hwrites⟩ := h.whole
  calc
    (l.waitingFor (halved slot lo hi l.pending)).patchWrites =
        (l.waitingFor before).patchWrites ++
          ((slot, u) :: (slot + 1, v) :: (l.waitingFor behind).patchWrites) := by
      rw [hhalved, patchWrites_append, patchWrites_cons h.low, patchWrites_cons h.high]
      rfl
    _ = (l.waitingFor (before ++ (slot, word) :: behind)).patchWrites := by
      rw [patchWrites_append, patchWrites_cons hpatch, hwrites]
      rfl
    _ = l.patchWrites := by rw [← hpending, waitingFor]

theorem patchWrites_top (h : l.Splits slot word lo hi u v) (hslot : slot = 0xFFFF) :
    ∃ others, l.patchWrites = others ++ [(slot + 1, v)] ∧
      (l.waitingFor (halved slot lo hi l.pending)).patchWrites = (slot + 1, v) :: others ∧
      ∀ entry ∈ others, entry.1 ≠ slot + 1 := by
  obtain ⟨others, hpending, hhalved, hothers⟩ := h.exists_halved_top hslot
  obtain ⟨patch, hpatch, hwrites⟩ := h.whole
  refine ⟨(l.waitingFor others).patchWrites ++ [(slot, u)], ?_, ?_, ?_⟩
  · calc
      l.patchWrites = (l.waitingFor (others ++ [(slot, word)])).patchWrites := by
        rw [← hpending, waitingFor]
      _ = (l.waitingFor others).patchWrites ++ [(slot, u)] ++ [(slot + 1, v)] := by
        rw [patchWrites_append, patchWrites_cons hpatch, hwrites, List.append_assoc]
        rfl
  · rw [hhalved, patchWrites_cons h.high, patchWrites_append, patchWrites_cons h.low]
    rfl
  · rw [List.forall_mem_append, List.forall_mem_singleton]
    refine ⟨fun entry hentry => ?_, by bv_omega⟩
    obtain ⟨⟨address, patch'⟩, hpatch', hwritten⟩ := List.mem_flatMap.mp hentry
    obtain ⟨reference, hreference, -⟩ := mem_patches.mp hpatch'
    obtain ⟨hslot', hnext⟩ := hothers _ hreference
    have hplace := Patch.address_of_mem_writes (x := entry.1) (u := entry.2) hwritten
    bv_omega

theorem unresolved_eq_nil (h : l.Splits slot word lo hi u v) (hnone : l.unresolved = []) :
    (l.waitingFor (halved slot lo hi l.pending)).unresolved = [] := by
  refine List.eq_nil_iff_forall_not_mem.mpr fun error herror => ?_
  obtain ⟨address, reference, hpending, hresolve⟩ := mem_unresolved.mp herror
  rcases Sorted.mem_insert hpending with hentry | hpending
  · obtain ⟨rfl, rfl⟩ := Prod.mk.inj hentry
    cases hresolve.symm.trans h.high
  · rcases Sorted.mem_insert hpending with hentry | hpending
    · obtain ⟨rfl, rfl⟩ := Prod.mk.inj hentry
      cases hresolve.symm.trans h.low
    · obtain ⟨patch, hpatch⟩ := resolve_of_unresolved_nil hnone hpending
      cases hresolve.symm.trans hpatch

/-- The same bytes are written, in the same order unless the word goes past the top of memory. -/
theorem fixup [Bus β] (h : l.Splits slot word lo hi u v) (hok : l.fixup.2 = .ok ()) :
    let split := l.waitingFor (halved slot lo hi l.pending)
    split.fixup.2 = .ok () ∧ (slot ≠ 0xFFFF → split.fixup = l.fixup) ∧
      (Bus.IsMemory l.bus → ∀ x, Bus.read split.fixup.1.bus x = Bus.read l.fixup.1.bus x) := by
  intro split
  obtain ⟨herrors, hunresolved⟩ := List.append_eq_nil_iff.mp (fixup_ok_iff.mp hok)
  have hresolved : split.unresolved = [] := h.unresolved_eq_nil hunresolved
  have hok' : split.fixup.2 = .ok () :=
    fixup_ok_iff.mpr (List.append_eq_nil_iff.mpr ⟨herrors, hresolved⟩)
  have hsame (hslot : slot ≠ 0xFFFF) : split.fixup = l.fixup := by
    rw [fixup_eq, fixup_eq, h.patchWrites_eq hslot, hresolved, hunresolved]
    rfl
  refine ⟨hok', hsame, fun hmemory x => ?_⟩
  by_cases hslot : slot = 0xFFFF
  · obtain ⟨others, hwhole, hsplit, hothers⟩ := h.patchWrites_top hslot
    rw [fixup_bus_of_ok hok', fixup_bus_of_ok hok, hwhole, hsplit]
    exact hmemory.read_replay_rotate hothers x
  · rw [hsame hslot]

end Splits

/-- A load with a reference to a word in it, up to the fixup. -/
structure WordLoad (β : Type u) where
  bus : β
  labels : LabelTable
  before : List Call
  text : String
  name : String
  offset : Int
  read_text : Reference.read text = .ok (.ok ⟨name, offset, .both⟩)
  later : List Call
  later_waits : ∀ c ∈ later, c.fixesUp = false

namespace WordLoad

/-- What is referred to, or a half of it. -/
def part (s : WordLoad β) (select : ByteSelect) : Reference :=
  ⟨s.name, s.offset, select⟩

theorem read_part (s : WordLoad β) :
    Reference.read s.text = .ok (.ok (s.part .both)) ∧
      Reference.read (s.text ++ ":LO") = .ok (.ok (s.part .lo)) ∧
      Reference.read (s.text ++ ":HI") = .ok (.ok (s.part .hi)) :=
  ⟨s.read_text, @Reference.read_append_mark _ _ _ .lo (by decide) s.read_text,
    @Reference.read_append_mark _ _ _ .hi (by decide) s.read_text⟩

variable [Bus β] (s : WordLoad β)

/-- The loader when the word is about to be written. -/
def opened : Loader β :=
  (start s.bus s.labels).after s.before

def address : Word :=
  s.opened.cursor

/-- The loader when the word has been referred to. -/
def referred : Loader β :=
  s.opened.call (.refer .word s.text)

/-- The loader when the low half has been referred to instead. -/
def referredLow : Loader β :=
  s.opened.call (.refer .byte (s.text ++ ":LO"))

/-- The load as it is. -/
def whole : Loader β :=
  s.referred.after s.later

/-- The load with references to the two halves in the place of the word. -/
def split : Loader β :=
  (s.referredLow.call (.refer .byte (s.text ++ ":HI"))).after s.later

variable {s}

theorem undisturbed (herrors : s.whole.errors = []) :
    s.opened.pending.lookup s.address = none ∧ s.referred.reports s.later = [] := by
  rw [whole, after_errors s.later_waits, referred, (call_fields rfl).1, List.append_eq_nil_iff,
    List.append_eq_nil_iff] at herrors
  obtain ⟨⟨-, hreported⟩, hreports⟩ := herrors
  have hreference : (Call.refer .word s.text).reference? = some ⟨s.part .both, .word⟩ := by
    simp only [Call.reference?, s.read_part.1]
  exact ⟨lookup_eq_none_of_reported hreference hreported, hreports⟩

theorem pending_referred (s : WordLoad β) :
    s.referred.pending = Sorted.insert s.address ⟨s.part .both, .word⟩ s.opened.pending := by
  rw [referred, pending_call rfl, Call.pending]
  simp only [Call.reference?, s.read_part.1]
  rfl

theorem lookup_referred (s : WordLoad β) :
    s.referred.pending.lookup s.address = some ⟨s.part .both, .word⟩ := by
  rw [pending_referred, Sorted.lookup_insert, if_pos rfl]

theorem split_eq_after (hslot : s.opened.pending.lookup s.address = none)
    (hnext : s.opened.pending.lookup (s.address + 1) = none) :
    s.split = (s.referred.waitingFor (halved s.address ⟨s.part .lo, .byte⟩ ⟨s.part .hi, .byte⟩
      s.referred.pending)).after s.later := by
  obtain ⟨hread, hlow, hhigh⟩ := s.read_part
  rw [split, referredLow, call_halves hread hlow hhigh hslot hnext, address, referred]

/-- If nothing else waits at the second byte, the loads differ in what waits and in nothing else. -/
theorem split_eq (herrors : s.whole.errors = [])
    (hfree : s.whole.pending.lookup (s.address + 1) = none) :
    s.split = s.whole.waitingFor
      (halved s.address ⟨s.part .lo, .byte⟩ ⟨s.part .hi, .byte⟩ s.whole.pending) := by
  obtain ⟨hslot, hreports⟩ := undisturbed herrors
  have hnext : s.opened.pending.lookup (s.address + 1) = none :=
    lookup_eq_none_of_call rfl (lookup_eq_none_of_after s.later_waits hfree)
  rw [split_eq_after hslot hnext]
  exact after_halved s.later_waits hreports s.lookup_referred hfree

theorem lookup_eq_none_of_split (herrors : s.whole.errors = []) (hsplit : s.split.errors = []) :
    s.whole.pending.lookup (s.address + 1) = none := by
  obtain ⟨hslot, -⟩ := undisturbed herrors
  -- What waited before would have given way to the second half, and what came later to wait there
  -- would have taken its place.
  have hnext : s.opened.pending.lookup (s.address + 1) = none := by
    rw [split, after_errors s.later_waits, (call_fields rfl).1, List.append_eq_nil_iff,
      List.append_eq_nil_iff] at hsplit
    have hreference : (Call.refer .byte (s.text ++ ":HI")).reference? =
        some ⟨s.part .hi, .byte⟩ := by
      simp only [Call.reference?, s.read_part.2.2]
    have hcursor : s.referredLow.cursor = s.address + 1 := by
      rw [referredLow, call_refer s.read_part.2.1 hslot]
      rfl
    have hnone := lookup_eq_none_of_reported hreference hsplit.1.2
    rw [hcursor] at hnone
    exact lookup_eq_none_of_call rfl hnone
  have hne : s.address + 1 ≠ s.address := by bv_omega
  rw [split_eq_after hslot hnext, after_errors s.later_waits, List.append_eq_nil_iff] at hsplit
  refine lookup_eq_none_of_halved s.later_waits hsplit.2 ?_
  rw [pending_referred, Sorted.lookup_insert, if_neg hne, hnext]

theorem exists_splits (hok : s.whole.fixup.2 = .ok ())
    (hfree : s.whole.pending.lookup (s.address + 1) = none) :
    ∃ u v, s.whole.Splits s.address ⟨s.part .both, .word⟩ ⟨s.part .lo, .byte⟩
      ⟨s.part .hi, .byte⟩ u v := by
  obtain ⟨herrors, hunresolved⟩ := List.append_eq_nil_iff.mp (fixup_ok_iff.mp hok)
  obtain ⟨-, hreports⟩ := undisturbed herrors
  have hordered : Sorted.Ascending s.whole.pending :=
    after_ascending s.later (call_ascending
      (after_ascending (l := start s.bus s.labels) s.before .nil) _)
  have hwaits : s.whole.pending.lookup s.address = some ⟨s.part .both, .word⟩ :=
    lookup_eq_some_after s.later_waits hreports s.lookup_referred
  obtain ⟨patch, hpatch⟩ :=
    resolve_of_unresolved_nil hunresolved ((Sorted.lookup_eq_some_iff hordered).mp hwaits)
  obtain ⟨address, haddress⟩ := PendingReference.exists_lookup_of_resolve hpatch
  obtain ⟨u, v, hlo, hhi, hwrites⟩ := PendingReference.split_of_resolve haddress hpatch
  exact ⟨u, v, hordered, hwaits, hfree, ⟨patch, hpatch, hwrites⟩, hlo, hhi⟩

theorem isMemory_whole (h : Bus.IsMemory s.bus) : Bus.IsMemory s.whole.bus := by
  rw [whole, (after_writes _ _).1, referred, (call_writes _ _).1, opened, (after_writes _ _).1]
  exact ((h.replayed _).replayed _).replayed _

end WordLoad

/-- Words and bytes resolve to the place that is meant if they can hold it and are refused
otherwise, and the halves of a place make up its last 16 bits. If a load with a reference to a word
can be fixed up, it can also be fixed up with references to the two halves, one behind the other,
unless something else waits at the second byte, and it comes to the same. -/
theorem references_resolve_exactly [Bus β] :
    (∀ labels name address, LabelTable.lookup labels name = some address → ∀ slot offset,
      PendingReference.ResolvesTo labels slot name offset (address.toNat + offset)) ∧
    ∀ s : WordLoad β, s.whole.fixup.2 = .ok () →
      (s.split.fixup.2 = .ok () ↔ s.whole.pending.lookup (s.address + 1) = none) ∧
        (s.split.fixup.2 = .ok () →
          (s.address ≠ 0xFFFF → s.split.fixup = s.whole.fixup) ∧
            (Bus.IsMemory s.bus → ∀ x,
              Bus.read s.split.fixup.1.bus x = Bus.read s.whole.fixup.1.bus x)) := by
  refine ⟨fun _ _ _ h => PendingReference.resolvesTo h, fun s hok => ?_⟩
  obtain ⟨herrors, -⟩ := List.append_eq_nil_iff.mp (fixup_ok_iff.mp hok)
  have hfree (hsplit : s.split.fixup.2 = .ok ()) :
      s.whole.pending.lookup (s.address + 1) = none :=
    WordLoad.lookup_eq_none_of_split herrors
      (List.append_eq_nil_iff.mp (fixup_ok_iff.mp hsplit)).1
  refine ⟨⟨hfree, fun hnone => ?_⟩, fun hsplit => ?_⟩
  · obtain ⟨u, v, hsplits⟩ := WordLoad.exists_splits hok hnone
    rw [WordLoad.split_eq herrors hnone]
    exact (hsplits.fixup hok).1
  · obtain ⟨u, v, hsplits⟩ := WordLoad.exists_splits hok (hfree hsplit)
    rw [WordLoad.split_eq herrors (hfree hsplit)]
    obtain ⟨-, hsame, hread⟩ := hsplits.fixup hok
    exact ⟨hsame, fun hmemory => hread (WordLoad.isMemory_whole hmemory)⟩

/-- A word that is the place before a label, with the label behind it. -/
def wordBeforeLabel : WordLoad FlatMemory where
  bus := .zeroed
  labels := .empty
  before := [.moveTo 0x0200]
  text := "here - 1"
  name := "here"
  offset := -1
  read_text := by decide +kernel
  later := [.moveTo 0x1234, .label "here", .refer .byte "here:HI"]
  later_waits := by decide

theorem references_resolve_exactly_beforeLabel :
    let s := wordBeforeLabel
    PendingReference.ResolvesTo s.whole.labels 0x0200 "here" (-1) 0x1233 ∧
      s.split.fixup.2 = .ok () ∧ s.split.fixup = s.whole.fixup ∧
      Bus.read s.split.fixup.1.bus 0x0200 = 0x33 ∧
      Bus.read s.split.fixup.1.bus 0x0201 = 0x12 := by
  intro s
  obtain ⟨hresolves, hloads⟩ := @references_resolve_exactly FlatMemory _
  have hlookup : s.whole.labels.lookup "here" = some 0x1234 := by decide +kernel
  obtain ⟨hiff, hsplit⟩ := hloads s (fixup_ok_iff.mpr (by decide +kernel))
  have hok := hiff.mpr (by decide +kernel)
  obtain ⟨hsame, hread⟩ := hsplit hok
  refine ⟨hresolves _ _ _ hlookup 0x0200 (-1), hok, hsame (by decide +kernel), ?_, ?_⟩
  · exact (hread (FlatMemory.isMemory _) 0x0200).trans (by decide +kernel)
  · exact (hread (FlatMemory.isMemory _) 0x0201).trans (by decide +kernel)

end Loader

end Nmos6502
