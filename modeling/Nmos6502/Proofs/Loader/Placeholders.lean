import Nmos6502.Proofs.Bus.Block
import Nmos6502.Proofs.Loader.Fixup

namespace Nmos6502

universe u

namespace Patch

/-- Memory holds the byte, or the word, at the address. -/
def StandsAt {β : Type u} [Bus β] (bus : β) (address : Word) : Patch → Prop
  | .byte value => Bus.read bus address = value
  | .word value => Bus.readWord bus address = value

/-- Wherever both patches put a byte, it is the same. -/
def Agree (p : Patch) (a : Word) (q : Patch) (b : Word) : Prop :=
  ∀ x u v, (x, u) ∈ p.writes a → (x, v) ∈ q.writes b → u = v

theorem standsAt_iff {β : Type u} [Bus β] {bus : β} {a : Word} {p : Patch} :
    p.StandsAt bus a ↔ ∀ x u, (x, u) ∈ p.writes a → Bus.read bus x = u := by
  cases p with
  | byte value => simp [StandsAt, writes]
  | word value =>
    simp only [StandsAt, Bus.readWord, writes, List.mem_cons, List.not_mem_nil, or_false,
      Prod.mk.injEq]
    constructor
    · rintro rfl x u (⟨rfl, rfl⟩ | ⟨rfl, rfl⟩) <;> simp
    · intro h
      rw [h a _ (.inl ⟨rfl, rfl⟩), h (a + 1) _ (.inr ⟨rfl, rfl⟩), Word.ofBytes_low_high]

theorem address_of_mem_writes {p : Patch} {a x : Word} {u : Byte} (h : (x, u) ∈ p.writes a) :
    x = a ∨ x = a + 1 := by
  cases p with
  | byte value => exact .inl (by simpa [writes] using congrArg Prod.fst (List.mem_singleton.mp h))
  | word value =>
    simp only [writes, List.mem_cons, List.not_mem_nil, or_false, Prod.mk.injEq] at h
    exact h.imp And.left And.left

theorem agree_self (p : Patch) (a : Word) : p.Agree a p a := by
  intro x u v hu hv
  cases p with
  | byte value =>
    simp only [writes, List.mem_singleton, Prod.mk.injEq] at hu hv
    rw [hu.2, hv.2]
  | word value =>
    have hne : a + 1 ≠ a := by bv_omega
    simp only [writes, List.mem_cons, List.not_mem_nil, or_false, Prod.mk.injEq] at hu hv
    rcases hu with ⟨rfl, rfl⟩ | ⟨rfl, rfl⟩ <;> rcases hv with ⟨hx, rfl⟩ | ⟨hx, rfl⟩
    · rfl
    · exact absurd hx.symm hne
    · exact absurd hx hne
    · rfl

end Patch

namespace Loader

variable {l : Loader FlatMemory}

/-- A byte of a patch stays if every patch at a higher address leaves it alone or repeats it. -/
theorem read_patched (hpending : Sorted.Ascending l.pending) {a x : Word} {p : Patch} {u : Byte}
    (hp : (a, p) ∈ l.patches) (hu : (x, u) ∈ p.writes a)
    (hlater : ∀ b q v, (b, q) ∈ l.patches → a < b → (x, v) ∈ q.writes b → v = u) :
    Bus.read (Bus.replay l.bus l.patchWrites) x = u := by
  obtain ⟨before, later, hsplit⟩ := List.append_of_mem hp
  have hascending := patches_ascending hpending
  rw [hsplit, Sorted.Ascending, List.pairwise_append, List.pairwise_cons] at hascending
  obtain ⟨-, ⟨habove, -⟩, -⟩ := hascending
  have hwrites : l.patchWrites = before.flatMap (fun entry => entry.2.writes entry.1) ++
      (p.writes a ++ later.flatMap fun entry => entry.2.writes entry.1) := by
    rw [patchWrites, hsplit, List.flatMap_append, List.flatMap_cons]
  rw [hwrites, Bus.replay, List.foldl_append]
  refine (FlatMemory.isMemory _).read_replay_of_mem ?_ (List.mem_append_left _ hu)
  intro v hv
  rcases List.mem_append.mp hv with hv | hv
  · exact (p.agree_self a) x v u hv hu
  · obtain ⟨⟨b, q⟩, hq, hv⟩ := List.mem_flatMap.mp hv
    exact hlater b q v (hsplit ▸ by simp [hq]) (habove _ hq) hv

theorem standsAt_iff_of_patched (hpending : Sorted.Ascending l.pending) {a : Word} {p : Patch}
    (hp : (a, p) ∈ l.patches) : p.StandsAt (Bus.replay l.bus l.patchWrites) a ↔
      ∀ b q, (b, q) ∈ l.patches → a < b → p.Agree a q b := by
  rw [Patch.standsAt_iff]
  constructor
  · intro hstands b q hq hab x u v hu hv
    rw [← hstands x u hu]
    -- Both placeholders hold `x`, so no third one does.
    refine read_patched hpending hq hv ?_
    intro c r w _ hbc hw
    exfalso
    have ha := Patch.address_of_mem_writes hu
    have hb := Patch.address_of_mem_writes hv
    have hc := Patch.address_of_mem_writes hw
    bv_omega
  · intro hagree x u hu
    refine read_patched hpending hp hu ?_
    intro b q v hq hab hv
    exact (hagree b q hq hab x u v hu hv).symm

section Emitted

variable {β : Type u} [Bus β]

/-- The references that have been emitted since the last fixup, after these calls. -/
def emitted (l : Loader β) (told : List (Word × PendingReference)) :
    List Call → List (Word × PendingReference)
  | [] => told
  | c :: calls => (l.call c).emitted (if c.fixesUp then [] else told ++ l.emission c) calls

/-- As long as nothing has gone wrong, what has been emitted waits. -/
def Keeps (l : Loader β) (told : List (Word × PendingReference)) : Prop :=
  l.errors = [] → l.pending.Perm told

variable {l : Loader β} {told : List (Word × PendingReference)}

theorem keeps_call (h : l.Keeps told) (c : Call) :
    (l.call c).Keeps (if c.fixesUp then [] else told ++ l.emission c) := by
  intro herrors
  cases hfixesUp : c.fixesUp with
  | true =>
    rw [pending_of_fixesUp hfixesUp]
    exact .refl _
  | false =>
    obtain ⟨hcall, hpending⟩ := call_fields (l := l) hfixesUp
    rw [hcall, List.append_eq_nil_iff] at herrors
    obtain ⟨hnone, hreported⟩ := herrors
    have hkept := h hnone
    rw [hpending]
    rcases l.emission_cases c with hemission | ⟨reference, hemission, hoverwritten⟩
    · simpa [hemission] using hkept
    · rw [hoverwritten, List.map_eq_nil_iff, Option.toList_eq_nil_iff] at hreported
      have hinserted : (Sorted.insert l.cursor reference l.pending).Perm
          ((l.cursor, reference) :: l.pending) := Sorted.perm_insert hreported
      rw [hemission]
      exact hinserted.trans ((hkept.cons _).trans (List.perm_append_singleton _ _).symm)

theorem keeps_after (h : l.Keeps told) (calls : List Call) :
    (l.after calls).Keeps (l.emitted told calls) := by
  induction calls generalizing l told with
  | nil => exact h
  | cons c calls ih => exact ih (keeps_call h c)

end Emitted

/-- After a fixup that goes well, every reference since the last fixup has an address of its own and
stands there, unless one at a higher address has put another byte into its placeholder. -/
theorem reference_stands_iff (memory : FlatMemory) (labels : LabelTable) (calls : List Call)
    (hok : ((start memory labels).after calls).fixup.2 = .ok ()) :
    let now := (start memory labels).after calls
    let emitted := (start memory labels).emitted [] calls
    (emitted.map Prod.fst).Nodup ∧ ∀ a reference, (a, reference) ∈ emitted →
      ∃ p, reference.resolve a now.labels = .ok p ∧
        (p.StandsAt now.fixup.1.bus a ↔ ∀ b other q, (b, other) ∈ emitted → a < b →
          other.resolve b now.labels = .ok q → p.Agree a q b) := by
  intro now emitted
  have hpending : Sorted.Ascending now.pending := after_ascending calls .nil
  have hproblems : now.errors ++ now.unresolved = [] := fixup_ok_iff.mp hok
  obtain ⟨-, hresolve, hbus, -⟩ := (fixesUp hpending).patched hproblems
  have hkept : now.pending.Perm emitted :=
    keeps_after (fun _ => .refl _) calls (List.append_eq_nil_iff.mp hproblems).1
  constructor
  · have hkeys : (now.pending.map Prod.fst).Nodup :=
      (List.pairwise_map.mpr hpending).imp (BitVec.ne_of_lt ·)
    exact (hkept.map Prod.fst).nodup_iff.mp hkeys
  · intro a reference hmem
    obtain ⟨p, hp⟩ := hresolve _ (hkept.mem_iff.mpr hmem)
    refine ⟨p, hp, ?_⟩
    rw [hbus, standsAt_iff_of_patched hpending
      (mem_patches.mpr ⟨reference, hkept.mem_iff.mpr hmem, hp⟩)]
    constructor
    · intro hagree b other q hother hab hq
      exact hagree b q (mem_patches.mpr ⟨other, hkept.mem_iff.mpr hother, hq⟩) hab
    · intro hagree b q hq hab
      obtain ⟨other, hother, hresolved⟩ := mem_patches.mp hq
      exact hagree b other q (hkept.mem_iff.mp hother) hab hresolved

/-- Placeholders side by side. -/
theorem reference_stands_adjacent :
    let calls := [Call.moveTo 0x1234, .label "here", .refer .word "here", .refer .byte "here:HI"]
    let now := (start FlatMemory.zeroed .empty).after calls
    ∃ p, (PendingReference.mk ⟨"here", 0, .both⟩ .word).resolve 0x1234 now.labels = .ok p ∧
      p.StandsAt now.fixup.1.bus 0x1234 := by
  intro calls now
  obtain ⟨-, hstands⟩ := reference_stands_iff FlatMemory.zeroed .empty calls
    (fixup_ok_iff.mpr (by decide +kernel))
  have hemitted : (start FlatMemory.zeroed .empty).emitted [] calls =
      [(0x1234, ⟨⟨"here", 0, .both⟩, .word⟩), (0x1236, ⟨⟨"here", 0, .hi⟩, .byte⟩)] := by
    decide +kernel
  rw [hemitted] at hstands
  obtain ⟨p, hp, hiff⟩ := hstands 0x1234 _ List.mem_cons_self
  refine ⟨p, hp, hiff.mpr ?_⟩
  intro b other q hother hab _ x u v hu hv
  have hb : b = 0x1236 := by
    simp only [List.mem_cons, List.not_mem_nil, or_false, Prod.mk.injEq] at hother
    rcases hother with ⟨rfl, -⟩ | ⟨rfl, -⟩
    · exact absurd hab (BitVec.lt_irrefl _)
    · rfl
  have hx := Patch.address_of_mem_writes hu
  have hx' := Patch.address_of_mem_writes hv
  bv_omega

/-- A byte in the upper half of a word's placeholder is patched over the word, and nothing is
reported. -/
theorem reference_patched_over :
    let calls := [Call.moveTo 0x1234, .label "a", .moveTo 0x0200, .refer .word "a",
      .moveTo 0x0201, .refer .byte "a:LO"]
    let now := (start FlatMemory.zeroed .empty).after calls
    now.fixup.2 = .ok () ∧
      ∃ reference, (0x0200, reference) ∈ (start FlatMemory.zeroed .empty).emitted [] calls ∧
        reference.resolve 0x0200 now.labels = .ok (.word 0x1234) ∧
        Bus.readWord now.fixup.1.bus 0x0200 = 0x3434 := by
  intro calls now
  refine ⟨fixup_ok_iff.mpr (by decide +kernel), ?_⟩
  have hkept : now.pending.Perm ((start FlatMemory.zeroed .empty).emitted [] calls) :=
    keeps_after (fun _ => .refl _) calls (by decide +kernel)
  have hpatch : (0x0200, .word 0x1234) ∈ now.patches := by
    decide +kernel
  obtain ⟨reference, hpending, hresolve⟩ := mem_patches.mp hpatch
  exact ⟨reference, hkept.mem_iff.mp hpending, hresolve, by decide +kernel⟩

end Loader

end Nmos6502
