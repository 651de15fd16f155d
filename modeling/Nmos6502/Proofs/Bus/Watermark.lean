import Nmos6502.Proofs.Bus.Block
import Nmos6502.Proofs.Bus.Ownership

namespace Nmos6502

theorem Word.mem_range_iff {lowest highest x : Word} : lowest ≤ x ∧ x ≤ highest ↔
    ∃ i < highest.toNat + 1 - lowest.toNat, x = lowest + BitVec.ofNat 16 i := by
  constructor
  · rintro ⟨hlow, hhigh⟩
    refine ⟨x.toNat - lowest.toNat, ?_, ?_⟩ <;> bv_omega
  · rintro ⟨i, hi, rfl⟩
    constructor <;> bv_omega

namespace MappedMemory

/-- No range if there are no writes, and otherwise the least range that holds their addresses. -/
def Spans (writes : List (Word × Byte)) : Option (Word × Word) → Prop
  | none => writes = []
  | some (lowest, highest) =>
    (∃ value, (lowest, value) ∈ writes) ∧ (∃ value, (highest, value) ∈ writes) ∧
      ∀ entry ∈ writes, lowest ≤ entry.1 ∧ entry.1 ≤ highest

theorem widen_some (lowest highest a : Word) :
    (widen (some (lowest, highest)) a).1 ≤ lowest ∧ (widen (some (lowest, highest)) a).1 ≤ a ∧
      highest ≤ (widen (some (lowest, highest)) a).2 ∧
      a ≤ (widen (some (lowest, highest)) a).2 := by
  simp only [widen]
  refine ⟨?_, ?_, ?_, ?_⟩ <;> split <;> bv_omega

theorem spans_widen {writes : List (Word × Byte)} {range : Option (Word × Word)}
    (h : Spans writes range) (entry : Word × Byte) :
    Spans (writes ++ [entry]) (some (widen range entry.1)) := by
  have hentry : (entry.1, entry.2) ∈ writes ++ [entry] :=
    List.mem_append_right _ (List.mem_singleton_self _)
  cases range with
  | none =>
    obtain rfl : writes = [] := h
    refine ⟨⟨entry.2, hentry⟩, ⟨entry.2, hentry⟩, ?_⟩
    intro other hother
    obtain rfl := List.mem_singleton.mp hother
    exact ⟨Nat.le_refl _, Nat.le_refl _⟩
  | some range =>
    obtain ⟨lowest, highest⟩ := range
    obtain ⟨⟨low, hlow⟩, ⟨high, hhigh⟩, hbetween⟩ := h
    obtain ⟨hlowest, hbelow, hhighest, habove⟩ := widen_some lowest highest entry.1
    refine ⟨?_, ?_, ?_⟩
    · split
      · exact ⟨entry.2, hentry⟩
      · exact ⟨low, List.mem_append_left _ hlow⟩
    · split
      · exact ⟨entry.2, hentry⟩
      · exact ⟨high, List.mem_append_left _ hhigh⟩
    · intro other hother
      rcases List.mem_append.mp hother with hother | hother
      · obtain ⟨hge, hle⟩ := hbetween other hother
        exact ⟨BitVec.le_trans hlowest hge, BitVec.le_trans hle hhighest⟩
      · obtain rfl := List.mem_singleton.mp hother
        exact ⟨hbelow, habove⟩

theorem spans_watermark {m : MappedMemory} {told : List (Word × Byte)}
    (h : Spans told m.watermark) (writes : List (Word × Byte)) :
    Spans (told ++ writes) (Bus.replay m writes).watermark := by
  induction writes generalizing m told with
  | nil =>
    rw [List.append_nil]
    exact h
  | cons entry writes ih =>
    have hentry := spans_widen h entry
    have hwatermark : (Bus.write m entry.1 entry.2).watermark =
        some (widen m.watermark entry.1) := by
      rw [write_eq]
    rw [← hwatermark] at hentry
    have hrest := ih hentry
    rw [List.append_assoc] at hrest
    exact hrest

end MappedMemory

end Nmos6502
