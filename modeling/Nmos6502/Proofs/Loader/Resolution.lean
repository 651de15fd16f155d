import Nmos6502.Proofs.Loader.Branches

namespace Nmos6502

namespace PendingReference

/-- What an error tells of a place. -/
def told (place : Int) : Int :=
  (checked place).getD outOfRange

theorem told_of_inRange {place : Int} (h : Numeral.InRange place) : told place = place := by
  rw [told, checked_eq_some_iff.mpr ⟨h, rfl⟩, Option.getD_some]

theorem getD_map_both (place : Int) :
    ((checked place).map ByteSelect.both.apply).getD outOfRange = told place := by
  cases hchecked : checked place <;> simp [told, hchecked, ByteSelect.apply]

theorem told_fits_iff {place bound : Int} (h : bound ≤ 0x10000) :
    0 ≤ told place ∧ told place < bound ↔ 0 ≤ place ∧ place < bound := by
  by_cases hrange : Numeral.InRange place
  · rw [told_of_inRange hrange]
  · rw [told, checked, if_neg hrange, Option.getD_none, outOfRange]
    simp only [Numeral.InRange] at hrange
    omega

variable {labels : LabelTable} {name : String} {address : Word} {offset : Int} {slot : Word}

theorem resolve_word (h : labels.lookup name = some address) :
    (mk ⟨name, offset, .both⟩ .word).resolve slot labels =
      if 0 ≤ address.toNat + offset ∧ address.toNat + offset < 0x10000 then
        .ok (.word (BitVec.ofInt 16 (address.toNat + offset)))
      else .error (.wordOutOfRange (Reference.text ⟨name, offset, .both⟩) slot
        (told (address.toNat + offset))) := by
  simp only [resolve, h, getD_map_both, told_fits_iff (Int.le_refl 0x10000)]
  split_ifs with hfits
  · rw [told_of_inRange ⟨by omega, by omega⟩]
  · rfl

theorem resolve_byte (h : labels.lookup name = some address) :
    (mk ⟨name, offset, .both⟩ .byte).resolve slot labels =
      if 0 ≤ address.toNat + offset ∧ address.toNat + offset < 0x100 then
        .ok (.byte (BitVec.ofInt 8 (address.toNat + offset)))
      else .error (.byteOutOfRange (Reference.text ⟨name, offset, .both⟩) slot
        (told (address.toNat + offset))) := by
  simp only [resolve, h, getD_map_both, told_fits_iff (by decide : (0x100 : Int) ≤ 0x10000)]
  split_ifs with hfits
  · rw [told_of_inRange ⟨by omega, by omega⟩]
  · rfl

theorem resolve_half {part : ByteSelect} (hpart : part ≠ .both)
    (h : labels.lookup name = some address)
    (hrange : Numeral.InRange (address.toNat + offset)) :
    (mk ⟨name, offset, part⟩ .byte).resolve slot labels =
      .ok (.byte (BitVec.ofInt 8 (part.apply (address.toNat + offset)))) := by
  have hbound : 0 ≤ part.apply (address.toNat + offset) ∧
      part.apply (address.toNat + offset) < 0x100 := by
    cases part with
    | both => exact absurd rfl hpart
    | lo | hi =>
      simp only [ByteSelect.apply]
      omega
  have hsum := checked_eq_some_iff.mpr ⟨hrange, rfl⟩
  simp only [resolve, h, hsum, Option.map_some, Option.getD_some]
  rw [if_pos hbound]

theorem lo_add_hi (place : Int) :
    ((BitVec.ofInt 8 (ByteSelect.lo.apply place)).toNat +
      256 * (BitVec.ofInt 8 (ByteSelect.hi.apply place)).toNat : Int) = place % 65536 := by
  simp only [ByteSelect.apply, BitVec.toNat_ofInt]
  omega

theorem halves_of_word (place : Int) :
    Word.low (BitVec.ofInt 16 place) = BitVec.ofInt 8 (ByteSelect.lo.apply place) ∧
      Word.high (BitVec.ofInt 16 place) = BitVec.ofInt 8 (ByteSelect.hi.apply place) := by
  constructor <;> apply BitVec.eq_of_toNat_eq <;>
    simp only [Word.low, Word.high, ByteSelect.apply, BitVec.toNat_ofNat, BitVec.toNat_ofInt] <;>
    omega

/-- How the references to a place resolve at an address. -/
structure ResolvesTo (labels : LabelTable) (slot : Word) (name : String) (offset place : Int) :
    Prop where
  word : 0 ≤ place ∧ place ≤ 65535 → ∃ value : Word, (value.toNat : Int) = place ∧
    (mk ⟨name, offset, .both⟩ .word).resolve slot labels = .ok (.word value)
  word_refused : ¬ (0 ≤ place ∧ place ≤ 65535) →
    (mk ⟨name, offset, .both⟩ .word).resolve slot labels =
      .error (.wordOutOfRange (Reference.text ⟨name, offset, .both⟩) slot (told place))
  byte : 0 ≤ place ∧ place ≤ 255 → ∃ value : Byte, (value.toNat : Int) = place ∧
    (mk ⟨name, offset, .both⟩ .byte).resolve slot labels = .ok (.byte value)
  byte_refused : ¬ (0 ≤ place ∧ place ≤ 255) →
    (mk ⟨name, offset, .both⟩ .byte).resolve slot labels =
      .error (.byteOutOfRange (Reference.text ⟨name, offset, .both⟩) slot (told place))
  halves : Numeral.InRange place → ∃ lo hi : Byte,
    (mk ⟨name, offset, .lo⟩ .byte).resolve slot labels = .ok (.byte lo) ∧
      (mk ⟨name, offset, .hi⟩ .byte).resolve slot labels = .ok (.byte hi) ∧
      (lo.toNat + 256 * hi.toNat : Int) = place % 65536
  /-- The halves one behind the other write what the word writes. -/
  split : ∀ patch, (mk ⟨name, offset, .both⟩ .word).resolve slot labels = .ok patch →
    ∃ lo hi : Byte, (mk ⟨name, offset, .lo⟩ .byte).resolve slot labels = .ok (.byte lo) ∧
      (mk ⟨name, offset, .hi⟩ .byte).resolve (slot + 1) labels = .ok (.byte hi) ∧
      patch.writes slot = [(slot, lo), (slot + 1, hi)]

theorem split_of_resolve {patch : Patch} (h : labels.lookup name = some address)
    (hresolve : (mk ⟨name, offset, .both⟩ .word).resolve slot labels = .ok patch) :
    ∃ lo hi : Byte, (mk ⟨name, offset, .lo⟩ .byte).resolve slot labels = .ok (.byte lo) ∧
      (mk ⟨name, offset, .hi⟩ .byte).resolve (slot + 1) labels = .ok (.byte hi) ∧
      patch.writes slot = [(slot, lo), (slot + 1, hi)] := by
  rw [resolve_word h] at hresolve
  split_ifs at hresolve with hfits
  obtain rfl := Except.ok.inj hresolve
  have hrange : Numeral.InRange (address.toNat + offset) := ⟨by omega, by omega⟩
  obtain ⟨hlow, hhigh⟩ := halves_of_word (address.toNat + offset)
  refine ⟨_, _, resolve_half (by decide) h hrange, resolve_half (by decide) h hrange, ?_⟩
  rw [Patch.writes, hlow, hhigh]

theorem resolvesTo (h : labels.lookup name = some address) (slot : Word) (offset : Int) :
    ResolvesTo labels slot name offset (address.toNat + offset) where
  word hfits := by
    refine ⟨BitVec.ofInt 16 (address.toNat + offset), ?_, ?_⟩
    · rw [BitVec.toNat_ofInt]
      omega
    · rw [resolve_word h, if_pos (by omega)]
  word_refused hfits := by
    rw [resolve_word h, if_neg (by omega)]
  byte hfits := by
    refine ⟨BitVec.ofInt 8 (address.toNat + offset), ?_, ?_⟩
    · rw [BitVec.toNat_ofInt]
      omega
    · rw [resolve_byte h, if_pos (by omega)]
  byte_refused hfits := by
    rw [resolve_byte h, if_neg (by omega)]
  halves hrange :=
    ⟨_, _, resolve_half (by decide) h hrange, resolve_half (by decide) h hrange, lo_add_hi _⟩
  split _ hresolve := split_of_resolve h hresolve

theorem exists_lookup_of_resolve {p : PendingReference} {patch : Patch}
    (h : p.resolve slot labels = .ok patch) :
    ∃ address, labels.lookup p.target.name = some address := by
  cases hlookup : labels.lookup p.target.name with
  | some address => exact ⟨address, rfl⟩
  | none => simp [resolve, hlookup] at h

end PendingReference

end Nmos6502
