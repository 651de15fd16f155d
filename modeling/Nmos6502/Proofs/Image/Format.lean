import Nmos6502.Bus.Flat
import Nmos6502.Loader

namespace Nmos6502

universe u

namespace Image

/-- The number kept in two bytes of a string, low byte first. -/
def field (d : List Byte) (i : Nat) : Nat :=
  (d.getD i 0).toNat + 256 * (d.getD (i + 1) 0).toNat

def header (address length : Word) : List Byte :=
  [Word.low address, Word.high address, Word.low length, Word.high length]

section Bounds

variable {address : Word} {bytes : List Byte}

theorem of_eq_ok_iff {image : Image} :
    of address bytes = .ok image ↔ image.address = address ∧ image.bytes = bytes := by
  rw [of]
  constructor
  · intro h
    split at h
    · cases h
      exact ⟨rfl, rfl⟩
    · cases h
  · rintro ⟨rfl, rfl⟩
    rw [dif_pos image.fits]

theorem exists_of_fits (h : FitsImage address bytes.length) :
    ∃ image, of address bytes = .ok image :=
  ⟨⟨address, bytes, h⟩, of_eq_ok_iff.mpr ⟨rfl, rfl⟩⟩

theorem of_of_not_fits (h : ¬ FitsImage address bytes.length) :
    of address bytes = .error (.outOfBounds address bytes.length) := by
  rw [of, dif_neg h]

theorem exists_of_iff : (∃ image, of address bytes = .ok image) ↔
    bytes.length ≤ 0xFFFF ∧ address.toNat + bytes.length ≤ 0x10000 := by
  constructor
  · rintro ⟨image, himage⟩
    obtain ⟨rfl, rfl⟩ := of_eq_ok_iff.mp himage
    exact ⟨Nat.le_of_lt_succ image.fits.1, image.fits.2⟩
  · rintro ⟨hlength, hend⟩
    exact exists_of_fits ⟨Nat.lt_succ_of_le hlength, hend⟩

end Bounds

theorem exists_header {d : List Byte} (h : 4 ≤ d.length) :
    ∃ address length bytes, d = header address length ++ bytes := by
  match d with
  | addressLow :: addressHigh :: lengthLow :: lengthHigh :: bytes =>
    refine ⟨Word.ofBytes addressLow addressHigh, Word.ofBytes lengthLow lengthHigh, bytes, ?_⟩
    simp [header]

theorem field_header (address length : Word) (bytes : List Byte) :
    field (header address length ++ bytes) 0 = address.toNat ∧
      field (header address length ++ bytes) 2 = length.toNat := by
  have hfield (w : Word) : (Word.low w).toNat + 256 * (Word.high w).toNat = w.toNat := by
    rw [← Word.toNat_ofBytes, Word.ofBytes_low_high]
  exact ⟨hfield address, hfield length⟩

theorem decode_header (address length : Word) (bytes : List Byte) :
    decode (header address length ++ bytes) =
      if bytes.length = length.toNat then of address bytes
      else .error (.lengthMismatch length.toNat bytes.length) := by
  simp [header, decode]

theorem decode_of_short {d : List Byte} (h : d.length < 4) :
    decode d = .error (.missingHeader d.length) := by
  match d with
  | [] | [_] | [_, _] | [_, _, _] => rfl
  | _ :: _ :: _ :: _ :: rest =>
    simp only [List.length_cons] at h
    omega

theorem encode_eq (image : Image) :
    image.encode = header image.address (BitVec.ofNat 16 image.bytes.length) ++ image.bytes :=
  rfl

theorem decode_encode (image : Image) : decode image.encode = .ok image := by
  have hlength : (BitVec.ofNat 16 image.bytes.length).toNat = image.bytes.length :=
    Nat.mod_eq_of_lt image.fits.1
  rw [encode_eq, decode_header, if_pos hlength.symm]
  exact of_eq_ok_iff.mpr ⟨rfl, rfl⟩

theorem encode_of_decode {d : List Byte} {image : Image} (h : decode d = .ok image) :
    image.encode = d := by
  rcases Nat.lt_or_ge d.length 4 with hshort | hlong
  · rw [decode_of_short hshort] at h
    cases h
  · obtain ⟨address, length, bytes, rfl⟩ := exists_header hlong
    rw [decode_header] at h
    split at h
    · rename_i hlength
      obtain ⟨rfl, rfl⟩ := of_eq_ok_iff.mp h
      rw [encode_eq, hlength, BitVec.ofNat_toNat, BitVec.setWidth_eq]
    · cases h

/-- What is read from a string: the first of three things that can be wrong with it, or else the
image that it encodes. -/
structure Reads (d : List Byte) : Prop where
  missingHeader : d.length < 4 → decode d = .error (.missingHeader d.length)
  lengthMismatch : 4 ≤ d.length → field d 2 ≠ d.length - 4 →
    decode d = .error (.lengthMismatch (field d 2) (d.length - 4))
  outOfBounds : 4 ≤ d.length → field d 2 = d.length - 4 → 0x10000 < field d 0 + field d 2 →
    decode d = .error (.outOfBounds (BitVec.ofNat 16 (field d 0)) (field d 2))
  image : 4 ≤ d.length → field d 2 = d.length - 4 → field d 0 + field d 2 ≤ 0x10000 →
    ∃ image, decode d = .ok image ∧ image.address.toNat = field d 0 ∧ image.bytes = d.drop 4
  encode : ∀ image, decode d = .ok image → image.encode = d

theorem reads (d : List Byte) : Reads d := by
  rcases Nat.lt_or_ge d.length 4 with hshort | hlong
  · have hnot : ¬ 4 ≤ d.length := Nat.not_le.mpr hshort
    exact ⟨fun _ => decode_of_short hshort, fun h => absurd h hnot, fun h => absurd h hnot,
      fun h => absurd h hnot, fun _ => encode_of_decode⟩
  · obtain ⟨address, length, bytes, rfl⟩ := exists_header hlong
    obtain ⟨haddress, hlength⟩ := field_header address length bytes
    have hpayload : (header address length ++ bytes).length - 4 = bytes.length := by
      rw [List.length_append]
      exact Nat.add_sub_cancel_left 4 _
    constructor
    · intro hshort
      exact absurd hlong (Nat.not_le.mpr hshort)
    · rw [hlength, hpayload]
      intro _ hne
      rw [decode_header, if_neg hne.symm]
    · rw [hlength, hpayload, haddress]
      intro _ heq hpast
      have hnot : ¬ FitsImage address bytes.length := fun h => by
        have := h.2
        omega
      rw [decode_header, if_pos heq.symm, of_of_not_fits hnot, heq, BitVec.ofNat_toNat,
        BitVec.setWidth_eq]
    · rw [hlength, hpayload, haddress]
      intro _ heq hend
      have hfits : FitsImage address bytes.length := ⟨heq ▸ length.isLt, heq ▸ hend⟩
      obtain ⟨image, himage⟩ := exists_of_fits hfits
      obtain ⟨hplace, hbytes⟩ := of_eq_ok_iff.mp himage
      refine ⟨image, ?_, congrArg BitVec.toNat hplace, hbytes⟩
      rw [decode_header, if_pos heq.symm, himage]
    · exact fun _ => encode_of_decode

theorem range_of_nil {image : Image} (h : image.bytes = []) : image.range = none := by
  simp [range, h]

theorem range_of_ne_nil {image : Image} (h : image.bytes ≠ []) :
    ∃ last, image.range = some (image.address, last) ∧
      last.toNat = image.address.toNat + image.bytes.length - 1 := by
  obtain ⟨n, hn⟩ := Nat.exists_eq_succ_of_ne_zero (mt List.length_eq_zero_iff.mp h)
  refine ⟨image.address + BitVec.ofNat 16 n, ?_, ?_⟩
  · simp only [range, hn]
  · have hfits := image.fits
    rw [FitsImage, hn] at hfits
    rw [hn]
    simp only [BitVec.toNat_add, BitVec.toNat_ofNat]
    omega

/-- What an image keeps when it is encoded or moved, and the addresses that it takes up. -/
structure Kept (image : Image) : Prop where
  decode_encode : decode image.encode = .ok image
  encodeBytes : Image.encodeBytes image.address image.bytes = .ok image.encode
  relocate_eq : ∀ address, image.relocate address = of address image.bytes
  relocate : ∀ address moved, image.relocate address = .ok moved →
    moved.address = address ∧ moved.bytes = image.bytes
  range_nil : image.bytes = [] → image.range = none
  range : image.bytes ≠ [] → ∃ last, image.range = some (image.address, last) ∧
    last.toNat = image.address.toNat + image.bytes.length - 1

theorem kept (image : Image) : image.Kept where
  decode_encode := image.decode_encode
  encodeBytes := by
    rw [Image.encodeBytes, of_eq_ok_iff.mpr ⟨rfl, rfl⟩]
    rfl
  relocate_eq _ := rfl
  relocate _ _ := of_eq_ok_iff.mp
  range_nil := range_of_nil
  range := range_of_ne_nil

end Image

namespace Loader

variable {β : Type u} [Bus β]

theorem loadImage_of_ok {l : Loader β} {encoded : List Byte} {address : Option Word}
    {image : Image} (h : Image.decodeAt encoded address = .ok image) :
    l.loadImage encoded address =
      ((l.moveTo image.address).writeAll image.bytes, .ok image.address) := by
  rw [loadImage, h]

theorem loadImage_of_error {l : Loader β} {encoded : List Byte} {address : Option Word}
    {error : ImageError} (h : Image.decodeAt encoded address = .error error) :
    l.loadImage encoded address = (l, .error error) := by
  rw [loadImage, h]

theorem loadImage_refused {l : Loader β} {encoded : List Byte} {address : Option Word}
    {error : ImageError} (h : (l.loadImage encoded address).2 = .error error) :
    (l.loadImage encoded address).1 = l := by
  cases hdecode : Image.decodeAt encoded address with
  | ok image =>
    rw [loadImage_of_ok hdecode] at h
    cases h
  | error error => rw [loadImage_of_error hdecode]

end Loader

/-- Reading and writing images undo each other, on exactly the strings and the images that there
are, and a string that is refused leaves no trace. -/
theorem image_format_bijective {β : Type u} [Bus β] (d : List Byte) (address : Word)
    (bytes : List Byte) (l : Loader β) (destination : Option Word) :
    Image.Reads d ∧
      ((∃ image, Image.of address bytes = .ok image) ↔
        bytes.length ≤ 0xFFFF ∧ address.toNat + bytes.length ≤ 0x10000) ∧
      (∀ image, Image.of address bytes = .ok image →
        image.address = address ∧ image.bytes = bytes ∧ image.Kept) ∧
      ∀ error, (l.loadImage d destination).2 = .error error →
        (l.loadImage d destination).1 = l := by
  refine ⟨Image.reads d, Image.exists_of_iff, ?_, fun _ => Loader.loadImage_refused⟩
  intro image himage
  obtain ⟨hplace, hbytes⟩ := Image.of_eq_ok_iff.mp himage
  exact ⟨hplace, hbytes, image.kept⟩

/-- One byte at the last address is an image. With a byte more it would run past the end, and the
loader refuses it. -/
theorem image_format_bijective_atTop :
    let l := Loader.start FlatMemory.zeroed .empty
    (∃ image last, Image.decode [0xFF, 0xFF, 0x01, 0x00, 0xEA] = .ok image ∧
        image.range = some (0xFFFF, last) ∧ last.toNat = 0xFFFF) ∧
      (l.loadImage [0xFF, 0xFF, 0x02, 0x00, 0xEA, 0xEA] none).1 = l := by
  intro l
  obtain ⟨-, hexists, hkept, -⟩ := image_format_bijective [] 0xFFFF [0xEA] l none
  obtain ⟨image, himage⟩ := hexists.mpr (by decide)
  obtain ⟨hplace, hbytes, hk⟩ := hkept image himage
  obtain ⟨last, hrange, hlast⟩ := hk.range (by simp [hbytes])
  obtain ⟨-, -, -, hrefused⟩ :=
    image_format_bijective [0xFF, 0xFF, 0x02, 0x00, 0xEA, 0xEA] 0xFFFF [0xEA] l none
  rw [hplace] at hrange hlast
  refine ⟨⟨image, last, himage, hrange, ?_⟩, hrefused (.outOfBounds 0xFFFF 2) rfl⟩
  rw [hlast, hbytes]
  rfl

end Nmos6502
