
namespace Nmos6502

/-- An eight-bit quantity: a memory cell, a register, an operand. -/
abbrev Byte := BitVec 8

/-- A sixteen-bit quantity: an address or the program counter. -/
abbrev Word := BitVec 16

/-- The byte as a word with a zero high half, which is how a page-zero address is formed. -/
def Byte.toWord (b : Byte) : Word := BitVec.ofNat 16 b.toNat

/-- The byte read as a signed displacement. -/
def Byte.displacement (b : Byte) : Word := b.signExtend 16

namespace Word

/-- The half that is stored first. -/
def low (w : Word) : Byte := BitVec.ofNat 8 w.toNat

/-- The half that is stored second. -/
def high (w : Word) : Byte := BitVec.ofNat 8 (w.toNat / 256)

/-- The word whose halves are `lo` and `hi`. -/
def ofBytes (lo hi : Byte) : Word := BitVec.ofNat 16 (lo.toNat + 256 * hi.toNat)

end Word

@[simp] theorem Byte.toNat_toWord (b : Byte) : (Byte.toWord b).toNat = b.toNat := by
  have := b.isLt
  simp only [Byte.toWord, BitVec.toNat_ofNat]
  omega

namespace Word

@[simp] theorem toNat_ofBytes (lo hi : Byte) :
    (ofBytes lo hi).toNat = lo.toNat + 256 * hi.toNat := by
  have hlo := lo.isLt
  have hhi := hi.isLt
  simp only [ofBytes, BitVec.toNat_ofNat]
  omega

@[simp] theorem low_ofBytes (lo hi : Byte) : low (ofBytes lo hi) = lo := by
  apply BitVec.eq_of_toNat_eq
  have hlo := lo.isLt
  simp only [low, toNat_ofBytes, BitVec.toNat_ofNat]
  omega

@[simp] theorem high_ofBytes (lo hi : Byte) : high (ofBytes lo hi) = hi := by
  apply BitVec.eq_of_toNat_eq
  have hlo := lo.isLt
  have hhi := hi.isLt
  simp only [high, toNat_ofBytes, BitVec.toNat_ofNat]
  omega

@[simp] theorem ofBytes_low_high (w : Word) : ofBytes (low w) (high w) = w := by
  apply BitVec.eq_of_toNat_eq
  have hw := w.isLt
  simp only [toNat_ofBytes, low, high, BitVec.toNat_ofNat]
  omega

@[simp] theorem low_toWord (b : Byte) : low (Byte.toWord b) = b := by
  apply BitVec.eq_of_toNat_eq
  have hb := b.isLt
  simp only [low, Byte.toNat_toWord, BitVec.toNat_ofNat]
  omega

end Word

end Nmos6502
