import Mathlib.Data.Bool.AllAny
import Nmos6502.Label.Reference
import Nmos6502.Proofs.Text.Numeral

/-!
A name, perhaps an offset and perhaps the part that is meant, with gaps around the whole, after the
name, after the sign and before the colon. The number of an offset is written without a sign of its
own. What a hexadecimal number with a sign behind its mark would stand for is described as well, and
so are the texts with such numbers.
-/

namespace Nmos6502.Reference

open Blank Numeral

/-- What tells that a number is hexadecimal. -/
def hexMarks : List (List Char) := [['$'], ['0', 'x'], ['0', 'X']]

/-- A number without a sign: decimal, or hexadecimal behind a mark. -/
inductive Number : List Char → Int → Prop where
  | decimal {cs : List Char} {n : Nat} (h : Digits 10 cs n) : Number cs n
  | hexadecimal {mark cs : List Char} {n : Nat} (hmark : mark ∈ hexMarks) (h : Digits 16 cs n) :
      Number (mark ++ cs) n

/-- A hexadecimal number with a sign of its own between mark and digits. -/
inductive SignedNumber : List Char → Int → Prop where
  | hexadecimal {mark cs : List Char} {n : Int} (hmark : mark ∈ hexMarks)
      (h : SignedDigits 16 cs n) : SignedNumber (mark ++ cs) n

/-- No offset, or a sign and a number that is not too large. -/
inductive Offset (number : List Char → Int → Prop) : List Char → Int → Prop where
  | none : Offset number [] 0
  | plus {gap cs : List Char} {n : Int} (hgap : IsGap gap) (h : number cs n)
      (hn : n ≤ maxOffset) : Offset number ('+' :: (gap ++ cs)) n
  | minus {gap cs : List Char} {n : Int} (hgap : IsGap gap) (h : number cs n)
      (hn : n ≤ maxOffset) : Offset number ('-' :: (gap ++ cs)) (-n)

/-- The mark of the part that is meant, in either case. -/
inductive Selector : List Char → ByteSelect → Prop where
  | both : Selector [] .both
  | lo {l o : Char} (hl : l = 'L' ∨ l = 'l') (ho : o = 'O' ∨ o = 'o') : Selector [':', l, o] .lo
  | hi {h i : Char} (hh : h = 'H' ∨ h = 'h') (hi : i = 'I' ∨ i = 'i') : Selector [':', h, i] .hi

def IsName (cs : List Char) : Prop :=
  cs ≠ [] ∧ ∀ c ∈ cs, isNameChar c = true

/-- The texts for a reference, given how the numbers of offsets are written. -/
inductive Spells (number : List Char → Int → Prop) : List Char → Reference → Prop where
  | intro {lead name gap offset gap' select trail : List Char} {k : Int} {part : ByteSelect}
      (hlead : IsGap lead) (hname : IsName name) (hgap : IsGap gap)
      (hoffset : Offset number offset k) (hgap' : IsGap gap') (hselect : Selector select part)
      (htrail : IsGap trail) :
      Spells number (lead ++ name ++ gap ++ offset ++ gap' ++ select ++ trail)
        ⟨String.ofList name, k, part⟩

/-- The offset is the negated least number of 32 bits. It is looked at before the name. -/
inductive Overflows : List Char → Prop where
  | intro {before gap cs gap' select trail : List Char} {part : ByteSelect}
      (hbefore : ∀ c ∈ before, isSign c = false) (hcolon : select = [] → ':' ∉ before)
      (hgap : IsGap gap) (h : SignedNumber cs (-0x80000000)) (hgap' : IsGap gap')
      (hselect : Selector select part) (htrail : IsGap trail) :
      Overflows (before ++ '-' :: (gap ++ cs) ++ gap' ++ select ++ trail)

/-- Somewhere in the text an offset begins with the mark of a hexadecimal number and a sign behind
it. -/
def SignBehindMark (text : List Char) : Prop :=
  ∃ before sign gap mark sign' behind, isSign sign = true ∧ IsGap gap ∧ mark ∈ hexMarks ∧
    isSign sign' = true ∧ text = before ++ sign :: (gap ++ (mark ++ sign' :: behind))

theorem isBlank_of_printable {c : Char} (h : 33 ≤ c.toNat) (h' : c.toNat ≤ 126) :
    isBlank c = false := by
  rw [Bool.eq_false_iff]
  intro hblank
  simp only [isBlank, ranges, List.any_cons, List.any_nil, Bool.or_eq_true, Bool.and_eq_true,
    decide_eq_true_eq, Bool.false_eq_true, or_false] at hblank
  omega

theorem isSign_iff {c : Char} : isSign c = true ↔ c = '+' ∨ c = '-' := by
  simp [isSign]

theorem ne_of_isBlank {c : Char} (h : isBlank c = true) : isSign c = false ∧ c ≠ ':' := by
  have hmark : ∀ d, isBlank d = false → c ≠ d := by
    rintro d hd rfl
    cases h.symm.trans hd
  rw [Bool.eq_false_iff, ne_eq, isSign_iff, not_or]
  exact ⟨⟨hmark '+' rfl, hmark '-' rfl⟩, hmark ':' rfl⟩

theorem code_of_isNameChar {c : Char} (h : isNameChar c = true) :
    46 ≤ c.toNat ∧ c.toNat ≤ 122 ∧ c.toNat ≠ 58 := by
  have hcases : ((decide (c.val ≥ 65 ∧ c.val ≤ 90) ||
      (decide (c.val ≥ 97) && decide (c.val ≤ 122)) ||
      (decide (c.val ≥ 48) && decide (c.val ≤ 57))) || c == '_' || c == '.') = true := h
  simp only [Bool.or_eq_true, Bool.and_eq_true, decide_eq_true_eq, beq_iff_eq, ge_iff_le,
    UInt32.le_iff_toNat_le, ← Char.toNat_inj] at hcases
  change ((((65 ≤ c.toNat ∧ c.toNat ≤ 90) ∨ (97 ≤ c.toNat ∧ c.toNat ≤ 122)) ∨
    (48 ≤ c.toNat ∧ c.toNat ≤ 57)) ∨ c.toNat = 95) ∨ c.toNat = 46 at hcases
  omega

theorem ne_of_isNameChar {c : Char} (h : isNameChar c = true) :
    isBlank c = false ∧ isSign c = false ∧ c ≠ ':' := by
  have hcode := code_of_isNameChar h
  refine ⟨isBlank_of_printable (by omega) (by omega), ?_, ?_⟩
  · rw [Bool.eq_false_iff, ne_eq, isSign_iff, not_or]
    constructor <;> rintro rfl <;> simp at hcode
  · rintro rfl
    simp at hcode

theorem Selector.eq_nil_or_cons {select : List Char} {part : ByteSelect}
    (h : Selector select part) :
    select = [] ∧ part = .both ∨ ∃ mark, select = ':' :: mark ∧ ':' ∉ mark := by
  cases h with
  | both => exact .inl ⟨rfl, rfl⟩
  | lo hl ho =>
    right
    rcases hl with rfl | rfl <;> rcases ho with rfl | rfl <;> exact ⟨_, rfl, by decide⟩
  | hi hh hi =>
    right
    rcases hh with rfl | rfl <;> rcases hi with rfl | rfl <;> exact ⟨_, rfl, by decide⟩

theorem Selector.subset {select : List Char} {part : ByteSelect} (h : Selector select part) :
    select ⊆ ":LOHIlohi".toList := by
  cases h with
  | both => exact List.nil_subset _
  | lo hl ho => rcases hl with rfl | rfl <;> rcases ho with rfl | rfl <;> decide
  | hi hh hi => rcases hh with rfl | rfl <;> rcases hi with rfl | rfl <;> decide

theorem Selector.forall_mem {select : List Char} {part : ByteSelect} (h : Selector select part) :
    ∀ c ∈ select, isBlank c = false ∧ isSign c = false := by
  have hplain : ∀ c ∈ ":LOHIlohi".toList, isBlank c = false ∧ isSign c = false :=
    List.all_iff_forall_prop.mp (by decide)
  exact fun c hc => hplain c (h.subset hc)

theorem subset_of_digits {radix n : Nat} {cs : List Char} (h : Digits radix cs n) :
    cs ⊆ "0123456789abcdefABCDEF".toList := by
  intro c hc
  obtain ⟨d, hd⟩ := h.forall_mem c hc
  exact mem_of_isDigit hd

theorem Number.subset {cs : List Char} {n : Int} (h : Number cs n) :
    cs ⊆ "0123456789abcdefABCDEF$xX".toList := by
  have hdigits : "0123456789abcdefABCDEF".toList ⊆ "0123456789abcdefABCDEF$xX".toList := by decide
  have hmarks : ∀ mark ∈ hexMarks, mark ⊆ "0123456789abcdefABCDEF$xX".toList := by decide
  cases h with
  | decimal h => exact List.Subset.trans (subset_of_digits h) hdigits
  | hexadecimal hmark h =>
    exact List.append_subset.mpr
      ⟨hmarks _ hmark, List.Subset.trans (subset_of_digits h) hdigits⟩

theorem Number.unsigned {cs : List Char} {n : Int} (h : Number cs n) :
    ∀ c ∈ cs, isSign c = false := by
  have hnone : ∀ c ∈ "0123456789abcdefABCDEF$xX".toList, isSign c = false :=
    List.all_iff_forall_prop.mp (by decide)
  exact fun c hc => hnone c (h.subset hc)

theorem Number.nonneg {cs : List Char} {n : Int} (h : Number cs n) : 0 ≤ n := by
  cases h <;> exact Int.natCast_nonneg _

theorem SignedNumber.subset {cs : List Char} {n : Int} (h : SignedNumber cs n) :
    cs ⊆ "0123456789abcdefABCDEF$xX+-".toList := by
  have hdigits : "0123456789abcdefABCDEF".toList ⊆ "0123456789abcdefABCDEF$xX+-".toList := by
    decide
  have hmarks : ∀ mark ∈ hexMarks, mark ⊆ "0123456789abcdefABCDEF$xX+-".toList := by decide
  obtain ⟨hmark, h⟩ := h
  refine List.append_subset.mpr ⟨hmarks _ hmark, ?_⟩
  cases h with
  | plus h =>
    exact List.cons_subset.mpr ⟨by decide, List.Subset.trans (subset_of_digits h) hdigits⟩
  | minus h =>
    exact List.cons_subset.mpr ⟨by decide, List.Subset.trans (subset_of_digits h) hdigits⟩

theorem forall_mem_of_number {cs : List Char} {n : Int} (h : Number cs n ∨ SignedNumber cs n) :
    ∀ c ∈ cs, isBlank c = false ∧ c ≠ ':' := by
  have hplain : ∀ c ∈ "0123456789abcdefABCDEF$xX+-".toList, isBlank c = false ∧ c ≠ ':' :=
    List.all_iff_forall_prop.mp (by decide)
  have hsub : "0123456789abcdefABCDEF$xX".toList ⊆ "0123456789abcdefABCDEF$xX+-".toList := by
    decide
  intro c hc
  exact hplain c (h.elim (fun h => hsub (h.subset hc)) fun h => h.subset hc)

theorem colon_notMem_of_offset {number : List Char → Int → Prop}
    (hnumber : ∀ {cs n}, number cs n → Number cs n ∨ SignedNumber cs n) {cs : List Char} {k : Int}
    (h : Offset number cs k) : ':' ∉ cs := by
  have hsigned : ∀ {sign gap ds n}, isSign sign = true → IsGap gap → number ds n →
      ':' ∉ sign :: (gap ++ ds) := by
    intro sign gap ds n hsign hgap hds hmem
    rcases List.mem_cons.mp hmem with rfl | hmem
    · cases hsign
    rcases List.mem_append.mp hmem with hmem | hmem
    · exact (ne_of_isBlank (hgap _ hmem)).2 rfl
    · exact (forall_mem_of_number (hnumber hds) _ hmem).2 rfl
  cases h with
  | none => exact List.not_mem_nil
  | plus hgap h hn => exact hsigned rfl hgap h
  | minus hgap h hn => exact hsigned rfl hgap h

theorem Spells.isName {number : List Char → Int → Prop} {cs : List Char} {r : Reference}
    (h : Spells number cs r) : IsName r.name.toList := by
  cases h with
  | intro hlead hname hgap hoffset hgap' hselect htrail =>
    rw [String.toList_ofList]
    exact hname

theorem Spells.exists_offset {number : List Char → Int → Prop} {cs : List Char} {r : Reference}
    (h : Spells number cs r) : ∃ before offset behind, cs = before ++ offset ++ behind ∧
      Offset number offset r.offset ∧ (∀ c ∈ before, isSign c = false) ∧
      ∀ c ∈ behind, isSign c = false := by
  have hgaps : ∀ {ds : List Char}, IsGap ds → ∀ c ∈ ds, isSign c = false :=
    fun hds c hc => (ne_of_isBlank (hds c hc)).1
  cases h with
  | @intro lead name gap offset gap' select trail k part hlead hname hgap hoffset hgap' hselect
      htrail =>
    refine ⟨lead ++ name ++ gap, offset, gap' ++ select ++ trail, by simp, hoffset, ?_, ?_⟩
    · simp only [List.forall_mem_append]
      exact ⟨⟨hgaps hlead, fun c hc => (ne_of_isNameChar (hname.2 c hc)).2.1⟩, hgaps hgap⟩
    · simp only [List.forall_mem_append]
      exact ⟨⟨hgaps hgap', fun c hc => (hselect.forall_mem c hc).2⟩, hgaps htrail⟩

theorem Spells.offset_bounds {cs : List Char} {r : Reference} (h : Spells Number cs r) :
    (-maxOffset ≤ r.offset ∧ r.offset ≤ maxOffset) ∧
      ('+' ∈ cs → 0 ≤ r.offset) ∧ ('-' ∈ cs → r.offset ≤ 0) := by
  obtain ⟨before, offset, behind, rfl, hoffset, hbefore, hbehind⟩ := h.exists_offset
  have hsigns : ∀ sign, isSign sign = true → sign ∈ before ++ offset ++ behind →
      sign ∈ offset := by
    intro sign hsign hmem
    simp only [List.mem_append] at hmem
    rcases hmem with (hmem | hmem) | hmem
    · cases hsign.symm.trans (hbefore sign hmem)
    · exact hmem
    · cases hsign.symm.trans (hbehind sign hmem)
  have hbound : (0 : Int) ≤ maxOffset := by decide
  have hother : ∀ {gap cs n}, IsGap gap → Number cs n → ∀ sign, isSign sign = true →
      sign ∉ gap ++ cs := by
    intro gap cs n hgap hcs sign hsign hmem
    rcases List.mem_append.mp hmem with hmem | hmem
    · cases hsign.symm.trans (ne_of_isBlank (hgap sign hmem)).1
    · cases hsign.symm.trans (hcs.unsigned sign hmem)
  generalize r.offset = k at hoffset ⊢
  cases hoffset with
  | none => exact ⟨⟨by omega, hbound⟩, fun _ => Int.le_refl 0, fun _ => Int.le_refl 0⟩
  | plus hgap hcs hn =>
    have hnonneg := hcs.nonneg
    refine ⟨⟨by omega, hn⟩, fun _ => hnonneg, fun hmem => ?_⟩
    rcases List.mem_cons.mp (hsigns '-' rfl hmem) with heq | hmem
    · cases heq
    · exact absurd hmem (hother hgap hcs '-' rfl)
  | minus hgap hcs hn =>
    have hnonneg := hcs.nonneg
    refine ⟨⟨by omega, by omega⟩, fun hmem => ?_, fun _ => by omega⟩
    rcases List.mem_cons.mp (hsigns '+' rfl hmem) with heq | hmem
    · cases heq
    · exact absurd hmem (hother hgap hcs '+' rfl)

theorem inRange_of_bounds {k : Int} (h : -maxOffset ≤ k ∧ k ≤ maxOffset) : InRange k := by
  simp only [maxOffset] at h
  exact ⟨by omega, by omega⟩

theorem SignBehindMark.between {cs : List Char} (h : SignBehindMark cs)
    (before behind : List Char) : SignBehindMark (before ++ cs ++ behind) := by
  obtain ⟨before', sign, gap, mark, sign', behind', hsign, hgap, hmark, hsign', rfl⟩ := h
  exact ⟨before ++ before', sign, gap, mark, sign', behind' ++ behind, hsign, hgap, hmark, hsign',
    by simp⟩

theorem SignedNumber.signBehindMark {cs : List Char} {n : Int} (h : SignedNumber cs n)
    {sign : Char} (hsign : isSign sign = true) {gap : List Char} (hgap : IsGap gap) :
    SignBehindMark (sign :: (gap ++ cs)) := by
  obtain ⟨hmark, h⟩ := h
  cases h with
  | @plus cs n h => exact ⟨[], sign, gap, _, '+', cs, hsign, hgap, hmark, rfl, rfl⟩
  | @minus cs n h => exact ⟨[], sign, gap, _, '-', cs, hsign, hgap, hmark, rfl, rfl⟩

theorem Overflows.signBehindMark {cs : List Char} (h : Overflows cs) : SignBehindMark cs := by
  cases h with
  | @intro before gap cs gap' select trail part hbefore hcolon hgap h hgap' hselect htrail =>
    have hmark : SignBehindMark ('-' :: (gap ++ cs)) := h.signBehindMark rfl hgap
    simpa using hmark.between before (gap' ++ select ++ trail)

theorem Offset.documented {cs : List Char} {k : Int} (h : Offset SignedNumber cs k) :
    Offset Number cs k ∨ SignBehindMark cs := by
  cases h with
  | none => exact .inl .none
  | plus hgap h hn => exact .inr (h.signBehindMark rfl hgap)
  | minus hgap h hn => exact .inr (h.signBehindMark rfl hgap)

theorem Spells.documented {cs : List Char} {r : Reference} (h : Spells SignedNumber cs r) :
    Spells Number cs r ∨ SignBehindMark cs := by
  cases h with
  | @intro lead name gap offset gap' select trail k part hlead hname hgap hoffset hgap' hselect
      htrail =>
    refine hoffset.documented.imp (Spells.intro hlead hname hgap · hgap' hselect htrail) ?_
    intro hmark
    simpa using hmark.between (lead ++ name ++ gap) (gap' ++ select ++ trail)

end Nmos6502.Reference
