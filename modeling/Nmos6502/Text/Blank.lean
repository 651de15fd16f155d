
namespace Nmos6502.Blank

/-- The code points with the property White_Space, as inclusive ranges. -/
def ranges : List (Nat × Nat) := [
  (0x0009, 0x000D), (0x0020, 0x0020), (0x0085, 0x0085), (0x00A0, 0x00A0), (0x1680, 0x1680),
  (0x2000, 0x200A), (0x2028, 0x2029), (0x202F, 0x202F), (0x205F, 0x205F), (0x3000, 0x3000)]

def isBlank (c : Char) : Bool :=
  ranges.any fun (first, last) => decide (first ≤ c.toNat) && decide (c.toNat ≤ last)

/-- The text without the blanks before its first and after its last character that is not blank. -/
def trim (cs : List Char) : List Char :=
  ((cs.dropWhile isBlank).reverse.dropWhile isBlank).reverse

theorem trim_eq_self {cs : List Char} (hfirst : ∀ c ∈ cs.head?, isBlank c = false)
    (hlast : ∀ c ∈ cs.getLast?, isBlank c = false) : trim cs = cs := by
  have keep : ∀ {ds : List Char}, (∀ c ∈ ds.head?, isBlank c = false) →
      ds.dropWhile isBlank = ds := by
    intro ds h
    cases ds with
    | nil => rfl
    | cons d ds => simp [h d (by simp)]
  rw [trim, keep hfirst, keep (by simpa using hlast), List.reverse_reverse]

def IsGap (cs : List Char) : Prop :=
  ∀ c ∈ cs, isBlank c = true

theorem isGap_nil : IsGap [] := by
  simp [IsGap]

theorem isGap_reverse {cs : List Char} : IsGap cs.reverse ↔ IsGap cs := by
  simp [IsGap]

theorem exists_trim (cs : List Char) :
    ∃ lead trail, IsGap lead ∧ IsGap trail ∧ cs = lead ++ trim cs ++ trail := by
  have htake : ∀ ds : List Char, IsGap (ds.takeWhile isBlank) :=
    fun ds => List.all_eq_true.mp List.all_takeWhile
  refine ⟨cs.takeWhile isBlank,
    ((cs.dropWhile isBlank).reverse.takeWhile isBlank).reverse, htake cs,
    isGap_reverse.mpr (htake _), ?_⟩
  rw [trim, List.append_assoc, ← List.reverse_append, List.takeWhile_append_dropWhile,
    List.reverse_reverse, List.takeWhile_append_dropWhile]

theorem dropWhile_isGap_append {lead : List Char} (h : IsGap lead) (cs : List Char) :
    (lead ++ cs).dropWhile isBlank = cs.dropWhile isBlank :=
  List.dropWhile_append_of_pos h

theorem trim_append {lead trail : List Char} (hlead : IsGap lead) (htrail : IsGap trail)
    (cs : List Char) : trim (lead ++ cs ++ trail) = trim cs := by
  have hgap : ∀ {ds : List Char}, IsGap ds → ds.dropWhile isBlank = [] := by
    intro ds h
    simpa using dropWhile_isGap_append h []
  rw [trim, trim, List.append_assoc, dropWhile_isGap_append hlead, List.dropWhile_append]
  split
  case isTrue h =>
    rw [hgap htrail, List.isEmpty_iff.mp h]
  case isFalse =>
    rw [List.reverse_append, dropWhile_isGap_append (isGap_reverse.mpr htrail)]

theorem trim_between {lead cs trail : List Char} (hlead : IsGap lead) (htrail : IsGap trail)
    (hfirst : ∀ c ∈ cs.head?, isBlank c = false) (hlast : ∀ c ∈ cs.getLast?, isBlank c = false) :
    trim (lead ++ cs ++ trail) = cs := by
  rw [trim_append hlead htrail, trim_eq_self hfirst hlast]

end Nmos6502.Blank
