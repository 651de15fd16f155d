
/-!
`Table α n` has one cell for each value that `n` address lines can carry. The highest line chooses
between two half tables, so a look-up follows one line per level, a filled table shares its halves,
and two tables with the same cells are equal.

The main statements give every operation through `get`: `get_replicate`, `get_set` and `get_fill`,
and `ext` for equality.
-/

namespace Nmos6502

universe u

/-- A cell for each value of `n` address lines. -/
inductive Table (α : Type u) : Nat → Type u where
  | cell (value : α) : Table α 0
  | halves {n : Nat} (low high : Table α n) : Table α (n + 1)

namespace Table

variable {α : Type u}

/-- How many values `n` address lines can carry. -/
def capacity : (n : Nat) → Nat
  | 0 => 1
  | n + 1 => capacity n + capacity n

def replicate : (n : Nat) → α → Table α n
  | 0, value => .cell value
  | n + 1, value => .halves (replicate n value) (replicate n value)

def get : {n : Nat} → Table α n → Nat → α
  | 0, .cell value, _ => value
  | n + 1, .halves low high, i => if i.testBit n then high.get i else low.get i

def set : {n : Nat} → Table α n → Nat → α → Table α n
  | 0, .cell _, _, value => .cell value
  | n + 1, .halves low high, i, value =>
    if i.testBit n then .halves low (high.set i value) else .halves (low.set i value) high

/-- The table with every cell from `start` up to, and not including, `stop` replaced. A half that
the range covers is replaced whole and one that it misses is kept. -/
def fill : {n : Nat} → Table α n → (start stop : Nat) → α → Table α n
  | 0, .cell old, start, stop, value => if start = 0 ∧ 0 < stop then .cell value else .cell old
  | n + 1, .halves low high, start, stop, value =>
    if stop ≤ start then .halves low high
    else if start = 0 ∧ capacity (n + 1) ≤ stop then replicate (n + 1) value
    else
      .halves (low.fill start stop value)
        (high.fill (start - capacity n) (stop - capacity n) value)

theorem capacity_eq (n : Nat) : capacity n = Nat.pow 2 n := by
  induction n with
  | zero => rfl
  | succ n ih =>
    rw [capacity, ih]
    exact (Nat.mul_two _).symm

theorem testBit_capacity_add {n m : Nat} (h : n < m) (i : Nat) :
    (capacity m + i).testBit n = i.testBit n := by
  rw [capacity_eq]
  exact Nat.testBit_two_pow_add_gt h i

theorem testBit_eq {n i : Nat} (hi : i < capacity (n + 1)) :
    i.testBit n = decide (capacity n ≤ i) := by
  have small {k : Nat} (hk : k < capacity n) : k.testBit n = false := by
    rw [capacity_eq] at hk
    exact Nat.testBit_lt_two_pow hk
  by_cases h : capacity n ≤ i
  · obtain ⟨k, rfl⟩ := Nat.exists_eq_add_of_le h
    have hk : k < capacity n := by
      rw [capacity] at hi
      omega
    have hbit : (capacity n + k).testBit n = !k.testBit n := by
      rw [capacity_eq]
      exact Nat.testBit_two_pow_add_eq k n
    rw [hbit, small hk, decide_eq_true h, Bool.not_false]
  · rw [small (Nat.lt_of_not_le h), decide_eq_false h]

theorem get_capacity_add {n m : Nat} (h : n ≤ m) (t : Table α n) (i : Nat) :
    t.get (capacity m + i) = t.get i := by
  induction t with
  | cell => rfl
  | halves low high ihl ihh =>
    simp only [get, testBit_capacity_add h, ihl (by omega), ihh (by omega)]

theorem set_capacity_add {n m : Nat} (h : n ≤ m) (t : Table α n) (i : Nat) (value : α) :
    t.set (capacity m + i) value = t.set i value := by
  induction t with
  | cell => rfl
  | halves low high ihl ihh =>
    simp only [set, testBit_capacity_add h, ihl (by omega), ihh (by omega)]

theorem get_halves {n : Nat} (low high : Table α n) {i : Nat} (hi : i < capacity (n + 1)) :
    (halves low high).get i =
      if i < capacity n then low.get i else high.get (i - capacity n) := by
  rw [get, testBit_eq hi]
  by_cases h : capacity n ≤ i
  · obtain ⟨k, rfl⟩ := Nat.exists_eq_add_of_le h
    rw [if_pos (decide_eq_true h), if_neg (Nat.not_lt.mpr h), get_capacity_add (Nat.le_refl n),
      Nat.add_sub_cancel_left]
  · simp only [h, decide_false, Bool.false_eq_true, if_false, Nat.lt_of_not_le h, if_true]

theorem set_halves {n : Nat} (low high : Table α n) {i : Nat} (value : α)
    (hi : i < capacity (n + 1)) :
    (halves low high).set i value =
      if i < capacity n then .halves (low.set i value) high
      else .halves low (high.set (i - capacity n) value) := by
  rw [set, testBit_eq hi]
  by_cases h : capacity n ≤ i
  · obtain ⟨k, rfl⟩ := Nat.exists_eq_add_of_le h
    rw [if_pos (decide_eq_true h), if_neg (Nat.not_lt.mpr h), set_capacity_add (Nat.le_refl n),
      Nat.add_sub_cancel_left]
  · simp only [h, decide_false, Bool.false_eq_true, if_false, Nat.lt_of_not_le h, if_true]

@[simp] theorem get_replicate (n : Nat) (value : α) (i : Nat) :
    (replicate n value).get i = value := by
  induction n with
  | zero => rfl
  | succ n ih => simp only [replicate, get, ih, ite_self]

theorem get_set {n : Nat} (t : Table α n) (i j : Nat) (value : α) (hi : i < capacity n)
    (hj : j < capacity n) : (t.set i value).get j = if j = i then value else t.get j := by
  induction t generalizing i j with
  | cell old =>
    rw [capacity] at hi hj
    have : j = i := by omega
    rw [set, get, if_pos this]
  | @halves n low high ihl ihh =>
    have hsum : capacity (n + 1) = capacity n + capacity n := rfl
    rw [set_halves _ _ _ hi, get_halves _ _ hj]
    by_cases hin : i < capacity n
    · rw [if_pos hin, get_halves _ _ hj]
      by_cases hjn : j < capacity n
      · simp only [hjn, if_true, ihl i j hin hjn]
      · have hne : j ≠ i := by omega
        simp only [hjn, if_false, hne]
    · rw [if_neg hin, get_halves _ _ hj]
      by_cases hjn : j < capacity n
      · have hne : j ≠ i := by omega
        simp only [hjn, if_true, hne, if_false]
      · have : j - capacity n = i - capacity n ↔ j = i := by omega
        simp only [hjn, if_false, ihh (i - capacity n) (j - capacity n) (by omega) (by omega), this]

theorem get_fill {n : Nat} (t : Table α n) (start stop i : Nat) (value : α)
    (hi : i < capacity n) :
    (t.fill start stop value).get i = if start ≤ i ∧ i < stop then value else t.get i := by
  induction t generalizing start stop i with
  | cell old =>
    rw [capacity] at hi
    have : i = 0 := by omega
    subst this
    by_cases h : start = 0 ∧ 0 < stop
    · have hin : start ≤ 0 ∧ 0 < stop := by omega
      rw [fill, if_pos h, if_pos hin, get]
    · have hout : ¬ (start ≤ 0 ∧ 0 < stop) := by omega
      rw [fill, if_neg h, if_neg hout]
  | @halves n low high ihl ihh =>
    have hsum : capacity (n + 1) = capacity n + capacity n := rfl
    by_cases hempty : stop ≤ start
    · have hout : ¬ (start ≤ i ∧ i < stop) := by omega
      rw [fill, if_pos hempty, if_neg hout]
    · by_cases hall : start = 0 ∧ capacity (n + 1) ≤ stop
      · have hin : start ≤ i ∧ i < stop := by omega
        rw [fill, if_neg hempty, if_pos hall, get_replicate, if_pos hin]
      · rw [fill, if_neg hempty, if_neg hall, get_halves _ _ hi, get_halves _ _ hi]
        by_cases hin : i < capacity n
        · simp only [hin, if_true]
          exact ihl start stop i hin
        · simp only [hin, if_false]
          rw [ihh (start - capacity n) (stop - capacity n) (i - capacity n) (by omega)]
          have : start - capacity n ≤ i - capacity n ∧ i - capacity n < stop - capacity n ↔
              start ≤ i ∧ i < stop := by
            omega
          simp only [this]

theorem ext {n : Nat} {t s : Table α n} (h : ∀ i, i < capacity n → t.get i = s.get i) : t = s := by
  induction n with
  | zero =>
    cases t with
    | cell a =>
      cases s with
      | cell b => exact congrArg cell (h 0 (by decide))
  | succ n ih =>
    have hsum : capacity (n + 1) = capacity n + capacity n := rfl
    cases t with
    | halves tl th =>
      cases s with
      | halves sl sh =>
        have hlow : tl = sl := by
          refine ih fun i hi => ?_
          have hi' : i < capacity (n + 1) := by omega
          simpa only [get_halves _ _ hi', hi, if_true] using h i hi'
        have hhigh : th = sh := by
          refine ih fun i hi => ?_
          have hi' : i + capacity n < capacity (n + 1) := by omega
          have hnot : ¬ i + capacity n < capacity n := by omega
          simpa only [get_halves _ _ hi', hnot, if_false, Nat.add_sub_cancel] using
            h (i + capacity n) hi'
        rw [hlow, hhigh]

end Table

end Nmos6502
