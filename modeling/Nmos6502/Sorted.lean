
namespace Nmos6502.Sorted

universe u v

variable {κ : Type u} {ν : Type v} [LT κ]

def Ascending (entries : List (κ × ν)) : Prop :=
  entries.Pairwise fun a b => a.1 < b.1

theorem lookup_eq_some_iff [DecidableEq κ] [Std.Irrefl (α := κ) (· < ·)] {key : κ} {value : ν}
    {entries : List (κ × ν)} (h : Ascending entries) :
    entries.lookup key = some value ↔ (key, value) ∈ entries := by
  rw [List.lookup_eq_some_iff]
  constructor
  · rintro ⟨before, after, rfl, -⟩
    simp
  · intro hmem
    obtain ⟨before, after, rfl⟩ := List.append_of_mem hmem
    refine ⟨before, after, rfl, fun entry hentry => ?_⟩
    have hlt : entry.1 < key :=
      (List.pairwise_append.mp h).2.2 entry hentry (key, value) List.mem_cons_self
    rw [bne_iff_ne]
    rintro rfl
    exact Std.Irrefl.irrefl _ hlt

theorem find?_eq_some_iff [Std.Asymm (α := κ) (· < ·)] {p : κ × ν → Bool} {entry : κ × ν}
    {entries : List (κ × ν)} (h : Ascending entries) :
    entries.find? p = some entry ↔ (entry ∈ entries ∧ p entry = true) ∧
      ∀ other ∈ entries, p other = true → ¬ other.1 < entry.1 := by
  rw [List.find?_eq_some_iff_append]
  constructor
  · rintro ⟨hp, before, after, rfl, hbefore⟩
    refine ⟨⟨by simp, hp⟩, fun other hother hpother hlt => ?_⟩
    rcases List.mem_append.mp hother with hother | hother
    · have hnot := hbefore other hother
      rw [hpother] at hnot
      cases hnot
    · rcases List.mem_cons.mp hother with rfl | hother
      · exact Std.Asymm.asymm _ _ hlt hlt
      · have hgt := (List.pairwise_cons.mp (List.pairwise_append.mp h).2.1).1 other hother
        exact Std.Asymm.asymm _ _ hlt hgt
  · rintro ⟨⟨hmem, hp⟩, hleast⟩
    obtain ⟨before, after, rfl⟩ := List.append_of_mem hmem
    refine ⟨hp, before, after, rfl, fun other hother => ?_⟩
    have hlt : other.1 < entry.1 :=
      (List.pairwise_append.mp h).2.2 other hother entry List.mem_cons_self
    have hnot : ¬ p other = true := fun hpother => hleast other (by simp [hother]) hpother hlt
    simpa using hnot

/-- Puts a value under a key, in place of the value that is there. -/
def insert [DecidableLT κ] (key : κ) (value : ν) : List (κ × ν) → List (κ × ν)
  | [] => [(key, value)]
  | (k, v) :: rest =>
    if key < k then (key, value) :: (k, v) :: rest
    else if k < key then (k, v) :: insert key value rest
    else (key, value) :: rest

variable [DecidableLT κ]

theorem mem_insert {key : κ} {value : ν} {entries : List (κ × ν)} {entry : κ × ν}
    (h : entry ∈ insert key value entries) : entry = (key, value) ∨ entry ∈ entries := by
  induction entries with
  | nil => simpa [insert] using h
  | cons first rest ih =>
    obtain ⟨k, v⟩ := first
    unfold insert at h
    split at h
    · simpa using h
    · split at h
      · rcases List.mem_cons.mp h with rfl | h
        · exact Or.inr List.mem_cons_self
        · exact (ih h).imp_right (List.mem_cons_of_mem _)
      · exact (List.mem_cons.mp h).imp_right (List.mem_cons_of_mem _)

theorem ascending_insert [Trans (α := κ) (· < ·) (· < ·) (· < ·)]
    [Std.Trichotomous (α := κ) (· < ·)] {key : κ} {value : ν}
    {entries : List (κ × ν)} (h : Ascending entries) : Ascending (insert key value entries) := by
  induction entries with
  | nil => simp [insert, Ascending]
  | cons first rest ih =>
    obtain ⟨k, v⟩ := first
    obtain ⟨hfirst, hrest⟩ := List.pairwise_cons.mp h
    unfold insert
    split
    case isTrue hlt =>
      refine List.pairwise_cons.mpr ⟨fun entry he => ?_, h⟩
      rcases List.mem_cons.mp he with rfl | he
      · exact hlt
      · exact Trans.trans hlt (hfirst entry he)
    case isFalse hge =>
      split
      case isTrue hlt =>
        refine List.pairwise_cons.mpr ⟨fun entry he => ?_, ih hrest⟩
        rcases mem_insert he with rfl | he
        · exact hlt
        · exact hfirst entry he
      case isFalse hle =>
        have hkey : k = key := Std.Trichotomous.trichotomous k key hle hge
        exact List.pairwise_cons.mpr ⟨hkey ▸ hfirst, hrest⟩

theorem lookup_insert [DecidableEq κ] [Std.Irrefl (α := κ) (· < ·)]
    [Std.Trichotomous (α := κ) (· < ·)] (key other : κ) (value : ν) (entries : List (κ × ν)) :
    (insert key value entries).lookup other =
      if other = key then some value else entries.lookup other := by
  have look (k : κ) (v : ν) (rest : List (κ × ν)) :
      ((k, v) :: rest).lookup other = if other = k then some v else rest.lookup other := by
    by_cases h : other = k
    · subst h
      rw [List.lookup_cons_self, if_pos rfl]
    · rw [List.lookup_cons, beq_false_of_ne h, if_neg h]
  induction entries with
  | nil => simp [insert, look]
  | cons first rest ih =>
    obtain ⟨k, v⟩ := first
    unfold insert
    split
    case isTrue => simp [look]
    case isFalse hge =>
      split
      case isTrue hlt =>
        have hne : k ≠ key := by
          rintro rfl
          exact Std.Irrefl.irrefl _ hlt
        by_cases hk : other = k
        · simp [hk, hne]
        · simp [look, hk, ih]
      case isFalse hle =>
        have hkey : k = key := Std.Trichotomous.trichotomous k key hle hge
        by_cases h : other = key <;> simp [look, hkey, h]

section Order

variable [Std.Asymm (α := κ) (· < ·)] [Trans (α := κ) (· < ·) (· < ·) (· < ·)]
  [Std.Trichotomous (α := κ) (· < ·)]

theorem insert_insert_of_lt {key other : κ} (h : key < other) (value value' : ν)
    (entries : List (κ × ν)) :
    insert key value (insert other value' entries) =
      insert other value' (insert key value entries) := by
  have hge : ¬ other < key := Std.Asymm.asymm _ _ h
  induction entries with
  | nil => simp [insert, h, hge]
  | cons first rest ih =>
    obtain ⟨k, v⟩ := first
    by_cases hbefore : key < k
    · by_cases hother : other < k
      · simp [insert, h, hge, hbefore, hother]
      · by_cases hbehind : k < other <;> simp [insert, h, hge, hbefore, hother, hbehind]
    · by_cases hbehind : k < key
      · have hother : k < other := Trans.trans hbehind h
        simp [insert, hbefore, hbehind, hother, Std.Asymm.asymm _ _ hother, ih]
      · obtain rfl : key = k := Std.Trichotomous.trichotomous key k hbefore hbehind
        simp [insert, h, hge, hbefore]

theorem insert_comm {key other : κ} (h : key ≠ other) (value value' : ν)
    (entries : List (κ × ν)) :
    insert key value (insert other value' entries) =
      insert other value' (insert key value entries) := by
  by_cases hlt : key < other
  · exact insert_insert_of_lt hlt value value' entries
  · by_cases hgt : other < key
    · exact (insert_insert_of_lt hgt value' value entries).symm
    · exact absurd (Std.Trichotomous.trichotomous key other hlt hgt) h

end Order

theorem insert_insert_self [Std.Irrefl (α := κ) (· < ·)] (key : κ) (value value' : ν)
    (entries : List (κ × ν)) :
    insert key value (insert key value' entries) = insert key value entries := by
  have hself : ¬ key < key := Std.Irrefl.irrefl key
  induction entries with
  | nil => simp [insert, hself]
  | cons first rest ih =>
    obtain ⟨k, v⟩ := first
    by_cases hbefore : key < k
    · simp [insert, hbefore, hself]
    · by_cases hbehind : k < key <;> simp [insert, hbefore, hbehind, hself, ih]

theorem insert_append_of_lt [Std.Asymm (α := κ) (· < ·)] {key : κ} (value : ν)
    {before : List (κ × ν)} (behind : List (κ × ν)) (h : ∀ entry ∈ before, entry.1 < key) :
    insert key value (before ++ behind) = before ++ insert key value behind := by
  induction before with
  | nil => rfl
  | cons first before ih =>
    rw [List.forall_mem_cons] at h
    rw [List.cons_append, insert, if_neg (Std.Asymm.asymm _ _ h.1), if_pos h.1, ih h.2,
      List.cons_append]

theorem insert_of_forall_lt {key : κ} (value : ν) {entries : List (κ × ν)}
    (h : ∀ entry ∈ entries, key < entry.1) :
    insert key value entries = (key, value) :: entries := by
  cases entries with
  | nil => rfl
  | cons first rest => exact if_pos (h first List.mem_cons_self)

theorem perm_insert [DecidableEq κ] [Std.Trichotomous (α := κ) (· < ·)] {key : κ} {value : ν}
    {entries : List (κ × ν)} (h : entries.lookup key = none) :
    (insert key value entries).Perm ((key, value) :: entries) := by
  induction entries with
  | nil => exact .refl _
  | cons first rest ih =>
    obtain ⟨k, v⟩ := first
    unfold insert
    split
    case isTrue => exact .refl _
    case isFalse hge =>
      have hne : key ≠ k := by
        rintro rfl
        simp at h
      split
      case isTrue =>
        rw [List.lookup_cons, beq_false_of_ne hne] at h
        exact ((ih h).cons (k, v)).trans (.swap ..)
      case isFalse hle => exact absurd (Std.Trichotomous.trichotomous key k hge hle) hne

end Nmos6502.Sorted
