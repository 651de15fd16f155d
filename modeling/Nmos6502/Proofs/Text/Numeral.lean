import Mathlib.Data.List.Induction
import Mathlib.Tactic.IntervalCases
import Nmos6502.Text.Numeral

namespace Nmos6502.Numeral

/-- The character is the digit `d` of a radix of at most 16. -/
def IsDigit (radix : Nat) (c : Char) (d : Nat) : Prop :=
  d < radix ∧
    ("0123456789abcdef".toList[d]? = some c ∨ "0123456789ABCDEF".toList[d]? = some c)

/-- A text of digits and its value. -/
inductive Digits (radix : Nat) : List Char → Nat → Prop where
  | digit {c : Char} {d : Nat} (h : IsDigit radix c d) : Digits radix [c] d
  | append {cs : List Char} {n : Nat} (hcs : Digits radix cs n) {c : Char} {d : Nat}
      (h : IsDigit radix c d) : Digits radix (cs ++ [c]) (n * radix + d)

/-- Digits behind a sign and their value. -/
inductive SignedDigits (radix : Nat) : List Char → Int → Prop where
  | plus {cs : List Char} {n : Nat} (h : Digits radix cs n) : SignedDigits radix ('+' :: cs) n
  | minus {cs : List Char} {n : Nat} (h : Digits radix cs n) : SignedDigits radix ('-' :: cs) (-n)

variable {radix : Nat}

theorem digit?_eq_some_iff {c : Char} {d : Nat} : digit? radix c = some d ↔
    d < radix ∧ (48 ≤ c.toNat ∧ c.toNat ≤ 57 ∧ c.toNat = 48 + d ∨
      97 ≤ c.toNat ∧ c.toNat ≤ 122 ∧ c.toNat = 87 + d ∨
      65 ≤ c.toNat ∧ c.toNat ≤ 90 ∧ c.toNat = 55 + d) := by
  have hle : ∀ a b : Char, a ≤ b ↔ a.toNat ≤ b.toNat := fun a b => Iff.rfl
  have hdecimal : '0'.toNat = 48 ∧ '9'.toNat = 57 := ⟨rfl, rfl⟩
  have hlower : 'a'.toNat = 97 ∧ 'z'.toNat = 122 := ⟨rfl, rfl⟩
  have hupper : 'A'.toNat = 65 ∧ 'Z'.toNat = 90 := ⟨rfl, rfl⟩
  simp only [digit?, hle, hdecimal, hlower, hupper, Option.ite_none_right_eq_some,
    Option.some.injEq]
  split_ifs <;> omega

theorem digit?_eq_some_iff_isDigit (hradix : radix ≤ 16) {c : Char} {d : Nat} :
    digit? radix c = some d ↔ IsDigit radix c d := by
  rw [digit?_eq_some_iff, IsDigit]
  refine and_congr_right fun hd => ?_
  have hd' : d < 16 := Nat.lt_of_lt_of_le hd hradix
  have hcode : ∀ a : Char, some a = some c ↔ c.toNat = a.toNat := fun a => by
    rw [Option.some.injEq, ← Char.toNat_inj, eq_comm]
  interval_cases d <;> simp [hcode] <;> omega

theorem mem_of_isDigit {c : Char} {d : Nat} (h : IsDigit radix c d) :
    c ∈ "0123456789abcdefABCDEF".toList := by
  have hsub : "0123456789abcdef".toList ++ "0123456789ABCDEF".toList ⊆
      "0123456789abcdefABCDEF".toList := by
    decide
  refine hsub (List.mem_append.mpr ?_)
  exact h.2.imp List.mem_of_getElem? List.mem_of_getElem?

theorem Digits.forall_mem {cs : List Char} {n : Nat} (h : Digits radix cs n) :
    ∀ c ∈ cs, ∃ d, IsDigit radix c d := by
  induction h with
  | digit hc =>
    rintro c hmem
    rw [List.mem_singleton.mp hmem]
    exact ⟨_, hc⟩
  | append hcs hc ih =>
    intro c hmem
    rcases List.mem_append.mp hmem with hmem | hmem
    · exact ih c hmem
    · rw [List.mem_singleton.mp hmem]
      exact ⟨_, hc⟩

theorem digits?_append (cs : List Char) (c : Char) (soFar : Nat) :
    digits? radix soFar (cs ++ [c]) = (digits? radix soFar cs).bind fun n =>
      (digit? radix c).map (n * radix + ·) := by
  induction cs generalizing soFar with
  | nil => cases h : digit? radix c <;> simp [digits?, h]
  | cons first cs ih => cases h : digit? radix first <;> simp [digits?, h, ih]

theorem digits?_of_magnitude? {cs : List Char} {n : Nat} (h : magnitude? radix cs = some n) :
    cs ≠ [] ∧ digits? radix 0 cs = some n := by
  simpa [magnitude?] using h

theorem magnitude?_append_eq_some_iff {cs : List Char} {c : Char} {n : Nat} :
    magnitude? radix (cs ++ [c]) = some n ↔
      ∃ m, digits? radix 0 cs = some m ∧ ∃ d, digit? radix c = some d ∧ n = m * radix + d := by
  have hne : (cs ++ [c]).isEmpty = false := by simp
  rw [magnitude?, hne, if_neg Bool.false_ne_true, digits?_append, Option.bind_eq_some_iff]
  refine exists_congr fun m => and_congr_right fun _ => ?_
  rw [Option.map_eq_some_iff]
  exact exists_congr fun d => and_congr_right fun _ => eq_comm

theorem magnitude?_eq_some_iff (hradix : radix ≤ 16) {cs : List Char} {n : Nat} :
    magnitude? radix cs = some n ↔ Digits radix cs n := by
  constructor
  · intro h
    induction cs using List.reverseRecOn generalizing n with
    | nil => simp [magnitude?] at h
    | append_singleton cs c ih =>
      obtain ⟨m, hm, d, hd, rfl⟩ := magnitude?_append_eq_some_iff.mp h
      have hdigit := (digit?_eq_some_iff_isDigit hradix).mp hd
      rcases eq_or_ne cs [] with rfl | hne
      · obtain rfl : 0 = m := Option.some.inj hm
        rw [Nat.zero_mul, Nat.zero_add]
        exact .digit hdigit
      · exact .append (ih (by simpa [magnitude?, hne] using hm)) hdigit
  · intro h
    induction h with
    | digit hc =>
      rw [← List.nil_append [_]]
      refine magnitude?_append_eq_some_iff.mpr ?_
      exact ⟨0, rfl, _, (digit?_eq_some_iff_isDigit hradix).mpr hc, by simp⟩
    | append hcs hc ih =>
      refine magnitude?_append_eq_some_iff.mpr ?_
      exact ⟨_, (digits?_of_magnitude? ih).2, _, (digit?_eq_some_iff_isDigit hradix).mpr hc, rfl⟩

theorem read?_eq_some_iff (hradix : radix ≤ 16) {cs : List Char} {n : Int} :
    read? radix cs = some n ↔
      ((∃ m : Nat, Digits radix cs m ∧ n = m) ∨ SignedDigits radix cs n) ∧ InRange n := by
  simp only [read?, Option.filter_eq_some_iff, decide_eq_true_iff]
  refine and_congr_left fun _ => ?_
  have hsign : ∀ sign rest m, Digits radix (sign :: rest) m → sign ≠ '+' ∧ sign ≠ '-' := by
    intro sign rest m h
    obtain ⟨d, hd⟩ := h.forall_mem sign List.mem_cons_self
    have hmem := mem_of_isDigit hd
    constructor <;> rintro rfl <;> simp at hmem
  have hread : ∀ ds m, magnitude? radix ds = some m ↔ Digits radix ds m :=
    fun ds m => magnitude?_eq_some_iff hradix
  split
  case h_1 rest =>
    simp only [Option.map_eq_some_iff, hread]
    constructor
    · rintro ⟨m, hm, rfl⟩
      exact .inr (.plus hm)
    · rintro (⟨m, hm, -⟩ | hm)
      · exact absurd rfl (hsign _ _ _ hm).1
      · cases hm with
        | plus hm => exact ⟨_, hm, rfl⟩
  case h_2 rest =>
    simp only [Option.map_eq_some_iff, hread]
    constructor
    · rintro ⟨m, hm, rfl⟩
      exact .inr (.minus hm)
    · rintro (⟨m, hm, -⟩ | hm)
      · exact absurd rfl (hsign _ _ _ hm).2
      · cases hm with
        | minus hm => exact ⟨_, hm, rfl⟩
  case h_3 hplus hminus =>
    simp only [Option.map_eq_some_iff, hread]
    constructor
    · rintro ⟨m, hm, rfl⟩
      exact .inl ⟨m, hm, rfl⟩
    · rintro (⟨m, hm, rfl⟩ | hm)
      · exact ⟨m, hm, rfl⟩
      · cases hm with
        | plus hm => exact absurd rfl (hplus _)
        | minus hm => exact absurd rfl (hminus _)

theorem isDigit_digitChar {d : Nat} (h : d < 10) : IsDigit 10 (Nat.digitChar d) d := by
  refine ⟨h, .inl ?_⟩
  interval_cases d <;> rfl

theorem digits_toDigits (n : Nat) : Digits 10 (Nat.toDigits 10 n) n := by
  induction n using Nat.strongRecOn with
  | _ n ih =>
    rw [Nat.toDigits_eq_if (by decide)]
    split
    case isTrue h => exact .digit (isDigit_digitChar h)
    case isFalse h =>
      have happend := (ih (n / 10) (by omega)).append
        (isDigit_digitChar (Nat.mod_lt n (by decide : 10 > 0)))
      rwa [Nat.div_add_mod'] at happend

end Nmos6502.Numeral
