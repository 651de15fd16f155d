import Nmos6502.Proofs.Label.Language

namespace Nmos6502.Reference

open Blank Numeral

theorem toList_offsetText (k : Int) : (offsetText k).toList =
    if k = 0 then [] else (if 0 < k then '+' else '-') :: Nat.toDigits 10 k.natAbs := by
  rcases Int.lt_trichotomy k 0 with h | rfl | h
  · have hdigits : (-k).toNat = k.natAbs := by omega
    rw [offsetText, if_neg (by omega), if_neg (by omega), Int.toString_eq_repr, Int.repr_eq_if,
      if_neg (by omega), if_neg (by omega), if_neg (by omega), hdigits, String.toList_append,
      Nat.toList_repr]
    rfl
  · rfl
  · have hdigits : k.toNat = k.natAbs := by omega
    rw [offsetText, if_neg (by omega), if_pos h, Int.toString_eq_repr, Int.repr_eq_if,
      if_pos (by omega), if_neg (by omega), if_pos h, hdigits, String.toList_append,
      Nat.toList_repr]
    rfl

theorem offset_offsetText {k : Int} (h : -maxOffset ≤ k ∧ k ≤ maxOffset) :
    Offset Number (offsetText k).toList k := by
  have hdigits : Number (Nat.toDigits 10 k.natAbs) k.natAbs := .decimal (digits_toDigits _)
  rw [toList_offsetText]
  rcases Int.lt_trichotomy k 0 with hk | rfl | hk
  · have hminus : k = -(k.natAbs : Int) := by omega
    rw [if_neg (by omega), if_neg (by omega)]
    conv => rhs; rw [hminus]
    exact .minus isGap_nil hdigits (by omega)
  · exact .none
  · have hplus : k = (k.natAbs : Int) := by omega
    rw [if_neg (by omega), if_pos hk]
    conv => rhs; rw [hplus]
    exact .plus isGap_nil hdigits (by omega)

theorem selector_mark (part : ByteSelect) : Selector part.mark.toList part := by
  cases part with
  | both => exact .both
  | lo => exact .lo (.inl rfl) (.inl rfl)
  | hi => exact .hi (.inl rfl) (.inl rfl)

theorem toList_text (r : Reference) :
    r.text.toList = r.name.toList ++ (offsetText r.offset).toList ++ r.select.mark.toList := by
  rw [text, String.toList_append, String.toList_append]

theorem spells_text {r : Reference} (hname : IsName r.name.toList)
    (hoffset : -maxOffset ≤ r.offset ∧ r.offset ≤ maxOffset) :
    Spells Number r.text.toList r := by
  have h := Spells.intro isGap_nil hname isGap_nil (offset_offsetText hoffset) isGap_nil
    (selector_mark r.select) isGap_nil
  simpa [toList_text] using h

theorem read_text {r : Reference} (hname : IsName r.name.toList)
    (hoffset : -maxOffset ≤ r.offset ∧ r.offset ≤ maxOffset) : read r.text = .ok (.ok r) :=
  read_eq_ok_iff.mpr (read?_of_spells .inl (spells_text hname hoffset) (inRange_of_bounds hoffset))

theorem read_append_mark {text name : String} {offset : Int} {part : ByteSelect}
    (hpart : part ≠ .both) (h : read text = .ok (.ok ⟨name, offset, .both⟩)) :
    read (text ++ part.mark) = .ok (.ok ⟨name, offset, part⟩) := by
  rw [read_eq_ok_iff] at h ⊢
  rcases read?_cases text.toList with
    hnone | ⟨body, select, part', trail, htext, hselect, hcolon, htrail⟩
  · rw [hnone] at h
    cases h
  · rw [htext, read?_of_selector hselect hcolon htrail] at h
    cases hbody : readBody? body with
    | error fault =>
      rw [hbody] at h
      cases h
    | ok parts =>
      rw [hbody] at h
      obtain ⟨parts, rfl, hparts⟩ := Option.map_eq_some_iff.mp (Except.ok.inj h)
      obtain ⟨rfl, rfl, rfl⟩ := Reference.mk.inj hparts
      obtain rfl : select = [] := by
        cases hselect
        rfl
      have hbetween := readBody?_between Blank.isGap_nil htrail body
      have hmark : part.mark.toList = [] → ':' ∉ [] ++ body ++ trail := by
        cases part with
        | both => exact absurd rfl hpart
        | lo | hi => exact fun hnil => absurd hnil (by decide)
      have hread := read?_of_selector (selector_mark part) hmark Blank.isGap_nil
      rw [hbetween, hbody] at hread
      rw [String.toList_append, htext]
      simpa [Except.map] using hread

theorem toDigits_injective {m n : Nat} (h : Nat.toDigits 10 m = Nat.toDigits 10 n) : m = n := by
  rw [← @Nat.ofDigitChars_ten_toDigits m, h, Nat.ofDigitChars_ten_toDigits]

theorem offsetText_injective {k k' : Int} (h : (offsetText k).toList = (offsetText k').toList) :
    k = k' := by
  rcases eq_or_ne k 0 with rfl | hk <;> rcases eq_or_ne k' 0 with rfl | hk'
  · rfl
  · simp [toList_offsetText, hk'] at h
  · simp [toList_offsetText, hk] at h
  · rw [toList_offsetText, toList_offsetText, if_neg hk, if_neg hk', List.cons.injEq] at h
    obtain ⟨hsign, hdigits⟩ := h
    have habs := toDigits_injective hdigits
    split_ifs at hsign
    · omega
    · exact absurd hsign (by decide)
    · exact absurd hsign (by decide)
    · omega

theorem mem_offsetText {k : Int} {c : Char} (h : c ∈ (offsetText k).toList) :
    c ∈ "0123456789abcdefABCDEF+-".toList := by
  have hdigits : "0123456789abcdefABCDEF".toList ⊆ "0123456789abcdefABCDEF+-".toList := by decide
  rw [toList_offsetText] at h
  rcases eq_or_ne k 0 with rfl | hk
  · cases h
  · rw [if_neg hk] at h
    rcases List.mem_cons.mp h with rfl | h
    · split_ifs <;> decide
    · exact hdigits (subset_of_digits (digits_toDigits _) h)

theorem isSign_of_mem_head? {k : Int} {c : Char} (h : c ∈ (offsetText k).toList.head?) :
    isSign c = true := by
  rw [toList_offsetText] at h
  rcases eq_or_ne k 0 with rfl | hk
  · cases h
  · rw [if_neg hk] at h
    obtain rfl := Option.some.inj h
    split_ifs <;> rfl

theorem append_inj_of_forall {p : Char → Bool} {cs ds xs ys : List Char}
    (hcs : ∀ c ∈ cs, p c = true) (hds : ∀ c ∈ ds, p c = true) (hxs : ∀ c ∈ xs.head?, p c = false)
    (hys : ∀ c ∈ ys.head?, p c = false) (h : cs ++ xs = ds ++ ys) : cs = ds ∧ xs = ys := by
  have htake : ∀ {as zs : List Char}, (∀ c ∈ as, p c = true) → (∀ c ∈ zs.head?, p c = false) →
      (as ++ zs).takeWhile p = as := by
    intro as zs has hzs
    rw [List.takeWhile_append_of_pos has]
    cases zs with
    | nil => exact List.append_nil _
    | cons z zs => rw [List.takeWhile_cons_of_neg (by simp [hzs z rfl]), List.append_nil]
  have heq : cs = ds := by rw [← htake hcs hxs, h, htake hds hys]
  subst heq
  exact ⟨rfl, List.append_cancel_left h⟩

theorem text_injective {r r' : Reference} (hname : IsName r.name.toList)
    (hname' : IsName r'.name.toList) (h : r.text = r'.text) : r = r' := by
  have hsplit : ∀ {s : Reference}, IsName s.name.toList → splitSelect? s.text.toList =
      some (s.name.toList ++ (offsetText s.offset).toList, s.select) := by
    intro s hs
    rw [toList_text]
    refine splitSelect?_of_selector (selector_mark s.select) fun _ hmem => ?_
    rcases List.mem_append.mp hmem with hmem | hmem
    · exact (ne_of_isNameChar (hs.2 _ hmem)).2.2 rfl
    · exact absurd (mem_offsetText hmem) (by decide)
  have hunsigned : ∀ {s : Reference}, IsName s.name.toList →
      ∀ c ∈ s.name.toList, (!isSign c) = true := by
    intro s hs c hc
    rw [(ne_of_isNameChar (hs.2 c hc)).2.1]
    rfl
  have hsigned : ∀ k, ∀ c ∈ (offsetText k).toList.head?, (!isSign c) = false := by
    intro k c hc
    rw [isSign_of_mem_head? hc]
    rfl
  have hparts := hsplit hname
  rw [h, hsplit hname', Option.some.injEq, Prod.mk.injEq] at hparts
  obtain ⟨hbody, hselect⟩ := hparts
  obtain ⟨hnames, hoffsets⟩ := append_inj_of_forall (hunsigned hname') (hunsigned hname)
    (hsigned _) (hsigned _) hbody
  obtain ⟨name, offset, select⟩ := r
  obtain ⟨name', offset', select'⟩ := r'
  obtain rfl : name' = name := String.toList_inj.mp hnames
  obtain rfl : offset' = offset := offsetText_injective hoffsets
  obtain rfl : select' = select := hselect
  rfl

theorem isName_of_read {text : String} {r : Reference} (h : read text = .ok (.ok r)) :
    IsName r.name.toList := by
  rcases read?_eq_ok_some_iff.mp (read_eq_ok_iff.mp h) with h | ⟨h, -⟩
  · exact h.isName
  · exact h.isName

end Nmos6502.Reference
