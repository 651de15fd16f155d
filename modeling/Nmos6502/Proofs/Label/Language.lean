import Mathlib.Data.List.TakeDrop
import Mathlib.Data.List.TakeWhile
import Nmos6502.Proofs.Label.Grammar

namespace Nmos6502.Reference

open Blank Numeral

theorem toNat_toUpper (c : Char) : c.toUpper.toNat =
    if 97 ≤ c.toNat ∧ c.toNat ≤ 122 then c.toNat - 32 else c.toNat := by
  have hlower : 'a'.val ≤ c.val ∧ c.val ≤ 'z'.val ↔ 97 ≤ c.toNat ∧ c.toNat ≤ 122 := by
    simp only [UInt32.le_iff_toNat_le]
    rfl
  by_cases h : 97 ≤ c.toNat ∧ c.toNat ≤ 122
  · have hminus : ('A'.val - 'a'.val).toNat = 4294967264 := rfl
    have hcode : c.val.toNat = c.toNat := rfl
    delta Char.toUpper
    rw [if_pos h, dif_pos (hlower.mpr h)]
    change (c.val + ('A'.val - 'a'.val)).toNat = _
    rw [UInt32.toNat_add, hminus, hcode]
    omega
  · delta Char.toUpper
    rw [if_neg h, dif_neg (mt hlower.mp h)]

theorem toUpper_eq_iff {c upper : Char} (h : 65 ≤ upper.toNat) (h' : upper.toNat ≤ 90) :
    c.toUpper = upper ↔ c = upper ∨ c.toNat = upper.toNat + 32 := by
  rw [← Char.toNat_inj, ← Char.toNat_inj, toNat_toUpper]
  split_ifs <;> omega

theorem ofMark?_eq_some_iff {mark : List Char} {part : ByteSelect} :
    ByteSelect.ofMark? mark = some part ↔ Selector (':' :: mark) part := by
  have hcase : ∀ upper lower c : Char, 65 ≤ upper.toNat → upper.toNat ≤ 90 →
      lower.toNat = upper.toNat + 32 → (c.toUpper = upper ↔ c = upper ∨ c = lower) := by
    intro upper lower c h h' hlower
    rw [toUpper_eq_iff h h', ← hlower, Char.toNat_inj]
  have hL := fun c => hcase 'L' 'l' c (by decide) (by decide) rfl
  have hO := fun c => hcase 'O' 'o' c (by decide) (by decide) rfl
  have hH := fun c => hcase 'H' 'h' c (by decide) (by decide) rfl
  have hI := fun c => hcase 'I' 'i' c (by decide) (by decide) rfl
  have hpair : ∀ {upper upper' : Char}, mark.map Char.toUpper = [upper, upper'] →
      ∃ c c', mark = [c, c'] ∧ c.toUpper = upper ∧ c'.toUpper = upper' := by
    intro upper upper' h
    obtain ⟨c, rest, rfl, hc, hrest⟩ := List.map_eq_cons_iff.mp h
    obtain ⟨c', rest, rfl, hc', hnil⟩ := List.map_eq_cons_iff.mp hrest
    obtain rfl := List.map_eq_nil_iff.mp hnil
    exact ⟨c, c', rfl, hc, hc'⟩
  constructor
  · intro h
    unfold ByteSelect.ofMark? at h
    split at h
    case h_1 hmark =>
      obtain ⟨l, o, rfl, hl, ho⟩ := hpair hmark
      obtain rfl := Option.some.inj h
      exact .lo ((hL l).mp hl) ((hO o).mp ho)
    case h_2 hmark =>
      obtain ⟨c, i, rfl, hc, hi⟩ := hpair hmark
      obtain rfl := Option.some.inj h
      exact .hi ((hH c).mp hc) ((hI i).mp hi)
    case h_3 => cases h
  · intro h
    cases h with
    | lo hl ho => simp [ByteSelect.ofMark?, (hL _).mpr hl, (hO _).mpr ho]
    | hi hh hi => simp [ByteSelect.ofMark?, (hH _).mpr hh, (hI _).mpr hi]

theorem span_append_cons {p : Char → Bool} {cs : List Char} {c : Char} (hcs : ∀ a ∈ cs, p a = true)
    (hc : p c = false) (rest : List Char) : (cs ++ c :: rest).span p = (cs, c :: rest) := by
  rw [List.span_eq_takeWhile_dropWhile, List.takeWhile_append_of_pos hcs,
    List.dropWhile_append_of_pos hcs, List.takeWhile_cons_of_neg (by simp [hc]),
    List.dropWhile_cons_of_neg (by simp [hc]), List.append_nil]

theorem span_of_forall {p : Char → Bool} {cs : List Char} (h : ∀ a ∈ cs, p a = true) :
    cs.span p = (cs, []) := by
  rw [List.span_eq_takeWhile_dropWhile, List.takeWhile_eq_self_iff.mpr h,
    List.dropWhile_eq_nil_iff.mpr h]

theorem splitAtColon_of_not_mem {cs : List Char} (h : ':' ∉ cs) : splitAtColon cs = none := by
  have hall : ∀ c ∈ cs.reverse, (c != ':') = true := by
    intro c hc
    rw [bne_iff_ne]
    rintro rfl
    exact h (List.mem_reverse.mp hc)
  rw [splitAtColon, span_of_forall hall]

theorem splitAtColon_append {mark : List Char} (h : ':' ∉ mark) (body : List Char) :
    splitAtColon (body ++ ':' :: mark) = some (body, mark) := by
  have hall : ∀ c ∈ mark.reverse, (c != ':') = true := by
    intro c hc
    rw [bne_iff_ne]
    rintro rfl
    exact h (List.mem_reverse.mp hc)
  have hreverse : (body ++ ':' :: mark).reverse = mark.reverse ++ ':' :: body.reverse := by
    simp
  rw [splitAtColon, hreverse, span_append_cons hall (by decide)]
  simp

theorem splitSelect?_of_selector {body select : List Char} {part : ByteSelect}
    (h : Selector select part) (hcolon : select = [] → ':' ∉ body) :
    splitSelect? (body ++ select) = some (body, part) := by
  rcases h.eq_nil_or_cons with ⟨rfl, rfl⟩ | ⟨mark, rfl, hmark⟩
  · rw [List.append_nil, splitSelect?, splitAtColon_of_not_mem (hcolon rfl)]
  · rw [splitSelect?, splitAtColon_append hmark]
    simp only [ofMark?_eq_some_iff.mpr h, Option.map_some]

theorem exists_selector_of_splitSelect? {cs body : List Char} {part : ByteSelect}
    (h : splitSelect? cs = some (body, part)) :
    ∃ select, cs = body ++ select ∧ Selector select part ∧ (select = [] → ':' ∉ body) := by
  by_cases hcolon : ':' ∈ cs
  · obtain ⟨before, behind, hreverse, hfirst⟩ :=
      List.eq_append_cons_of_mem (List.mem_reverse.mpr hcolon)
    have hcs : cs = behind.reverse ++ ':' :: before.reverse := by
      rw [← List.reverse_reverse cs, hreverse]
      simp
    rw [hcs, splitSelect?, splitAtColon_append (by simpa using hfirst)] at h
    obtain ⟨part', hpart, heq⟩ := Option.map_eq_some_iff.mp h
    obtain ⟨rfl, rfl⟩ := Prod.mk.inj heq
    exact ⟨_, hcs, ofMark?_eq_some_iff.mp hpart, fun hnil => nomatch hnil⟩
  · rw [splitSelect?, splitAtColon_of_not_mem hcolon, Option.some.injEq, Prod.mk.injEq] at h
    obtain ⟨rfl, rfl⟩ := h
    exact ⟨[], (List.append_nil _).symm, .both, fun _ => hcolon⟩

theorem readNumber?_of_decimal {cs : List Char} {n : Nat} (h : Digits 10 cs n) :
    readNumber? cs = Numeral.read? 10 cs := by
  have hother : ∀ c ∈ ['$', 'x', 'X', '+', '-'], c ∉ cs := by
    intro c hc hmem
    obtain ⟨d, hd⟩ := h.forall_mem c hmem
    have hnone : ∀ c ∈ ['$', 'x', 'X', '+', '-'], digit? 10 c = none :=
      List.all_iff_forall_prop.mp (by decide)
    cases (hnone c hc).symm.trans ((digit?_eq_some_iff_isDigit (by decide)).mpr hd)
  unfold readNumber?
  split
  case h_1 => exact absurd List.mem_cons_self (hother '$' (by simp))
  case h_2 => exact absurd (by simp) (hother 'x' (by simp))
  case h_3 => exact absurd (by simp) (hother 'X' (by simp))
  case h_4 =>
    refine if_neg fun hsign => ?_
    cases cs with
    | nil => cases hsign
    | cons c cs =>
      rcases isSign_iff.mp hsign with rfl | rfl
      · exact hother '+' (by simp) List.mem_cons_self
      · exact hother '-' (by simp) List.mem_cons_self

theorem readNumber?_eq_some_iff {cs : List Char} {n : Int} :
    readNumber? cs = some n ↔ (Number cs n ∨ SignedNumber cs n) ∧ InRange n := by
  have hhex : ∀ mark ∈ hexMarks, ∀ ds, Numeral.read? 16 ds = some n →
      (Number (mark ++ ds) n ∨ SignedNumber (mark ++ ds) n) ∧ InRange n := by
    intro mark hmark ds h
    obtain ⟨⟨m, hm, rfl⟩ | hm, hrange⟩ := (Numeral.read?_eq_some_iff (by decide)).mp h
    · exact ⟨.inl (.hexadecimal hmark hm), hrange⟩
    · exact ⟨.inr (.hexadecimal hmark hm), hrange⟩
  have hread : ∀ mark ∈ hexMarks, ∀ ds, readNumber? (mark ++ ds) = Numeral.read? 16 ds := by
    intro mark hmark ds
    simp only [hexMarks, List.mem_cons, List.not_mem_nil, or_false] at hmark
    rcases hmark with rfl | rfl | rfl <;> rfl
  constructor
  · intro h
    unfold readNumber? at h
    split at h
    case h_1 => exact hhex ['$'] (by decide) _ h
    case h_2 => exact hhex ['0', 'x'] (by decide) _ h
    case h_3 => exact hhex ['0', 'X'] (by decide) _ h
    case h_4 =>
      split at h
      case isTrue => cases h
      case isFalse hsign =>
        obtain ⟨⟨m, hm, rfl⟩ | hm, hrange⟩ := (Numeral.read?_eq_some_iff (by decide)).mp h
        · exact ⟨.inl (.decimal hm), hrange⟩
        · cases hm <;> exact absurd rfl hsign
  · rintro ⟨h | h, hrange⟩
    · cases h with
      | decimal h =>
        rw [readNumber?_of_decimal h]
        exact (Numeral.read?_eq_some_iff (by decide)).mpr ⟨.inl ⟨_, h, rfl⟩, hrange⟩
      | hexadecimal hmark h =>
        rw [hread _ hmark]
        exact (Numeral.read?_eq_some_iff (by decide)).mpr ⟨.inl ⟨_, h, rfl⟩, hrange⟩
    · obtain ⟨hmark, h⟩ := h
      rw [hread _ hmark]
      exact (Numeral.read?_eq_some_iff (by decide)).mpr ⟨.inr h, hrange⟩

theorem readName?_of_isName {lead name gap : List Char} (hlead : IsGap lead) (hname : IsName name)
    (hgap : IsGap gap) : readName? (lead ++ name ++ gap) = some (String.ofList name) := by
  have hblank : ∀ c ∈ name, isBlank c = false := fun c hc => (ne_of_isNameChar (hname.2 c hc)).1
  have htrim : trim (lead ++ name ++ gap) = name :=
    trim_between hlead hgap (fun c hc => hblank c (List.mem_of_mem_head? hc))
      fun c hc => hblank c (List.mem_of_mem_getLast? hc)
  rw [readName?, htrim]
  exact if_neg (by simpa [hname.1] using hname.2)

theorem exists_isName_of_readName? {cs : List Char} {text : String} (h : readName? cs = some text) :
    ∃ lead name gap, IsGap lead ∧ IsName name ∧ IsGap gap ∧ cs = lead ++ name ++ gap ∧
      text = String.ofList name := by
  obtain ⟨lead, gap, hlead, hgap, hcs⟩ := exists_trim cs
  simp only [readName?, Option.ite_none_left_eq_some, Option.some.injEq, Bool.or_eq_true,
    not_or, List.isEmpty_iff, Bool.not_eq_true', Bool.not_eq_false, List.all_eq_true] at h
  obtain ⟨⟨hne, hall⟩, rfl⟩ := h
  exact ⟨lead, trim cs, gap, hlead, ⟨hne, hall⟩, hgap, hcs, rfl⟩

theorem readOffset?_of_number {gap cs gap' : List Char} {n : Int} (hgap : IsGap gap)
    (hgap' : IsGap gap') (h : readNumber? cs = some n) (hn : n ≤ maxOffset) (sign : Char) :
    readOffset? sign (gap ++ cs ++ gap') =
      if sign == '-' then (negateChecked n).map some else .ok (some n) := by
  have hblank : ∀ c ∈ cs, isBlank c = false :=
    fun c hc => (forall_mem_of_number (readNumber?_eq_some_iff.mp h).1 c hc).1
  have htrim : trim (gap ++ cs ++ gap') = cs :=
    trim_between hgap hgap' (fun c hc => hblank c (List.mem_of_mem_head? hc))
      fun c hc => hblank c (List.mem_of_mem_getLast? hc)
  rw [readOffset?, htrim, h]
  exact if_neg (Int.not_lt.mpr hn)

theorem readOffset?_cases (sign : Char) (behind : List Char) :
    readOffset? sign behind = .ok none ∨
      ∃ gap cs gap' n, behind = gap ++ cs ++ gap' ∧ IsGap gap ∧ IsGap gap' ∧
        readNumber? cs = some n ∧ n ≤ maxOffset := by
  obtain ⟨gap, gap', hgap, hgap', hbehind⟩ := exists_trim behind
  rw [readOffset?]
  cases hread : readNumber? (trim behind) with
  | none => exact .inl rfl
  | some n =>
    by_cases hn : maxOffset < n
    · exact .inl (if_pos hn)
    · exact .inr ⟨gap, trim behind, gap', n, hbehind, hgap, hgap', hread, Int.not_lt.mp hn⟩

theorem negateChecked_of_ne {n : Int} (h : n ≠ -0x80000000) : negateChecked n = .ok (-n) :=
  if_neg h

theorem exists_first_sign (cs : List Char) : (∀ c ∈ cs, isSign c = false) ∨
    ∃ before sign behind, cs = before ++ sign :: behind ∧ isSign sign = true ∧
      ∀ c ∈ before, isSign c = false := by
  have hsplit : cs.takeWhile (fun c => !isSign c) ++ cs.dropWhile (fun c => !isSign c) = cs :=
    List.takeWhile_append_dropWhile
  have hbefore : ∀ c ∈ cs.takeWhile (fun c => !isSign c), isSign c = false := by
    intro c hc
    simpa using List.mem_takeWhile_imp hc
  cases hdrop : cs.dropWhile (fun c => !isSign c) with
  | nil =>
    left
    rw [hdrop, List.append_nil] at hsplit
    rwa [hsplit] at hbefore
  | cons sign behind =>
    have hsign := List.head?_dropWhile_not (fun c => !isSign c) cs
    rw [hdrop] at hsplit hsign
    exact .inr ⟨_, sign, behind, hsplit.symm, by simpa using hsign, hbefore⟩

theorem readBody?_of_unsigned {cs : List Char} (h : ∀ c ∈ cs, isSign c = false) :
    readBody? cs = .ok ((readName? cs).map fun name => (name, 0)) := by
  rw [readBody?, span_of_forall (by simpa using h)]
  change Except.ok ((readName? cs).bind fun name => some (name, 0)) = _
  rw [Option.map_eq_bind]
  rfl

theorem readBody?_of_sign {before : List Char} {sign : Char}
    (hbefore : ∀ c ∈ before, isSign c = false) (hsign : isSign sign = true) (behind : List Char) :
    readBody? (before ++ sign :: behind) = (readOffset? sign behind).map fun offset =>
      (readName? before).bind fun name => offset.map fun k => (name, k) := by
  rw [readBody?, span_append_cons (by simpa using hbefore) (by simp [hsign])]
  rfl

/-- Gaps around a body make no difference. -/
theorem readBody?_between {lead trail : List Char} (hlead : IsGap lead) (htrail : IsGap trail)
    (cs : List Char) : readBody? (lead ++ cs ++ trail) = readBody? cs := by
  have hunsigned : ∀ {gap : List Char}, IsGap gap → ∀ c ∈ gap, isSign c = false :=
    fun hgap c hc => (ne_of_isBlank (hgap c hc)).1
  rcases exists_first_sign cs with hcs | ⟨before, sign, behind, rfl, hsign, hbefore⟩
  · have hall : ∀ c ∈ lead ++ cs ++ trail, isSign c = false := by
      simp only [List.forall_mem_append]
      exact ⟨⟨hunsigned hlead, hcs⟩, hunsigned htrail⟩
    rw [readBody?_of_unsigned hall, readBody?_of_unsigned hcs, readName?, readName?,
      trim_append hlead htrail]
  · have hbody : lead ++ (before ++ sign :: behind) ++ trail =
        (lead ++ before) ++ sign :: (behind ++ trail) := by
      simp
    have hname : readName? (lead ++ before) = readName? before := by
      have htrim := trim_append hlead isGap_nil before
      rw [List.append_nil] at htrim
      rw [readName?, readName?, htrim]
    have hoffset : readOffset? sign (behind ++ trail) = readOffset? sign behind := by
      have htrim := trim_append isGap_nil htrail behind
      rw [List.nil_append] at htrim
      rw [readOffset?, readOffset?, htrim]
    rw [hbody, readBody?_of_sign (List.forall_mem_append.mpr ⟨hunsigned hlead, hbefore⟩) hsign,
      readBody?_of_sign hbefore hsign, hname, hoffset]

theorem exists_offset_of_readOffset? {sign : Char} (hsign : isSign sign = true) {behind : List Char}
    {k : Int} (h : readOffset? sign behind = .ok (some k)) :
    ∃ offset gap', sign :: behind = offset ++ gap' ∧ IsGap gap' ∧
      (Offset Number offset k ∨ Offset SignedNumber offset k ∧ InRange k) := by
  rcases readOffset?_cases sign behind with hnone | ⟨gap, cs, gap', n, rfl, hgap, hgap', hread, hn⟩
  · rw [hnone] at h
    cases h
  · obtain ⟨hnumber, hlow, hhigh⟩ := readNumber?_eq_some_iff.mp hread
    rw [readOffset?_of_number hgap hgap' hread hn] at h
    refine ⟨sign :: (gap ++ cs), gap', rfl, hgap', ?_⟩
    rcases isSign_iff.mp hsign with rfl | rfl
    · obtain rfl : n = k := Option.some.inj (Except.ok.inj h)
      exact hnumber.imp (Offset.plus hgap · hn) fun hnumber => ⟨.plus hgap hnumber hn, hlow, hhigh⟩
    · rcases eq_or_ne n (-0x80000000) with rfl | hne
      · cases h
      · rw [negateChecked_of_ne hne] at h
        obtain rfl : -n = k := Option.some.inj (Except.ok.inj h)
        have hrange : InRange (-n) := by
          simp only [maxOffset] at hn
          exact ⟨by omega, by omega⟩
        exact hnumber.imp (Offset.minus hgap · hn) fun hnumber => ⟨.minus hgap hnumber hn, hrange⟩

theorem readOffset?_of_offset {number : List Char → Int → Prop}
    (hnumber : ∀ {cs n}, number cs n → Number cs n ∨ SignedNumber cs n) {sign : Char}
    {behind gap' : List Char} {k : Int} (h : Offset number (sign :: behind) k) (hk : InRange k)
    (hgap' : IsGap gap') :
    isSign sign = true ∧ readOffset? sign (behind ++ gap') = .ok (some k) := by
  cases h with
  | plus hgap h hn =>
    have hread := readNumber?_eq_some_iff.mpr ⟨hnumber h, hk⟩
    exact ⟨rfl, readOffset?_of_number hgap hgap' hread hn '+'⟩
  | @minus gap cs n hgap h hn =>
    obtain ⟨hlow, hhigh⟩ := hk
    have hrange : InRange n := by
      simp only [maxOffset] at hn
      exact ⟨by omega, by omega⟩
    have hread := readNumber?_eq_some_iff.mpr ⟨hnumber h, hrange⟩
    refine ⟨rfl, (readOffset?_of_number hgap hgap' hread hn '-').trans ?_⟩
    rw [if_pos (beq_self_eq_true '-'), negateChecked_of_ne (by omega)]
    rfl

theorem exists_trim_append_selector {cs select trail : List Char} {part : ByteSelect}
    (hselect : Selector select part) (hcolon : select = [] → ':' ∉ cs) (htrail : IsGap trail) :
    ∃ lead body gap, IsGap lead ∧ IsGap gap ∧ cs = lead ++ body ++ gap ∧
      trim (cs ++ select ++ trail) = body ++ select ∧ (select = [] → ':' ∉ body) := by
  rcases hselect.eq_nil_or_cons with ⟨rfl, -⟩ | ⟨mark, rfl, -⟩
  · obtain ⟨lead, gap, hlead, hgap, hcs⟩ := exists_trim cs
    refine ⟨lead, trim cs, gap, hlead, hgap, hcs, ?_, fun _ hmem => hcolon rfl ?_⟩
    · simpa using trim_append isGap_nil htrail cs
    · rw [hcs]
      simp [hmem]
  · have hblank := fun c hc => (hselect.forall_mem c hc).1
    have hsplit : cs.takeWhile isBlank ++ cs.dropWhile isBlank = cs :=
      List.takeWhile_append_dropWhile
    have hlead : IsGap (cs.takeWhile isBlank) := List.all_eq_true.mp List.all_takeWhile
    refine ⟨_, cs.dropWhile isBlank, [], hlead, isGap_nil, ?_, ?_, fun hnil => nomatch hnil⟩
    · rw [hsplit, List.append_nil]
    · conv_lhs => rw [← hsplit, List.append_assoc (cs.takeWhile isBlank)]
      refine trim_between hlead htrail (fun c hc => ?_) fun c hc => ?_
      · -- If there are blanks alone before the selector, the text begins with its colon.
        have hfirst := List.head?_dropWhile_not isBlank cs
        rw [List.head?_append] at hc
        cases hdrop : (cs.dropWhile isBlank).head? with
        | none =>
          rw [hdrop] at hc
          exact hblank c (List.mem_of_mem_head? hc)
        | some d =>
          rw [hdrop] at hc hfirst
          obtain rfl : d = c := Option.some.inj hc
          exact hfirst
      · rw [List.getLast?_append, List.getLast?_cons, Option.some_or] at hc
        exact hblank c (List.mem_of_mem_getLast? (List.getLast?_cons ▸ hc))

theorem read?_of_selector {cs select trail : List Char} {part : ByteSelect}
    (hselect : Selector select part) (hcolon : select = [] → ':' ∉ cs) (htrail : IsGap trail) :
    read? (cs ++ select ++ trail) =
      (readBody? cs).map (Option.map fun parts => ⟨parts.1, parts.2, part⟩) := by
  obtain ⟨lead, body, gap, hlead, hgap, rfl, htrim, hbody⟩ :=
    exists_trim_append_selector hselect hcolon htrail
  rw [read?, htrim, splitSelect?_of_selector hselect hbody, readBody?_between hlead hgap]
  rfl

theorem read?_cases (cs : List Char) : read? cs = .ok none ∨
    ∃ body select part trail, cs = body ++ select ++ trail ∧ Selector select part ∧
      (select = [] → ':' ∉ body) ∧ IsGap trail := by
  obtain ⟨lead, trail, hlead, htrail, hcs⟩ := exists_trim cs
  cases hsplit : splitSelect? (trim cs) with
  | none =>
    left
    rw [read?, hsplit]
  | some parts =>
    obtain ⟨select, htrim, hselect, hcolon⟩ := exists_selector_of_splitSelect? hsplit
    refine .inr ⟨lead ++ parts.1, select, parts.2, trail, ?_, hselect, fun hnil => ?_, htrail⟩
    · rw [List.append_assoc lead, ← htrim]
      exact hcs
    · rw [List.mem_append, not_or]
      exact ⟨fun hmem => (ne_of_isBlank (hlead _ hmem)).2 rfl, hcolon hnil⟩

theorem spells_of_read? {cs : List Char} {r : Reference} (h : read? cs = .ok (some r)) :
    Spells Number cs r ∨ Spells SignedNumber cs r ∧ InRange r.offset := by
  rcases read?_cases cs with hnone | ⟨body, select, part, trail, rfl, hselect, hcolon, htrail⟩
  · rw [hnone] at h
    cases h
  rw [read?_of_selector hselect hcolon htrail] at h
  rcases exists_first_sign body with hbody | ⟨before, sign, behind, rfl, hsign, hbefore⟩
  · rw [readBody?_of_unsigned hbody] at h
    obtain ⟨parts, hparts, rfl⟩ := Option.map_eq_some_iff.mp (Except.ok.inj h)
    obtain ⟨text, htext, rfl⟩ := Option.map_eq_some_iff.mp hparts
    obtain ⟨lead, name, gap, hlead, hname, hgap, rfl, rfl⟩ := exists_isName_of_readName? htext
    left
    simpa using Spells.intro hlead hname hgap .none isGap_nil hselect htrail
  · rw [readBody?_of_sign hbefore hsign] at h
    cases hoffset : readOffset? sign behind with
    | error fault =>
      rw [hoffset] at h
      cases h
    | ok offset =>
      rw [hoffset] at h
      obtain ⟨parts, hparts, rfl⟩ := Option.map_eq_some_iff.mp (Except.ok.inj h)
      obtain ⟨text, htext, hparts⟩ := Option.bind_eq_some_iff.mp hparts
      obtain ⟨k, rfl, rfl⟩ := Option.map_eq_some_iff.mp hparts
      obtain ⟨lead, name, gap, hlead, hname, hgap, rfl, rfl⟩ := exists_isName_of_readName? htext
      obtain ⟨offset, gap', heq, hgap', hk⟩ := exists_offset_of_readOffset? hsign hoffset
      have htext : lead ++ name ++ gap ++ sign :: behind ++ select ++ trail =
          lead ++ name ++ gap ++ offset ++ gap' ++ select ++ trail := by
        rw [heq, ← List.append_assoc]
      rw [htext]
      exact hk.imp (Spells.intro hlead hname hgap · hgap' hselect htrail)
        (And.imp_left (Spells.intro hlead hname hgap · hgap' hselect htrail))

theorem read?_of_spells {number : List Char → Int → Prop}
    (hnumber : ∀ {cs n}, number cs n → Number cs n ∨ SignedNumber cs n) {cs : List Char}
    {r : Reference} (h : Spells number cs r) (hr : InRange r.offset) :
    read? cs = .ok (some r) := by
  cases h with
  | @intro lead name gap offset gap' select trail k part hlead hname hgap hoffset hgap' hselect
      htrail =>
    have hblanks : ∀ {ds : List Char}, IsGap ds → ':' ∉ ds :=
      fun hds hmem => (ne_of_isBlank (hds _ hmem)).2 rfl
    have hcolon : ':' ∉ lead ++ name ++ gap ++ offset ++ gap' := by
      simp only [List.mem_append, not_or]
      exact ⟨⟨⟨⟨hblanks hlead, fun hmem => (ne_of_isNameChar (hname.2 _ hmem)).2.2 rfl⟩,
        hblanks hgap⟩, colon_notMem_of_offset hnumber hoffset⟩, hblanks hgap'⟩
    have hunsigned : ∀ c ∈ lead ++ name ++ gap, isSign c = false := by
      simp only [List.forall_mem_append]
      exact ⟨⟨fun c hc => (ne_of_isBlank (hlead c hc)).1,
        fun c hc => (ne_of_isNameChar (hname.2 c hc)).2.1⟩,
        fun c hc => (ne_of_isBlank (hgap c hc)).1⟩
    have hread := readName?_of_isName hlead hname hgap
    rw [read?_of_selector hselect (fun _ => hcolon) htrail]
    cases offset with
    | nil =>
      -- The gap behind the name and the one before the colon are one.
      cases hoffset
      have hbody := readBody?_between isGap_nil hgap' (lead ++ name ++ gap)
      rw [List.append_nil, ← List.nil_append (lead ++ name ++ gap), hbody,
        readBody?_of_unsigned hunsigned, hread]
      rfl
    | cons sign behind =>
      obtain ⟨hsign, hk⟩ := readOffset?_of_offset hnumber hoffset hr hgap'
      rw [List.append_assoc _ (sign :: behind), List.cons_append,
        readBody?_of_sign hunsigned hsign, hk, hread]
      rfl

theorem overflows_of_read? {cs : List Char} {fault : Overflow} (h : read? cs = .error fault) :
    fault = .negation ∧ Overflows cs := by
  rcases read?_cases cs with hnone | ⟨body, select, part, trail, rfl, hselect, hcolon, htrail⟩
  · rw [hnone] at h
    cases h
  rw [read?_of_selector hselect hcolon htrail] at h
  rcases exists_first_sign body with hbody | ⟨before, sign, behind, rfl, hsign, hbefore⟩
  · rw [readBody?_of_unsigned hbody] at h
    cases h
  rw [readBody?_of_sign hbefore hsign] at h
  rcases readOffset?_cases sign behind with
    hnone | ⟨gap, cs, gap', n, rfl, hgap, hgap', hread, hn⟩
  · rw [hnone] at h
    cases h
  rw [readOffset?_of_number hgap hgap' hread hn] at h
  rcases isSign_iff.mp hsign with rfl | rfl
  · cases h
  rcases eq_or_ne n (-0x80000000) with rfl | hne
  · obtain rfl : Overflow.negation = fault := Except.error.inj h
    have hnumber := (readNumber?_eq_some_iff.mp hread).1.resolve_left fun hnumber =>
      absurd hnumber.nonneg (by decide)
    have hbefore' : select = [] → ':' ∉ before := fun hnil hmem =>
      hcolon hnil (List.mem_append_left _ hmem)
    refine ⟨rfl, ?_⟩
    simpa using Overflows.intro hbefore hbefore' hgap hnumber hgap' hselect htrail
  · rw [if_pos (beq_self_eq_true '-'), negateChecked_of_ne hne] at h
    cases h

theorem read?_of_overflows {cs : List Char} (h : Overflows cs) : read? cs = .error .negation := by
  cases h with
  | @intro before gap cs gap' select trail part hbefore hcolon hgap h hgap' hselect htrail =>
    have hread : readNumber? cs = some (-0x80000000) :=
      readNumber?_eq_some_iff.mpr ⟨.inr h, by decide⟩
    have hcolon' : select = [] → ':' ∉ before ++ '-' :: (gap ++ cs) ++ gap' := by
      intro hnil
      simp only [List.mem_append, List.mem_cons, not_or]
      exact ⟨⟨hcolon hnil, by decide, fun hmem => (ne_of_isBlank (hgap _ hmem)).2 rfl,
        fun hmem => (forall_mem_of_number (.inr h) _ hmem).2 rfl⟩,
        fun hmem => (ne_of_isBlank (hgap' _ hmem)).2 rfl⟩
    rw [read?_of_selector hselect hcolon' htrail, List.append_assoc before, List.cons_append,
      readBody?_of_sign hbefore rfl, readOffset?_of_number hgap hgap' hread (by decide)]
    rfl

/-- What overflows is the negation of an offset with a sign behind its mark. -/
theorem read?_eq_error_iff {cs : List Char} {fault : Overflow} :
    read? cs = .error fault ↔ fault = .negation ∧ Overflows cs := by
  refine ⟨overflows_of_read?, ?_⟩
  rintro ⟨rfl, h⟩
  exact read?_of_overflows h

theorem read?_eq_ok_some_iff {cs : List Char} {r : Reference} : read? cs = .ok (some r) ↔
    Spells Number cs r ∨ Spells SignedNumber cs r ∧ InRange r.offset := by
  refine ⟨spells_of_read?, ?_⟩
  rintro (h | ⟨h, hr⟩)
  · exact read?_of_spells .inl h (inRange_of_bounds h.offset_bounds.1)
  · exact read?_of_spells .inr h hr

theorem read_eq_ok_iff {text : String} {r : Reference} :
    read text = .ok (.ok r) ↔ read? text.toList = .ok (some r) := by
  unfold read
  cases h : read? text.toList with
  | error fault => exact ⟨nofun, nofun⟩
  | ok answer =>
    cases answer with
    | none => exact ⟨nofun, nofun⟩
    | some r' =>
      change Except.ok (Except.ok r') = Except.ok (Except.ok r) ↔ _
      simp

theorem read_eq_error_iff {text : String} {fault : Overflow} :
    read text = .error fault ↔ read? text.toList = .error fault := by
  unfold read
  cases h : read? text.toList with
  | error fault' =>
    change Except.error fault' = Except.error fault ↔ _
    simp
  | ok answer => cases answer <;> exact ⟨nofun, nofun⟩

theorem malformed_of_read {text : String} {e : LabelError} (h : read text = .ok (.error e)) :
    e = .malformed text := by
  unfold read at h
  cases hread : read? text.toList with
  | error fault => rw [hread] at h; cases h
  | ok answer =>
    rw [hread] at h
    cases answer with
    | none => exact (Except.error.inj (Except.ok.inj h)).symm
    | some r => cases h

/-- Exactly the documented texts are read, as long as no offset has a sign behind its mark. With
such a sign, a text is also read if its offset is a number of 32 bits that is not too large, and
there the sign in front is not the one of the offset and the offset may be out of bounds. An
overflow is possible there and nowhere else. -/
theorem read_accepts (text : String) :
    (∀ r, read text = .ok (.ok r) ↔
      Spells Number text.toList r ∨ Spells SignedNumber text.toList r ∧ InRange r.offset) ∧
    (∀ fault, read text = .error fault ↔ fault = .negation ∧ Overflows text.toList) ∧
    (∀ e, read text = .ok (.error e) → e = .malformed text) ∧
    (∀ r, Spells Number text.toList r →
      (-maxOffset ≤ r.offset ∧ r.offset ≤ maxOffset) ∧
        ('+' ∈ text.toList → 0 ≤ r.offset) ∧ ('-' ∈ text.toList → r.offset ≤ 0)) ∧
    (¬ SignBehindMark text.toList →
      (∀ r, read text = .ok (.ok r) ↔ Spells Number text.toList r) ∧
        ∃ answer, read text = .ok answer) := by
  have hread : ∀ r, read text = .ok (.ok r) ↔
      Spells Number text.toList r ∨ Spells SignedNumber text.toList r ∧ InRange r.offset :=
    fun r => read_eq_ok_iff.trans read?_eq_ok_some_iff
  have hfault : ∀ fault, read text = .error fault ↔ fault = .negation ∧ Overflows text.toList :=
    fun fault => read_eq_error_iff.trans read?_eq_error_iff
  refine ⟨hread, hfault, fun e => malformed_of_read, fun r h => h.offset_bounds, fun hmark => ?_⟩
  refine ⟨fun r => (hread r).trans (or_iff_left_of_imp fun h => ?_), ?_⟩
  · exact h.1.documented.resolve_right hmark
  · cases h : read text with
    | ok answer => exact ⟨answer, rfl⟩
    | error fault => exact absurd ((hfault fault).mp h).2.signBehindMark hmark

/-- A text with all its parts and a gap wherever there may be one. -/
theorem read_accepts_spaced :
    Spells Number " t + 0xfF :hI".toList ⟨"t", 255, .hi⟩ ∧
      read " t + 0xfF :hI" = .ok (.ok ⟨"t", 255, .hi⟩) := by
  have hgap : IsGap [' '] := by simp [IsGap, isBlank, ranges]
  have hnumber : Number "0xfF".toList 255 :=
    @Number.hexadecimal ['0', 'x'] ['f', 'F'] 255 (by decide)
      ((magnitude?_eq_some_iff (by decide)).mp rfl)
  have h : Spells Number " t + 0xfF :hI".toList ⟨"t", 255, .hi⟩ :=
    @Spells.intro Number [' '] ['t'] [' '] "+ 0xfF".toList [' '] ":hI".toList [] 255 .hi
      hgap ⟨by decide, List.all_iff_forall_prop.mp (by decide)⟩ hgap
      (.plus hgap hnumber (by decide)) hgap
      (.hi (by decide) (by decide)) isGap_nil
  exact ⟨h, ((read_accepts _).1 _).mpr (.inl h)⟩

/-- Behind its mark an offset changes sign and leaves the language, or overflows. -/
theorem read_signBehindMark :
    read "a+$-5" = .ok (.ok ⟨"a", -5, .both⟩) ∧ (¬ ∃ r, Spells Number "a+$-5".toList r) ∧
      read "a-$-80000000" = .error .negation := by
  have hread : read "a+$-5" = .ok (.ok ⟨"a", -5, .both⟩) := by decide +kernel
  refine ⟨hread, ?_, by decide +kernel⟩
  rintro ⟨r, h⟩
  have hr := read?_of_spells .inl h (inRange_of_bounds h.offset_bounds.1)
  rw [read_eq_ok_iff.mp hread] at hr
  obtain rfl := Option.some.inj (Except.ok.inj hr)
  exact absurd (h.offset_bounds.2.1 (by decide)) (by decide)

end Nmos6502.Reference
