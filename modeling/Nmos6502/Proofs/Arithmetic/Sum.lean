import Nmos6502.Proofs.Arithmetic.Number
import Nmos6502.Proofs.Bus.Block
import Nmos6502.Proofs.Cpu.Bodies
import Nmos6502.Proofs.Cpu.Decoding

/-!
A program adds numbers of any length by adding their bytes from the lowest up, the carry of each
place going into the next. What such a chain of `ADC` or `SBC` computes is the sum or the difference
of the whole numbers, and Overflow after the last place is the overflow of the whole operation.
-/

namespace Nmos6502

universe u

namespace Alu

theorem toNat_not (carry : Bool) : (!carry).toNat = 1 - carry.toNat := by
  cases carry <;> rfl

theorem toNat_add_result (a b : Byte) (carry : Bool) :
    (add a b carry).result.toNat + 256 * (add a b carry).carry.toNat =
      a.toNat + b.toNat + carry.toNat := by
  have ha := a.isLt
  have hb := b.isLt
  have hcarry := carry.toNat_le
  simp only [add, BitVec.toNat_ofNat]
  rcases Nat.lt_or_ge 255 (a.toNat + b.toNat + carry.toNat) with h | h
  · rw [decide_eq_true h, Bool.toNat_true]
    omega
  · rw [decide_eq_false (by omega), Bool.toNat_false]
    omega

theorem overflow_add_iff (a b : Byte) (carry : Bool) :
    (add a b carry).overflow = true ↔ ¬ FitsSigned 1 (a.toInt + b.toInt + carry.toNat) := by
  have ha := a.isLt
  have hb := b.isLt
  have hcarry := carry.toNat_le
  simp only [add, BitVec.msb_and, BitVec.msb_xor]
  simp only [FitsSigned, BitVec.msb_eq_decide, BitVec.toInt_eq_msb_cond, BitVec.toNat_ofNat,
    Bool.and_eq_true, bne_iff_ne, ne_eq, decide_eq_decide, decide_eq_true_eq]
  norm_num
  split <;> split <;> omega

theorem add_complement (a b : Byte) (carry : Bool) :
    (add (add a b carry).result (~~~b) (!carry)).result = a ∧
      (add (add a b carry).result (~~~b) (!carry)).carry = !(add a b carry).carry := by
  have hsum := toNat_add_result a b carry
  have hback := toNat_add_result (add a b carry).result (~~~b) (!carry)
  generalize add (add a b carry).result (~~~b) (!carry) = back at hback
  generalize add a b carry = sum at hsum hback
  have ha := a.isLt
  have hb := b.isLt
  have hresult := back.result.isLt
  have hcarry := carry.toNat_le
  have hborrow := back.carry.toNat_le
  rw [BitVec.toNat_not, toNat_not] at hback
  have hflipped : back.carry.toNat = (!sum.carry).toNat := by
    rw [toNat_not]
    omega
  refine ⟨BitVec.eq_of_toNat_eq ?_, carry_inj hflipped⟩
  rw [toNat_not] at hflipped
  omega

/-- What is left when numbers have been added place by place. -/
structure Total where
  bytes : List Byte
  carry : Bool
  overflow : Bool

/-- Adds numbers place by place, lowest first. Overflow is that of the place added last. -/
def addBytes : List (Byte × Byte) → (carry overflow : Bool) → Total
  | [], carry, overflow => ⟨[], carry, overflow⟩
  | (a, b) :: rest, carry, _ =>
    let sum := add a b carry
    let higher := addBytes rest sum.carry sum.overflow
    { higher with bytes := sum.result :: higher.bytes }

variable (places : List (Byte × Byte)) (carry overflow : Bool)

theorem length_addBytes : (addBytes places carry overflow).bytes.length = places.length := by
  induction places generalizing carry overflow with
  | nil => rfl
  | cons place rest ih => simp [addBytes, ih]

theorem number_addBytes :
    number (addBytes places carry overflow).bytes +
        (addBytes places carry overflow).carry.toNat * 256 ^ places.length =
      number (places.map Prod.fst) + number (places.map Prod.snd) + carry.toNat := by
  induction places generalizing carry overflow with
  | nil => simp [addBytes]
  | cons place rest ih =>
    obtain ⟨a, b⟩ := place
    have hplace := toNat_add_result a b carry
    have hrest := ih (add a b carry).carry (add a b carry).overflow
    simp only [addBytes, List.map_cons, number_cons, List.length_cons, pow_succ]
    linarith

/-- Overflow is decided by the last place, but it is the overflow of the numbers as a whole. -/
theorem overflow_addBytes_iff (hne : places ≠ []) :
    (addBytes places carry overflow).overflow = true ↔
      ¬ FitsSigned places.length (signedNumber (places.map Prod.fst) +
        signedNumber (places.map Prod.snd) + carry.toNat) := by
  induction places generalizing carry overflow with
  | nil => exact absurd rfl hne
  | cons place rest ih =>
    obtain ⟨a, b⟩ := place
    by_cases hrest : rest = []
    · subst hrest
      simpa [addBytes, signedNumber_singleton] using overflow_add_iff a b carry
    · -- The lowest byte of the sum stays below the numbers above it: only its carry counts there.
      have hplace : ((add a b carry).result.toNat + 256 * (add a b carry).carry.toNat : Int) =
          a.toNat + b.toNat + carry.toNat := by exact_mod_cast toNat_add_result a b carry
      have hvalue : (a.toNat : Int) + 256 * signedNumber (rest.map Prod.fst) +
            (b.toNat + 256 * signedNumber (rest.map Prod.snd)) + carry.toNat =
          (add a b carry).result.toNat + 256 * (signedNumber (rest.map Prod.fst) +
            signedNumber (rest.map Prod.snd) + (add a b carry).carry.toNat) := by linarith
      have hlength : 0 < rest.length := List.length_pos_iff.mpr hrest
      have hfst : rest.map Prod.fst ≠ [] := by simpa using hrest
      have hsnd : rest.map Prod.snd ≠ [] := by simpa using hrest
      simp only [List.map_cons, List.length_cons]
      rw [signedNumber_cons _ _ hfst, signedNumber_cons _ _ hsnd, hvalue,
        fitsSigned_succ _ hlength]
      exact ih _ _ hrest

theorem zip_ne_nil {x y : List Byte} (hlength : x.length = y.length) (hne : x ≠ []) :
    x.zip y ≠ [] := by
  rw [← List.length_pos_iff] at hne ⊢
  simpa [← hlength] using hne

theorem addBytes_eq_of_ne_nil (hne : places ≠ []) (other : Bool) :
    addBytes places carry overflow = addBytes places carry other := by
  cases places with
  | nil => exact absurd rfl hne
  | cons place rest => rfl

/-- The places with the second number inverted. Adding them is subtracting. -/
def inverted (places : List (Byte × Byte)) : List (Byte × Byte) :=
  places.map fun place => (place.1, ~~~place.2)

@[simp] theorem length_inverted : (inverted places).length = places.length :=
  List.length_map _

theorem map_fst_inverted : (inverted places).map Prod.fst = places.map Prod.fst := by
  simp [inverted]

theorem map_snd_inverted :
    (inverted places).map Prod.snd = (places.map Prod.snd).map fun byte => ~~~byte := by
  simp [inverted]

theorem number_addBytes_inverted :
    (number (addBytes (inverted places) carry overflow).bytes : Int) =
      number (places.map Prod.fst) - number (places.map Prod.snd) - (1 - carry.toNat) +
        (1 - (addBytes (inverted places) carry overflow).carry.toNat) * 256 ^ places.length := by
  have hsum := number_addBytes (inverted places) carry overflow
  have hcomplement := number_complement (places.map Prod.snd)
  rw [map_fst_inverted, map_snd_inverted, length_inverted] at hsum
  rw [List.length_map] at hcomplement
  zify at hsum hcomplement
  linarith

theorem overflow_addBytes_inverted_iff (hne : places ≠ []) :
    (addBytes (inverted places) carry overflow).overflow = true ↔
      ¬ FitsSigned places.length (signedNumber (places.map Prod.fst) -
        signedNumber (places.map Prod.snd) - (1 - carry.toNat)) := by
  have hinverted : inverted places ≠ [] := by simpa [inverted] using hne
  have hvalue : signedNumber (places.map Prod.fst) + (-1 - signedNumber (places.map Prod.snd)) +
        carry.toNat =
      signedNumber (places.map Prod.fst) - signedNumber (places.map Prod.snd) -
        (1 - carry.toNat) := by ring
  rw [overflow_addBytes_iff _ _ _ hinverted, map_fst_inverted, map_snd_inverted, length_inverted,
    signedNumber_complement _ (by simpa using hne), hvalue]

theorem addBytes_inverted_addBytes (overflow' : Bool) :
    (addBytes (inverted ((addBytes places carry overflow).bytes.zip (places.map Prod.snd)))
        (!carry) overflow').bytes = places.map Prod.fst ∧
      (addBytes (inverted ((addBytes places carry overflow).bytes.zip (places.map Prod.snd)))
        (!carry) overflow').carry = !(addBytes places carry overflow).carry := by
  induction places generalizing carry overflow overflow' with
  | nil => exact ⟨rfl, rfl⟩
  | cons place rest ih =>
    obtain ⟨a, b⟩ := place
    obtain ⟨hresult, hcarry⟩ := add_complement a b carry
    obtain ⟨hbytes, hborrow⟩ := ih (add a b carry).carry (add a b carry).overflow
      (add (add a b carry).result (~~~b) (!carry)).overflow
    simp only [inverted] at hbytes hborrow
    simp only [addBytes, inverted, List.zip_cons_cons, List.map_cons, hresult, hcarry]
    exact ⟨congrArg _ hbytes, hborrow⟩

end Alu

namespace Cpu

variable {β : Type u}

/-- The two bytes that `ADC` and `SBC` add for an operand are the accumulator and this one. -/
def addend (mnemonic : Mnemonic) (operand : Byte) : Byte :=
  if mnemonic = .sbc then ~~~operand else operand

theorem addToA_has (c : Cpu β) (value : Byte) :
    (c.addToA value).status.has .carry = (Alu.add c.a value (c.status.has .carry)).carry ∧
      (c.addToA value).status.has .overflow =
        (Alu.add c.a value (c.status.has .carry)).overflow := by
  simp [addToA, setZN]

variable [Bus β]

theorem executeNext_of_adds {c : Cpu β} {op : Opcode}
    (hop : Opcode.decode (Bus.read c.bus c.pc) = some op)
    (hadds : op.mnemonic = .adc ∨ op.mnemonic = .sbc) :
    c.executeNext =
      (c.fetch.skipOperand op.mode).addToA (addend op.mnemonic (c.fetch.operand op.mode)) := by
  rw [executeNext_of_decode c hop, execute]
  obtain ⟨mnemonic, mode⟩ := op
  obtain rfl | rfl := hadds <;> rfl

/-- An addition or subtraction carried out place by place, lowest first. For each place a processor
gets ready that has kept the carry of the place before: it holds the first byte in the accumulator
and stands on an instruction, in any addressing mode, whose operand is the second. -/
inductive Chain (mnemonic : Mnemonic) :
    Cpu β → List (Byte × Byte) → List Byte → Cpu β → Prop where
  | done (c : Cpu β) : Chain mnemonic c [] [] c
  | place {c d : Cpu β} {x y result : Byte} {rest : List (Byte × Byte)} {results : List Byte}
      (ready : Cpu β) (mode : Mode) (hcarry : ready.status.has .carry = c.status.has .carry)
      (hop : Opcode.decode (Bus.read ready.bus ready.pc) = some ⟨mnemonic, mode⟩)
      (hx : ready.a = x) (hy : ready.fetch.operand mode = y)
      (hresult : ready.executeNext.a = result)
      (hrest : Chain mnemonic ready.executeNext rest results d) :
      Chain mnemonic c ((x, y) :: rest) (result :: results) d

namespace Chain

variable {mnemonic : Mnemonic} {c d : Cpu β} {places : List (Byte × Byte)} {results : List Byte}

theorem eq_addBytes (h : Chain mnemonic c places results d)
    (hadds : mnemonic = .adc ∨ mnemonic = .sbc) :
    Alu.addBytes (places.map fun place => (place.1, addend mnemonic place.2))
        (c.status.has .carry) (c.status.has .overflow) =
      ⟨results, d.status.has .carry, d.status.has .overflow⟩ := by
  induction h with
  | done c => rfl
  | place ready mode hcarry hop hx hy hresult hrest ih =>
    -- Getting ready keeps the carry alone; Overflow is set anew by every place.
    subst hx hy hresult
    have hfirst := executeNext_of_adds hop hadds
    obtain ⟨hplace, hoverflow⟩ := addToA_has (ready.fetch.skipOperand mode)
      (addend _ (ready.fetch.operand mode))
    simp only [skipOperand_fields, fetch_fields, hcarry] at hplace hoverflow
    rw [hfirst, hplace, hoverflow] at ih
    simp only [List.map_cons, Alu.addBytes, ih, hfirst, addToA_fields, skipOperand_fields,
      fetch_fields, hcarry]

theorem addBytes_of_adc (h : Chain .adc c places results d) :
    Alu.addBytes places (c.status.has .carry) (c.status.has .overflow) =
      ⟨results, d.status.has .carry, d.status.has .overflow⟩ := by
  simpa [addend] using h.eq_addBytes (.inl rfl)

theorem addBytes_of_sbc (h : Chain .sbc c places results d) :
    Alu.addBytes (Alu.inverted places) (c.status.has .carry) (c.status.has .overflow) =
      ⟨results, d.status.has .carry, d.status.has .overflow⟩ :=
  h.eq_addBytes (.inr rfl)

theorem exists_chain (hadds : mnemonic = .adc ∨ mnemonic = .sbc) (places : List (Byte × Byte))
    (c : Cpu FlatMemory) : ∃ results d, Chain mnemonic c places results d := by
  induction places generalizing c with
  | nil => exact ⟨[], c, .done c⟩
  | cons place rest ih =>
    obtain ⟨x, y⟩ := place
    obtain ⟨opcode, hop⟩ : ∃ opcode, Opcode.decode opcode = some ⟨mnemonic, .immediate⟩ := by
      obtain rfl | rfl := hadds
      · exact ⟨0x69, rfl⟩
      · exact ⟨0xE9, rfl⟩
    let ready : Cpu FlatMemory :=
      { c with a := x, bus := Bus.write (Bus.write c.bus (c.pc + 1) y) c.pc opcode }
    obtain ⟨results, d, hrest⟩ := ih ready.executeNext
    have hnext : c.pc + 1 ≠ c.pc := by bv_omega
    refine ⟨_, d, .place ready .immediate rfl ?_ rfl ?_ rfl hrest⟩
    · rw [FlatMemory.read_write, if_pos rfl, hop]
    · change Bus.read (Bus.write _ c.pc opcode) (c.pc + 1) = y
      rw [FlatMemory.read_write, if_neg hnext, FlatMemory.read_write, if_pos rfl]

/-- The bytes and the carry that a chain of additions leaves, as a statement about the numbers. -/
structure IsSum (x y : List Byte) (carry : Bool) (results : List Byte) (d : Cpu β) : Prop where
  length : results.length = x.length
  total : number results + (d.status.has .carry).toNat * 256 ^ x.length =
    number x + number y + carry.toNat
  overflow : d.status.has .overflow = true ↔
    ¬ FitsSigned x.length (signedNumber x + signedNumber y + carry.toNat)

/-- The same for a chain of subtractions, where a clear carry is a borrow. -/
structure IsDifference (x y : List Byte) (carry : Bool) (results : List Byte) (d : Cpu β) :
    Prop where
  length : results.length = x.length
  total : (number results : Int) = number x - number y - (1 - carry.toNat) +
    (1 - (d.status.has .carry).toNat) * 256 ^ x.length
  overflow : d.status.has .overflow = true ↔
    ¬ FitsSigned x.length (signedNumber x - signedNumber y - (1 - carry.toNat))

variable {x y : List Byte}

theorem isSum (h : Chain .adc c (x.zip y) results d) (hlength : x.length = y.length)
    (hne : x ≠ []) : IsSum x y (c.status.has .carry) results d := by
  have hplaces : (x.zip y).length = x.length := by simp [hlength]
  have hzip := Alu.zip_ne_nil hlength hne
  have hchain := h.addBytes_of_adc
  have hcount := Alu.length_addBytes (x.zip y) (c.status.has .carry) (c.status.has .overflow)
  have htotal := Alu.number_addBytes (x.zip y) (c.status.has .carry) (c.status.has .overflow)
  have hflag := Alu.overflow_addBytes_iff (x.zip y) (c.status.has .carry)
    (c.status.has .overflow) hzip
  rw [hchain, hplaces] at hcount htotal hflag
  rw [List.map_fst_zip hlength.le, List.map_snd_zip hlength.ge] at htotal hflag
  exact ⟨hcount, htotal, hflag⟩

theorem isDifference (h : Chain .sbc c (x.zip y) results d) (hlength : x.length = y.length)
    (hne : x ≠ []) : IsDifference x y (c.status.has .carry) results d := by
  have hplaces : (x.zip y).length = x.length := by simp [hlength]
  have hzip := Alu.zip_ne_nil hlength hne
  have hchain := h.addBytes_of_sbc
  have hcount := Alu.length_addBytes (Alu.inverted (x.zip y)) (c.status.has .carry)
    (c.status.has .overflow)
  have htotal := Alu.number_addBytes_inverted (x.zip y) (c.status.has .carry)
    (c.status.has .overflow)
  have hflag := Alu.overflow_addBytes_inverted_iff (x.zip y) (c.status.has .carry)
    (c.status.has .overflow) hzip
  rw [hchain] at hcount htotal hflag
  rw [Alu.length_inverted, hplaces] at hcount
  rw [hplaces, List.map_fst_zip hlength.le, List.map_snd_zip hlength.ge] at htotal hflag
  exact ⟨hcount, htotal, hflag⟩

/-- What a chain leaves depends on its bytes and on the carry it starts with, and on nothing else,
such as the Decimal flag. -/
theorem unique (hadds : mnemonic = .adc ∨ mnemonic = .sbc) {c' d' : Cpu β} {results' : List Byte}
    (h : Chain mnemonic c places results d) (h' : Chain mnemonic c' places results' d')
    (hne : places ≠ []) (hcarry : c.status.has .carry = c'.status.has .carry) :
    results = results' ∧ d.status.has .carry = d'.status.has .carry ∧
      d.status.has .overflow = d'.status.has .overflow := by
  have hchain := h.eq_addBytes hadds
  have hchain' := h'.eq_addBytes hadds
  rw [hcarry, Alu.addBytes_eq_of_ne_nil _ _ _ (by simpa using hne) (c'.status.has .overflow),
    hchain'] at hchain
  simpa [eq_comm] using hchain

theorem undone {e f : Cpu β} {restored : List Byte} (h : Chain .adc c (x.zip y) results d)
    (hback : Chain .sbc e (results.zip y) restored f) (hlength : x.length = y.length)
    (hcarry : e.status.has .carry = !c.status.has .carry) :
    restored = x ∧ f.status.has .carry = !d.status.has .carry := by
  have hchain := h.addBytes_of_adc
  have hundo := hback.addBytes_of_sbc
  have hlaw := Alu.addBytes_inverted_addBytes (x.zip y) (c.status.has .carry)
    (c.status.has .overflow) (e.status.has .overflow)
  rw [hchain, List.map_fst_zip hlength.le, List.map_snd_zip hlength.ge, ← hcarry, hundo] at hlaw
  exact hlaw

end Chain

/-- Chains of `ADC` and `SBC` of any length compute sums and differences of numbers of that length,
and find their carry and their overflow; their outcome depends on the bytes and the first carry
alone. -/
theorem chains_compute {x y : List Byte} (hlength : x.length = y.length) (hne : x ≠ []) :
    (∀ (c d : Cpu β) (results : List Byte), Chain .adc c (x.zip y) results d →
      Chain.IsSum x y (c.status.has .carry) results d) ∧
    (∀ (c d : Cpu β) (results : List Byte), Chain .sbc c (x.zip y) results d →
      Chain.IsDifference x y (c.status.has .carry) results d) ∧
    (∀ (c d e f : Cpu β) (results restored : List Byte), Chain .adc c (x.zip y) results d →
      Chain .sbc e (results.zip y) restored f →
      e.status.has .carry = !c.status.has .carry →
      restored = x ∧ f.status.has .carry = !d.status.has .carry) ∧
    ∀ mnemonic : Mnemonic, mnemonic = .adc ∨ mnemonic = .sbc →
      (∀ (c c' d d' : Cpu β) (results results' : List Byte),
        Chain mnemonic c (x.zip y) results d → Chain mnemonic c' (x.zip y) results' d' →
        c.status.has .carry = c'.status.has .carry →
        results = results' ∧ d.status.has .carry = d'.status.has .carry ∧
          d.status.has .overflow = d'.status.has .overflow) ∧
      ∀ c : Cpu FlatMemory, ∃ results d, Chain mnemonic c (x.zip y) results d := by
  refine ⟨?sum, ?difference, ?undone, ?all⟩
  case sum =>
    intro c d results h
    exact h.isSum hlength hne
  case difference =>
    intro c d results h
    exact h.isDifference hlength hne
  case undone =>
    intro c d e f results restored h hback hcarry
    exact h.undone hback hlength hcarry
  case all =>
    intro mnemonic hadds
    refine ⟨?_, Chain.exists_chain hadds (x.zip y)⟩
    intro c c' d d' results results' h h' hcarry
    exact h.unique hadds h' (Alu.zip_ne_nil hlength hne) hcarry

/-- A program that adds the words at `$10` and `$12`, about to run. -/
def wordSum : Cpu FlatMemory :=
  let program := Bus.writeAll FlatMemory.zeroed 0x0200
    [0xA5, 0x10, 0x65, 0x12, 0x85, 0x14, 0xA5, 0x11, 0x65, 0x13, 0x85, 0x15]
  { powerOn (Bus.writeAll program 0x0010 [0xFF, 0x7F, 0x01, 0x00]) with pc := 0x0200 }

/-- The sum of `$7FFF` and 1 is too large for a signed word. -/
theorem wordSum_overflows :
    Chain.IsSum [0xFF, 0x7F] [0x01, 0x00] false [0x00, 0x80]
      (Nat.iterate executeNext 5 wordSum) := by
  have hplaces : Chain .adc wordSum ([0xFF, 0x7F].zip [0x01, 0x00]) [0x00, 0x80]
      (Nat.iterate executeNext 5 wordSum) :=
    .place wordSum.executeNext .zeroPage (by decide +kernel) (by decide +kernel)
      (by decide +kernel) (by decide +kernel) (by decide +kernel)
      (.place (Nat.iterate executeNext 4 wordSum) .zeroPage (by decide +kernel) (by decide +kernel)
        (by decide +kernel) (by decide +kernel) (by decide +kernel) (.done _))
  exact (chains_compute (by decide) (by decide)).1 _ _ _ hplaces

end Cpu

end Nmos6502
