import Nmos6502.Bus.Flat
import Nmos6502.Disassembly.Text
import Nmos6502.Proofs.Bus.Recorded
import Nmos6502.Proofs.Cpu.Decoding
import Nmos6502.Proofs.Label.Scopes
import Nmos6502.Proofs.Text.Hex

/-!
What a line of assembly tells. Without labels it tells the bytes of an instruction whose address is
known: the mnemonic and the marks around the digits give the opcode, and the digits give the
operand. With labels, a name stands where the digits of a place would be.
-/

namespace Nmos6502

universe u v

variable {β : Type u} {γ : Type v} [Bus β] [Bus γ] {bus : β} {bus' : γ} {address : Word}
  {op op' : Opcode}

namespace Mode

def opening : Mode → String
  | accumulator => "A"
  | immediate => "#"
  | indirect | indirectX | indirectY => "("
  | implicit | zeroPage | zeroPageX | zeroPageY | relative | absolute | absoluteX | absoluteY => ""

def closing : Mode → String
  | zeroPageX | absoluteX => ",X"
  | zeroPageY | absoluteY => ",Y"
  | indirect => ")"
  | indirectX => ",X)"
  | indirectY => "),Y"
  | implicit | accumulator | immediate | zeroPage | relative | absolute => ""

/-- The number between them, if the mode has one. -/
def digits (mode : Mode) (value : Word) : String :=
  match mode with
  | implicit | accumulator => ""
  | immediate | zeroPage | zeroPageX | zeroPageY | indirectX | indirectY =>
    Instruction.shortText value
  | relative | absolute | absoluteX | absoluteY | indirect => Instruction.longText value

def width : Mode → Nat
  | implicit | accumulator => 0
  | immediate | zeroPage | zeroPageX | zeroPageY | indirectX | indirectY => 2
  | relative | absolute | absoluteX | absoluteY | indirect => 4

/-- The operand bytes of an instruction at an address that prints the number. -/
def operandBytes (mode : Mode) (address number : Word) : List Byte :=
  match mode with
  | implicit | accumulator => []
  | immediate | zeroPage | zeroPageX | zeroPageY | indirectX | indirectY => [Word.low number]
  | relative => [Word.low (number - (address + 2))]
  | absolute | absoluteX | absoluteY | indirect => [Word.low number, Word.high number]

/-- The number is the address of a place in memory. -/
def hasPlace : Mode → Bool
  | implicit | accumulator | immediate => false
  | zeroPage | zeroPageX | zeroPageY | relative | absolute | absoluteX | absoluteY | indirect
  | indirectX | indirectY => true

end Mode

@[simp] theorem Word.low_displacement (b : Byte) : low (Byte.displacement b) = b := by
  apply BitVec.eq_of_toNat_eq
  have hb := b.isLt
  simp only [low, Byte.displacement, BitVec.toNat_ofNat, BitVec.toNat_signExtend,
    BitVec.toNat_setWidth]
  split <;> omega

namespace Instruction

/-- The number that is printed: the operand, or where a branch goes. -/
def shown (i : Instruction) : Option Word :=
  match i.mode with
  | .relative => i.target
  | _ => i.operand

/-- A mnemonic and its operand. Where there is no operand, there is no blank before it. -/
def line (mnemonic : Mnemonic) (operand : String) : String :=
  if operand.isEmpty then mnemonic.name else mnemonic.name ++ " " ++ operand

/-- What a label table makes of the text of an instruction. A place that has a visible label is
printed by the name of such a label, and everything else as it is printed without the table. An
empty name may leave nothing of an operand, and then there is no blank either. -/
structure Named (i : Instruction) (t : LabelTable) : Prop where
  without : i.mode.hasPlace = false → i.text (some t) = i.text none
  place : i.mode.hasPlace = true → ∃ mnemonic value, i.mnemonic = some mnemonic ∧
    i.shown = some value ∧
    i.text none = line mnemonic (i.mode.opening ++ i.mode.digits value ++ i.mode.closing) ∧
    ((∃ name, (name, value) ∈ t.visible) → ∃ name, t.lookup name = some value ∧
      i.text (some t) = line mnemonic (i.mode.opening ++ name ++ i.mode.closing)) ∧
    ((¬ ∃ name, (name, value) ∈ t.visible) → i.text (some t) = i.text none)

theorem text_of_mnemonic {i : Instruction} {mnemonic : Mnemonic} (h : i.mnemonic = some mnemonic)
    (labels : Option LabelTable) : i.text labels = line mnemonic (i.operandText labels) := by
  simp only [text, h, line]

theorem text_decode (h : Opcode.decode (Bus.read bus address) = some op)
    (labels : Option LabelTable) : (decode bus address).text labels =
      line op.mnemonic ((decode bus address).operandText labels) :=
  text_of_mnemonic (by rw [decode_of_documented h]) labels

theorem toList_line (mnemonic : Mnemonic) (operand : String) : (line mnemonic operand).toList =
    mnemonic.name.toList ++ if operand = "" then [] else ' ' :: operand.toList := by
  by_cases h : operand = ""
  · simp [line, h]
  · simp [line, h]

end Instruction

namespace Mnemonic

theorem toList_name (mnemonic : Mnemonic) :
    mnemonic.name.toList.length = 3 ∧ mnemonic.name.toList.head? ≠ some '.' ∧
      '?' ∉ mnemonic.name.toList := by
  cases mnemonic <;> decide

theorem name_injective {m n : Mnemonic} (h : m.name = n.name) : m = n := by
  have hnodup : (all.map name).Nodup := by decide +kernel
  exact List.inj_on_of_nodup_map hnodup (mem_all m) (mem_all n) h

end Mnemonic

namespace Instruction

theorem line_injective {m n : Mnemonic} {s s' : String} (h : line m s = line n s') :
    m = n ∧ s = s' := by
  have hlist := congrArg String.toList h
  rw [toList_line, toList_line] at hlist
  obtain ⟨hname, hoperand⟩ :=
    List.append_inj hlist (m.toList_name.1.trans n.toList_name.1.symm)
  refine ⟨Mnemonic.name_injective (String.toList_inj.mp hname), ?_⟩
  by_cases hs : s = "" <;> by_cases hs' : s' = ""
  · rw [hs, hs']
  · simp [hs, hs'] at hoperand
  · simp [hs, hs'] at hoperand
  · rw [if_neg hs, if_neg hs', List.cons.injEq] at hoperand
    exact String.toList_inj.mp hoperand.2

theorem line_ne_data (m : Mnemonic) (s digits : String) : line m s ≠ ".byte $" ++ digits := by
  intro h
  have hhead := congrArg List.head? (congrArg String.toList h)
  rw [toList_line, String.toList_append] at hhead
  have hfirst := m.toList_name.2.1
  cases hname : m.name.toList with
  | nil =>
    have hlength := m.toList_name.1
    rw [hname] at hlength
    cases hlength
  | cons c rest =>
    rw [hname] at hhead hfirst
    exact hfirst hhead

def number (i : Instruction) : Word :=
  i.shown.getD 0

theorem number_lt (h : Opcode.decode (Bus.read bus address) = some op)
    (hwidth : op.mode.width = 2) : (decode bus address).number.toNat < 256 := by
  have hbyte := (Bus.read bus (address + 1)).isLt
  rw [decode_of_documented h]
  obtain ⟨mnemonic, mode⟩ := op
  cases mode with
  | implicit | accumulator | relative | absolute | absoluteX | absoluteY | indirect => cases hwidth
  | immediate | zeroPage | zeroPageX | zeroPageY | indirectX | indirectY =>
    simpa [number, shown, operand, Mode.operandSize, Bus.readAll, List.range_succ] using hbyte

theorem operands_decode (h : Opcode.decode (Bus.read bus address) = some op) :
    (decode bus address).operands =
      op.mode.operandBytes address (decode bus address).number := by
  have hdistance : ∀ d : Word, address + 2#16 + d - (address + 2#16) = d := by
    intro d
    rw [BitVec.add_comm, BitVec.add_sub_cancel]
  rw [decode_of_documented h]
  obtain ⟨mnemonic, mode⟩ := op
  cases mode <;>
    simp [Mode.operandBytes, number, shown, operand, target, Mode.operandSize, Bus.readAll,
      List.range_succ, hdistance]

theorem operandText_decode (h : Opcode.decode (Bus.read bus address) = some op)
    (labels : Option LabelTable) :
    let i := decode bus address
    i.operandText labels = op.mode.opening ++
      (if op.mode.hasPlace then (nameIn labels i.number).getD (op.mode.digits i.number)
        else op.mode.digits i.number) ++ op.mode.closing := by
  rw [decode_of_documented h]
  obtain ⟨mnemonic, mode⟩ := op
  cases mode <;>
    simp [operandText, addressText, number, shown, operand, target, Mode.opening, Mode.closing,
      Mode.digits, Mode.hasPlace, Mode.operandSize, Bus.readAll, List.range_succ]

end Instruction

namespace Mode

/-- Any digit in place of another one. -/
def blot (c : Char) : Char :=
  if c ∈ Hex.digits then '0' else c

/-- The operands of a mode with their digits made alike. -/
def outline (mode : Mode) : List Char :=
  (mode.opening ++ mode.digits 0 ++ mode.closing).toList.map blot

theorem toList_digits {mode : Mode} {value : Word} (h : mode.width = 2 → value.toNat < 256) :
    (mode.digits value).toList =
      if mode.width = 0 then [] else '$' :: Hex.fixed mode.width value.toNat := by
  cases mode with
  | implicit | accumulator => rfl
  | immediate | zeroPage | zeroPageX | zeroPageY | indirectX | indirectY =>
    simp [digits, width, Instruction.shortText, Hex.atLeast_two (h rfl)]
  | relative | absolute | absoluteX | absoluteY | indirect =>
    simp [digits, width, Instruction.longText, Hex.ofWord]

theorem map_blot_fixed (width n : Nat) :
    (Hex.fixed width n).map blot = List.replicate width '0' := by
  have hblot : ∀ c ∈ Hex.fixed width n, blot c = '0' := fun c hc => if_pos (Hex.mem_fixed hc)
  rw [List.map_eq_replicate_iff.mpr hblot, Hex.length_fixed]

theorem map_blot_operand {mode : Mode} {value : Word} (h : mode.width = 2 → value.toNat < 256) :
    (mode.opening ++ mode.digits value ++ mode.closing).toList.map blot = mode.outline := by
  have hzero : mode.width = 2 → (0 : Word).toNat < 256 := fun _ => by decide
  simp only [outline, String.toList_append, List.map_append, toList_digits h,
    toList_digits hzero]
  split_ifs
  · rfl
  · simp only [List.map_cons, map_blot_fixed]

/-- An operand that is four digits may be that of a branch, and otherwise its outline tells the
mode. -/
theorem outline_injective {m n : Mode} (h : m.outline = n.outline)
    (hrelative : m = relative ↔ n = relative) : m = n := by
  have hall : all.all (fun m => all.all fun n => decide
      (m.outline = n.outline → (m = relative ↔ n = relative) → m = n)) = true := by
    decide +kernel
  exact of_decide_eq_true
    (List.all_eq_true.mp (List.all_eq_true.mp hall m (mem_all m)) n (mem_all n)) h hrelative

theorem question_notMem (mode : Mode) {value : Word} (h : mode.width = 2 → value.toNat < 256) :
    '?' ∉ mode.opening.toList ∧ '?' ∉ (mode.digits value).toList ∧ '?' ∉ mode.closing.toList := by
  refine ⟨by cases mode <;> decide, ?_, by cases mode <;> decide⟩
  rw [toList_digits h]
  split_ifs
  · exact List.not_mem_nil
  · rw [List.mem_cons, not_or]
    exact ⟨by decide, fun hmem => absurd (Hex.mem_fixed hmem) (by decide)⟩

theorem digits_injective {mode : Mode} {value value' : Word} (hwidth : mode.width ≠ 0)
    (h : mode.width = 2 → value.toNat < 256) (h' : mode.width = 2 → value'.toNat < 256)
    (heq : mode.digits value = mode.digits value') : value = value' := by
  have hlist := congrArg String.toList heq
  rw [toList_digits h, toList_digits h', if_neg hwidth, if_neg hwidth, List.cons.injEq] at hlist
  have hbound : ∀ {v : Word}, (mode.width = 2 → v.toNat < 256) → v.toNat < 16 ^ mode.width := by
    intro v hv
    have hlt := v.isLt
    cases mode with
    | implicit | accumulator => exact absurd rfl hwidth
    | immediate | zeroPage | zeroPageX | zeroPageY | indirectX | indirectY => exact hv rfl
    | relative | absolute | absoluteX | absoluteY | indirect => exact hlt
  exact BitVec.eq_of_toNat_eq (Hex.fixed_injective (hbound h) (hbound h') hlist.2)

theorem operandBytes_eq_of_digits {mode : Mode} {value value' : Word}
    (h : mode.width = 2 → value.toNat < 256) (h' : mode.width = 2 → value'.toNat < 256)
    (heq : mode.digits value = mode.digits value') (address : Word) :
    mode.operandBytes address value = mode.operandBytes address value' := by
  cases mode with
  | implicit | accumulator => rfl
  | _ => rw [digits_injective (by decide) h h' heq]

end Mode

theorem Opcode.relative_iff_of_decode {byte : Byte} {op : Opcode} (h : decode byte = some op) :
    op.mode = .relative ↔ op.mnemonic.family = .branching :=
  of_decode (P := fun op => op.mode = .relative ↔ op.mnemonic.family = .branching)
    (by decide +kernel) h

namespace Instruction

theorem operandText_none (h : Opcode.decode (Bus.read bus address) = some op) :
    (decode bus address).operandText none =
      op.mode.opening ++ op.mode.digits (decode bus address).number ++ op.mode.closing := by
  rw [operandText_decode h]
  split_ifs <;> rfl

theorem mode_eq_of_operandText (h : Opcode.decode (Bus.read bus address) = some op)
    (h' : Opcode.decode (Bus.read bus' address) = some op') (hmnemonic : op.mnemonic = op'.mnemonic)
    (htext : (decode bus address).operandText none = (decode bus' address).operandText none) :
    op.mode = op'.mode := by
  refine Mode.outline_injective ?_ ?_
  · rw [operandText_none h, operandText_none h'] at htext
    rw [← Mode.map_blot_operand (number_lt h), htext, Mode.map_blot_operand (number_lt h')]
  · -- Branches and jumps print four digits alike, and their mnemonics set them apart.
    rw [Opcode.relative_iff_of_decode h, Opcode.relative_iff_of_decode h', hmnemonic]

theorem operands_eq_of_operandText (h : Opcode.decode (Bus.read bus address) = some op)
    (h' : Opcode.decode (Bus.read bus' address) = some op') (hmode : op.mode = op'.mode)
    (htext : (decode bus address).operandText none = (decode bus' address).operandText none) :
    (decode bus address).operands = (decode bus' address).operands := by
  have hlt' := number_lt h'
  rw [operandText_none h, operandText_none h', ← hmode, String.append_left_inj,
    String.append_right_inj] at htext
  rw [operands_decode h, operands_decode h', ← hmode]
  rw [← hmode] at hlt'
  exact Mode.operandBytes_eq_of_digits (number_lt h) hlt' htext address

theorem bytes_eq_of_text
    (htext : (decode bus address).text none = (decode bus' address).text none) :
    (decode bus address).opcode = (decode bus' address).opcode ∧
      (decode bus address).operands = (decode bus' address).operands := by
  cases h : Opcode.decode (Bus.read bus address) with
  | none =>
    cases h' : Opcode.decode (Bus.read bus' address) with
    | none =>
      rw [decode_of_undocumented h, decode_of_undocumented h'] at htext ⊢
      exact ⟨Hex.ofByte_injective ((String.append_right_inj _).mp htext), rfl⟩
    | some op' =>
      rw [decode_of_undocumented h, text_decode h'] at htext
      exact absurd htext.symm (line_ne_data _ _ _)
  | some op =>
    cases h' : Opcode.decode (Bus.read bus' address) with
    | none =>
      rw [decode_of_undocumented h', text_decode h] at htext
      exact absurd htext (line_ne_data _ _ _)
    | some op' =>
      rw [text_decode h, text_decode h'] at htext
      obtain ⟨hmnemonic, hoperand⟩ := line_injective htext
      have hmode := mode_eq_of_operandText h h' hmnemonic hoperand
      obtain rfl : op = op' := by
        cases op
        cases op'
        exact congr (congrArg _ hmnemonic) hmode
      refine ⟨?_, operands_eq_of_operandText h h' rfl hoperand⟩
      have hencode := Opcode.encode_eq_some_iff.mpr h
      rw [Opcode.encode_eq_some_iff.mpr h', Option.some.injEq] at hencode
      rw [decode_of_documented h, decode_of_documented h']
      exact hencode.symm

theorem shown_decode (h : Opcode.decode (Bus.read bus address) = some op)
    (hplace : op.mode.hasPlace = true) :
    (decode bus address).shown = some (decode bus address).number := by
  rw [decode_of_documented h]
  obtain ⟨mnemonic, mode⟩ := op
  cases mode with
  | implicit | accumulator | immediate => cases hplace
  | _ => simp [number, shown, operand, target, Mode.operandSize, Bus.readAll, List.range_succ]

theorem exists_name_of_question {labels : Option LabelTable}
    (h : '?' ∈ ((decode bus address).text labels).toList) :
    ∃ place name, (decode bus address).shown = some place ∧ nameIn labels place = some name ∧
      '?' ∈ name.toList := by
  cases hdecode : Opcode.decode (Bus.read bus address) with
  | none =>
    rw [decode_of_undocumented hdecode] at h
    have hlist : '?' ∈ ".byte $".toList ++ Hex.fixed 2 (Bus.read bus address).toNat := by
      simpa [text, Hex.ofByte] using h
    rcases List.mem_append.mp hlist with hmem | hmem
    · exact absurd hmem (by decide)
    · exact absurd (Hex.mem_fixed hmem) (by decide)
  | some op =>
    obtain ⟨hopening, hdigits, hclosing⟩ := op.mode.question_notMem (number_lt hdecode)
    rw [text_decode hdecode, toList_line, List.mem_append] at h
    have hoperand := h.resolve_left op.mnemonic.toList_name.2.2
    split_ifs at hoperand
    · cases hoperand
    · rw [List.mem_cons, operandText_decode hdecode, String.toList_append, String.toList_append,
        List.mem_append, List.mem_append] at hoperand
      have hmiddle := ((hoperand.resolve_left (by decide)).resolve_right hclosing).resolve_left
        hopening
      split_ifs at hmiddle with hplace
      · cases hname : nameIn labels (decode bus address).number with
        | some name =>
          rw [hname] at hmiddle
          exact ⟨_, name, shown_decode hdecode hplace, hname, hmiddle⟩
        | none =>
          rw [hname] at hmiddle
          exact absurd hmiddle hdigits
      · exact absurd hmiddle hdigits

theorem nameIn_table {t : LabelTable} (ht : t.Ordered) (place : Word) :
    (∃ name, nameIn (some t) place = some name ∧ t.lookup name = some place) ∨
      nameIn (some t) place = none ∧ ∀ name, t.lookup name ≠ some place := by
  have hname : nameIn (some t) place = t.nameOf? place := rfl
  rw [hname]
  cases h : t.nameOf? place with
  | none => exact .inr ⟨rfl, LabelTable.nameOf?_eq_none_iff.mp h⟩
  | some name =>
    obtain ⟨-, -, -, -, ⟨-, hmeans⟩, -⟩ := (LabelTable.nameOf?_eq_some_iff ht).mp h
    exact .inl ⟨name, rfl, LabelTable.lookup_eq_some_iff.mpr hmeans⟩

theorem named_decode {t : LabelTable} (ht : t.Ordered) (bus : β) (address : Word) :
    (decode bus address).Named t := by
  cases h : Opcode.decode (Bus.read bus address) with
  | none =>
    rw [decode_of_undocumented h]
    exact ⟨fun _ => rfl, fun hplace => nomatch hplace⟩
  | some op =>
    have hmode : (decode bus address).mode = op.mode := by rw [decode_of_documented h]
    have hmnemonic : (decode bus address).mnemonic = some op.mnemonic := by
      rw [decode_of_documented h]
    refine ⟨fun hplace => ?_, fun hplace => ⟨op.mnemonic, (decode bus address).number, hmnemonic,
      ?_, ?_, ?_, ?_⟩⟩
    · rw [hmode] at hplace
      rw [text_decode h, text_decode h, operandText_decode h, operandText_decode h, hplace]
      rfl
    · exact shown_decode h (hmode ▸ hplace)
    · rw [text_decode h, operandText_none h, hmode]
    · rintro ⟨name, hvisible⟩
      rw [hmode] at hplace
      rcases nameIn_table ht (decode bus address).number with ⟨found, hfound, hlookup⟩ | ⟨-, hnone⟩
      · refine ⟨found, hlookup, ?_⟩
        rw [text_decode h, operandText_decode h, hplace, if_pos rfl, hfound, hmode]
        rfl
      · exact absurd ((ht.shows.visible.2 _ _).mp hvisible) (hnone name)
    · intro hvisible
      rcases nameIn_table ht (decode bus address).number with ⟨found, -, hlookup⟩ | ⟨hname, -⟩
      · exact absurd ⟨found, (ht.shows.visible.2 _ _).mpr hlookup⟩ hvisible
      · rw [text_decode h, text_decode h, operandText_decode h, operandText_decode h, hname]
        rfl

/-- At a known address the text without labels tells the bytes, and where a text has a question
mark, it is in the name of a label. With labels, a name stands for a place exactly if a visible
label does, and it is the name of such a label. -/
theorem text_identifies (address : Word) :
    (∀ (bus : β) (bus' : γ), (decode bus address).text none = (decode bus' address).text none →
      (decode bus address).opcode = (decode bus' address).opcode ∧
        (decode bus address).operands = (decode bus' address).operands) ∧
    ∀ bus : β,
      (∀ labels, '?' ∈ ((decode bus address).text labels).toList →
        ∃ place name, (decode bus address).shown = some place ∧
          nameIn labels place = some name ∧ '?' ∈ name.toList) ∧
      ∀ edits, (decode bus address).Named (LabelTable.empty.edited edits) := by
  refine ⟨fun bus bus' => bytes_eq_of_text, fun bus => ⟨fun labels => exists_name_of_question, ?_⟩⟩
  intro edits
  exact named_decode (LabelTable.ordered_empty.edited edits) bus address

/-- A branch to a label, in two memories that agree on the branch. -/
theorem text_identifies_branch :
    let memory := Bus.replay FlatMemory.zeroed [(0x0203, 0xD0), (0x0204, 0xFD)]
    let other := Bus.replay memory [(0x0205, 0xEA)]
    let t := LabelTable.empty.edited [.define "why?" 0x0202]
    (decode memory 0x0203).text none = "BNE $0202" ∧ (decode other 0x0203).text none = "BNE $0202" ∧
      (decode memory 0x0203).operands = (decode other 0x0203).operands ∧
      (decode memory 0x0203).text (some t) = "BNE why?" ∧
      (∃ place name, (decode memory 0x0203).shown = some place ∧ nameIn (some t) place = some name ∧
        '?' ∈ name.toList) ∧
      (decode memory 0x0203).Named t := by
  intro memory other t
  obtain ⟨hbytes, hlabels⟩ := @text_identifies FlatMemory FlatMemory _ _ 0x0203
  have hplain : (decode memory 0x0203).text none = "BNE $0202" := by decide +kernel
  have hother : (decode other 0x0203).text none = "BNE $0202" := by decide +kernel
  have hnamed : (decode memory 0x0203).text (some t) = "BNE why?" := by decide +kernel
  refine ⟨hplain, hother, (hbytes memory other (hplain.trans hother.symm)).2, hnamed, ?_,
    (hlabels memory).2 _⟩
  refine (hlabels memory).1 (some t) ?_
  rw [hnamed]
  decide

/-- The blank before an operand goes with the last of its characters, so that an empty name does not
just take the place of an address. -/
theorem text_of_empty_name :
    let memory := Bus.replay FlatMemory.zeroed [(0x0000, 0xA5), (0x0001, 0x10)]
    let t := LabelTable.empty.edited [.define "" 0x0010]
    let i := decode memory 0x0000
    ("", 0x0010) ∈ t.visible ∧ i.text none = "LDA $10" ∧ i.text (some t) = "LDA" ∧
      ¬ ∃ before name behind, i.text none = before ++ "$10" ++ behind ∧
        t.lookup name = some 0x0010 ∧ i.text (some t) = before ++ name ++ behind := by
  intro memory t i
  have hplain : i.text none = "LDA $10" := by decide +kernel
  have hnamed : i.text (some t) = "LDA" := by decide +kernel
  refine ⟨by decide +kernel, hplain, hnamed, ?_⟩
  rintro ⟨before, name, behind, hbefore, -, hafter⟩
  have hlong := congrArg String.length (hplain.symm.trans hbefore)
  have hshort := congrArg String.length (hnamed.symm.trans hafter)
  have hlengths : "LDA $10".length = 7 ∧ "LDA".length = 3 ∧ "$10".length = 3 := by decide
  rw [String.length_append, String.length_append] at hlong hshort
  omega

end Instruction

end Nmos6502
