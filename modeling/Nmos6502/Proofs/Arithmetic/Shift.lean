import Nmos6502.Proofs.Arithmetic.Number
import Nmos6502.Proofs.Bus.Block
import Nmos6502.Proofs.Cpu.Bodies
import Nmos6502.Proofs.Cpu.Decoding

namespace Nmos6502

universe u

namespace Alu

theorem toNat_shiftLeft (value : Byte) (carry : Bool) :
    (shiftLeft value carry).result.toNat + 256 * (shiftLeft value carry).carry.toNat =
      2 * value.toNat + carry.toNat := by
  have hvalue := value.isLt
  have hcarry := carry.toNat_le
  simp only [shiftLeft, BitVec.msb_eq_decide, BitVec.toNat_ofNat]
  rcases Nat.lt_or_ge value.toNat 128 with h | h
  · rw [decide_eq_false (by omega), Bool.toNat_false]
    omega
  · rw [decide_eq_true (by omega), Bool.toNat_true]
    omega

theorem toNat_shiftRight (value : Byte) (carry : Bool) :
    2 * (shiftRight value carry).result.toNat + (shiftRight value carry).carry.toNat =
      value.toNat + 256 * carry.toNat := by
  have hvalue := value.isLt
  have hcarry := carry.toNat_le
  simp only [shiftRight, BitVec.getLsbD, Nat.testBit_zero, BitVec.toNat_ofNat]
  rcases Nat.mod_two_eq_zero_or_one value.toNat with h | h
  · rw [h, decide_eq_false (by decide), Bool.toNat_false]
    omega
  · rw [h, decide_eq_true rfl, Bool.toNat_true]
    omega

theorem Shifted.ext_toNat {s t : Shifted} (hresult : s.result.toNat = t.result.toNat)
    (hcarry : s.carry.toNat = t.carry.toNat) : s = t := by
  obtain ⟨result, carry⟩ := s
  obtain ⟨result', carry'⟩ := t
  rw [Shifted.mk.injEq]
  exact ⟨BitVec.eq_of_toNat_eq hresult, carry_inj hcarry⟩

/-- One way of shifting takes back what another has done. -/
def Undoes (back shift : Byte → Bool → Shifted) : Prop :=
  ∀ value carry, back (shift value carry).result (shift value carry).carry = ⟨value, carry⟩

theorem shiftRight_undoes : Undoes shiftRight shiftLeft := by
  intro value carry
  have hleft := toNat_shiftLeft value carry
  generalize shiftLeft value carry = shifted at hleft ⊢
  have hright := toNat_shiftRight shifted.result shifted.carry
  have hcarry := carry.toNat_le
  have hout := (shiftRight shifted.result shifted.carry).carry.toNat_le
  refine Shifted.ext_toNat ?_ ?_
  · dsimp only
    omega
  · dsimp only
    omega

theorem shiftLeft_undoes : Undoes shiftLeft shiftRight := by
  intro value carry
  have hright := toNat_shiftRight value carry
  generalize shiftRight value carry = shifted at hright ⊢
  have hleft := toNat_shiftLeft shifted.result shifted.carry
  have hvalue := value.isLt
  have hresult := (shiftLeft shifted.result shifted.carry).result.isLt
  refine Shifted.ext_toNat ?_ ?_
  · dsimp only
    omega
  · dsimp only
    omega

/-- Shifts bytes one after another, the bit that falls out of each going into the next. -/
def thread (shift : Byte → Bool → Shifted) : List Byte → Bool → List Byte × Bool
  | [], carry => ([], carry)
  | value :: rest, carry =>
    let shifted := shift value carry
    let later := thread shift rest shifted.carry
    (shifted.result :: later.1, later.2)

variable (shift : Byte → Bool → Shifted) (bytes : List Byte) (carry : Bool)

@[simp] theorem length_thread : (thread shift bytes carry).1.length = bytes.length := by
  induction bytes generalizing carry with
  | nil => rfl
  | cons value rest ih => simp [thread, ih]

theorem thread_append (later : List Byte) :
    thread shift (bytes ++ later) carry =
      ((thread shift bytes carry).1 ++ (thread shift later (thread shift bytes carry).2).1,
        (thread shift later (thread shift bytes carry).2).2) := by
  induction bytes generalizing carry with
  | nil => rfl
  | cons value rest ih => simp only [List.cons_append, thread, ih]

theorem Undoes.thread {back shift : Byte → Bool → Shifted} (h : Undoes back shift)
    (bytes : List Byte) (carry : Bool) :
    Alu.thread back (Alu.thread shift bytes carry).1.reverse (Alu.thread shift bytes carry).2 =
      (bytes.reverse, carry) := by
  induction bytes generalizing carry with
  | nil => rfl
  | cons value rest ih =>
    simp only [Alu.thread, List.reverse_cons, thread_append, ih, h value carry]

theorem number_thread_shiftLeft :
    number (thread shiftLeft bytes carry).1 +
        (thread shiftLeft bytes carry).2.toNat * 256 ^ bytes.length =
      2 * number bytes + carry.toNat := by
  induction bytes generalizing carry with
  | nil => simp [thread]
  | cons value rest ih =>
    have hvalue := toNat_shiftLeft value carry
    have hrest := ih (shiftLeft value carry).carry
    simp only [thread, number_cons, List.length_cons, pow_succ]
    linarith

theorem number_thread_shiftRight :
    2 * number (thread shiftRight bytes carry).1.reverse +
        (thread shiftRight bytes carry).2.toNat =
      number bytes.reverse + carry.toNat * 256 ^ bytes.length := by
  induction bytes generalizing carry with
  | nil => simp [thread]
  | cons value rest ih =>
    -- The byte shifted first is the highest, so it ends up last once the list is reversed.
    have hvalue := congrArg (256 ^ rest.length * ·) (toNat_shiftRight value carry)
    have hrest := ih (shiftRight value carry).carry
    simp only [thread, List.reverse_cons, number_append, number_cons, number_nil,
      List.length_reverse, length_thread, List.length_cons, pow_succ]
    linarith

end Alu

namespace Bus

/-- The addresses of `n` consecutive bytes, wrapping at the top. -/
def cells (address : Word) (n : Nat) : List Word :=
  (List.range n).map fun i => address + BitVec.ofNat 16 i

theorem nodup_cells (address : Word) {n : Nat} (h : n ≤ 0x10000) : (cells address n).Nodup := by
  refine List.Nodup.map_on (fun i hi j hj heq => ?_) List.nodup_range
  rw [List.mem_range] at hi hj
  bv_omega

end Bus

namespace Mnemonic

/-- How a shift works on a byte and the carry. -/
def shift? : Mnemonic → Option (Byte → Bool → Alu.Shifted)
  | asl => some fun value _ => Alu.shiftLeft value false
  | lsr => some fun value _ => Alu.shiftRight value false
  | rol => some Alu.shiftLeft
  | ror => some Alu.shiftRight
  | _ => none

/-- The bit that comes in: the carry for a rotate, none for a plain shift. -/
def carryIn : Mnemonic → Bool → Bool
  | rol, carry | ror, carry => carry
  | _, _ => false

end Mnemonic

namespace Cpu

variable {β : Type u}

theorem setZN_has (c : Cpu β) (value : Byte) (flag : Flag) :
    (c.setZN value).status.has flag =
      if flag = .negative then value.msb else if flag = .zero then value == 0
      else c.status.has flag := by
  simp [setZN]

variable [Bus β]

theorem putShifted_has (c : Cpu β) (mode : Mode) (address : Word) (shifted : Alu.Shifted)
    (flag : Flag) :
    (c.putShifted mode address shifted).status.has flag =
      if flag = .negative then shifted.result.msb else if flag = .zero then shifted.result == 0
      else if flag = .carry then shifted.carry else c.status.has flag := by
  rw [putShifted, putBack, setZN_has]
  by_cases hmode : mode = .accumulator <;> simp [hmode]

theorem executeNext_of_shift {c : Cpu β} {op : Opcode} {shift : Byte → Bool → Alu.Shifted}
    (hop : Opcode.decode (Bus.read c.bus c.pc) = some op)
    (hshift : op.mnemonic.shift? = some shift) :
    c.executeNext = (c.fetch.skipOperand op.mode).putShifted op.mode (c.fetch.address op.mode)
      (shift (c.fetch.operand op.mode) (c.status.has .carry)) := by
  rw [executeNext_of_decode c hop, execute]
  obtain ⟨mnemonic, mode⟩ := op
  cases mnemonic <;> simp only [Mnemonic.shift?, reduceCtorEq, Option.some.injEq] at hshift
  all_goals
    subst hshift
    rfl

/-- Shifts carried out one after another in memory. For each a processor gets ready that has kept
the memory and the carry of the shift before and stands on the instruction, in any addressing mode
that selects the byte. -/
inductive Passes : Cpu β → List (Mnemonic × Word) → Cpu β → Prop where
  | done (c : Cpu β) : Passes c [] c
  | place {c d : Cpu β} {mnemonic : Mnemonic} {address : Word} {rest : List (Mnemonic × Word)}
      (ready : Cpu β) (mode : Mode) (hbus : ready.bus = c.bus)
      (hcarry : ready.status.has .carry = c.status.has .carry)
      (hop : Opcode.decode (Bus.read ready.bus ready.pc) = some ⟨mnemonic, mode⟩)
      (hmode : mode.inMemory = true) (haddress : ready.fetch.address mode = address)
      (hrest : Passes ready.executeNext rest d) : Passes c ((mnemonic, address) :: rest) d

/-- One instruction for the first byte and another for the ones that follow. -/
def pass (first later : Mnemonic) : List Word → List (Mnemonic × Word)
  | [] => []
  | address :: rest => (first, address) :: rest.map fun address => (later, address)

/-- A pass from the lowest byte up. -/
def passUp (first : Mnemonic) (addresses : List Word) : List (Mnemonic × Word) :=
  pass first .rol addresses

/-- A pass from the highest byte down. -/
def passDown (first : Mnemonic) (addresses : List Word) : List (Mnemonic × Word) :=
  pass first .ror addresses.reverse

theorem executeNext_of_shift_inMemory {c : Cpu β} {mnemonic : Mnemonic} {mode : Mode}
    {shift : Byte → Bool → Alu.Shifted}
    (hop : Opcode.decode (Bus.read c.bus c.pc) = some ⟨mnemonic, mode⟩)
    (hshift : mnemonic.shift? = some shift) (hmode : mode.inMemory = true) :
    let shifted := shift (Bus.read c.bus (c.fetch.address mode)) (c.status.has .carry)
    c.executeNext.bus = Bus.write c.bus (c.fetch.address mode) shifted.result ∧
      c.executeNext.status.has .carry = shifted.carry ∧
      c.executeNext.status.has .zero = (shifted.result == 0) ∧
      c.executeNext.status.has .negative = shifted.result.msb := by
  have hne : mode ≠ .accumulator := by
    rintro rfl
    exact absurd hmode (by decide)
  have hoperand : c.fetch.operand mode = Bus.read c.bus (c.fetch.address mode) := by
    rw [operand, if_neg hne]
    rfl
  rw [executeNext_of_shift hop hshift, hoperand]
  simp [putShifted_has, hne]

theorem executeNext_of_shift_accumulator {c : Cpu β} {mnemonic : Mnemonic}
    {shift : Byte → Bool → Alu.Shifted}
    (hop : Opcode.decode (Bus.read c.bus c.pc) = some ⟨mnemonic, .accumulator⟩)
    (hshift : mnemonic.shift? = some shift) :
    let shifted := shift c.a (c.status.has .carry)
    c.executeNext.a = shifted.result ∧ c.executeNext.bus = c.bus ∧
      c.executeNext.status.has .carry = shifted.carry ∧
      c.executeNext.status.has .zero = (shifted.result == 0) ∧
      c.executeNext.status.has .negative = shifted.result.msb := by
  rw [executeNext_of_shift hop hshift]
  simp [putShifted_has, operand]

/-- What a pass leaves: the bytes and the carry of the shifts threaded through one another, and
every other byte as it was. -/
structure Threads (shift : Byte → Bool → Alu.Shifted) (addresses : List Word) (carry : Bool)
    (c d : Cpu β) : Prop where
  bytes : addresses.map (Bus.read d.bus) =
    (Alu.thread shift (addresses.map (Bus.read c.bus)) carry).1
  carry : d.status.has .carry = (Alu.thread shift (addresses.map (Bus.read c.bus)) carry).2
  frame : ∀ x ∉ addresses, Bus.read d.bus x = Bus.read c.bus x
  memory : Bus.IsMemory d.bus

variable {shift : Byte → Bool → Alu.Shifted} {address : Word} {addresses : List Word}
  {carry : Bool} {c d : Cpu β}

theorem Threads.cons {next : Cpu β} (hmemory : Bus.IsMemory c.bus) (hnot : address ∉ addresses)
    (hbus : next.bus = Bus.write c.bus address (shift (Bus.read c.bus address) carry).result)
    (hcarry : next.status.has .carry = (shift (Bus.read c.bus address) carry).carry)
    (h : Threads shift addresses (next.status.has .carry) next d) :
    Threads shift (address :: addresses) carry c d := by
  -- No cell is met twice, so the later shifts find their bytes as they were before this one.
  have hkept : ∀ x ≠ address, Bus.read next.bus x = Bus.read c.bus x := fun x hx => by
    rw [hbus, hmemory.read_write, if_neg hx]
  have hothers : addresses.map (Bus.read next.bus) = addresses.map (Bus.read c.bus) :=
    List.map_congr_left fun x hx => hkept x fun heq => hnot (heq ▸ hx)
  obtain ⟨hbytes, hlast, hframe, hlater⟩ := h
  rw [hothers, hcarry] at hbytes hlast
  refine ⟨?_, ?_, fun x hx => ?_, hlater⟩
  · rw [List.map_cons, List.map_cons, Alu.thread, hbytes, hframe address hnot, hbus,
      hmemory.read_write, if_pos rfl]
  · rw [List.map_cons, Alu.thread, hlast]
  · rw [List.mem_cons, not_or] at hx
    rw [hframe x hx.2, hkept x hx.1]

theorem Threads.restores {back : Byte → Bool → Alu.Shifted} {e : Cpu β}
    (h : Threads shift addresses (c.status.has .carry) c d)
    (hback : Threads back addresses.reverse (d.status.has .carry) d e)
    (hundoes : Alu.Undoes back shift) :
    (∀ x, Bus.read e.bus x = Bus.read c.bus x) ∧ e.status.has .carry = c.status.has .carry := by
  have hbytes := hback.bytes
  have hcarry := hback.carry
  rw [List.map_reverse, List.map_reverse, h.bytes, h.carry, hundoes.thread] at hbytes
  rw [List.map_reverse, h.bytes, h.carry, hundoes.thread] at hcarry
  refine ⟨fun x => ?_, hcarry⟩
  -- The cells are back to what they were, and the rest was left alone both times.
  by_cases hx : x ∈ addresses
  · exact List.map_inj_left.mp (List.reverse_inj.mp hbytes) x hx
  · rw [hback.frame x (by simpa using hx), h.frame x hx]

namespace Passes

variable {first later : Mnemonic}

theorem threads (h : Passes c (addresses.map fun address => (later, address)) d)
    (hlater : later.shift? = some shift) (hmemory : Bus.IsMemory c.bus)
    (hnodup : addresses.Nodup) : Threads shift addresses (c.status.has .carry) c d := by
  induction addresses generalizing c with
  | nil =>
    cases h
    exact ⟨rfl, rfl, fun _ _ => rfl, hmemory⟩
  | cons address rest ih =>
    obtain ⟨hnot, hrest⟩ := List.nodup_cons.mp hnodup
    cases h with
    | place ready mode hbus hcarry hop hmode haddress hpasses =>
      obtain ⟨hwritten, hout, -⟩ := executeNext_of_shift_inMemory hop hlater hmode
      rw [haddress, hbus, hcarry] at hwritten hout
      exact .cons hmemory hnot hwritten hout (ih hpasses (hwritten ▸ hmemory.write _ _) hrest)

theorem threads_of_pass (h : Passes c (pass first later addresses) d) (hne : addresses ≠ [])
    (hfirst : first.shift? = some fun value carry => shift value (first.carryIn carry))
    (hlater : later.shift? = some shift) (hmemory : Bus.IsMemory c.bus)
    (hnodup : addresses.Nodup) :
    Threads shift addresses (first.carryIn (c.status.has .carry)) c d := by
  cases addresses with
  | nil => exact absurd rfl hne
  | cons address rest =>
    obtain ⟨hnot, hrest⟩ := List.nodup_cons.mp hnodup
    cases h with
    | place ready mode hbus hcarry hop hmode haddress hpasses =>
      obtain ⟨hwritten, hout, -⟩ := executeNext_of_shift_inMemory hop hfirst hmode
      rw [haddress, hbus, hcarry] at hwritten hout
      exact .cons hmemory hnot hwritten hout
        (hpasses.threads hlater (hwritten ▸ hmemory.write _ _) hrest)

end Passes

/-- A number in memory and the carry before and after it is doubled. -/
structure ShiftsUp (addresses : List Word) (carry : Bool) (c d : Cpu β) : Prop where
  total : number (addresses.map (Bus.read d.bus)) +
      (d.status.has .carry).toNat * 256 ^ addresses.length =
    2 * number (addresses.map (Bus.read c.bus)) + carry.toNat
  frame : ∀ x ∉ addresses, Bus.read d.bus x = Bus.read c.bus x

/-- A number in memory and the carry before and after it is halved. -/
structure ShiftsDown (addresses : List Word) (carry : Bool) (c d : Cpu β) : Prop where
  total : 2 * number (addresses.map (Bus.read d.bus)) + (d.status.has .carry).toNat =
    number (addresses.map (Bus.read c.bus)) + carry.toNat * 256 ^ addresses.length
  frame : ∀ x ∉ addresses, Bus.read d.bus x = Bus.read c.bus x

theorem Threads.shiftsUp (h : Threads Alu.shiftLeft addresses carry c d) :
    ShiftsUp addresses carry c d := by
  refine ⟨?_, h.frame⟩
  have htotal := Alu.number_thread_shiftLeft (addresses.map (Bus.read c.bus)) carry
  rwa [← h.bytes, ← h.carry, List.length_map] at htotal

theorem Threads.shiftsDown (h : Threads Alu.shiftRight addresses.reverse carry c d) :
    ShiftsDown addresses carry c d := by
  refine ⟨?_, fun x hx => h.frame x (by simpa using hx)⟩
  have htotal := Alu.number_thread_shiftRight (addresses.reverse.map (Bus.read c.bus)) carry
  rwa [← h.bytes, ← h.carry, ← List.map_reverse, ← List.map_reverse, List.reverse_reverse,
    List.length_map, List.length_reverse] at htotal

/-- Passes over the bytes of a number in memory double and halve it, undo each other and leave every
other byte alone, and what they do to a byte and the carry is what the accumulator forms do. -/
theorem passes_shift (hne : addresses ≠ []) (hnodup : addresses.Nodup)
    (hmemory : Bus.IsMemory c.bus) :
    (∀ (first : Mnemonic) (d : Cpu β), first = .asl ∨ first = .rol →
      Passes c (passUp first addresses) d →
      ShiftsUp addresses (first.carryIn (c.status.has .carry)) c d) ∧
    (∀ (first : Mnemonic) (d : Cpu β), first = .lsr ∨ first = .ror →
      Passes c (passDown first addresses) d →
      ShiftsDown addresses (first.carryIn (c.status.has .carry)) c d) ∧
    (∀ d e : Cpu β,
      Passes c (passUp .rol addresses) d ∧ Passes d (passDown .ror addresses) e ∨
        Passes c (passDown .ror addresses) d ∧ Passes d (passUp .rol addresses) e →
      (∀ x, Bus.read e.bus x = Bus.read c.bus x) ∧
        e.status.has .carry = c.status.has .carry) ∧
    ∀ (mnemonic : Mnemonic) (mode : Mode) (d : Cpu β), mnemonic.shift?.isSome →
      Opcode.decode (Bus.read c.bus c.pc) = some ⟨mnemonic, mode⟩ → mode.inMemory = true →
      Opcode.decode (Bus.read d.bus d.pc) = some ⟨mnemonic, .accumulator⟩ →
      d.a = Bus.read c.bus (c.fetch.address mode) →
      d.status.has .carry = c.status.has .carry →
      d.executeNext.a = Bus.read c.executeNext.bus (c.fetch.address mode) ∧
        ∀ flag ∈ [Flag.carry, .zero, .negative],
          d.executeNext.status.has flag = c.executeNext.status.has flag := by
  have hreverse : addresses.reverse ≠ [] := by simpa using hne
  have hnodup' : addresses.reverse.Nodup := List.nodup_reverse.mpr hnodup
  refine ⟨?up, ?down, ?back, ?accumulator⟩
  case up =>
    rintro first d hfirst h
    refine (h.threads_of_pass hne ?_ rfl hmemory hnodup).shiftsUp
    obtain rfl | rfl := hfirst <;> rfl
  case down =>
    rintro first d hfirst h
    refine (h.threads_of_pass hreverse ?_ rfl hmemory hnodup').shiftsDown
    obtain rfl | rfl := hfirst <;> rfl
  case back =>
    rintro d e (⟨h, hback⟩ | ⟨h, hback⟩)
    · have hup := h.threads_of_pass hne rfl rfl hmemory hnodup
      exact hup.restores (hback.threads_of_pass hreverse rfl rfl hup.memory hnodup')
        Alu.shiftRight_undoes
    · have hdown := h.threads_of_pass hreverse rfl rfl hmemory hnodup'
      refine hdown.restores ?_ Alu.shiftLeft_undoes
      rw [List.reverse_reverse]
      exact hback.threads_of_pass hne rfl rfl hdown.memory hnodup
  case accumulator =>
    intro mnemonic mode d hshift hop hmode hacc hoperand hcarry
    obtain ⟨shift, hshift⟩ := Option.isSome_iff_exists.mp hshift
    obtain ⟨hbus, hout, hzero, hnegative⟩ := executeNext_of_shift_inMemory hop hshift hmode
    obtain ⟨ha, -, hout', hzero', hnegative'⟩ := executeNext_of_shift_accumulator hacc hshift
    rw [hoperand, hcarry] at ha hout' hzero' hnegative'
    refine ⟨by rw [ha, hbus, hmemory.read_write, if_pos rfl], ?_⟩
    simp only [List.forall_mem_cons]
    exact ⟨hout'.trans hout.symm, hzero'.trans hzero.symm, hnegative'.trans hnegative.symm, by simp⟩

/-- A program that rotates the word at `$10` up and down again, about to run with the carry set. -/
def wordShift : Cpu FlatMemory :=
  let program := Bus.writeAll FlatMemory.zeroed 0x0200
    [0x26, 0x10, 0x26, 0x11, 0x66, 0x11, 0x66, 0x10]
  { (powerOn (Bus.writeAll program 0x0010 [0x81, 0xC0])).setFlag .carry true with pc := 0x0200 }

/-- Rotating `$C081` up with the carry set leaves `$8103` and a carry. -/
theorem wordShift_restores :
    let up := wordShift.executeNext.executeNext
    let down := up.executeNext.executeNext
    ShiftsUp (Bus.cells 0x0010 2) true wordShift up ∧
      (Bus.cells 0x0010 2).map (Bus.read up.bus) = [0x03, 0x81] ∧
      ∀ x, Bus.read down.bus x = Bus.read wordShift.bus x := by
  intro up down
  have hupward : passUp .rol (Bus.cells 0x0010 2) = [(.rol, 0x0010), (.rol, 0x0011)] := by decide
  have hdownward : passDown .ror (Bus.cells 0x0010 2) = [(.ror, 0x0011), (.ror, 0x0010)] := by
    decide
  have hup : Passes wordShift (passUp .rol (Bus.cells 0x0010 2)) up := by
    rw [hupward]
    refine .place wordShift .zeroPage rfl rfl (by decide +kernel) rfl (by decide +kernel) ?_
    refine .place wordShift.executeNext .zeroPage rfl rfl (by decide +kernel) rfl
      (by decide +kernel) ?_
    exact .done _
  have hdown : Passes up (passDown .ror (Bus.cells 0x0010 2)) down := by
    rw [hdownward]
    refine .place up .zeroPage rfl rfl (by decide +kernel) rfl (by decide +kernel) ?_
    refine .place up.executeNext .zeroPage rfl rfl (by decide +kernel) rfl (by decide +kernel) ?_
    exact .done _
  obtain ⟨hshift, -, hback, -⟩ := passes_shift (c := wordShift)
    (by decide : Bus.cells 0x0010 2 ≠ []) (Bus.nodup_cells 0x0010 (by decide))
    (FlatMemory.isMemory _)
  exact ⟨hshift .rol up (.inr rfl) hup, by decide +kernel, (hback up down (.inl ⟨hup, hdown⟩)).1⟩

end Cpu

end Nmos6502
