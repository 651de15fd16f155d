import Nmos6502.Bus.Flat
import Nmos6502.Proofs.Bus.Recorded

namespace Nmos6502

universe u

theorem Word.add_one_add_ofNat (a : Word) (i : Nat) :
    a + 1 + BitVec.ofNat 16 i = a + BitVec.ofNat 16 (i + 1) := by
  rw [BitVec.ofNat_add, BitVec.add_assoc, BitVec.add_comm 1]
  rfl

variable {β : Type u} [Bus β]

namespace Bus

/-- The writes that put bytes at consecutive addresses. -/
def block (address : Word) : List Byte → List (Word × Byte)
  | [] => []
  | value :: rest => (address, value) :: block (address + 1) rest

theorem mem_block_iff {a x : Word} {value : Byte} {bytes : List Byte} :
    (x, value) ∈ block a bytes ↔ ∃ i, bytes[i]? = some value ∧ x = a + BitVec.ofNat 16 i := by
  induction bytes generalizing a with
  | nil => simp [block]
  | cons first rest ih =>
    rw [block, List.mem_cons, Prod.mk.injEq, ih]
    constructor
    · rintro (⟨rfl, rfl⟩ | ⟨i, hi, rfl⟩)
      · exact ⟨0, rfl, (BitVec.add_zero x).symm⟩
      · exact ⟨i + 1, hi, Word.add_one_add_ofNat a i⟩
    · rintro ⟨i, hi, rfl⟩
      cases i with
      | zero => exact .inl ⟨BitVec.add_zero a, (Option.some.inj hi).symm⟩
      | succ i => exact .inr ⟨i, hi, (Word.add_one_add_ofNat a i).symm⟩

theorem exists_mem_block_iff {a x : Word} {bytes : List Byte} :
    (∃ value, (x, value) ∈ block a bytes) ↔ ∃ i < bytes.length, x = a + BitVec.ofNat 16 i := by
  simp only [mem_block_iff]
  constructor
  · rintro ⟨value, i, hi, rfl⟩
    obtain ⟨hlt, -⟩ := List.getElem?_eq_some_iff.mp hi
    exact ⟨i, hlt, rfl⟩
  · rintro ⟨i, hi, rfl⟩
    exact ⟨bytes[i], i, List.getElem?_eq_getElem hi, rfl⟩

theorem block_append (a : Word) (bytes later : List Byte) :
    block a (bytes ++ later) =
      block a bytes ++ block (a + BitVec.ofNat 16 bytes.length) later := by
  induction bytes generalizing a with
  | nil => simp [block]
  | cons value bytes ih =>
    rw [List.cons_append, block, ih, Word.add_one_add_ofNat]
    rfl

theorem replay_append (bus : β) (writes later : List (Word × Byte)) :
    replay bus (writes ++ later) = replay (replay bus writes) later :=
  List.foldl_append

@[simp] theorem length_readAll (bus : β) (a : Word) (count : Nat) :
    (readAll bus a count).length = count := by
  simp [readAll]

theorem getElem?_readAll {bus : β} {a : Word} {count i : Nat} (h : i < count) :
    (readAll bus a count)[i]? = some (read bus (a + BitVec.ofNat 16 i)) := by
  simp [readAll, h]

theorem readAll_add (bus : β) (a : Word) (m n : Nat) :
    readAll bus a (m + n) = readAll bus a m ++ readAll bus (a + BitVec.ofNat 16 m) n := by
  simp only [readAll, List.range_add, List.map_append, List.map_map, List.append_cancel_left_eq]
  refine List.map_congr_left fun i _ => ?_
  simp [BitVec.ofNat_add, BitVec.add_assoc]

theorem read_of_mem_block_readAll {bus : β} {a x : Word} {value : Byte} {count : Nat}
    (h : (x, value) ∈ block a (readAll bus a count)) : read bus x = value := by
  obtain ⟨i, hi, rfl⟩ := mem_block_iff.mp h
  obtain ⟨hlt, -⟩ := List.getElem?_eq_some_iff.mp hi
  rw [length_readAll] at hlt
  rw [getElem?_readAll hlt] at hi
  exact Option.some.inj hi

/-- Whatever has been written, a write changes the byte at its address and no other. -/
def IsMemory (bus : β) : Prop :=
  ∀ (writes : List (Word × Byte)) (a b : Word) (value : Byte),
    read (write (replay bus writes) a value) b =
      if b = a then value else read (replay bus writes) b

namespace IsMemory

variable {bus : β}

theorem write (h : IsMemory bus) (a : Word) (value : Byte) : IsMemory (Bus.write bus a value) :=
  fun writes => h ((a, value) :: writes)

theorem replayed (h : IsMemory bus) (writes : List (Word × Byte)) :
    IsMemory (replay bus writes) := by
  intro later a b value
  rw [← replay_append]
  exact h (writes ++ later) a b value

theorem read_write (h : IsMemory bus) (a b : Word) (value : Byte) :
    read (Bus.write bus a value) b = if b = a then value else read bus b :=
  h [] a b value

theorem read_replay (h : IsMemory bus) {writes : List (Word × Byte)} {x : Word} {u : Byte}
    (hsame : ∀ v, (x, v) ∈ writes → v = u) :
    read (replay bus writes) x = if (x, u) ∈ writes then u else read bus x := by
  induction writes generalizing bus with
  | nil => simp
  | cons entry writes ih =>
    rw [replay_cons, ih (h.write _ _) fun v hv => hsame v (List.mem_cons_of_mem _ hv), h.read_write]
    by_cases hx : x = entry.1
    · have hu : entry = (x, u) := Prod.ext hx.symm (hsame entry.2 (by simp [hx]))
      simp [hu]
    · have hne : (x, u) ≠ entry := by
        rintro rfl
        exact hx rfl
      simp [hx, hne]

theorem read_replay_of_mem (h : IsMemory bus) {writes : List (Word × Byte)} {x : Word} {u : Byte}
    (hsame : ∀ v, (x, v) ∈ writes → v = u) (hu : (x, u) ∈ writes) :
    read (replay bus writes) x = u := by
  rw [h.read_replay hsame, if_pos hu]

theorem read_replay_of_forall_ne (h : IsMemory bus) {writes : List (Word × Byte)} {x : Word}
    (hx : ∀ entry ∈ writes, entry.1 ≠ x) : read (replay bus writes) x = read bus x := by
  have hnone : ∀ v, (x, v) ∉ writes := fun v hv => hx _ hv rfl
  rw [h.read_replay (u := 0) fun v hv => absurd hv (hnone v), if_neg (hnone 0)]

theorem read_replay_congr {other : β} (h : IsMemory bus) (h' : IsMemory other) {x : Word}
    (hread : read bus x = read other x) (writes : List (Word × Byte)) :
    read (replay bus writes) x = read (replay other writes) x := by
  induction writes generalizing bus other with
  | nil => exact hread
  | cons entry writes ih =>
    refine ih (h.write _ _) (h'.write _ _) ?_
    rw [h.read_write, h'.read_write, hread]

theorem read_replay_rotate (h : IsMemory bus) {entry : Word × Byte} {later : List (Word × Byte)}
    (hlater : ∀ other ∈ later, other.1 ≠ entry.1) (x : Word) :
    read (replay bus (entry :: later)) x = read (replay bus (later ++ [entry])) x := by
  rw [replay_append, replay_cons, replay_cons, replay_nil, h later]
  split
  case isTrue hx =>
    rw [hx, (h.write _ _).read_replay_of_forall_ne hlater, h.read_write, if_pos rfl]
  case isFalse hx =>
    refine (h.write _ _).read_replay_congr h ?_ later
    rw [h.read_write, if_neg hx]

theorem readAll_replay_block (h : IsMemory bus) (a : Word) {bytes : List Byte}
    (hlength : bytes.length ≤ 0x10000) :
    readAll (replay bus (block a bytes)) a bytes.length = bytes := by
  refine List.ext_getElem? fun i => ?_
  rcases Nat.lt_or_ge i bytes.length with hi | hi
  · have hvalue : bytes[i]? = some bytes[i] := List.getElem?_eq_getElem hi
    rw [getElem?_readAll hi, hvalue]
    refine congrArg some (h.read_replay_of_mem ?_ (mem_block_iff.mpr ⟨i, hvalue, rfl⟩))
    intro v hv
    obtain ⟨j, hj, heq⟩ := mem_block_iff.mp hv
    obtain ⟨hjlt, -⟩ := List.getElem?_eq_some_iff.mp hj
    have hij : i = j := by bv_omega
    rw [← hij, hvalue] at hj
    exact (Option.some.inj hj).symm
  · rw [List.getElem?_eq_none (by simpa using hi), List.getElem?_eq_none hi]

end IsMemory

end Bus

namespace FlatMemory

theorem isMemory (memory : FlatMemory) : Bus.IsMemory memory :=
  fun _ _ _ _ => read_write ..

theorem replay_eq_self {memory : FlatMemory} {writes : List (Word × Byte)}
    (h : ∀ entry ∈ writes, Bus.read memory entry.1 = entry.2) :
    Bus.replay memory writes = memory := by
  induction writes with
  | nil => rfl
  | cons entry writes ih =>
    rw [List.forall_mem_cons] at h
    have hentry : Bus.write memory entry.1 entry.2 = memory := by
      refine FlatMemory.ext fun x => ?_
      rw [read_write]
      split
      · rename_i hx
        rw [hx, h.1]
      · rfl
    rw [Bus.replay_cons, hentry, ih h.2]

end FlatMemory

end Nmos6502
