import Nmos6502.Bus.Basic

namespace Nmos6502

universe u v

variable {β : Type u} {γ : Type v}

/-- A map between buses that no processor can notice. -/
structure Bus.Faithful [Bus β] [Bus γ] (f : β → γ) : Prop where
  read : ∀ bus address, Bus.read (f bus) address = Bus.read bus address
  write : ∀ bus address value, Bus.write (f bus) address value = f (Bus.write bus address value)
  signal : ∀ bus address value, Bus.signal (f bus) address value = Bus.signal bus address value

theorem Bus.Faithful.id [Bus β] : Bus.Faithful (fun bus : β => bus) :=
  ⟨fun _ _ => rfl, fun _ _ _ => rfl, fun _ _ _ => rfl⟩

/-- A bus together with the writes that it took, oldest first. -/
structure Recorded (β : Type u) where
  bus : β
  writes : List (Word × Byte)

instance [Bus β] : Bus (Recorded β) where
  read r address := Bus.read r.bus address
  write r address value := ⟨Bus.write r.bus address value, r.writes ++ [(address, value)]⟩
  signal r address value := Bus.signal r.bus address value

namespace Bus

variable [Bus β]

/-- The bus after several writes in order. -/
def replay (bus : β) (writes : List (Word × Byte)) : β :=
  writes.foldl (fun bus entry => write bus entry.1 entry.2) bus

@[simp] theorem replay_nil (bus : β) : replay bus [] = bus := rfl

@[simp] theorem replay_cons (bus : β) (entry : Word × Byte) (writes : List (Word × Byte)) :
    replay bus (entry :: writes) = replay (write bus entry.1 entry.2) writes := rfl

end Bus

namespace Recorded

variable [Bus β]

theorem faithful : Bus.Faithful (Recorded.bus : Recorded β → β) :=
  ⟨fun _ _ => rfl, fun _ _ _ => rfl, fun _ _ _ => rfl⟩

theorem bus_replay (r : Recorded β) (writes : List (Word × Byte)) :
    (Bus.replay r writes).bus = Bus.replay r.bus writes := by
  induction writes generalizing r with
  | nil => rfl
  | cons entry writes ih => exact ih (Bus.write r entry.1 entry.2)

theorem writes_replay (r : Recorded β) (writes : List (Word × Byte)) :
    (Bus.replay r writes).writes = r.writes ++ writes := by
  induction writes generalizing r with
  | nil => simp
  | cons entry writes ih =>
    rw [Bus.replay_cons, ih]
    exact List.append_assoc r.writes [entry] writes

end Recorded

end Nmos6502
