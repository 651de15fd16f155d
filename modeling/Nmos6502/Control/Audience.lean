import Nmos6502.Control.Breakpoint
import Nmos6502.Cpu.Basic

/-!
Subscribers are told of every breakpoint hit and of the end of every run. Each has a mailbox of its
own, oldest event first.

Events are sent to the mailboxes on a list, one after the other. Nobody says goodbye: that a
subscriber has gone shows when an event cannot be delivered, and its mailbox is struck off the list
then. Whoever goes while an event is being sent has had it or not, and might as well have gone
afterwards or before. `Audience.mailboxes_publish` says that all who are still there receive the
event.
-/

namespace Nmos6502

inductive Outcome where
  | halted (why : Halt)
  | timeLimit
  | cancelled
  deriving DecidableEq, Repr

inductive Event where
  | breakpoint (hit : Hit)
  | finished (outcome : Outcome)
  deriving DecidableEq, Repr

/-- The events that a subscriber has not collected yet. -/
structure Mailbox where
  connected : Bool
  events : List Event
  deriving DecidableEq, Repr

namespace Mailbox

def deliver (box : Mailbox) (event : Event) : Mailbox :=
  if box.connected then { box with events := box.events ++ [event] } else box

/-- Whether somebody is there to receive what is sent to the mailbox of that number. -/
def attended (mailboxes : List Mailbox) (number : Nat) : Bool :=
  mailboxes[number]?.any connected

/-- Sends an event to the mailboxes of these numbers in turn. Tells which of them have received it,
and how the mailboxes are then. -/
def send (event : Event) : List Nat → List Mailbox → List Nat × List Mailbox
  | [], mailboxes => ([], mailboxes)
  | number :: numbers, mailboxes =>
    let received := attended mailboxes number
    let (others, mailboxes) :=
      send event numbers (mailboxes.modify number fun box => box.deliver event)
    (if received then number :: others else others, mailboxes)

theorem connected_deliver (box : Mailbox) (event : Event) :
    (box.deliver event).connected = box.connected := by
  unfold deliver
  split <;> rfl

theorem deliver_of_not_connected {box : Mailbox} (h : box.connected = false) (event : Event) :
    box.deliver event = box := by
  rw [deliver, h]
  rfl

theorem attended_lt {mailboxes : List Mailbox} {number : Nat}
    (h : attended mailboxes number = true) : number < mailboxes.length := by
  apply Classical.byContradiction
  intro hge
  rw [attended, List.getElem?_eq_none (Nat.le_of_not_lt hge)] at h
  cases h

theorem attended_modify (mailboxes : List Mailbox) (number other : Nat) (event : Event) :
    attended (mailboxes.modify number fun box => box.deliver event) other =
      attended mailboxes other := by
  rw [attended, attended, List.getElem?_modify]
  cases mailboxes[other]? with
  | none => rfl
  | some box => split <;> simp [connected_deliver]

theorem send_fst (event : Event) (numbers : List Nat) (mailboxes : List Mailbox) :
    (send event numbers mailboxes).1 = numbers.filter (attended mailboxes) := by
  induction numbers generalizing mailboxes with
  | nil => rfl
  | cons number numbers ih =>
    have hsame : attended (mailboxes.modify number fun box => box.deliver event) =
        attended mailboxes := funext fun other => attended_modify mailboxes number other event
    rw [send, List.filter_cons, ← hsame, ← ih]

theorem attended_send (event : Event) (numbers : List Nat) (mailboxes : List Mailbox)
    (other : Nat) :
    attended (send event numbers mailboxes).2 other = attended mailboxes other := by
  induction numbers generalizing mailboxes with
  | nil => rfl
  | cons number numbers ih => exact (ih _).trans (attended_modify ..)

theorem getElem?_send (event : Event) {numbers : List Nat} (hnodup : numbers.Nodup)
    (mailboxes : List Mailbox) (other : Nat) :
    (send event numbers mailboxes).2[other]? =
      if other ∈ numbers then mailboxes[other]?.map fun box => box.deliver event
      else mailboxes[other]? := by
  induction numbers generalizing mailboxes with
  | nil => rfl
  | cons number numbers ih =>
    obtain ⟨hnumber, hnumbers⟩ := List.nodup_cons.mp hnodup
    refine (ih hnumbers _).trans ?_
    rw [List.getElem?_modify]
    rcases Decidable.em (number = other) with rfl | hne
    · simp [hnumber]
    · have hne' : ¬ other = number := fun h => hne h.symm
      simp [hne, hne']

end Mailbox

/-- Those who have subscribed, and to whom of them events are sent. -/
structure Audience where
  mailboxes : List Mailbox
  /-- The numbers of the mailboxes on the list, in the order of sending. -/
  listed : List Nat
  listed_nodup : listed.Nodup
  listed_lt : ∀ number ∈ listed, number < mailboxes.length
  /-- Whoever is still there is on the list. -/
  mem_listed : ∀ number, Mailbox.attended mailboxes number = true → number ∈ listed
  deriving DecidableEq, Repr

namespace Audience

def empty : Audience where
  mailboxes := []
  listed := []
  listed_nodup := .nil
  listed_lt := by simp
  mem_listed number h := absurd (Mailbox.attended_lt h) (Nat.not_lt_zero number)

/-- Sends an event to all on the list, and strikes those off who do not receive it. -/
def publish (a : Audience) (event : Event) : Audience where
  mailboxes := (Mailbox.send event a.listed a.mailboxes).2
  listed := (Mailbox.send event a.listed a.mailboxes).1
  listed_nodup := by
    rw [Mailbox.send_fst]
    exact a.listed_nodup.filter _
  listed_lt number h := by
    rw [Mailbox.send_fst, List.mem_filter] at h
    have hattended := Mailbox.attended_send event a.listed a.mailboxes number
    rw [h.2] at hattended
    exact Mailbox.attended_lt hattended
  mem_listed number h := by
    rw [Mailbox.attended_send] at h
    rw [Mailbox.send_fst, List.mem_filter]
    exact ⟨a.mem_listed number h, h⟩

def subscribe (a : Audience) : Audience × Nat :=
  ({ mailboxes := a.mailboxes ++ [⟨true, []⟩]
     listed := a.listed ++ [a.mailboxes.length]
     listed_nodup := by
       refine List.nodup_append.mpr ⟨a.listed_nodup, by simp, ?_⟩
       intro number hnumber other hother
       rw [List.mem_singleton.mp hother]
       exact Nat.ne_of_lt (a.listed_lt number hnumber)
     listed_lt := by
       intro number hnumber
       rw [List.length_append]
       rcases List.mem_append.mp hnumber with hold | hnew
       · exact Nat.lt_succ_of_lt (a.listed_lt number hold)
       · rw [List.mem_singleton.mp hnew]
         exact Nat.lt_succ_self _
     mem_listed := by
       intro number hattended
       have hlt := Mailbox.attended_lt hattended
       rw [List.length_append] at hlt
       rcases Nat.lt_succ_iff_lt_or_eq.mp hlt with hold | rfl
       · rw [Mailbox.attended, List.getElem?_append_left hold] at hattended
         exact List.mem_append_left _ (a.mem_listed number hattended)
       · exact List.mem_append_right _ (List.mem_singleton_self _) },
    a.mailboxes.length)

/-- Puts something else in the place of a mailbox that is there, unless it opens one again. -/
def replace (a : Audience) (number : Nat) (box : Mailbox)
    (h : box.connected = true → Mailbox.attended a.mailboxes number = true) : Audience where
  mailboxes := a.mailboxes.set number box
  listed := a.listed
  listed_nodup := a.listed_nodup
  listed_lt other hother := by
    rw [List.length_set]
    exact a.listed_lt other hother
  mem_listed other hattended := by
    rw [Mailbox.attended, List.getElem?_set] at hattended
    apply a.mem_listed
    split at hattended
    case isTrue heq =>
      subst heq
      split at hattended
      · exact h hattended
      · cases hattended
    case isFalse => exact hattended

/-- Closes a mailbox; what it holds is lost. -/
def unsubscribe (a : Audience) (number : Nat) : Audience :=
  a.replace number ⟨false, []⟩ (by simp)

/-- Empties a mailbox and tells what it held, unless it is closed. -/
def collect (a : Audience) (number : Nat) : Audience × Option (List Event) :=
  match h : a.mailboxes[number]? with
  | some ⟨true, events⟩ =>
    (a.replace number ⟨true, []⟩ fun _ => by rw [Mailbox.attended, h]; rfl, some events)
  | _ => (a, none)

/-- After an event has been sent, those on the list are those who have received it. -/
theorem listed_publish (a : Audience) (event : Event) :
    (a.publish event).listed = a.listed.filter (Mailbox.attended a.mailboxes) :=
  Mailbox.send_fst ..

theorem mailboxes_publish (a : Audience) (event : Event) :
    (a.publish event).mailboxes = a.mailboxes.map fun box => box.deliver event := by
  apply List.ext_getElem?
  intro number
  refine (Mailbox.getElem?_send event a.listed_nodup a.mailboxes number).trans ?_
  rw [List.getElem?_map]
  split
  case isTrue => rfl
  case isFalse hlisted =>
    -- A number that is not on the list has nobody who could miss the event.
    cases hbox : a.mailboxes[number]? with
    | none => rfl
    | some box =>
      have hgone : box.connected = false := by
        apply Bool.eq_false_iff.mpr
        intro hconnected
        exact hlisted (a.mem_listed number (by rw [Mailbox.attended, hbox]; exact hconnected))
      rw [Option.map_some, Mailbox.deliver_of_not_connected hgone]

end Audience

end Nmos6502
