/-!
Deferred values. A slot is reserved, filled with what its value is to be computed from, started and finished. It
goes through these states once; a slot that is started while it is being computed depends on itself.
-/

namespace NixTyping

inductive Slot (π α : Type) where
  | reserved
  | deferred (pending : π)
  | forcing
  | forced (value : α)
  deriving DecidableEq

/-- Why a slot cannot be filled, started or finished. -/
inductive SlotError where
  | loop (id : Nat)
  | unknown (id : Nat)
  | notForcing (id : Nat)
  | alreadyFilled (id : Nat)
  deriving DecidableEq

def slotName (id : Nat) : String := s!"Thunk({id})"

def SlotError.message : SlotError → String
  | .loop id => "deferred value " ++ slotName id ++ " depends on itself"
  | .unknown id => "unknown deferred value " ++ slotName id
  | .notForcing id => "deferred value " ++ slotName id ++ " was finished without being started"
  | .alreadyFilled id => "deferred value " ++ slotName id ++ " was filled twice"

/-- What is found in a slot when it is started. -/
inductive Started (π α : Type) where
  | ready (value : α)
  | pending (payload : π)
  deriving DecidableEq

/-- Slots, numbered in the order in which they were reserved. -/
structure Slots (π α : Type) where
  slots : Array (Slot π α) := #[]

namespace Slots

variable {π α : Type}

instance : EmptyCollection (Slots π α) := ⟨{}⟩

def size (s : Slots π α) : Nat := s.slots.size

/-- Add a slot, to be filled later. -/
def reserve (s : Slots π α) : Nat × Slots π α := (s.slots.size, ⟨s.slots.push .reserved⟩)

/-- Put a slot into another state. -/
def put (s : Slots π α) (id : Nat) (slot : Slot π α) : Slots π α := ⟨s.slots.setIfInBounds id slot⟩

def fill (s : Slots π α) (id : Nat) (pending : π) : Except SlotError (Slots π α) :=
  match s.slots[id]? with
  | none => .error (.unknown id)
  | some .reserved => .ok (s.put id (.deferred pending))
  | some _ => .error (.alreadyFilled id)

/-- Ask for the value of a slot. A deferred slot hands out its payload, once, and is being computed from then
until it is finished. -/
def start (s : Slots π α) (id : Nat) : Except SlotError (Started π α × Slots π α) :=
  match s.slots[id]? with
  | none | some .reserved => .error (.unknown id)
  | some (.deferred pending) => .ok (.pending pending, s.put id .forcing)
  | some .forcing => .error (.loop id)
  | some (.forced value) => .ok (.ready value, s)

def finish (s : Slots π α) (id : Nat) (value : α) : Except SlotError (Slots π α) :=
  match s.slots[id]? with
  | none => .error (.unknown id)
  | some .forcing => .ok (s.put id (.forced value))
  | some _ => .error (.notForcing id)

end Slots

end NixTyping
