import Tboot.Fastboot.Impl.Usb

/-!
This module contains `_fastboot_ack` for every code and reason, one turn of its loop after the other, with
the results of `write` given.
-/

namespace Fastboot

/-- A call in `STATE_COMMAND`; `below` is the memory before `reason`, from its last byte down. -/
structure Ack where
  code : Bytes
  reason : Bytes
  below : Nat → UInt8
  write : Nat → Option Nat
  code_cstr : 0 ∉ code
  reason_cstr : 0 ∉ reason

namespace Ack

structure State where
  pos : Int
  /-- `usb_write` has set `STATE_ERROR`, and does not write any more. -/
  failed : Bool
  /-- what has been given to `write`, with its results -/
  sent : List (Bytes × Option Nat)
  deriving DecidableEq, Repr

def start : State where
  pos := 0
  failed := false
  sent := []

def packet (a : Ack) (s : State) : Bytes :=
  (a.code ++ textAt a.below a.reason s.pos).take 63

def usbWrite (a : Ack) (s : State) : Option Nat :=
  if s.failed then none else (a.write s.sent.length).map (min (a.packet s).length)

def turn (a : Ack) (s : State) : State :=
  let count := a.usbWrite s
  {
    pos := s.pos + toResult count - a.code.length
    failed := count.isNone
    sent := if s.failed then s.sent else s.sent ++ [(a.packet s, count)]
  }

def after (a : Ack) : Nat → State
  | 0 => start
  | k + 1 => a.turn (a.after k)

/-- `*reason != '\0'` -/
def More (a : Ack) (s : State) : Prop :=
  textAt a.below a.reason s.pos ≠ []

instance (a : Ack) (s : State) : Decidable (a.More s) :=
  inferInstanceAs (Decidable (_ ≠ _))

def Turns (a : Ack) (k : Nat) : Prop :=
  ∀ j, 0 < j → j < k → a.More (a.after j)

def EndsAfter (a : Ack) (k : Nat) : Prop :=
  0 < k ∧ a.Turns k ∧ ¬a.More (a.after k)

end Ack

end Fastboot
