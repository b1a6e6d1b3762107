import Mathlib.Data.List.Basic

/-!
# Channels that keep the last value

A send replaces the value, and fails when there is no receiver. A stream over a
receiver yields the value it finds first, and after that the value whenever it has
changed since; values in between are passed over.
-/

namespace WiringRs

structure Watch (T : Type) where
  value : T
  version : Nat := 0
  receivers : Nat

namespace Watch

variable {T : Type}

def send (w : Watch T) (v : T) : Option (Watch T) :=
  if w.receivers = 0 then none else some { w with value := v, version := w.version + 1 }

theorem send_eq_some {w w' : Watch T} {v : T} (h : w.send v = some w') :
    w' = { w with value := v, version := w.version + 1 } := by
  simp only [send, Option.ite_none_left_eq_some, Option.some.injEq] at h
  exact h.2.symm

end Watch

/-- `WatchStream::new`: the version it has seen, if it has yielded a value. -/
structure WatchStream where
  seen : Option Nat := none

/-- The next value; `none` while there is no new one. -/
def WatchStream.next {T : Type} (s : WatchStream) (w : Watch T) : Option (T × WatchStream) :=
  if s.seen = some w.version then none else some (w.value, ⟨some w.version⟩)

end WiringRs
