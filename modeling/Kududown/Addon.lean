import Kududown.Apart
import Kududown.CallsRows

/-!
# The addon

The calls of `Calls` and the event loop of the iterators on one table: a step of either is taken at any time, and any
call of Kudu may fail.
-/

namespace Kududown
open Calls

structure Addon where
  calls : Calls Table Serving Row
  loop : Loop

/-- A step of the calls, or one of the event loop. -/
inductive AddonStep (svc : TableService) (tablePtr : KuduTable) (tableStatus : Status) (valueName : String) (s : Addon) :
    Option Action → Addon → Prop
  | calls {t : Calls Table Serving Row} (h : LockedStep (svc.backend tablePtr tableStatus valueName) s.calls t) :
      AddonStep svc tablePtr tableStatus valueName s none { s with calls := t }
  | loop {a : Action} {t : Loop} (h : s.loop.step a = some t) :
      AddonStep svc tablePtr tableStatus valueName s (some a) { s with loop := t }

def Addon.start (buffers : Nat → Slice) : Addon := ⟨{ memory := { buffers }, kudu := .empty }, .init⟩

end Kududown
