import Kududown.CallsRows

/-!
# Calls come back

The workers of `Calls` alone, with no more calls from JS. When what serves the requests comes to an end by itself
(`Backend.Ends`), so do the workers: each step lowers `work`, and one can be taken as long as a call is out. The table
of `Rows` does, a batch in as many steps as it has rows (`backend_ends`).
-/

namespace Kududown

/-- A process waits for no other one, and takes at most `left` steps. -/
structure Backend.Ends {σ π ε : Type} (backend : Backend σ π ε) (left : π → Nat) : Prop where
  lower : ∀ {k k' : σ} {p p' : π} {e : ε}, backend.Work k p e k' p' → left p' < left p
  goes : ∀ (k : σ) (p : π), (∃ st value, backend.result p = some (st, value)) ∨ ∃ e k' p', backend.Work k p e k' p'

namespace Calls
variable {σ π ε : Type} {backend : Backend σ π ε} {left : π → Nat} {s t : Calls σ π ε}

/-! ### The steps of the workers -/

/-- A step of a worker, not a call from JS. -/
inductive WorkerStep (backend : Backend σ π ε) (s : Calls σ π ε) : Calls σ π ε → Prop
  | stage {i : Nat} {job : Job π} {stage : Stage π} {e : CallEvent ε} {k : σ} (hi : s.jobs[i]? = some job)
      (hnext : Next backend s.memory s.kudu job stage e k) :
      WorkerStep backend s ({ s with kudu := k }.setStage i job stage e)
  | complete {i : Nat} {job : Job π} {st : Status} {value : Slice} {t : Calls σ π ε} (hi : s.jobs[i]? = some job)
      (hstage : job.stage = .executed st value) (h : s.complete backend.ToString i job st value = some t) :
      WorkerStep backend s t

/-- What a worker still takes, at most, when its request stays as it is. -/
def jobWork (backend : Backend σ π ε) (left : π → Nat) (m : Memory) (job : Job π) : Nat :=
  match job.stage with
  | .queued => left (backend.start (job.worker.asked m)) + 3
  | .running p => left p + 2
  | .executed _ _ => 1

def work (backend : Backend σ π ε) (left : π → Nat) (s : Calls σ π ε) : Nat :=
  (s.jobs.map (jobWork backend left s.memory)).sum

/-- As long as there is a worker, one can take a step. -/
theorem Owned.goes (hs : s.Owned) (hends : backend.Ends left) (hjobs : s.jobs ≠ []) : ∃ t, WorkerStep backend s t := by
  obtain ⟨job, jobs, hcons⟩ := List.exists_cons_of_ne_nil hjobs
  have hi : s.jobs[0]? = some job := by
    rw [hcons]
    rfl
  have hsafe : s.Safe backend := hs.toSafe
  rcases hstage : job.stage with _ | p | ⟨st, value⟩
  · exact ⟨_, .stage hi (.start hstage (hsafe.request job (List.mem_of_getElem? hi)))⟩
  · rcases hends.goes s.kudu p with ⟨st, value, hres⟩ | ⟨e, k, p', hw⟩
    · exact ⟨_, .stage hi (.executed hstage hres)⟩
    · exact ⟨_, .stage hi (.work hstage hw)⟩
  · obtain ⟨t, ht⟩ := hsafe.complete 0 job st value hi hstage
    exact ⟨t, .complete hi hstage ht⟩

end Calls

/-! ### The table -/

/-- The rows that are still to be written or read, and the start and the end of a batch. -/
def Serving.left : Serving → Nat
  | todo (.batch b) => b.ops.length + 2
  | todo _ => 1
  | flushing _ ws => ws.length + 1
  | done _ _ => 0

namespace TableService
variable {svc : TableService} {tablePtr : KuduTable} {tableStatus : Status} {valueName : String}

/-- Every table can be scanned. -/
theorem exists_reads (valueName : String) (table : Table) : ∃ scan, Reads valueName table scan :=
  ⟨ScanService.scanOnce (fun _ => .OK) (tableRows valueName table), ScanService.scans_once _ _, rfl, fun _ => rfl⟩

theorem backend_ends : (svc.backend tablePtr tableStatus valueName).Ends Serving.left where
  lower hw := by
    cases hw with
    | put | del | get | nothing => exact Nat.zero_lt_one
    | flush b hws =>
      have hle := hws.length_le
      rw [List.length_map] at hle
      exact Nat.add_lt_add_of_le_of_lt hle Nat.one_lt_two
    | refused b e => exact Nat.zero_lt_succ _
    | batched ok fault w ws => exact Nat.lt_succ_self _
    | flushed ok e => exact Nat.zero_lt_one
  goes table p := by
    rcases p with req | ⟨ok, ws⟩ | ⟨st, value⟩
    · right
      cases req with
      | put key value => exact ⟨_, _, _, .put key value {}⟩
      | get key =>
        obtain ⟨scan, hscan⟩ := exists_reads valueName table
        have hlen : (scan.scanFor key).flatten.length < 2 ^ 31 := length_scanFor hscan
        exact ⟨_, _, _, work_get hscan (ScanService.getReturns_scanner (fun j _ => hscan.scans.fail j) hlen)⟩
      | del key => exact ⟨_, _, _, .del key {}⟩
      | batch b => exact ⟨_, _, _, .flush b (List.prefix_refl _)⟩
      | nothing => exact ⟨_, _, _, .nothing⟩
    · right
      rcases ws with _ | ⟨w, ws⟩
      · exact ⟨_, _, _, .flushed ok svc.notAllFlushed⟩
      · exact ⟨_, _, _, .batched ok none w ws⟩
    · exact .inl ⟨st, value, rfl⟩

end TableService

end Kududown
