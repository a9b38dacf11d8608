import Kududown.IteratorRun
import Kududown.Registry

/-!
# Iterators side by side

`Next`, `End` and `Close` write only `nexting`, `ended` and `endWorker` of an iterator, which `IteratorNext` never
reads, and no step for one iterator touches what another one reads. So what an iterator reports does not depend on what
else is going on: it is what `IteratorNext` gives when it is called again and again with the scans of its own workers
(`isolated`).
-/

namespace Kududown

/-- What an `Open` of a worker is answered with, and the table it is made for. -/
abbrev Scan := (ScanSpec → OpenReply) × Option KuduTable

/-- The iterator without what `Next`, `End` and `Close` write. -/
def Iterator.reader (it : Iterator) : Iterator := { it with nexting := false, ended := false, endWorker := none }

def NextResult.reader (r : NextResult) : NextResult := { r with iterator := r.iterator.reader }

namespace Iterator
variable {it it' : Iterator} {openScan : ScanSpec → OpenReply} {opens : Nat → ScanSpec → OpenReply}
  {tablePtr : Option KuduTable} {scanner : KuduScanner} {replies : List BatchReply} {size : Nat}
  {result : List (Slice × Slice)} {rows : List RowPtr} {scans : List Scan}

/-! ### `IteratorNext` reads nothing else -/

theorem eq_of_reader (h : it'.reader = it.reader) :
    ∃ nexting ended endWorker, it' = { it with nexting, ended, endWorker } := by
  refine ⟨it'.nexting, it'.ended, it'.endWorker, ?_⟩
  cases it
  cases it'
  simp only [reader, Iterator.mk.injEq] at h ⊢
  simp only [h, and_self]

theorem reader_createScanner (h : it'.reader = it.reader) :
    (it'.createScanner openScan tablePtr).2.reader = (it.createScanner openScan tablePtr).2.reader := by
  obtain ⟨nexting, ended, endWorker, rfl⟩ := eq_of_reader h
  rcases it with ⟨_, _, _, _, _, _, _, _, _, _, highWaterMark, _, _, _, _, _, _, _, scanner, _, _⟩
  unfold createScanner
  dsimp only
  cases scanner with
  | some scanner => rfl
  | none =>
    dsimp only
    cases openScan ((KuduScanner.new tablePtr).SetBatchSizeBytes highWaterMark).spec with
    | error e => rfl
    | ok reply => rfl

theorem reader_nextBatches (h : it'.reader = it.reader) :
    (it'.nextBatches scanner replies).1 = (it.nextBatches scanner replies).1 ∧
      (it'.nextBatches scanner replies).2.reader = (it.nextBatches scanner replies).2.reader := by
  induction replies generalizing it it' with
  | nil =>
    obtain ⟨nexting, ended, endWorker, rfl⟩ := eq_of_reader h
    exact ⟨rfl, rfl⟩
  | cons reply replies ih =>
    obtain ⟨nexting, ended, endWorker, rfl⟩ := eq_of_reader h
    rcases reply with e | rows
    · exact ⟨rfl, rfl⟩
    · unfold nextBatches
      dsimp only
      split_ifs
      · exact ih rfl
      · exact ⟨rfl, rfl⟩

theorem reader_readRows (h : it'.reader = it.reader) :
    (it'.readRows size result rows).reader = (it.readRows size result rows).reader := by
  induction rows generalizing it it' size result with
  | nil =>
    obtain ⟨nexting, ended, endWorker, rfl⟩ := eq_of_reader h
    rfl
  | cons row rows ih =>
    obtain ⟨nexting, ended, endWorker, rfl⟩ := eq_of_reader h
    unfold readRows
    dsimp only
    split_ifs
    · rcases getSliceAsString row (it.schema.type 0) 0 [] with ⟨_ | e, key⟩
      · rcases getSliceAsString row (it.schema.type 1) 1 [] with ⟨_ | e, value⟩
        · exact ih rfl
        · rfl
      · rfl
    · rfl

theorem reader_processBatch {b : Bool} (h : it'.reader = it.reader) :
    (processBatch (b, it')).reader = (processBatch (b, it)).reader := by
  obtain ⟨nexting, ended, endWorker, rfl⟩ := eq_of_reader h
  rcases b with _ | _
  · rfl
  · unfold processBatch
    dsimp only
    split_ifs
    · rfl
    · exact reader_readRows rfl

theorem reader_nextFrom (h : it'.reader = it.reader) : (it'.nextFrom scanner).reader = (it.nextFrom scanner).reader := by
  obtain ⟨nexting, ended, endWorker, rfl⟩ := eq_of_reader h
  unfold nextFrom
  dsimp only
  split_ifs
  · rfl
  · rfl
  · obtain ⟨hok, hnext⟩ := @reader_nextBatches { it with batchRowCount := 0, currentRowCount := 0 }
      { it with batchRowCount := 0, currentRowCount := 0, nexting, ended, endWorker } scanner scanner.replies rfl
    generalize nextBatches { it with batchRowCount := 0, currentRowCount := 0, nexting, ended, endWorker } scanner
      scanner.replies = p' at hok hnext ⊢
    generalize nextBatches { it with batchRowCount := 0, currentRowCount := 0 } scanner scanner.replies = p at hok hnext ⊢
    obtain ⟨b', it'⟩ := p'
    obtain ⟨b, it⟩ := p
    obtain rfl : b' = b := hok
    exact reader_processBatch hnext
  · exact reader_readRows rfl

theorem reader_iteratorNext (h : it'.reader = it.reader) :
    (it'.iteratorNext openScan tablePtr).reader = (it.iteratorNext openScan tablePtr).reader := by
  have hopened := @reader_createScanner it it' openScan tablePtr h
  unfold iteratorNext
  dsimp only
  generalize (it'.createScanner openScan tablePtr).2 = opened' at hopened ⊢
  generalize (it.createScanner openScan tablePtr).2 = opened at hopened ⊢
  have hscanner : opened'.scanner = opened.scanner := by
    obtain ⟨nexting, ended, endWorker, rfl⟩ := eq_of_reader hopened
    rfl
  rw [hscanner]
  cases opened.scanner with
  | none => exact congrArg (fun x : Iterator => (⟨.openFailed, x, []⟩ : NextResult)) hopened
  | some scanner => exact reader_nextFrom hopened

theorem reader_status (h : it'.reader = it.reader) : it'.iteratorStatus = it.iteratorStatus := by
  obtain ⟨nexting, ended, endWorker, rfl⟩ := eq_of_reader h
  rfl

/-! ### Replay -/

/-- What `IteratorNext` reports when it is called with these scans one after the other. -/
def replay (it : Iterator) : List Scan → List Report
  | [] => []
  | (openScan, tablePtr) :: scans =>
    (it.iteratorNext openScan tablePtr).report :: (it.iteratorNext openScan tablePtr).iterator.replay scans

theorem report_reader {r r' : NextResult} (h : r'.reader = r.reader) :
    r'.report = r.report ∧ r'.iterator.reader = r.iterator.reader := by
  obtain ⟨exit, it, result⟩ := r
  obtain ⟨exit', it', result'⟩ := r'
  obtain ⟨rfl, hreader, rfl⟩ := NextResult.mk.inj h
  refine ⟨?_, hreader⟩
  unfold NextResult.report NextResult.ret NextResult.status
  dsimp only
  rw [reader_status hreader]

theorem replay_congr (h : it'.reader = it.reader) : it'.replay scans = it.replay scans := by
  induction scans generalizing it it' with
  | nil => rfl
  | cons scan scans ih =>
    obtain ⟨openScan, tablePtr⟩ := scan
    obtain ⟨hreport, hreader⟩ := report_reader (@reader_iteratorNext it it' openScan tablePtr h)
    unfold replay
    rw [hreport, ih hreader]

/-- With one table and the answers `opens` these are the calls of `IteratorNext`. -/
theorem replay_call (m n : Nat) : (it.after opens tablePtr m).replay ((List.range' m n).map fun k => (opens k, tablePtr)) =
    (List.range' m n).map fun k => (it.call opens tablePtr k).report := by
  induction n generalizing m with
  | zero => rfl
  | succ n ih =>
    rw [List.range'_succ, List.map_cons, List.map_cons, ← ih (m + 1)]
    rfl

end Iterator

/-! ### Reports -/

/-- The report that a callback of iterator `r` is run with. -/
def Event.reportOf (r : Nat) : Event → Option Report
  | nextCallback r' _ report => if r' = r then some report else none
  | _ => none

/-- The report of an executed NextWorker of iterator `r`. -/
def Task.reportOf (r : Nat) (t : Task) : Option Report := if t.worker.isNext r then t.report else none

namespace Loop
variable {s t u : Loop} {a : Action} {as bs : List Action} {r r' i call : Nat} {it it' : Iterator} {e : Event}
  {w : Worker} {callback : EndCallback} {report : Report}

/-- What iterator `r` has reported so far: to callbacks, and then by a worker that has yet to complete. -/
def reports (s : Loop) (r : Nat) : List Report :=
  s.log.filterMap (Event.reportOf r) ++ s.pool.filterMap (Task.reportOf r)

/-- The scan that a step of a worker makes for iterator `r`. -/
def scanOf (s : Loop) (r : Nat) : Action → Option Scan
  | .execute i openScan tablePtr =>
    match s.pool[i]? with
    | some ⟨.NextWorker r' _, none⟩ => if r' = r then some (openScan, tablePtr) else none
    | _ => none
  | _ => none

/-- The scans of iterator `r` in a run. -/
def scans (r : Nat) (s : Loop) : List Action → List Scan
  | [] => []
  | a :: as => (s.scanOf r a).toList ++ ((s.step a).map fun t => t.scans r as).getD []

/-- From `s` to `t` nothing has been done that iterator `r` can tell. -/
structure Undisturbed (r : Nat) (s t : Loop) : Prop where
  reader : ∀ it, s.objs[r]? = some it → ∃ it', t.objs[r]? = some it' ∧ it'.reader = it.reader
  reports : t.reports r = s.reports r

namespace Undisturbed

theorem of_eq (hobjs : t.objs = s.objs) (hreports : t.reports r = s.reports r) : Undisturbed r s t :=
  ⟨fun it ho => ⟨it, hobjs ▸ ho, rfl⟩, hreports⟩

theorem refl (r : Nat) (s : Loop) : Undisturbed r s s := of_eq rfl rfl

theorem trans (h : Undisturbed r s t) (h' : Undisturbed r t u) : Undisturbed r s u := by
  refine ⟨fun it ho => ?_, h'.reports.trans h.reports⟩
  obtain ⟨it', ho', hreader⟩ := h.reader it ho
  obtain ⟨it'', ho'', hreader'⟩ := h'.reader it' ho'
  exact ⟨it'', ho'', hreader'.trans hreader⟩

theorem pending (p : Option Nat) : Undisturbed r s { s with pendingCloseWorker := p } := of_eq rfl rfl

theorem emit (he : e.reportOf r = none) : Undisturbed r s (s.emit e) := by
  refine of_eq rfl ?_
  unfold Loop.reports Loop.emit
  rw [List.filterMap_append, List.filterMap_cons_none he, List.filterMap_nil, List.append_nil]

theorem queue (w : Worker) : Undisturbed r s (s.queue w) := by
  have hnone : Task.reportOf r ⟨w, none⟩ = none := ite_self _
  refine of_eq rfl ?_
  unfold Loop.reports Loop.queue
  rw [List.filterMap_append, List.filterMap_cons_none hnone, List.filterMap_nil, List.append_nil]

theorem setObj (ho : s.objs[r']? = some it) (hreader : it'.reader = it.reader) : Undisturbed r s (s.setObj r' it') := by
  refine ⟨fun x hx => ?_, rfl⟩
  rcases to_setObj it' ho hx with ⟨rfl, hx'⟩ | hx'
  · exact ⟨it', hx', hreader⟩
  · exact ⟨x, hx', rfl⟩

theorem setObj_ne (hne : r' ≠ r) : Undisturbed r s (s.setObj r' it') :=
  ⟨fun it ho => ⟨it, (List.getElem?_set_ne hne).trans ho, rfl⟩, rfl⟩

theorem endIterator (ho : s.objs[r']? = some it) : Undisturbed r s (s.endIterator r' it callback) := by
  unfold Loop.endIterator
  split_ifs
  · exact refl r s
  · exact setObj ho rfl
  · have hobj : Undisturbed r s (s.setObj r' { it with ended := true }) := setObj ho rfl
    exact hobj.trans (queue _)

theorem closeIterator (entry : Nat × Nat) : Undisturbed r s (s.closeIterator entry) := by
  unfold Loop.closeIterator
  split
  · exact refl r s
  · next ho =>
    split_ifs
    · exact refl r s
    · exact endIterator ho

theorem closeAll (l : List (Nat × Nat)) : Undisturbed r s (l.foldl Loop.closeIterator s) := by
  induction l generalizing s with
  | nil => exact refl r s
  | cons entry l ih => exact (closeIterator entry).trans ih

theorem jsClose : Undisturbed r s s.jsClose := by
  unfold Loop.jsClose
  dsimp only
  have hcalls : Undisturbed r s { s with calls := s.calls + 1 } := of_eq rfl rfl
  have hcall : Undisturbed r s ({ s with calls := s.calls + 1 }.emit (.closeCalled s.calls)) := hcalls.trans (emit rfl)
  split_ifs
  · exact hcall.trans (queue _)
  · exact (hcall.trans (pending _)).trans (closeAll _)

theorem checkEndCallback (ho : s.objs[r']? = some it) : Undisturbed r s (s.checkEndCallback r' it) := by
  unfold Loop.checkEndCallback
  split
  · exact refl r s
  · exact (queue _).trans (setObj ho rfl)

theorem releaseIterator (id : Nat) : Undisturbed r s (s.releaseIterator id) := by
  have herase : Undisturbed r s { s with iterators := s.iterators.erase id } := of_eq rfl rfl
  unfold Loop.releaseIterator
  dsimp only
  split_ifs
  · split
    · exact herase
    · exact (herase.trans (queue _)).trans (pending _)
  · exact herase

theorem endComplete : Undisturbed r s (s.endComplete r' it callback) :=
  ((releaseIterator it.id).trans (emit rfl)).trans (emit rfl)

end Undisturbed

/-! ### The pool -/

section
variable {α β : Type} {l : List α} {x y : α} {f : α → Option β}

theorem filterMap_split (h : l[i]? = some x) :
    l.filterMap f = (l.take i).filterMap f ++ ((f x).toList ++ (l.drop (i + 1)).filterMap f) := by
  obtain ⟨hlt, rfl⟩ := List.getElem?_eq_some_iff.1 h
  conv_lhs => rw [← List.take_append_drop i l, List.drop_eq_getElem_cons hlt, List.filterMap_append, List.filterMap_cons]
  cases f l[i] <;> rfl

theorem filterMap_set (h : l[i]? = some x) :
    (l.set i y).filterMap f = (l.take i).filterMap f ++ ((f y).toList ++ (l.drop (i + 1)).filterMap f) := by
  obtain ⟨hlt, -⟩ := List.getElem?_eq_some_iff.1 h
  rw [List.set_eq_take_append_cons_drop, if_pos hlt, List.filterMap_append, List.filterMap_cons]
  cases f y <;> rfl

theorem filterMap_eraseIdx : (l.eraseIdx i).filterMap f = (l.take i).filterMap f ++ (l.drop (i + 1)).filterMap f := by
  rw [List.eraseIdx_eq_take_drop_succ, List.filterMap_append]

end

theorem reportOf_of_ne {report' : Option Report} (hw : w.isNext r = false) : Task.reportOf r ⟨w, report'⟩ = none := by
  unfold Task.reportOf
  dsimp only
  rw [hw]
  rfl

theorem Undisturbed.setTask {report' report'' : Option Report} (ht : s.pool[i]? = some ⟨w, report'⟩)
    (hw : w.isNext r = false) : Undisturbed r s (s.setTask i ⟨w, report''⟩) := by
  refine .of_eq rfl ?_
  unfold Loop.reports Loop.setTask
  dsimp only
  rw [filterMap_set ht, filterMap_split ht, reportOf_of_ne hw, reportOf_of_ne hw]

theorem Undisturbed.eraseIdx {report' : Option Report} (ht : s.pool[i]? = some ⟨w, report'⟩) (hw : w.isNext r = false) :
    Undisturbed r s { s with pool := s.pool.eraseIdx i } := by
  refine .of_eq rfl ?_
  unfold Loop.reports
  dsimp only
  rw [filterMap_eraseIdx, filterMap_split ht, reportOf_of_ne hw]
  rfl

/-- A worker of `r` is the only one, so the others have no report of `r`. -/
theorem Inv.others_silent {report' : Option Report} (h : s.Inv) (ht : s.pool[i]? = some ⟨.NextWorker r call, report'⟩) :
    (s.pool.take i).filterMap (Task.reportOf r) = [] ∧ (s.pool.drop (i + 1)).filterMap (Task.reportOf r) = [] := by
  have hnil : (s.pool.eraseIdx i).filterMap (Task.reportOf r) = [] := by
    refine List.filterMap_eq_nil_iff.2 fun x hx => ?_
    unfold Task.reportOf
    rw [h.only_next ht hx]
    rfl
  rw [filterMap_eraseIdx] at hnil
  exact List.append_eq_nil_iff.1 hnil

theorem reports_nextExecute {openScan : ScanSpec → OpenReply} {tablePtr : Option KuduTable} (h : s.Inv)
    (ht : s.pool[i]? = some ⟨.NextWorker r call, none⟩) :
    (s.nextExecute i r call it openScan tablePtr).reports r =
      s.reports r ++ [(it.iteratorNext openScan tablePtr).report] := by
  obtain ⟨hbefore, hafter⟩ := h.others_silent ht
  have hold : s.pool.filterMap (Task.reportOf r) = [] := by
    rw [filterMap_split ht, hbefore, hafter]
    simp [Task.reportOf]
  have hnew : (s.nextExecute i r call it openScan tablePtr).pool.filterMap (Task.reportOf r) =
      [(it.iteratorNext openScan tablePtr).report] := by
    show (s.pool.set i _).filterMap _ = _
    rw [filterMap_set ht, hbefore, hafter]
    simp [Task.reportOf, Worker.isNext]
  have hlog : (s.nextExecute i r call it openScan tablePtr).log.filterMap (Event.reportOf r) =
      s.log.filterMap (Event.reportOf r) := by
    show (s.log ++ [_]).filterMap _ = _
    rw [List.filterMap_append]
    exact List.append_nil _
  unfold reports
  rw [hnew, hlog, hold, List.append_nil]

/-- The report of an executed worker goes to its callback. -/
theorem Undisturbed.nextCompleted (h : s.Inv) (ht : s.pool[i]? = some ⟨.NextWorker r' call, some report⟩)
    (ho : s.objs[r']? = some it) :
    Undisturbed r s ({ s with pool := s.pool.eraseIdx i }.nextComplete r' call it report) := by
  have hmoved : Undisturbed r s
      { s with pool := s.pool.eraseIdx i, log := s.log ++ [.nextCallback r' call report] } := by
    refine of_eq rfl ?_
    unfold Loop.reports
    rw [filterMap_eraseIdx, filterMap_split ht, List.filterMap_append]
    by_cases hr : r' = r
    · subst hr
      obtain ⟨hbefore, hafter⟩ := h.others_silent ht
      rw [hbefore, hafter]
      simp [Event.reportOf, Task.reportOf, Worker.isNext]
    · have hnone : Task.reportOf r ⟨.NextWorker r' call, some report⟩ = none := by
        simp [Task.reportOf, Worker.isNext, hr]
      rw [hnone]
      simp [Event.reportOf, hr]
  have hcheck : ∀ u : Loop, u.objs[r']? = some it →
      ((u.emit (.nextCallback r' call report)).checkEndCallback r' it) =
        (u.checkEndCallback r' it).emit (.nextCallback r' call report) := by
    intro u hu
    unfold Loop.checkEndCallback
    cases it.endWorker <;> rfl
  unfold Loop.nextComplete
  cases report with
  | error e => exact hmoved
  | ok result ok =>
    dsimp only
    rw [← hcheck { s with pool := s.pool.eraseIdx i } ho]
    exact hmoved.trans (checkEndCallback ho)

/-! ### One step -/

/-- A step that is no scan of `r` leaves it alone. -/
theorem Undisturbed.step (h : s.Inv) (ha : Loop.step s a = some t) (hscan : s.scanOf r a = none) : Undisturbed r s t := by
  have hcalls : Undisturbed r s { s with calls := s.calls + 1 } := .of_eq rfl rfl
  cases stepped ha with
  | jsIterator options =>
    refine ⟨fun it ho => ⟨it, ?_, rfl⟩, rfl⟩
    exact (List.getElem?_append_left (lt_length ho)).trans ho
  | nextRefused ho he => exact hcalls.trans (.emit rfl)
  | @nextQueued r' it ho he hn =>
    have hobj : Undisturbed r { s with calls := s.calls + 1 }
        ({ s with calls := s.calls + 1 }.setObj r' { it with nexting := true }) := .setObj ho rfl
    exact ((hcalls.trans hobj).trans (.queue _)).trans (.emit rfl)
  | jsEnd ho => exact hcalls.trans (.endIterator ho)
  | jsClose => exact .jsClose
  | @nextExecuted i r' call it openScan tablePtr ht ho =>
    have hne : r' ≠ r := by
      rintro rfl
      simp [scanOf, ht] at hscan
    have hobj : Undisturbed r s (s.setObj r' (it.iteratorNext openScan tablePtr).iterator) := .setObj_ne hne
    exact (hobj.trans (.setTask ht (decide_eq_false hne))).trans (.emit rfl)
  | executed ht hw => exact .setTask ht (hw r)
  | nextCompleted ht ho => exact .nextCompleted h ht ho
  | endCompleted ht ho => exact (Undisturbed.eraseIdx ht rfl).trans .endComplete
  | closeCompleted ht => exact (Undisturbed.eraseIdx ht rfl).trans (.emit rfl)

/-- The step of a scan of `r`. -/
theorem step_scan {scan : Scan} (h : s.Inv) (ha : step s a = some t) (hscan : s.scanOf r a = some scan) :
    ∃ it, s.objs[r]? = some it ∧ t.objs[r]? = some (it.iteratorNext scan.1 scan.2).iterator ∧
      t.reports r = s.reports r ++ [(it.iteratorNext scan.1 scan.2).report] := by
  cases stepped ha with
  | @nextExecuted i r' call it openScan tablePtr ht ho =>
    simp only [scanOf, ht] at hscan
    split_ifs at hscan with hr
    subst hr
    obtain rfl := Option.some.inj hscan
    exact ⟨it, ho, getElem?_setObj_self ho, reports_nextExecute h ht⟩
  | @executed i w openScan tablePtr ht hw =>
    cases w with
    | NextWorker r' call => simp [Worker.isNext] at hw
    | EndWorker | CloseWorker => simp [scanOf, ht] at hscan
  | jsIterator | nextRefused | nextQueued | jsEnd | jsClose | nextCompleted | endCompleted | closeCompleted => cases hscan

theorem step_length (h : s.Inv) (ha : step s a = some t) : s.objs.length ≤ t.objs.length := by
  by_contra hlt
  obtain ⟨it, ho⟩ : ∃ it, s.objs[t.objs.length]? = some it := ⟨_, List.getElem?_eq_getElem (by omega)⟩
  have hsome : ∃ it', t.objs[t.objs.length]? = some it' := by
    cases hscan : s.scanOf t.objs.length a with
    | none =>
      obtain ⟨it', ho', -⟩ := (Undisturbed.step h ha hscan).reader it ho
      exact ⟨it', ho'⟩
    | some scan =>
      obtain ⟨it', -, ho', -⟩ := step_scan h ha hscan
      exact ⟨_, ho'⟩
  obtain ⟨it', ho'⟩ := hsome
  exact absurd (lt_length ho') (Nat.lt_irrefl _)

/-! ### Runs -/

/-- What `r` reports in a run is what its scans give, one after the other. -/
theorem reports_run {ok : Loop → Action → Prop} (h : s.Inv) (hrun : Run (Steps step ok) s as t)
    (ho : s.objs[r]? = some it) : t.reports r = s.reports r ++ it.replay (s.scans r as) := by
  induction hrun generalizing it with
  | nil s => exact (List.append_nil _).symm
  | @cons s t u a as ha hrun ih =>
    obtain ⟨hstep, -⟩ := ha
    have ht : t.Inv := h.step hstep
    unfold scans
    rw [hstep, Option.map_some, Option.getD_some]
    cases hscan : s.scanOf r a with
    | none =>
      have hkept := Undisturbed.step h hstep hscan
      obtain ⟨it', ho', hreader⟩ := hkept.reader it ho
      rw [ih ht ho', hkept.reports, Iterator.replay_congr hreader]
      rfl
    | some scan =>
      obtain ⟨it', hit, ho', hreports⟩ := step_scan h hstep hscan
      cases ho.symm.trans hit
      rw [ih ht ho', hreports, List.append_assoc]
      rfl

/-- Iterators that are not there yet have reported nothing. -/
theorem reports_unborn {ok : Loop → Action → Prop} (hrun : Run (Steps step ok) init as s) (hr : s.objs.length ≤ r) :
    s.reports r = [] := by
  have hinv : s.Inv ∧ ∀ r, s.objs.length ≤ r → s.reports r = [] := by
    refine hrun.inv (I := fun s => s.Inv ∧ ∀ r, s.objs.length ≤ r → s.reports r = []) (fun s a t hs ha => ?_)
      ⟨.init, fun r hr => rfl⟩
    obtain ⟨h, hunborn⟩ := hs
    obtain ⟨hstep, -⟩ := ha
    refine ⟨h.step hstep, fun r hr => ?_⟩
    have hr' := (step_length h hstep).trans hr
    cases hscan : s.scanOf r a with
    | none =>
      rw [(Undisturbed.step h hstep hscan).reports]
      exact hunborn r hr'
    | some scan =>
      obtain ⟨it, ho, -⟩ := step_scan h hstep hscan
      exact absurd (lt_length ho) (Nat.not_lt.2 hr')
  exact hinv.2 r hr

/-- In every run an iterator reports what `IteratorNext` gives when it is called again and again with the scans of its
own workers, whatever is done with other iterators and whenever it, or the database, is ended or closed. -/
theorem isolated {ok : Loop → Action → Prop} {options : IteratorOptions} (h : Run (Steps step ok) init as s)
    (hrun : Run (Steps step ok) (s.jsIterator options) bs t) :
    t.reports s.objs.length =
        (Iterator.new s.currentIteratorId options).replay ((s.jsIterator options).scans s.objs.length bs) ∧
      ∀ opens tablePtr n, (s.jsIterator options).scans s.objs.length bs =
          (List.range n).map (fun k => (opens k, tablePtr)) →
        t.reports s.objs.length =
          (List.range n).map fun k => ((Iterator.new s.currentIteratorId options).call opens tablePtr k).report := by
  have hinv : s.Inv := Inv.init.run h
  have ho : (s.jsIterator options).objs[s.objs.length]? = some (Iterator.new s.currentIteratorId options) :=
    List.getElem?_concat_length
  have hreports := reports_run (hinv.jsIterator options) hrun ho
  have hunborn : s.reports s.objs.length = [] := reports_unborn h (Nat.le_refl _)
  replace hunborn : (s.jsIterator options).reports s.objs.length = [] := hunborn
  rw [hunborn, List.nil_append] at hreports
  refine ⟨hreports, fun opens tablePtr n hscans => ?_⟩
  have hcall := @Iterator.replay_call (Iterator.new s.currentIteratorId options) opens tablePtr 0 n
  rw [← List.range_eq_range'] at hcall
  rw [hreports, hscans]
  exact hcall

/-- The scan of one row, and one that fails. -/
def rowScan (_ : ScanSpec) : OpenReply := .ok (stringSchema, [.ok [stringRow (bytes "a") (bytes "1")]])

def failedScan (_ : ScanSpec) : OpenReply := .error ⟨.NetworkError, "no tablet server"⟩

/-- Two iterators whose workers are executed in the other order, with a close before the last one. -/
theorem isolated_two : ∃ s t, exec step init [.jsIterator {}] = some s ∧
    exec step (s.jsIterator {}) [.jsNext 0, .jsNext 1, .execute 1 rowScan (some ⟨"t"⟩), .jsClose,
      .execute 0 failedScan (some ⟨"t"⟩), .complete 1] = some t ∧
    t.reports 1 = [.ok [(bytes "a", bytes "1")] true] := by
  obtain ⟨t, ht⟩ : ∃ t, exec step ((init.jsIterator {}).jsIterator {}) [.jsNext 0, .jsNext 1,
      .execute 1 rowScan (some ⟨"t"⟩), .jsClose, .execute 0 failedScan (some ⟨"t"⟩), .complete 1] = some t := ⟨_, rfl⟩
  have hfirst : exec step init [.jsIterator {}] = some (init.jsIterator {}) := rfl
  have hreports := (isolated (.of_exec hfirst) (.of_exec ht)).1
  exact ⟨_, t, hfirst, ht, hreports⟩

end Loop

end Kududown
