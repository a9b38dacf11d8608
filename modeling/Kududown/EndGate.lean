import Kududown.Drain

/-!
# `End` and `Next`

Whether `End` queues its worker or parks it hangs on `nexting`, and a parked worker is queued by
`checkEndCallback`, which only `NextWorker::HandleOKCallback` calls. `end_runs_iff` says for which idle
iterators `End` is not lost, `parked_end_iff` after which outcomes of the NextWorker in flight a parked `End` is
queued, and `end_after_next` that `End` does not overtake `Next` in a run in which no `End` comes between a last
`IteratorNext` and the completion of its NextWorker.
-/

namespace Kududown

def Event.isEndOf (r : Nat) : Event → Bool
  | released r' => r' = r
  | endCallback r' _ => r' = r
  | _ => false

namespace Loop
variable {s t u : Loop} {a : Action} {as bs : List Action} {r r' i call id : Nat} {it it' : Iterator}
  {e : Event} {w : Worker} {callback : EndCallback} {report : Report}

def Reached (s : Loop) : Prop := ∃ as, Run (Steps step fun _ _ => True) init as s

theorem Reached.inv (h : Reached s) : Inv s :=
  let ⟨_, hr⟩ := h
  Inv.init.run hr

theorem endIterator_of_nexting (he : it.ended = false) (hn : it.nexting = true) :
    s.endIterator r it callback = s.setObj r { it with ended := true, endWorker := some callback } := by
  unfold endIterator
  simp [he, hn]

theorem endIterator_of_idle (he : it.ended = false) (hn : it.nexting = false) :
    s.endIterator r it callback = (s.setObj r { it with ended := true }).queue (.EndWorker r callback) := by
  unfold endIterator
  simp [he, hn]

/-! ### A queued `End` runs -/

/-- From `s` to `t` no iterator was registered, none changed its id, and no worker left the pool. -/
structure Later (s t : Loop) : Prop where
  obj : ∀ (r : Nat) (it : Iterator), s.objs[r]? = some it → ∃ it' : Iterator, t.objs[r]? = some it' ∧ it'.id = it.id
  entries : ∀ e ∈ t.iterators.entries, e ∈ s.iterators.entries
  log : s.log ⊆ t.log
  count : ∀ f, s.count f ≤ t.count f

namespace Later

theorem refl (s : Loop) : Later s s :=
  ⟨fun _ it ho => ⟨it, ho, rfl⟩, fun _ he => he, fun _ he => he, fun _ => Nat.le_refl _⟩

theorem trans (h : Later s t) (h' : Later t u) : Later s u := by
  refine ⟨fun r it ho => ?_, fun e he => h.entries e (h'.entries e he), fun e he => h'.log (h.log he),
    fun f => Nat.le_trans (h.count f) (h'.count f)⟩
  obtain ⟨it', ho', hid⟩ := h.obj r it ho
  obtain ⟨it'', ho'', hid'⟩ := h'.obj r it' ho'
  exact ⟨it'', ho'', hid'.trans hid⟩

theorem emit (e : Event) : Later s (s.emit e) :=
  ⟨fun _ it ho => ⟨it, ho, rfl⟩, fun _ he => he, fun _ he => List.mem_append_left _ he, fun _ => Nat.le_refl _⟩

theorem queue (w : Worker) : Later s (s.queue w) :=
  ⟨fun _ it ho => ⟨it, ho, rfl⟩, fun _ he => he, fun _ he => he, fun f => by
    rw [count_queue]; exact Nat.le_add_right _ _⟩

theorem pending (p : Option Nat) : Later s { s with pendingCloseWorker := p } :=
  ⟨fun _ it ho => ⟨it, ho, rfl⟩, fun _ he => he, fun _ he => he, fun _ => Nat.le_refl _⟩

theorem erase (id : Nat) : Later s { s with iterators := s.iterators.erase id } :=
  ⟨fun _ it ho => ⟨it, ho, rfl⟩, fun _ he => (OrdMap.mem_erase.1 he).1, fun _ he => he, fun _ => Nat.le_refl _⟩

theorem setObj (ho : s.objs[r]? = some it) (hid : it'.id = it.id) : Later s (s.setObj r it') := by
  refine ⟨fun r' it'' ho' => ?_, fun _ he => he, fun _ he => he, fun _ => Nat.le_refl _⟩
  rcases to_setObj it' ho ho' with ⟨rfl, ho'⟩ | ho'
  · exact ⟨it', ho', hid⟩
  · exact ⟨it'', ho', rfl⟩

theorem setTask {report' : Option Report} (ht : s.pool[i]? = some ⟨w, report'⟩) :
    Later s (s.setTask i ⟨w, some report⟩) :=
  ⟨fun _ it ho => ⟨it, ho, rfl⟩, fun _ he => he, fun _ he => he, fun _ => (count_setTask ht).ge⟩

theorem nextExecute {openScan : ScanSpec → OpenReply} {tablePtr : Option KuduTable}
    (ht : s.pool[i]? = some ⟨.NextWorker r call, none⟩) (ho : s.objs[r]? = some it) :
    Later s (s.nextExecute i r call it openScan tablePtr) :=
  ((setObj ho Iterator.iteratorNext_frame.id).trans (setTask ht)).trans (emit _)

theorem checkEndCallback (ho : s.objs[r]? = some it) : Later s (s.checkEndCallback r it) := by
  unfold Loop.checkEndCallback
  split
  · exact refl s
  · exact (queue _).trans (setObj ho rfl)

theorem releaseIterator (id : Nat) : Later s (s.releaseIterator id) := by
  unfold Loop.releaseIterator
  dsimp only
  split_ifs
  · split
    · exact erase id
    · exact ((erase id).trans (queue _)).trans (pending _)
  · exact erase id

theorem nextComplete (ho : s.objs[r]? = some it) : Later s (s.nextComplete r call it report) := by
  unfold Loop.nextComplete
  split
  · exact (checkEndCallback ho).trans (emit _)
  · exact emit _

theorem endComplete : Later s (s.endComplete r it callback) :=
  ((releaseIterator it.id).trans (emit _)).trans (emit _)

end Later

/-- The EndWorker of `r` is in the pool, or its callback was called and no iterator has the id `id`. -/
structure Ending (s : Loop) (r : Nat) (callback : EndCallback) (id : Nat) : Prop where
  obj : ∃ it, s.objs[r]? = some it ∧ it.id = id
  todo : 0 < s.count (· = .EndWorker r callback) ∨
    .endCallback r callback ∈ s.log ∧ ∀ e ∈ s.iterators.entries, e.1 ≠ id

theorem Ending.later (h : Ending s r callback id) (hl : Later s t) : Ending t r callback id := by
  obtain ⟨⟨it, ho, hid⟩, htodo⟩ := h
  obtain ⟨it', ho', hid'⟩ := hl.obj r it ho
  refine ⟨⟨it', ho', hid'.trans hid⟩, htodo.imp (fun hc => Nat.lt_of_lt_of_le hc (hl.count _)) ?_⟩
  exact fun ⟨hlog, hids⟩ => ⟨hl.log hlog, fun e he => hids e (hl.entries e he)⟩

theorem Ending.eraseIdx (h : Ending s r callback id) (ht : s.pool[i]? = some ⟨w, some report⟩)
    (hw : w ≠ .EndWorker r callback) : Ending { s with pool := s.pool.eraseIdx i } r callback id := by
  refine ⟨h.obj, h.todo.imp (fun hc => ?_) fun hdone => hdone⟩
  have := count_eraseIdx (f := (· = .EndWorker r callback)) ht
  rw [decide_eq_false hw, Bool.toNat_false, Nat.add_zero] at this
  rw [this]
  exact hc

theorem releaseIterator_iterators (id : Nat) : (s.releaseIterator id).iterators = s.iterators.erase id := by
  unfold releaseIterator
  dsimp only
  split_ifs
  · split <;> rfl
  · rfl

theorem nexts_releaseIterator : (s.releaseIterator id).nexts r = s.nexts r := by
  unfold releaseIterator
  dsimp only
  split_ifs
  · split
    · rfl
    · next call _ =>
      show (queue { s with iterators := s.iterators.erase id } (.CloseWorker call)).nexts r = _
      rw [nexts_queue]
      rfl
  · rfl

theorem endComplete_iterators : (s.endComplete r it callback).iterators = s.iterators.erase it.id :=
  releaseIterator_iterators it.id

theorem Ending.step (h : Ending s r callback id) (ha : Loop.step s a = some t) (hw : a.isWorker = true) :
    Ending t r callback id := by
  cases stepped ha with
  | jsIterator | nextRefused | nextQueued | jsEnd | jsClose => cases hw
  | nextExecuted ht ho => exact h.later (.nextExecute ht ho)
  | executed ht _ => exact h.later (.setTask ht)
  | nextCompleted ht ho => exact (h.eraseIdx ht Worker.noConfusion).later (.nextComplete ho)
  | @endCompleted i r' it callback' report ht ho =>
    by_cases hw : Worker.EndWorker r' callback' = .EndWorker r callback
    · cases hw
      obtain ⟨it', ho', hid⟩ := h.obj
      rw [ho] at ho'
      cases ho'
      obtain ⟨it'', ho'', hid''⟩ := (Later.endComplete (s := { s with pool := s.pool.eraseIdx i })).obj r it ho
      refine ⟨⟨it'', ho'', hid''.trans hid⟩, .inr ⟨List.mem_append_right _ (List.mem_singleton_self _), ?_⟩⟩
      intro e he
      rw [endComplete_iterators] at he
      exact hid ▸ (OrdMap.mem_erase.1 he).2
    · exact (h.eraseIdx ht hw).later .endComplete
  | closeCompleted ht => exact (h.eraseIdx ht Worker.noConfusion).later (.emit _)

theorem Ending.drain {ok : Loop → Action → Prop} (h : Ending s r callback id) (hr : Drain ok s bs t)
    (hp : t.pool = []) : .endCallback r callback ∈ t.log ∧ ∀ e ∈ t.iterators.entries, e.1 ≠ id := by
  have ht := Run.inv (I := fun s => Ending s r callback id) (fun _ _ _ hs ha => hs.step ha.1 ha.2.1) hr h
  rcases ht.todo with hc | hdone
  · rw [count, hp] at hc
    cases hc
  · exact hdone

/-! ### An idle iterator -/

/-- `End`, called now, queues its worker instead of parking it; once all workers have run, its callback has
been called and the id of the iterator is gone. -/
def EndRuns (s : Loop) (r : Nat) (it : Iterator) : Prop :=
  ∃ t, step s (.jsEnd r) = some t ∧ t.ends r = 1 ∧ (∀ it', t.objs[r]? = some it' → it'.endWorker = none) ∧
    Settles (fun _ _ => True) t fun u =>
      .endCallback r (.js s.calls) ∈ u.log ∧ ∀ e ∈ u.iterators.entries, e.1 ≠ it.id

theorem lastNexting_eq_false {log : List Event} :
    lastNexting log r = false ↔ ∀ x, lastExit log r = some x → x ≠ .rows ∧ x ≠ .openFailed := by
  unfold lastNexting
  cases lastExit log r with
  | none => simp
  | some x => cases x <;> simp [Exit.nexting]

/-- With no NextWorker of it out, `nexting` is what its last `IteratorNext` left there. -/
theorem Inv.nexting_of_idle (h : Inv s) (ho : s.objs[r]? = some it) (hn : s.nexts r = 0) :
    it.nexting = lastNexting s.log r := by
  have hq : s.queuedNexts r = 0 := Nat.le_zero.1 (hn ▸ queuedNexts_le_nexts)
  rw [h.nexting r it ho, hq]
  rfl

/-- The first `End` on an idle iterator is not lost just if its last `IteratorNext`, if there was one, neither
returned rows nor failed to open the scanner: these two exits leave `nexting` set. -/
theorem end_runs_iff (hs : Reached s) (ho : s.objs[r]? = some it) (he : it.ended = false) (hn : s.nexts r = 0) :
    EndRuns s r it ↔ ∀ x, lastExit s.log r = some x → x ≠ .rows ∧ x ≠ .openFailed := by
  have h := hs.inv
  rw [← lastNexting_eq_false, ← h.nexting_of_idle ho hn]
  have hend := h.one_end r it ho
  rw [he, Bool.toNat_false, Nat.le_zero, Nat.add_eq_zero_iff] at hend
  have hstep : Loop.step s (.jsEnd r) =
      some ({ s with calls := s.calls + 1 }.endIterator r it (.js s.calls)) := by
    show s.objs[r]?.map _ = _
    rw [ho]
    rfl
  constructor
  · rintro ⟨t, ht, hends, -⟩
    by_contra hnx
    rw [hstep, endIterator_of_nexting he (eq_true_of_ne_false hnx)] at ht
    cases ht
    have h0 : s.ends r = 1 := hends
    omega
  · intro hnx
    rw [endIterator_of_idle he hnx] at hstep
    refine ⟨_, hstep, ?_, fun it' ho' => ?_, (h.step hstep).settles fun bs u hr hp => Ending.drain ?_ hr hp⟩
    · rw [ends_queue]
      show s.ends r + _ = 1
      rw [hend.1, Worker.isEnd, decide_eq_true rfl]
      rfl
    · have hset := Option.some.inj ((getElem?_setObj_self ho).symm.trans ho')
      rw [← hset]
      exact Option.isNone_iff_eq_none.1 (by simpa using hend.2)
    · refine ⟨⟨_, getElem?_setObj_self ho, rfl⟩, .inl ?_⟩
      rw [count_queue, decide_eq_true rfl]
      exact Nat.succ_pos _

def oneRow (_ : ScanSpec) : OpenReply := .ok (stringSchema, [.ok [stringRow (bytes "a") (bytes "1")]])

def noRows (_ : ScanSpec) : OpenReply := .ok (stringSchema, [])

def noServer (_ : ScanSpec) : OpenReply := .error ⟨.NetworkError, "no tablet server"⟩

def firstNext (openScan : ScanSpec → OpenReply) : List Action :=
  [.jsIterator {}, .jsNext 0, .execute 0 openScan (some ⟨"t"⟩), .complete 0]

theorem end_runs_iff_noRows :
    ∃ s it, exec step init (firstNext noRows) = some s ∧ s.objs[0]? = some it ∧ EndRuns s 0 it := by
  refine ⟨_, _, rfl, rfl, (end_runs_iff ⟨firstNext noRows, Run.of_exec rfl⟩ rfl rfl rfl).2 fun x hx => ?_⟩
  cases hx
  decide

/-- After a `Next` that returned a row the iterator is idle, and `End` is parked for good. -/
theorem end_lost : ∃ s it, exec step init (firstNext oneRow) = some s ∧ s.objs[0]? = some it ∧
    it.ended = false ∧ s.nexts 0 = 0 ∧ ¬ EndRuns s 0 it := by
  refine ⟨_, _, rfl, rfl, rfl, rfl, ?_⟩
  rintro ⟨t, ht, hends, -⟩
  cases ht
  cases hends

/-! ### A parked `End` -/

theorem count_le_ends : s.count (· = .EndWorker r callback) ≤ s.ends r :=
  List.countP_mono_left fun t _ h => by
    rw [of_decide_eq_true h]
    exact decide_eq_true rfl

/-- The NextWorker in position `i` completes; the parked EndWorker of `r` is then queued, once, and
`endWorker` is NULL. -/
def ParkedRuns (s : Loop) (i r : Nat) (callback : EndCallback) : Prop :=
  ∃ t, step s (.complete i) = some t ∧ t.ends r = 1 ∧ t.count (· = .EndWorker r callback) = 1 ∧
    ∀ it', t.objs[r]? = some it' → it'.endWorker = none

/-- A parked `End` is queued when the NextWorker in flight completes just if its `IteratorNext` returned rows,
found nothing left or had reached the limit. After an error it stays parked. -/
theorem parked_end_iff (hs : Reached s) (ht : s.pool[i]? = some ⟨.NextWorker r call, some report⟩)
    (ho : s.objs[r]? = some it) (hw : it.endWorker = some callback) :
    ParkedRuns s i r callback ↔ ∃ x, lastExit s.log r = some x ∧ x.isOk = true := by
  have h := hs.inv
  obtain ⟨x, hx, hok⟩ := h.reports r call report (List.mem_of_getElem? ht)
  have hstep : step s (.complete i) = some ({ s with pool := s.pool.eraseIdx i }.nextComplete r call it report) := by
    unfold step
    simp only [ht, ho, Option.map_some]
  have hends : ends { s with pool := s.pool.eraseIdx i } r = 0 := by
    have hend := h.one_end r it ho
    have hle := Bool.toNat_le it.ended
    have hadd : ends { s with pool := s.pool.eraseIdx i } r + 0 = s.ends r := count_eraseIdx ht
    rw [hw, Option.isSome_some, Bool.toNat_true] at hend
    omega
  have hcount : count { s with pool := s.pool.eraseIdx i } (· = .EndWorker r callback) = 0 :=
    Nat.le_zero.1 (hends ▸ count_le_ends)
  rcases report with ⟨result, ok⟩ | e
  · refine iff_of_true ⟨_, hstep, ?_, ?_, fun it' ho' => ?_⟩ ⟨x, hx, hok.symm⟩
    · rw [nextComplete, checkEndCallback, hw]
      show (queue _ (.EndWorker r callback)).ends r = 1
      rw [ends_queue, hends, Worker.isEnd, decide_eq_true rfl]
      rfl
    · rw [nextComplete, checkEndCallback, hw]
      show (queue { s with pool := s.pool.eraseIdx i } (.EndWorker r callback)).count
        (· = .EndWorker r callback) = 1
      rw [count_queue, hcount, decide_eq_true rfl]
      rfl
    · rw [nextComplete, checkEndCallback, hw] at ho'
      have hset := Option.some.inj ((getElem?_setObj_self ho).symm.trans ho')
      rw [← hset]
  · refine iff_of_false ?_ ?_
    · rintro ⟨t, ht', -, -, hnone⟩
      rw [hstep] at ht'
      cases ht'
      have := hnone it ho
      rw [hw] at this
      cases this
    · rintro ⟨x', hx', hok'⟩
      rw [hx] at hx'
      cases hx'
      rw [hok'] at hok
      cases hok

def endMeanwhile (openScan : ScanSpec → OpenReply) : List Action :=
  [.jsIterator {}, .jsNext 0, .jsEnd 0, .execute 0 openScan (some ⟨"t"⟩)]

theorem parked_end_iff_oneRow :
    ∃ s, exec step init (endMeanwhile oneRow) = some s ∧ ParkedRuns s 0 0 (.js 1) :=
  ⟨_, rfl, (parked_end_iff ⟨endMeanwhile oneRow, Run.of_exec rfl⟩ rfl rfl rfl).2 ⟨.rows, rfl, rfl⟩⟩

/-- When the scanner cannot be opened the `End` is still parked after the last worker has completed. -/
theorem parked_end_left : ∃ s it report t it', exec step init (endMeanwhile noServer) = some s ∧
    s.objs[0]? = some it ∧ it.endWorker = some (.js 1) ∧ s.pool[0]? = some ⟨.NextWorker 0 0, some report⟩ ∧
    ¬ ParkedRuns s 0 0 (.js 1) ∧
    step s (.complete 0) = some t ∧ t.pool = [] ∧ t.objs[0]? = some it' ∧ it'.endWorker = some (.js 1) := by
  refine ⟨_, _, _, _, _, rfl, rfl, rfl, rfl, ?_, rfl, rfl, rfl, rfl⟩
  rintro ⟨t, ht, hends, -⟩
  cases ht
  cases hends

/-! ### `End` after `Next` -/

/-- A NextWorker of `r` has executed and is not completed, and its `IteratorNext` neither returned rows nor
failed to open the scanner. -/
def NextFinished (s : Loop) (r : Nat) : Prop :=
  (∃ call report, ⟨.NextWorker r call, some report⟩ ∈ s.pool) ∧
    ∃ x, lastExit s.log r = some x ∧ x ≠ .rows ∧ x ≠ .openFailed

/-- No first `End` of an iterator, be it from JS or from `Close`, comes between such an `IteratorNext` and the
completion of its NextWorker. -/
def NoOvertaking (s : Loop) : Action → Prop
  | .jsEnd r => ∀ it, s.objs[r]? = some it → it.ended = false → ¬ s.NextFinished r
  | .jsClose => ∀ e ∈ s.iterators.entries, ∀ it, s.objs[e.2]? = some it → it.ended = false → ¬ s.NextFinished e.2
  | _ => True

/-- `End`, called now on `r`, does not find `nexting` cleared while a NextWorker of `r` is out. -/
def EndWaits (s : Loop) (r : Nat) : Prop :=
  ∀ it, s.objs[r]? = some it → it.ended = false → it.nexting = false → s.nexts r = 0

theorem Inv.endWaits (h : Inv s) (hf : ∀ it, s.objs[r]? = some it → it.ended = false → ¬ s.NextFinished r) :
    s.EndWaits r := by
  intro it ho he hn
  by_contra hout
  have hnexting := h.nexting r it ho
  rw [hn, eq_comm, Bool.or_eq_false_iff] at hnexting
  -- none is queued, so the one that is out has executed
  obtain ⟨task, hmem, hnext⟩ := List.countP_pos_iff.1 (Nat.pos_of_ne_zero hout)
  obtain ⟨w, report⟩ := task
  cases report with
  | none =>
    have hqueued : 0 < s.queuedNexts r := List.countP_pos_iff.2 ⟨_, hmem, by simpa using hnext⟩
    exact absurd hqueued (of_decide_eq_false hnexting.1)
  | some report =>
    cases w with
    | NextWorker r' call =>
      obtain rfl : r' = r := of_decide_eq_true hnext
      obtain ⟨x, hx, -⟩ := h.reports r' call report hmem
      exact hf it ho he ⟨⟨call, report, hmem⟩, x, hx, lastNexting_eq_false.1 hnexting.2 x hx⟩
    | EndWorker | CloseWorker => cases hnext

theorem Inv.nexting_of_finished (h : Inv s) (ho : s.objs[r]? = some it) (hf : s.NextFinished r) :
    it.nexting = false ∧ 0 < s.nexts r := by
  obtain ⟨⟨call, report, hmem⟩, x, hx, hne⟩ := hf
  have hdone : 0 < s.pool.countP fun t => t.worker.isNext r && !t.report.isNone :=
    List.countP_pos_iff.2 ⟨_, hmem, Bool.and_eq_true_iff.2 ⟨decide_eq_true rfl, rfl⟩⟩
  have hsplit : s.nexts r = s.queuedNexts r + s.pool.countP fun t => t.worker.isNext r && !t.report.isNone := by
    unfold nexts count queuedNexts
    rw [List.countP_eq_countP_filter_add _ _ fun t => t.report.isNone, List.countP_filter, List.countP_filter]
  have hone := h.one_next r
  refine ⟨?_, by omega⟩
  rw [h.nexting r it ho, decide_eq_false (by omega), Bool.false_or, lastNexting_eq_false]
  intro y hy
  rw [hx] at hy
  exact Option.some.inj hy ▸ hne

/-- Before an iterator is released or an `End` callback of it is called, every `Next` of it called before has
had its callback. -/
def InOrder (log : List Event) : Prop :=
  ∀ pre e post, log = pre ++ e :: post → ∀ r, e.isEndOf r = true →
    ∀ call, .nextCalled r call ∈ pre → ∃ report, .nextCallback r call report ∈ pre

theorem InOrder.append {log : List Event} (h : InOrder log)
    (he : ∀ r, e.isEndOf r = true → ∀ call, .nextCalled r call ∈ log → ∃ report, .nextCallback r call report ∈ log) :
    InOrder (log ++ [e]) := by
  intro pre e' post heq r hr call hcall
  rcases List.eq_nil_or_concat post with rfl | ⟨post', e'', rfl⟩
  · obtain ⟨rfl, he'⟩ := List.append_inj' heq rfl
    cases he'
    exact he r hr call hcall
  · rw [List.concat_eq_append, ← List.cons_append, ← List.append_assoc] at heq
    exact h pre e' post' (List.append_inj' heq rfl).1 r hr call hcall

structure Gated (s : Loop) : Prop where
  apart : ∀ r, 0 < s.nexts r → s.ends r = 0
  called : ∀ r call, .nextCalled r call ∈ s.log →
    (∃ report, .nextCallback r call report ∈ s.log) ∨ 0 < s.count (· = .NextWorker r call)
  inOrder : InOrder s.log

/-- `End` changes nothing that matters to the next `End` of an iterator that is not ended. -/
theorem endIterator_open {P : Bool → Nat → Prop} (ho : s.objs[r]? = some it)
    (h : ∀ it', s.objs[r']? = some it' → it'.ended = false → P it'.nexting (s.nexts r')) :
    ∀ it', (s.endIterator r it callback).objs[r']? = some it' → it'.ended = false →
      P it'.nexting ((s.endIterator r it callback).nexts r') := by
  have hset : ∀ w it', (s.setObj r { it with ended := true, endWorker := w }).objs[r']? = some it' →
      it'.ended = false → P it'.nexting (s.nexts r') := by
    intro w it' ho' he
    rcases of_setObj ho ho' with ⟨rfl, rfl⟩ | ⟨-, ho'⟩
    · cases he
    · exact h it' ho' he
  unfold Loop.endIterator
  split_ifs
  · exact h
  · exact hset _
  · rw [nexts_queue]
    exact hset _

theorem closeIterator_open {P : Bool → Nat → Prop}
    (h : ∀ it, s.objs[r]? = some it → it.ended = false → P it.nexting (s.nexts r)) (entry : Nat × Nat) :
    ∀ it, (s.closeIterator entry).objs[r]? = some it → it.ended = false →
      P it.nexting ((s.closeIterator entry).nexts r) := by
  unfold Loop.closeIterator
  split
  · exact h
  · next it ho =>
    split_ifs
    · exact h
    · exact endIterator_open ho h

/-! ### An `End` that does overtake -/

theorem count_endIterator {f : Worker → Bool} : s.count f ≤ (s.endIterator r it callback).count f := by
  unfold Loop.endIterator
  split_ifs
  · exact Nat.le_refl _
  · exact Nat.le_refl _
  · rw [count_queue]
    exact Nat.le_add_right _ _

theorem count_closeIterator {f : Worker → Bool} (entry : Nat × Nat) : s.count f ≤ (s.closeIterator entry).count f := by
  unfold Loop.closeIterator
  split
  · exact Nat.le_refl _
  · split_ifs
    · exact Nat.le_refl _
    · exact count_endIterator

theorem count_closeAll {f : Worker → Bool} (l : List (Nat × Nat)) :
    s.count f ≤ (l.foldl Loop.closeIterator s).count f := by
  induction l generalizing s with
  | nil => exact Nat.le_refl _
  | cons entry l ih => exact Nat.le_trans (count_closeIterator entry) ih

theorem ends_endIterator (he : it.ended = false) (hn : it.nexting = false) :
    0 < (s.endIterator r it callback).ends r := by
  rw [endIterator_of_idle he hn, ends_queue]
  simp [Worker.isEnd]

theorem getElem?_closeIterator {entry : Nat × Nat} (hr : entry.2 ≠ r) :
    (s.closeIterator entry).objs[r]? = s.objs[r]? := by
  have hset : ∀ it', (s.setObj entry.2 it').objs[r]? = s.objs[r]? := fun it' => List.getElem?_set_ne hr
  unfold Loop.closeIterator
  split
  · rfl
  · unfold Loop.endIterator
    split_ifs
    · rfl
    · exact hset _
    · exact hset _

theorem ends_closeAll {l : List (Nat × Nat)} {entry : Nat × Nat} (hmem : entry ∈ l) (ho : s.objs[entry.2]? = some it)
    (he : it.ended = false) (hn : it.nexting = false) : 0 < (l.foldl Loop.closeIterator s).ends entry.2 := by
  induction l generalizing s with
  | nil => cases hmem
  | cons entry' l ih =>
    rw [List.foldl_cons]
    by_cases hr : entry'.2 = entry.2
    · refine Nat.lt_of_lt_of_le ?_ (count_closeAll l)
      have hclose : s.closeIterator entry' = s.endIterator entry.2 it .EmptyMethod := by
        unfold Loop.closeIterator
        rw [hr, ho]
        exact if_neg (by rw [he]; exact Bool.noConfusion)
      rw [hclose]
      exact ends_endIterator he hn
    · rcases List.mem_cons.1 hmem with rfl | hmem
      · exact absurd rfl hr
      · exact ih hmem ((getElem?_closeIterator hr).trans ho)

/-- An `End` that comes in between is queued at once. -/
theorem Inv.overtaken (h : Inv s) (ha : Loop.step s a = some t) (hnot : ¬ s.NoOvertaking a) :
    ∃ r, 0 < t.nexts r ∧ 0 < t.ends r := by
  cases stepped ha with
  | @jsEnd r it ho =>
    simp only [NoOvertaking, not_forall, not_not] at hnot
    obtain ⟨it', ho', he, hf⟩ := hnot
    cases ho.symm.trans ho'
    obtain ⟨hn, hnext⟩ := h.nexting_of_finished ho hf
    exact ⟨r, Nat.lt_of_lt_of_le hnext (count_endIterator (s := { s with calls := s.calls + 1 })), ends_endIterator he hn⟩
  | jsClose =>
    simp only [NoOvertaking, not_forall, not_not] at hnot
    obtain ⟨entry, hmem, it, ho, he, hf⟩ := hnot
    obtain ⟨hn, hnext⟩ := h.nexting_of_finished ho hf
    have hentries : s.iterators.entries ≠ [] := List.ne_nil_of_mem hmem
    have hclose : s.jsClose = s.iterators.entries.foldl Loop.closeIterator
        { ({ s with calls := s.calls + 1 }.emit (.closeCalled s.calls)) with pendingCloseWorker := some s.calls } :=
      if_neg hentries
    rw [hclose]
    refine ⟨entry.2, Nat.lt_of_lt_of_le hnext ?_, ends_closeAll hmem ho he hn⟩
    exact count_closeAll (s := { ({ s with calls := s.calls + 1 }.emit (.closeCalled s.calls)) with
      pendingCloseWorker := some s.calls }) _
  | jsIterator | nextRefused | nextQueued | nextExecuted | executed | nextCompleted | endCompleted | closeCompleted =>
    exact absurd trivial hnot

namespace Gated

theorem init : Gated init := by
  refine ⟨fun r hr => (by cases hr), fun r call hmem => (by cases hmem), ?_⟩
  intro pre e post heq
  exact absurd heq (by simp [Loop.init])

theorem emit (h : Gated s) (hcall : ∀ r call, e ≠ .nextCalled r call) (he : ∀ r, e.isEndOf r = false) :
    Gated (s.emit e) := by
  refine ⟨h.apart, fun r call hmem => ?_, h.inOrder.append fun r hr => ?_⟩
  · rcases List.mem_append.1 hmem with hmem | hmem
    · exact (h.called r call hmem).imp (Exists.imp fun _ hr => List.mem_append_left _ hr) fun hc => hc
    · exact absurd (List.mem_singleton.1 hmem).symm (hcall r call)
  · rw [he r] at hr
    cases hr

theorem count_le_nexts : s.count (· = .NextWorker r call) ≤ s.nexts r :=
  List.countP_mono_left fun t _ h => by
    rw [of_decide_eq_true h]
    exact decide_eq_true rfl

theorem emitEnd (h : Gated s) (hn : s.nexts r = 0) (hcall : ∀ r call, e ≠ .nextCalled r call)
    (he : ∀ r', e.isEndOf r' = true → r' = r) : Gated (s.emit e) := by
  refine ⟨h.apart, fun r' call hmem => ?_, h.inOrder.append fun r' hr' call hmem => ?_⟩
  · rcases List.mem_append.1 hmem with hmem | hmem
    · exact (h.called r' call hmem).imp (Exists.imp fun _ hr => List.mem_append_left _ hr) fun hc => hc
    · exact absurd (List.mem_singleton.1 hmem).symm (hcall r' call)
  · cases he r' hr'
    rcases h.called r call hmem with hc | hc
    · exact hc
    · have := @count_le_nexts s r call
      omega

theorem queue (h : Gated s) (hw : ∀ r, (w.isEnd r && decide (0 < s.nexts r)) = false)
    (hnext : ∀ r, w.isNext r = false) : Gated (s.queue w) := by
  refine ⟨fun r hr => ?_, fun r call hmem => ?_, h.inOrder⟩
  · rw [nexts_queue, hnext r, Bool.toNat_false, Nat.add_zero] at hr
    have hwr := hw r
    rw [decide_eq_true hr, Bool.and_true] at hwr
    rw [ends_queue, hwr]
    exact h.apart r hr
  · refine (h.called r call hmem).imp (fun hc => hc) fun hc => ?_
    rw [count_queue]
    exact Nat.lt_of_lt_of_le hc (Nat.le_add_right _ _)

theorem queueEnd (h : Gated s) (hn : s.nexts r = 0) : Gated (s.queue (.EndWorker r callback)) := by
  refine h.queue (fun r' => ?_) fun _ => rfl
  by_cases hr : r = r'
  · subst hr
    simp [hn]
  · simp [Worker.isEnd, hr]

theorem queueClose (h : Gated s) (n : Nat) : Gated (s.queue (.CloseWorker n)) :=
  h.queue (fun _ => rfl) fun _ => rfl

theorem pending (h : Gated s) (p : Option Nat) : Gated { s with pendingCloseWorker := p } :=
  ⟨h.apart, h.called, h.inOrder⟩

theorem calls (h : Gated s) (n : Nat) : Gated { s with calls := n } := ⟨h.apart, h.called, h.inOrder⟩

theorem setObj (h : Gated s) : Gated (s.setObj r it) := ⟨h.apart, h.called, h.inOrder⟩

theorem endIterator (h : Gated s) (ho : s.objs[r]? = some it) (hw : s.EndWaits r) :
    Gated (s.endIterator r it callback) := by
  unfold Loop.endIterator
  split_ifs with he hn
  · exact h
  · exact h.setObj
  · exact h.setObj.queueEnd (hw it ho (eq_false_of_ne_true he) (eq_false_of_ne_true hn))

theorem closeIterator (h : Gated s) (entry : Nat × Nat) (hw : s.EndWaits entry.2) :
    Gated (s.closeIterator entry) := by
  unfold Loop.closeIterator
  split
  · exact h
  · next it ho =>
    split_ifs
    · exact h
    · exact h.endIterator ho hw

theorem closeAll (h : Gated s) (l : List (Nat × Nat)) (hw : ∀ e ∈ l, s.EndWaits e.2) :
    Gated (l.foldl Loop.closeIterator s) := by
  induction l generalizing s with
  | nil => exact h
  | cons entry l ih =>
    refine ih (h.closeIterator entry (hw entry List.mem_cons_self)) fun e he => ?_
    exact closeIterator_open (P := fun nexting n => nexting = false → n = 0) (hw e (List.mem_cons_of_mem _ he)) entry

theorem jsClose (h : Gated s) (hw : ∀ e ∈ s.iterators.entries, s.EndWaits e.2) : Gated s.jsClose := by
  unfold Loop.jsClose
  dsimp only
  have hs : Gated ({ s with calls := s.calls + 1 }.emit (.closeCalled s.calls)) :=
    (h.calls _).emit (fun _ _ => Event.noConfusion) fun _ => rfl
  split_ifs
  · exact hs.queueClose _
  · exact (hs.pending _).closeAll _ hw

theorem setTask {report' : Option Report} (h : Gated s) (ht : s.pool[i]? = some ⟨w, report'⟩) :
    Gated (s.setTask i ⟨w, some report⟩) := by
  refine ⟨fun r hr => ?_, fun r call hmem => ?_, h.inOrder⟩
  · rw [nexts, count_setTask ht] at hr
    rw [ends, count_setTask ht]
    exact h.apart r hr
  · rw [count_setTask ht]
    exact h.called r call hmem

theorem eraseIdx (h : Gated s) (ht : s.pool[i]? = some ⟨w, some report⟩)
    (hw : ∀ r call, w = .NextWorker r call → ∃ report, .nextCallback r call report ∈ s.log) :
    Gated { s with pool := s.pool.eraseIdx i } := by
  refine ⟨fun r hr => ?_, fun r call hmem => ?_, h.inOrder⟩
  · have hn := count_eraseIdx (f := Worker.isNext r) ht
    have he := count_eraseIdx (f := Worker.isEnd r) ht
    have := h.apart r
    unfold nexts ends at *
    omega
  · by_cases hc : w = .NextWorker r call
    · exact .inl (hw r call hc)
    · refine (h.called r call hmem).imp (fun hc => hc) fun hpos => ?_
      have hn := count_eraseIdx (f := (· = .NextWorker r call)) ht
      rw [decide_eq_false hc, Bool.toNat_false, Nat.add_zero] at hn
      exact hn ▸ hpos

theorem releaseIterator (h : Gated s) (id : Nat) : Gated (s.releaseIterator id) := by
  have hs : Gated { s with iterators := s.iterators.erase id } := ⟨h.apart, h.called, h.inOrder⟩
  unfold Loop.releaseIterator
  dsimp only
  split_ifs
  · split
    · exact hs
    · exact (hs.queueClose _).pending _
  · exact hs

theorem nextComplete (hi : Inv s) (h : Gated s) (ht : s.pool[i]? = some ⟨.NextWorker r call, some report⟩) :
    Gated ({ s with pool := s.pool.eraseIdx i }.nextComplete r call it report) := by
  have hs : Gated ({ s with pool := s.pool.eraseIdx i }.emit (.nextCallback r call report)) := by
    refine (h.emit (fun _ _ => Event.noConfusion) fun _ => rfl).eraseIdx ht fun r' call' hw => ?_
    cases hw
    exact ⟨report, List.mem_append_right _ (List.mem_singleton_self _)⟩
  have hn : nexts { s with pool := s.pool.eraseIdx i } r = 0 := by
    have hone := hi.one_next r
    have hadd : nexts { s with pool := s.pool.eraseIdx i } r + (decide (r = r)).toNat = s.nexts r :=
      count_eraseIdx ht
    rw [decide_eq_true rfl, Bool.toNat_true] at hadd
    omega
  unfold Loop.nextComplete
  split
  · unfold Loop.checkEndCallback
    split
    · exact hs
    · next callback hw =>
      have hq := @queueEnd _ r callback hs hn
      exact @setObj _ r _ hq
  · exact hs

theorem endComplete (h : Gated s) (ht : s.pool[i]? = some ⟨.EndWorker r callback, some report⟩) :
    Gated ({ s with pool := s.pool.eraseIdx i }.endComplete r it callback) := by
  have hn : s.nexts r = 0 := by
    have hpos : 0 < s.ends r := count_pos ht (decide_eq_true rfl)
    have := h.apart r
    omega
  have hs := (h.eraseIdx ht fun _ _ => Worker.noConfusion).releaseIterator it.id
  have hn' : (Loop.releaseIterator { s with pool := s.pool.eraseIdx i } it.id).nexts r = 0 := by
    rw [nexts_releaseIterator]
    exact Nat.le_zero.1 (hn ▸ (List.eraseIdx_sublist s.pool i).countP_le)
  exact (hs.emitEnd hn' (fun _ _ => Event.noConfusion) fun r' hr => (of_decide_eq_true hr).symm).emitEnd hn'
    (fun _ _ => Event.noConfusion) fun r' hr => (of_decide_eq_true hr).symm

theorem nextQueued (hi : Inv s) (h : Gated s) (ho : s.objs[r]? = some it) (he : it.ended = false) :
    Gated (((s.setObj r it').queue (.NextWorker r call)).emit (.nextCalled r call)) := by
  refine ⟨fun r' hr => ?_, fun r' call' hmem => ?_, h.inOrder.append fun _ hr => by cases hr⟩
  · have hend := hi.one_end r it ho
    rw [he, Bool.toNat_false] at hend
    replace hr : 0 < ((s.setObj r it').queue (.NextWorker r call)).nexts r' := hr
    rw [nexts_queue] at hr
    show ((s.setObj r it').queue (.NextWorker r call)).ends r' = 0
    rw [ends_queue]
    show s.ends r' = 0
    by_cases hr' : r = r'
    · subst hr'
      omega
    · rw [Worker.isNext, decide_eq_false hr'] at hr
      exact h.apart r' hr
  · rw [count_emit, count_queue]
    rcases List.mem_append.1 hmem with hmem | hmem
    · refine (h.called r' call' hmem).imp (Exists.imp fun _ hr => List.mem_append_left _ hr) fun hc => ?_
      exact Nat.lt_of_lt_of_le hc (Nat.le_add_right _ _)
    · cases List.mem_singleton.1 hmem
      rw [decide_eq_true rfl]
      exact .inr (Nat.succ_pos _)

theorem step (hi : Inv s) (h : Gated s) (ha : Loop.step s a = some t) (hok : s.NoOvertaking a) : Gated t := by
  cases stepped ha with
  | jsIterator options => exact ⟨h.apart, h.called, h.inOrder⟩
  | nextRefused ho he => exact (h.calls (s.calls + 1)).emit (fun _ _ => Event.noConfusion) fun _ => rfl
  | nextQueued ho he hn => exact nextQueued (hi.calls (s.calls + 1)) (h.calls (s.calls + 1)) ho he
  | jsEnd ho => exact (h.calls (s.calls + 1)).endIterator ho (hi.endWaits hok)
  | jsClose => exact h.jsClose fun e he => hi.endWaits (hok e he)
  | nextExecuted ht ho => exact (h.setObj.setTask ht).emit (fun _ _ => Event.noConfusion) fun _ => rfl
  | executed ht hw => exact h.setTask ht
  | nextCompleted ht ho => exact nextComplete hi h ht
  | endCompleted ht ho => exact h.endComplete ht
  | closeCompleted ht =>
    exact (h.eraseIdx ht fun _ _ => Worker.noConfusion).emit (fun _ _ => Event.noConfusion) fun _ => rfl

end Gated

/-- In a run without such an `End` no EndWorker is in the pool together with a NextWorker of the same iterator,
and an iterator's release and its `End` callback come after the callbacks of all its earlier `Next`s. The first
such `End` puts the two workers in the pool together. -/
theorem end_after_next (hr : Run (Steps Loop.step NoOvertaking) Loop.init as s) :
    (∀ r, 0 < s.nexts r → s.ends r = 0) ∧ InOrder s.log ∧
      ∀ a t, step s a = some t → ¬ s.NoOvertaking a → ∃ r, 0 < t.nexts r ∧ 0 < t.ends r := by
  have hs := hr.inv (I := fun s => Inv s ∧ Gated s)
    (fun _ _ _ h ha => ⟨h.1.step ha.1, h.2.step h.1 ha.1 ha.2⟩) ⟨Inv.init, Gated.init⟩
  exact ⟨hs.2.apart, hs.2.inOrder, fun _ _ => hs.1.overtaken⟩

def inTurn : List Action := endMeanwhile oneRow ++ [.complete 0, .execute 0 noRows none, .complete 0]

theorem end_after_next_inTurn : ∃ s, exec step init inTurn = some s ∧ .endCallback 0 (.js 1) ∈ s.log ∧
    (∀ r, 0 < s.nexts r → s.ends r = 0) ∧ InOrder s.log := by
  refine ⟨_, rfl, by decide, (@end_after_next _ inTurn ?_).imp_right And.left⟩
  refine .cons ⟨rfl, trivial⟩ (.cons ⟨rfl, trivial⟩ (.cons ⟨rfl, fun it _ _ hf => ?_⟩ ?_))
  · obtain ⟨-, x, hx, -⟩ := hf
    cases hx
  · exact .cons ⟨rfl, trivial⟩ (.cons ⟨rfl, trivial⟩ (.cons ⟨rfl, trivial⟩ (.cons ⟨rfl, trivial⟩ (.nil _))))

/-- `nexting` is cleared when the scan is found to be exhausted, before that `Next` completes: an `End` called
in between is queued at once, and its callback is called first. -/
theorem end_overtakes : ∃ s t,
    exec step init [.jsIterator {}, .jsNext 0, .execute 0 noRows (some ⟨"t"⟩), .jsEnd 0] = some s ∧
    0 < s.nexts 0 ∧ 0 < s.ends 0 ∧
    exec step s [.execute 1 noRows none, .complete 1] = some t ∧ ¬ InOrder t.log := by
  refine ⟨_, _, rfl, by decide, by decide, rfl, fun h => ?_⟩
  obtain ⟨report, hr⟩ := h [.nextCalled 0 0, .iteratorNext 0 .nothingLeft] (.released 0)
    [.endCallback 0 (.js 1)] rfl 0 rfl 0 List.mem_cons_self
  simp at hr

end Loop
end Kududown
