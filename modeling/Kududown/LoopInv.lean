import Kududown.Loop

/-!
# Invariants of the event loop

`Stepped` says once what a step can do. `Inv` holds in every state reached from `Loop.init`, whatever JS calls,
however the workers are scheduled and whatever the scans reply: at most one NextWorker of an iterator is out,
an iterator that was not ended has no EndWorker and one that was has at most one, queued or parked, and
`nexting` is what the last `IteratorNext` left there unless a NextWorker is still to be executed.
-/

namespace Kududown

/-! ### Counting in the pool -/

theorem countP_eraseIdx_add {α : Type} {l : List α} {i : Nat} {a : α} (h : l[i]? = some a) (p : α → Bool) :
    (l.eraseIdx i).countP p + (p a).toNat = l.countP p := by
  obtain ⟨hi, rfl⟩ := List.getElem?_eq_some_iff.1 h
  rw [← (List.getElem_cons_eraseIdx_perm hi).countP_eq p, List.countP_cons]
  cases p l[i] <;> rfl

theorem countP_set_add {α : Type} {l : List α} {i : Nat} {a : α} (h : l[i]? = some a) (b : α) (p : α → Bool) :
    (l.set i b).countP p + (p a).toNat = l.countP p + (p b).toNat := by
  obtain ⟨hi, -⟩ := List.getElem?_eq_some_iff.1 h
  rw [(List.set_perm_cons_eraseIdx hi b).countP_eq p, List.countP_cons, ← countP_eraseIdx_add h p]
  cases p b <;> simp [Nat.add_right_comm]

namespace Loop

def queuedNexts (s : Loop) (r : Nat) : Nat := s.pool.countP fun t => t.worker.isNext r && t.report.isNone

end Loop

def Event.exitOf (r : Nat) : Event → Option Exit
  | iteratorNext r' x => if r' = r then some x else none
  | _ => none

/-- Where the last `IteratorNext` of iterator `r` returned. -/
def lastExit (log : List Event) (r : Nat) : Option Exit := (log.filterMap (Event.exitOf r)).getLast?

def lastNexting (log : List Event) (r : Nat) : Bool := (lastExit log r).elim false (Exit.nexting true)

theorem lastExit_append {log : List Event} {e : Event} {r : Nat} (h : e.exitOf r = none) :
    lastExit (log ++ [e]) r = lastExit log r := by
  unfold lastExit
  rw [List.filterMap_append, List.filterMap_cons_none h, List.filterMap_nil, List.append_nil]

theorem lastExit_append_self {log : List Event} {r : Nat} {x : Exit} :
    lastExit (log ++ [.iteratorNext r x]) r = some x := by
  unfold lastExit
  simp [List.filterMap_append, Event.exitOf]

namespace Loop
variable {s t : Loop} {a : Action} {r r' i call id : Nat} {it it' : Iterator} {e : Event} {w w' : Worker}
  {callback : EndCallback} {report : Report} {openScan : ScanSpec → OpenReply} {tablePtr : Option KuduTable}

/-! ### What a step can do -/

inductive Stepped (s : Loop) : Action → Loop → Prop
  | jsIterator (options : IteratorOptions) : Stepped s (.jsIterator options) (s.jsIterator options)
  | nextRefused {r : Nat} {it : Iterator} (ho : s.objs[r]? = some it) (he : it.ended = true) :
      Stepped s (.jsNext r) ({ s with calls := s.calls + 1 }.emit (.nextRefused r s.calls))
  | nextQueued {r : Nat} {it : Iterator} (ho : s.objs[r]? = some it) (he : it.ended = false)
      (hn : s.nexts r = 0) :
      Stepped s (.jsNext r) ((({ s with calls := s.calls + 1 }.setObj r { it with nexting := true }).queue
        (.NextWorker r s.calls)).emit (.nextCalled r s.calls))
  | jsEnd {r : Nat} {it : Iterator} (ho : s.objs[r]? = some it) :
      Stepped s (.jsEnd r) ({ s with calls := s.calls + 1 }.endIterator r it (.js s.calls))
  | jsClose : Stepped s .jsClose s.jsClose
  | nextExecuted {i r call : Nat} {it : Iterator} {openScan : ScanSpec → OpenReply} {tablePtr : Option KuduTable}
      (ht : s.pool[i]? = some ⟨.NextWorker r call, none⟩) (ho : s.objs[r]? = some it) :
      Stepped s (.execute i openScan tablePtr) (s.nextExecute i r call it openScan tablePtr)
  | executed {i : Nat} {w : Worker} {openScan : ScanSpec → OpenReply} {tablePtr : Option KuduTable}
      (ht : s.pool[i]? = some ⟨w, none⟩) (hw : ∀ r, w.isNext r = false) :
      Stepped s (.execute i openScan tablePtr) (s.setTask i ⟨w, some (.ok [] true)⟩)
  | nextCompleted {i r call : Nat} {it : Iterator} {report : Report}
      (ht : s.pool[i]? = some ⟨.NextWorker r call, some report⟩) (ho : s.objs[r]? = some it) :
      Stepped s (.complete i) ({ s with pool := s.pool.eraseIdx i }.nextComplete r call it report)
  | endCompleted {i r : Nat} {it : Iterator} {callback : EndCallback} {report : Report}
      (ht : s.pool[i]? = some ⟨.EndWorker r callback, some report⟩) (ho : s.objs[r]? = some it) :
      Stepped s (.complete i) ({ s with pool := s.pool.eraseIdx i }.endComplete r it callback)
  | closeCompleted {i call : Nat} {report : Report}
      (ht : s.pool[i]? = some ⟨.CloseWorker call, some report⟩) :
      Stepped s (.complete i) ({ s with pool := s.pool.eraseIdx i }.emit (.closeCallback call))

theorem stepped (h : step s a = some t) : Stepped s a t := by
  cases a with
  | jsIterator options =>
    cases h
    exact .jsIterator options
  | jsNext r =>
    obtain ⟨it, ho, h⟩ := Option.bind_eq_some_iff.1 h
    split_ifs at h with hn
    cases h
    unfold jsNext
    dsimp only
    split_ifs with he
    · exact .nextRefused ho he
    · exact .nextQueued ho (eq_false_of_ne_true he) hn
  | jsEnd r =>
    obtain ⟨it, ho, rfl⟩ := Option.map_eq_some_iff.1 h
    exact .jsEnd ho
  | jsClose =>
    cases h
    exact .jsClose
  | execute i openScan tablePtr =>
    unfold step at h
    dsimp only at h
    split at h
    · next ht =>
      obtain ⟨it, ho, rfl⟩ := Option.map_eq_some_iff.1 h
      exact .nextExecuted ht ho
    · next w hw ht =>
      cases h
      refine .executed ht fun r => ?_
      cases w with
      | NextWorker r' call => exact absurd rfl (hw r' call)
      | EndWorker => rfl
      | CloseWorker => rfl
    · cases h
  | complete i =>
    unfold step at h
    dsimp only at h
    split at h
    · next ht =>
      obtain ⟨it, ho, rfl⟩ := Option.map_eq_some_iff.1 h
      exact .nextCompleted ht ho
    · next ht =>
      obtain ⟨it, ho, rfl⟩ := Option.map_eq_some_iff.1 h
      exact .endCompleted ht ho
    · next ht =>
      cases h
      exact .closeCompleted ht
    · cases h

/-! ### The invariant -/

structure Inv (s : Loop) : Prop where
  id_lt : s.currentIteratorId < 2 ^ 32
  fresh : ∀ r, s.objs.length ≤ r → s.nexts r = 0 ∧ s.ends r = 0 ∧ lastExit s.log r = none
  registered : ∀ e ∈ s.iterators.entries, ∃ it, s.objs[e.2]? = some it ∧ it.id = e.1
  one_next : ∀ r, s.nexts r ≤ 1
  one_end : ∀ r it, s.objs[r]? = some it → s.ends r + it.endWorker.isSome.toNat ≤ it.ended.toNat
  nexting : ∀ r it, s.objs[r]? = some it → it.nexting = (decide (0 < s.queuedNexts r) || lastNexting s.log r)
  reports : ∀ r call report, ⟨.NextWorker r call, some report⟩ ∈ s.pool →
    ∃ x, lastExit s.log r = some x ∧ report.isOk = x.isOk

theorem queuedNexts_le_nexts : s.queuedNexts r ≤ s.nexts r :=
  List.countP_mono_left fun t _ h => by
    rw [Bool.and_eq_true] at h
    exact h.1

theorem count_queue {f : Worker → Bool} : (s.queue w).count f = s.count f + (f w).toNat := by
  unfold count queue
  rw [List.countP_append, List.countP_singleton]
  cases f w <;> rfl

theorem count_emit {f : Worker → Bool} : (s.emit e).count f = s.count f := rfl

theorem count_setTask {f : Worker → Bool} {report' : Option Report} (ht : s.pool[i]? = some ⟨w, report'⟩) :
    (s.setTask i ⟨w, some report⟩).count f = s.count f :=
  Nat.add_right_cancel (countP_set_add ht _ fun t => f t.worker)

theorem count_eraseIdx {f : Worker → Bool} {report' : Option Report} (ht : s.pool[i]? = some ⟨w, report'⟩) :
    count { s with pool := s.pool.eraseIdx i } f + (f w).toNat = s.count f :=
  countP_eraseIdx_add ht fun t => f t.worker

theorem count_pos {f : Worker → Bool} {report' : Option Report} (ht : s.pool[i]? = some ⟨w, report'⟩)
    (hf : f w = true) : 0 < s.count f :=
  List.countP_pos_iff.2 ⟨_, List.mem_of_getElem? ht, hf⟩

theorem nexts_queue : (s.queue w).nexts r = s.nexts r + (w.isNext r).toNat := count_queue

theorem ends_queue : (s.queue w).ends r = s.ends r + (w.isEnd r).toNat := count_queue

theorem queuedNexts_queue : (s.queue w).queuedNexts r = s.queuedNexts r + (w.isNext r).toNat := by
  unfold queuedNexts queue
  rw [List.countP_append, List.countP_singleton]
  cases w.isNext r <;> simp

theorem queuedNexts_setTask (ht : s.pool[i]? = some ⟨.NextWorker r call, none⟩) :
    (s.setTask i ⟨.NextWorker r call, some report⟩).queuedNexts r' + (decide (r = r')).toNat = s.queuedNexts r' := by
  have hset := countP_set_add ht ⟨.NextWorker r call, some report⟩ fun t => t.worker.isNext r' && t.report.isNone
  rw [show ((Worker.NextWorker r call).isNext r' && (none : Option Report).isNone) = decide (r = r') from
    Bool.and_true _, Option.isNone_some, Bool.and_false, Bool.toNat_false, Nat.add_zero] at hset
  exact hset

theorem lt_length (ho : s.objs[r]? = some it) : r < s.objs.length := (List.getElem?_eq_some_iff.1 ho).1

theorem getElem?_setObj (ho : s.objs[r]? = some it) :
    (s.setObj r it').objs[r']? = if r' = r then some it' else s.objs[r']? := by
  unfold setObj
  rw [List.getElem?_set]
  by_cases h : r' = r
  · subst h
    rw [if_pos rfl, if_pos (lt_length ho), if_pos rfl]
  · rw [if_neg (Ne.symm h), if_neg h]

theorem getElem?_setObj_self (ho : s.objs[r]? = some it) : (s.setObj r it').objs[r]? = some it' :=
  (getElem?_setObj ho).trans (if_pos rfl)

/-- An iterator after `setObj` is the one that was set, or was there before. -/
theorem of_setObj {x : Iterator} (ho : s.objs[r]? = some it) (hx : (s.setObj r it').objs[r']? = some x) :
    r' = r ∧ x = it' ∨ r' ≠ r ∧ s.objs[r']? = some x := by
  rw [getElem?_setObj ho] at hx
  split_ifs at hx with hr
  · exact .inl ⟨hr, (Option.some.inj hx).symm⟩
  · exact .inr ⟨hr, hx⟩

/-- An iterator before `setObj` is the one that was replaced, or is still there. -/
theorem to_setObj {x : Iterator} (it' : Iterator) (ho : s.objs[r]? = some it) (hx : s.objs[r']? = some x) :
    x = it ∧ (s.setObj r it').objs[r']? = some it' ∨ (s.setObj r it').objs[r']? = some x := by
  rw [getElem?_setObj ho]
  split_ifs with hr
  · rw [hr, ho] at hx
    exact .inl ⟨(Option.some.inj hx).symm, rfl⟩
  · exact .inr hx

theorem length_setObj : (s.setObj r it).objs.length = s.objs.length := List.length_set

namespace Inv

theorem init : Inv init where
  id_lt := by decide
  fresh _ _ := ⟨rfl, rfl, rfl⟩
  registered e he := by cases he
  one_next _ := Nat.zero_le _
  one_end r it ho := by cases ho
  nexting r it ho := by cases ho
  reports r call report ht := by cases ht

theorem emit (h : Inv s) (he : ∀ r, e.exitOf r = none) : Inv (s.emit e) := by
  have hlast : ∀ r, lastExit (s.log ++ [e]) r = lastExit s.log r := fun r => lastExit_append (he r)
  refine ⟨h.id_lt, fun r hr => ?_, h.registered, h.one_next, h.one_end, fun r it ho => ?_,
    fun r call report ht => ?_⟩
  · show s.nexts r = 0 ∧ s.ends r = 0 ∧ lastExit (s.log ++ [e]) r = none
    rw [hlast]
    exact h.fresh r hr
  · show it.nexting = (decide (0 < s.queuedNexts r) || lastNexting (s.log ++ [e]) r)
    unfold lastNexting
    rw [hlast]
    exact h.nexting r it ho
  · show ∃ x, lastExit (s.log ++ [e]) r = some x ∧ _
    rw [hlast]
    exact h.reports r call report ht

theorem calls (h : Inv s) (n : Nat) : Inv { s with calls := n } :=
  ⟨h.id_lt, h.fresh, h.registered, h.one_next, h.one_end, h.nexting, h.reports⟩

theorem pending (h : Inv s) (p : Option Nat) : Inv { s with pendingCloseWorker := p } :=
  ⟨h.id_lt, h.fresh, h.registered, h.one_next, h.one_end, h.nexting, h.reports⟩

theorem erase (h : Inv s) (id : Nat) : Inv { s with iterators := s.iterators.erase id } :=
  ⟨h.id_lt, h.fresh, fun e he => h.registered e (OrdMap.mem_erase.1 he).1, h.one_next, h.one_end, h.nexting,
    h.reports⟩

theorem eraseIdx (h : Inv s) (ht : s.pool[i]? = some ⟨w, some report⟩) :
    Inv { s with pool := s.pool.eraseIdx i } := by
  have hle : ∀ p : Task → Bool, (s.pool.eraseIdx i).countP p ≤ s.pool.countP p := fun p =>
    (List.eraseIdx_sublist s.pool i).countP_le
  have hqueued : ∀ r, queuedNexts { s with pool := s.pool.eraseIdx i } r = s.queuedNexts r := fun r => by
    have := countP_eraseIdx_add ht fun t => t.worker.isNext r && t.report.isNone
    simpa [queuedNexts] using this
  refine ⟨h.id_lt, fun r hr => ?_, h.registered, fun r => ?_, fun r it ho => ?_, fun r it ho => ?_,
    fun r call report ht => h.reports r call report (List.mem_of_mem_eraseIdx ht)⟩
  · obtain ⟨h1, h2, h3⟩ := h.fresh r hr
    exact ⟨Nat.le_zero.1 (h1 ▸ hle _), Nat.le_zero.1 (h2 ▸ hle _), h3⟩
  · exact Nat.le_trans (hle _) (h.one_next r)
  · exact Nat.le_trans (Nat.add_le_add_right (hle _) _) (h.one_end r it ho)
  · rw [hqueued]
    exact h.nexting r it ho

/-- An iterator changes, but not what `IteratorNext` answers for. -/
theorem setObj (h : Inv s) (ho : s.objs[r]? = some it) (hid : it'.id = it.id) (hn : it'.nexting = it.nexting)
    (he : s.ends r + it'.endWorker.isSome.toNat ≤ it'.ended.toNat) : Inv (s.setObj r it') := by
  refine ⟨h.id_lt, fun r' hr => ?_, fun e hmem => ?_, h.one_next, fun r' it'' ho' => ?_, fun r' it'' ho' => ?_,
    h.reports⟩
  · rw [length_setObj] at hr
    exact h.fresh r' hr
  · obtain ⟨it'', ho', hid'⟩ := h.registered e hmem
    rcases to_setObj it' ho ho' with ⟨rfl, ho'⟩ | ho'
    · exact ⟨it', ho', hid.trans hid'⟩
    · exact ⟨it'', ho', hid'⟩
  · rcases of_setObj ho ho' with ⟨rfl, rfl⟩ | ⟨-, ho'⟩
    · exact he
    · exact h.one_end r' it'' ho'
  · rcases of_setObj ho ho' with ⟨rfl, rfl⟩ | ⟨-, ho'⟩
    · rw [hn]
      exact h.nexting r' it ho
    · exact h.nexting r' it'' ho'

theorem mem_queue_report (ht : ⟨w, some report⟩ ∈ (s.queue w').pool) : ⟨w, some report⟩ ∈ s.pool := by
  rcases List.mem_append.1 ht with ht | ht
  · exact ht
  · cases List.mem_singleton.1 ht

theorem queueEnd (h : Inv s) (ho : s.objs[r]? = some it)
    (he : s.ends r + 1 + it.endWorker.isSome.toNat ≤ it.ended.toNat) : Inv (s.queue (.EndWorker r callback)) := by
  refine ⟨h.id_lt, fun r' hr => ?_, h.registered, fun r' => ?_, fun r' it' ho' => ?_, fun r' it' ho' => ?_,
    fun r' call report ht => h.reports r' call report (mem_queue_report ht)⟩
  · obtain ⟨h1, h2, h3⟩ := h.fresh r' hr
    have hne : r ≠ r' := by
      rintro rfl
      exact absurd (lt_length ho) (Nat.not_lt.2 hr)
    rw [nexts_queue, ends_queue]
    exact ⟨h1, by simp [Worker.isEnd, h2, hne], h3⟩
  · rw [nexts_queue]
    exact h.one_next r'
  · rw [ends_queue]
    by_cases hr : r = r'
    · subst hr
      rw [show s.objs[r]? = some it' from ho'] at ho
      cases ho
      simp only [Worker.isEnd, decide_true, Bool.toNat_true]
      exact he
    · simp only [Worker.isEnd, hr, decide_false, Bool.toNat_false]
      exact h.one_end r' it' ho'
  · rw [queuedNexts_queue]
    exact h.nexting r' it' ho'

theorem queueClose (h : Inv s) (n : Nat) : Inv (s.queue (.CloseWorker n)) := by
  refine ⟨h.id_lt, fun r hr => ?_, h.registered, fun r => ?_, fun r it ho => ?_, fun r it ho => ?_,
    fun r call report ht => h.reports r call report (mem_queue_report ht)⟩
  · rw [nexts_queue, ends_queue]
    exact h.fresh r hr
  · rw [nexts_queue]
    exact h.one_next r
  · rw [ends_queue]
    exact h.one_end r it ho
  · rw [queuedNexts_queue]
    exact h.nexting r it ho

theorem setTask (h : Inv s) (ht : s.pool[i]? = some ⟨w, none⟩) (hw : ∀ r, w.isNext r = false) :
    Inv (s.setTask i ⟨w, some report⟩) := by
  have hnexts : ∀ r, (s.setTask i ⟨w, some report⟩).nexts r = s.nexts r := fun r => count_setTask ht
  have hends : ∀ r, (s.setTask i ⟨w, some report⟩).ends r = s.ends r := fun r => count_setTask ht
  have hqueued : ∀ r, (s.setTask i ⟨w, some report⟩).queuedNexts r = s.queuedNexts r := fun r => by
    have := countP_set_add ht ⟨w, some report⟩ fun t => t.worker.isNext r && t.report.isNone
    simp only [hw r, Bool.false_and, Bool.toNat_false, Nat.add_zero] at this
    exact this
  refine ⟨h.id_lt, fun r hr => ?_, h.registered, fun r => ?_, fun r it ho => ?_, fun r it ho => ?_,
    fun r call report' ht => ?_⟩
  · rw [hnexts, hends]
    exact h.fresh r hr
  · rw [hnexts]
    exact h.one_next r
  · rw [hends]
    exact h.one_end r it ho
  · rw [hqueued]
    exact h.nexting r it ho
  · rcases List.mem_or_eq_of_mem_set ht with ht | ht
    · exact h.reports r call report' ht
    · cases ht
      simpa [Worker.isNext] using hw r

theorem endIterator (h : Inv s) (ho : s.objs[r]? = some it) : Inv (s.endIterator r it callback) := by
  unfold Loop.endIterator
  have hend := h.one_end r it ho
  split_ifs with he hn
  · exact h
  · rw [eq_false_of_ne_true he, Bool.toNat_false] at hend
    refine h.setObj ho rfl rfl ?_
    simp only [Option.isSome_some, Bool.toNat_true]
    omega
  · rw [eq_false_of_ne_true he, Bool.toNat_false] at hend
    have hs : Inv (s.setObj r { it with ended := true }) := by
      refine h.setObj ho rfl rfl ?_
      simp only [Bool.toNat_true]
      omega
    refine hs.queueEnd (getElem?_setObj_self ho) ?_
    show s.ends r + 1 + it.endWorker.isSome.toNat ≤ 1
    omega

theorem closeIterator (h : Inv s) (entry : Nat × Nat) : Inv (s.closeIterator entry) := by
  unfold Loop.closeIterator
  split
  · exact h
  · next it ho =>
    split_ifs
    · exact h
    · exact h.endIterator ho

theorem closeAll (h : Inv s) (l : List (Nat × Nat)) : Inv (l.foldl Loop.closeIterator s) := by
  induction l generalizing s with
  | nil => exact h
  | cons entry l ih => exact ih (h.closeIterator entry)

theorem jsClose (h : Inv s) : Inv s.jsClose := by
  unfold Loop.jsClose
  dsimp only
  have hs : Inv ({ s with calls := s.calls + 1 }.emit (.closeCalled s.calls)) := (h.calls _).emit fun _ => rfl
  split_ifs
  · exact hs.queueClose _
  · exact (hs.pending _).closeAll _

theorem checkEndCallback (h : Inv s) (ho : s.objs[r]? = some it) : Inv (s.checkEndCallback r it) := by
  unfold Loop.checkEndCallback
  have hend := h.one_end r it ho
  split
  · exact h
  · next callback hw =>
    rw [hw, Option.isSome_some, Bool.toNat_true] at hend
    have hs : Inv (s.setObj r { it with endWorker := none }) :=
      h.setObj ho rfl rfl (Nat.le_trans (Nat.add_le_add_left (Nat.zero_le 1) _) hend)
    exact hs.queueEnd (getElem?_setObj_self ho) hend

theorem releaseIterator (h : Inv s) (id : Nat) : Inv (s.releaseIterator id) := by
  unfold Loop.releaseIterator
  dsimp only
  split_ifs
  · split
    · exact h.erase id
    · exact ((h.erase id).queueClose _).pending _
  · exact h.erase id

theorem nextComplete (h : Inv s) (ho : s.objs[r]? = some it) : Inv (s.nextComplete r call it report) := by
  unfold Loop.nextComplete
  split
  · exact (h.checkEndCallback ho).emit fun _ => rfl
  · exact h.emit fun _ => rfl

theorem endComplete (h : Inv s) : Inv (s.endComplete r it callback) :=
  ((h.releaseIterator it.id).emit fun _ => rfl).emit fun _ => rfl

theorem jsIterator (h : Inv s) (options : IteratorOptions) : Inv (s.jsIterator options) := by
  have hget : ∀ r it, (s.jsIterator options).objs[r]? = some it →
      s.objs[r]? = some it ∨ r = s.objs.length ∧ it = Iterator.new s.currentIteratorId options := by
    intro r it ho
    rcases Nat.lt_trichotomy r s.objs.length with hr | hr | hr
    · exact .inl (by rwa [Loop.jsIterator, List.getElem?_append_left hr] at ho)
    · subst hr
      rw [Loop.jsIterator, List.getElem?_concat_length] at ho
      exact .inr ⟨rfl, (Option.some.inj ho).symm⟩
    · have := lt_length ho
      simp only [Loop.jsIterator, List.length_append, List.length_singleton] at this
      omega
  obtain ⟨hnexts, hends, hlast⟩ := h.fresh s.objs.length (Nat.le_refl _)
  refine ⟨Nat.mod_lt _ (by decide), fun r hr => ?_, fun e hmem => ?_, h.one_next, fun r it ho => ?_,
    fun r it ho => ?_, h.reports⟩
  · refine h.fresh r (Nat.le_trans ?_ hr)
    simp [Loop.jsIterator]
  · rcases OrdMap.mem_insert.1 hmem with rfl | ⟨hmem, -⟩
    · exact ⟨_, List.getElem?_concat_length, Iterator.new_id options h.id_lt⟩
    · obtain ⟨it, ho, hid⟩ := h.registered e hmem
      exact ⟨it, by rw [Loop.jsIterator, List.getElem?_append_left (lt_length ho)]; exact ho, hid⟩
  · rcases hget r it ho with ho | ⟨rfl, rfl⟩
    · exact h.one_end r it ho
    · exact Nat.le_of_eq hends
  · rcases hget r it ho with ho | ⟨rfl, rfl⟩
    · exact h.nexting r it ho
    · have hqueued : s.queuedNexts s.objs.length = 0 := Nat.le_zero.1 (hnexts ▸ queuedNexts_le_nexts)
      show false = (decide (0 < s.queuedNexts s.objs.length) || lastNexting s.log s.objs.length)
      rw [hqueued, lastNexting, hlast]
      rfl

theorem nextQueued (h : Inv s) (ho : s.objs[r]? = some it) (hn : s.nexts r = 0) :
    Inv ((s.setObj r { it with nexting := true }).queue (.NextWorker r call)) := by
  have hself : ∀ r', (Worker.NextWorker r call).isNext r' = decide (r = r') := fun _ => rfl
  refine ⟨h.id_lt, fun r' hr => ?_, fun e hmem => ?_, fun r' => ?_, fun r' it' ho' => ?_, fun r' it' ho' => ?_,
    fun r' call' report ht => h.reports r' call' report (mem_queue_report ht)⟩
  · have hr' : s.objs.length ≤ r' := length_setObj ▸ hr
    have hne : r ≠ r' := by
      rintro rfl
      exact absurd (lt_length ho) (Nat.not_lt.2 hr')
    rw [nexts_queue, ends_queue, hself, decide_eq_false hne]
    exact h.fresh r' hr'
  · obtain ⟨it', ho', hid⟩ := h.registered e hmem
    rcases to_setObj { it with nexting := true } ho ho' with ⟨rfl, ho'⟩ | ho'
    · exact ⟨_, ho', hid⟩
    · exact ⟨it', ho', hid⟩
  · rw [nexts_queue, hself]
    show s.nexts r' + _ ≤ 1
    by_cases hr : r = r'
    · subst hr
      rw [hn, decide_eq_true rfl]
      decide
    · rw [decide_eq_false hr]
      exact h.one_next r'
  · rw [ends_queue]
    rcases of_setObj ho ho' with ⟨rfl, rfl⟩ | ⟨-, ho'⟩
    · exact h.one_end r' it ho
    · exact h.one_end r' it' ho'
  · rw [queuedNexts_queue, hself]
    rcases of_setObj ho ho' with ⟨rfl, rfl⟩ | ⟨hr, ho'⟩
    · rw [decide_eq_true rfl]
      simp
    · rw [decide_eq_false (Ne.symm hr)]
      exact h.nexting r' it' ho'

theorem only_next (h : Inv s) {report' : Option Report} {x : Task}
    (ht : s.pool[i]? = some ⟨.NextWorker r call, report'⟩) (hx : x ∈ s.pool.eraseIdx i) :
    x.worker.isNext r = false := by
  by_contra hne
  have hpos : 0 < count { s with pool := s.pool.eraseIdx i } (Worker.isNext r) :=
    List.countP_pos_iff.2 ⟨x, hx, eq_true_of_ne_false hne⟩
  have hadd : count { s with pool := s.pool.eraseIdx i } (Worker.isNext r) + (decide (r = r)).toNat = s.nexts r :=
    count_eraseIdx ht
  have hone := h.one_next r
  rw [decide_eq_true rfl, Bool.toNat_true] at hadd
  omega

/-- A NextWorker is out until it is executed, and `nexting` is set as long as it is out. -/
theorem nexting_of_queued (h : Inv s) (ht : s.pool[i]? = some ⟨.NextWorker r call, none⟩)
    (ho : s.objs[r]? = some it) : s.queuedNexts r = 1 ∧ it.nexting = true := by
  have hpos : 0 < s.queuedNexts r := List.countP_pos_iff.2 ⟨_, List.mem_of_getElem? ht, by simp [Worker.isNext]⟩
  have hle := @queuedNexts_le_nexts s r
  have hone := h.one_next r
  refine ⟨by omega, ?_⟩
  rw [h.nexting r it ho, decide_eq_true hpos, Bool.true_or]

/-- The NextWorker of `r` that is executed is the only one, so `nexting` is now what its `IteratorNext` left
there, and its report goes with that exit. -/
theorem nextExecute (h : Inv s) (ht : s.pool[i]? = some ⟨.NextWorker r call, none⟩)
    (ho : s.objs[r]? = some it) : Inv (s.nextExecute i r call it openScan tablePtr) := by
  have hf := @Iterator.iteratorNext_frame it openScan tablePtr
  have hl := @Iterator.iteratorNext_left it openScan tablePtr
  have hnexts : ∀ r', (s.nextExecute i r call it openScan tablePtr).nexts r' = s.nexts r' := fun r' =>
    count_setTask ht
  have hends : ∀ r', (s.nextExecute i r call it openScan tablePtr).ends r' = s.ends r' := fun r' =>
    count_setTask ht
  have hqueued : ∀ r', (s.nextExecute i r call it openScan tablePtr).queuedNexts r' + (decide (r = r')).toNat =
      s.queuedNexts r' := fun r' => queuedNexts_setTask ht
  obtain ⟨hone, hnexting⟩ := h.nexting_of_queued ht ho
  have hlast : ∀ r', r ≠ r' → lastExit (s.nextExecute i r call it openScan tablePtr).log r' = lastExit s.log r' :=
    fun r' hne => lastExit_append (by simp [Event.exitOf, hne])
  refine ⟨h.id_lt, fun r' hr' => ?_, fun e hmem => ?_, fun r' => ?_, fun r' it' ho' => ?_, fun r' it' ho' => ?_,
    fun r' call' report' ht' => ?_⟩
  · have hr'' : s.objs.length ≤ r' := length_setObj ▸ hr'
    have hne : r ≠ r' := by
      rintro rfl
      exact absurd (lt_length ho) (Nat.not_lt.2 hr'')
    rw [hnexts, hends, hlast r' hne]
    exact h.fresh r' hr''
  · obtain ⟨it', ho', hid⟩ := h.registered e hmem
    rcases to_setObj (it.iteratorNext openScan tablePtr).iterator ho ho' with ⟨rfl, ho'⟩ | ho'
    · exact ⟨_, ho', hf.id.trans hid⟩
    · exact ⟨it', ho', hid⟩
  · rw [hnexts]
    exact h.one_next r'
  · rw [hends]
    rcases of_setObj ho ho' with ⟨rfl, rfl⟩ | ⟨-, ho'⟩
    · rw [hf.endWorker, hf.ended]
      exact h.one_end r' it ho
    · exact h.one_end r' it' ho'
  · have hq := hqueued r'
    rcases of_setObj ho ho' with ⟨rfl, rfl⟩ | ⟨hr, ho'⟩
    · rw [decide_eq_true rfl, Bool.toNat_true] at hq
      rw [hl.nexting, hnexting, decide_eq_false (by omega), Bool.false_or, lastNexting]
      show _ = (lastExit (s.log ++ [_]) r').elim _ _
      rw [lastExit_append_self]
      rfl
    · rw [decide_eq_false (Ne.symm hr), Bool.toNat_false, Nat.add_zero] at hq
      rw [hq, lastNexting, hlast r' (Ne.symm hr)]
      exact h.nexting r' it' ho'
  · obtain ⟨hi, -⟩ := List.getElem?_eq_some_iff.1 ht
    rcases List.mem_cons.1 ((List.set_perm_cons_eraseIdx hi _).mem_iff.1 ht') with heq | hmem
    · cases heq
      exact ⟨_, lastExit_append_self, hl.report⟩
    · have hne : r ≠ r' := by
        rintro rfl
        exact absurd (h.only_next ht hmem) (by simp [Worker.isNext])
      rw [hlast r' hne]
      exact h.reports r' call' report' (List.mem_of_mem_eraseIdx hmem)

theorem step (h : Inv s) (ha : Loop.step s a = some t) : Inv t := by
  cases stepped ha with
  | jsIterator options => exact h.jsIterator options
  | nextRefused ho he => exact (h.calls (s.calls + 1)).emit fun _ => rfl
  | nextQueued ho he hn => exact ((h.calls (s.calls + 1)).nextQueued ho hn).emit fun _ => rfl
  | jsEnd ho => exact (h.calls _).endIterator ho
  | jsClose => exact h.jsClose
  | nextExecuted ht ho => exact h.nextExecute ht ho
  | executed ht hw => exact h.setTask ht hw
  | nextCompleted ht ho => exact (h.eraseIdx ht).nextComplete ho
  | endCompleted ht ho => exact (h.eraseIdx ht).endComplete
  | closeCompleted ht => exact (h.eraseIdx ht).emit fun _ => rfl

end Inv

theorem Inv.run {ok : Loop → Action → Prop} {as : List Action} (h : Inv s) (hr : Run (Steps Loop.step ok) s as t) :
    Inv t :=
  hr.inv (fun _ _ _ hs ha => hs.step ha.1) h

end Loop

end Kududown
