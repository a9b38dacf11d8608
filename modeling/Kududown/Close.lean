import Kududown.EndGate

/-!
# `Close`

`Close` ends every registered iterator and leaves its CloseWorker to the last release. Two things carry
`close_completes`: every registered iterator that was ended has its EndWorker in the pool, or parked with a
NextWorker to hand it over (`Covered`), and every call of `Close` is a CloseWorker in the pool, the pending one
or a callback called (`CloseBook`). Either is lost by the steps that `CloseSafe` excludes.
-/

namespace Kududown

namespace Loop
variable {s t : Loop} {a : Action} {as bs : List Action} {r r' i call id : Nat} {it it' : Iterator}
  {e : Event} {w : Worker} {callback : EndCallback} {report : Report}

/-! ### Every ended iterator has its EndWorker -/

def Registered (s : Loop) (r : Nat) : Prop := ∃ e ∈ s.iterators.entries, e.2 = r

def EndTaken (s : Loop) (r : Nat) : Prop :=
  ∀ it, s.objs[r]? = some it → it.ended = false → it.nexting = true → 0 < s.nexts r

/-- A step that keeps `Close` alive: no iterator is made after `Close`, no `End` of a registered iterator is
parked with no NextWorker out, `Close` is not called while another one is pending, and no NextWorker fails
while the `End` of its iterator is parked. -/
def CloseSafe (s : Loop) : Action → Prop
  | .jsIterator _ => ∀ n, .closeCalled n ∉ s.log
  | .jsEnd r => s.Registered r → s.EndTaken r
  | .jsClose => s.pendingCloseWorker = none ∧ ∀ e ∈ s.iterators.entries, s.EndTaken e.2
  | .complete i => ∀ r call e, s.pool[i]? = some ⟨.NextWorker r call, some (.error e)⟩ → s.Registered r →
      ∀ it, s.objs[r]? = some it → it.endWorker = none
  | _ => True

def EndComing (s : Loop) (r : Nat) (it : Iterator) : Prop :=
  0 < s.ends r ∨ it.endWorker.isSome = true ∧ 0 < s.nexts r

/-- Every registered iterator that was ended has its EndWorker to come. -/
def Covered (s : Loop) : Prop :=
  ∀ e ∈ s.iterators.entries, ∀ it, s.objs[e.2]? = some it → it.ended = true → s.EndComing e.2 it

theorem EndComing.mono (h : s.EndComing r it) (he : s.ends r ≤ t.ends r) (hn : s.nexts r ≤ t.nexts r)
    (hw : it'.endWorker = it.endWorker) : t.EndComing r it' := by
  refine h.imp (fun hpos => Nat.lt_of_lt_of_le hpos he) fun ⟨hsome, hpos⟩ => ⟨?_, Nat.lt_of_lt_of_le hpos hn⟩
  rw [hw]
  exact hsome

/-- The pool can be shortened before or after a worker is queued. -/
theorem queue_eraseIdx {x : Task} (ht : s.pool[i]? = some x) :
    { s with pool := s.pool.eraseIdx i }.queue w = { s.queue w with pool := (s.queue w).pool.eraseIdx i } := by
  obtain ⟨hi, -⟩ := List.getElem?_eq_some_iff.1 ht
  unfold queue
  rw [List.eraseIdx_append_of_lt_length hi]

theorem getElem?_queue {x : Task} (ht : s.pool[i]? = some x) : (s.queue w).pool[i]? = some x := by
  obtain ⟨hi, -⟩ := List.getElem?_eq_some_iff.1 ht
  unfold queue
  rw [List.getElem?_append_left hi]
  exact ht

namespace Covered

theorem queue (h : Covered s) (w : Worker) : Covered (s.queue w) := by
  intro e he it ho hend
  refine (h e he it ho hend).mono ?_ ?_ rfl
  · rw [ends_queue]
    exact Nat.le_add_right _ _
  · rw [nexts_queue]
    exact Nat.le_add_right _ _

theorem erase (h : Covered s) (id : Nat) : Covered { s with iterators := s.iterators.erase id } :=
  fun e he => h e (OrdMap.mem_erase.1 he).1

theorem setTask {report' : Option Report} (h : Covered s) (ht : s.pool[i]? = some ⟨w, report'⟩) :
    Covered (s.setTask i ⟨w, some report⟩) :=
  fun e he it ho hend => (h e he it ho hend).mono (count_setTask ht).ge (count_setTask ht).ge rfl

theorem setObj (h : Covered s) (ho : s.objs[r]? = some it) (he : it'.ended = it.ended)
    (hw : it'.endWorker = it.endWorker) : Covered (s.setObj r it') := by
  intro e hmem it'' ho' hend
  rcases of_setObj ho ho' with ⟨rfl, rfl⟩ | ⟨-, ho'⟩
  · exact (h e hmem it ho (he ▸ hend)).mono (Nat.le_refl _) (Nat.le_refl _) hw
  · exact h e hmem it'' ho' hend

theorem setEnded (h : Covered s) (ho : s.objs[r]? = some it) (hc : s.Registered r → s.EndComing r it') :
    Covered (s.setObj r it') := by
  intro e hmem it'' ho' hend
  rcases of_setObj ho ho' with ⟨rfl, rfl⟩ | ⟨-, ho'⟩
  · exact hc ⟨e, hmem, rfl⟩
  · exact h e hmem it'' ho' hend

/-- A worker leaves the pool: the EndWorker of an iterator that is no longer registered, or a NextWorker that
no parked `End` waits for. -/
theorem eraseIdx (h : Covered s) (ht : s.pool[i]? = some ⟨w, some report⟩)
    (hend : ∀ r, s.Registered r → w.isEnd r = false)
    (hnext : ∀ r, s.Registered r → w.isNext r = true → ∀ it, s.objs[r]? = some it → it.endWorker = none) :
    Covered { s with pool := s.pool.eraseIdx i } := by
  intro e he it ho hended
  have hends : ends { s with pool := s.pool.eraseIdx i } e.2 + (w.isEnd e.2).toNat = s.ends e.2 := count_eraseIdx ht
  have hnexts : nexts { s with pool := s.pool.eraseIdx i } e.2 + (w.isNext e.2).toNat = s.nexts e.2 :=
    count_eraseIdx ht
  rw [hend e.2 ⟨e, he, rfl⟩] at hends
  refine (h e he it ho hended).imp (fun hpos => Nat.lt_of_lt_of_le hpos hends.ge) fun ⟨hsome, hpos⟩ => ⟨hsome, ?_⟩
  cases hw : w.isNext e.2 with
  | false =>
    rw [hw] at hnexts
    exact Nat.lt_of_lt_of_le hpos hnexts.ge
  | true =>
    rw [hnext e.2 ⟨e, he, rfl⟩ hw it ho] at hsome
    cases hsome

theorem endIterator (h : Covered s) (ho : s.objs[r]? = some it) (hok : s.Registered r → s.EndTaken r) :
    Covered (s.endIterator r it callback) := by
  unfold Loop.endIterator
  split_ifs with he hn
  · exact h
  · exact h.setEnded ho fun hr => .inr ⟨rfl, hok hr it ho (eq_false_of_ne_true he) hn⟩
  · refine @setEnded _ r it { it with ended := true } (h.queue (.EndWorker r callback)) ho fun _ => .inl ?_
    rw [ends_queue, Worker.isEnd, decide_eq_true rfl]
    exact Nat.succ_pos _

theorem checkEndCallback (h : Covered s) (ho : s.objs[r]? = some it) : Covered (s.checkEndCallback r it) := by
  unfold Loop.checkEndCallback
  split
  · exact h
  · next callback _ =>
    refine @setEnded _ r it _ (h.queue (.EndWorker r callback)) ho fun _ => .inl ?_
    rw [ends_queue, Worker.isEnd, decide_eq_true rfl]
    exact Nat.succ_pos _

theorem releaseIterator {id : Nat} (h : Covered { s with iterators := s.iterators.erase id }) :
    Covered (s.releaseIterator id) := by
  unfold Loop.releaseIterator
  dsimp only
  split_ifs
  · split
    · exact h
    · exact h.queue _
  · exact h

/-- After an error `checkEndCallback` is not called, so no `End` may be parked. -/
theorem nextComplete (h : Covered s) (ht : s.pool[i]? = some ⟨.NextWorker r call, some report⟩)
    (ho : s.objs[r]? = some it) (hok : s.CloseSafe (.complete i)) :
    Covered ({ s with pool := s.pool.eraseIdx i }.nextComplete r call it report) := by
  have hleave : it.endWorker = none ∨ ¬ s.Registered r → Covered { s with pool := s.pool.eraseIdx i } := by
    intro hnone
    refine h.eraseIdx ht (fun _ _ => rfl) fun r' hr hnext it' ho' => ?_
    cases of_decide_eq_true hnext
    rw [ho] at ho'
    cases ho'
    exact hnone.resolve_right fun hnr => hnr hr
  rcases report with ⟨result, ok⟩ | e
  · cases hw : it.endWorker with
    | none =>
      unfold Loop.nextComplete Loop.checkEndCallback
      rw [hw]
      exact hleave (.inl hw)
    | some callback =>
      have hc := h.checkEndCallback ho
      unfold Loop.nextComplete
      unfold Loop.checkEndCallback at hc ⊢
      rw [hw] at hc ⊢
      dsimp only at hc ⊢
      -- queue the parked EndWorker first, so that it is there when the NextWorker leaves
      rw [queue_eraseIdx ht]
      refine hc.eraseIdx (getElem?_queue ht) (fun _ _ => rfl) fun r' hr hnext it' ho' => ?_
      cases of_decide_eq_true hnext
      have hset := Option.some.inj ((getElem?_setObj_self ho).symm.trans ho')
      rw [← hset]
  -- after an error `checkEndCallback` is not called, so no `End` may be parked
  · by_cases hr : s.Registered r
    · exact hleave (.inl (hok r call e ht hr it ho))
    · exact hleave (.inr hr)

/-- The iterator that is released is no longer registered when its EndWorker leaves the pool. -/
theorem endComplete (hi : Inv s) (h : Covered s) (ht : s.pool[i]? = some ⟨.EndWorker r callback, some report⟩)
    (ho : s.objs[r]? = some it) : Covered ({ s with pool := s.pool.eraseIdx i }.endComplete r it callback) := by
  refine releaseIterator (s := { s with pool := s.pool.eraseIdx i })
    (@eraseIdx { s with iterators := s.iterators.erase it.id } i _ _ (h.erase it.id) ht ?_ fun _ _ hn => by cases hn)
  rintro r' ⟨e, he, rfl⟩
  obtain ⟨he, hne⟩ := OrdMap.mem_erase.1 he
  refine decide_eq_false fun hr => hne ?_
  obtain ⟨it', ho', hid⟩ := hi.registered e he
  rw [← hr, ho] at ho'
  cases ho'
  exact hid.symm

theorem jsIterator (hi : Inv s) (h : Covered s) (options : IteratorOptions) : Covered (s.jsIterator options) := by
  intro e he it ho hend
  rcases OrdMap.mem_insert.1 he with rfl | ⟨he, -⟩
  · rw [Loop.jsIterator, List.getElem?_concat_length] at ho
    rw [← Option.some.inj ho] at hend
    exact Bool.noConfusion hend
  · obtain ⟨it', ho', -⟩ := hi.registered e he
    rw [Loop.jsIterator, List.getElem?_append_left (lt_length ho')] at ho
    exact h e he it ho hend

end Covered

/-! ### `Close` ends every registered iterator -/

def Ended (s : Loop) (r : Nat) : Prop := ∀ it, s.objs[r]? = some it → it.ended = true

theorem Ended.setObj (h : s.Ended r') (ho : s.objs[r]? = some it) (he : it.ended = true → it'.ended = true) :
    (s.setObj r it').Ended r' := by
  intro it'' ho'
  rcases of_setObj ho ho' with ⟨rfl, rfl⟩ | ⟨-, ho'⟩
  · exact he (h it ho)
  · exact h it'' ho'

theorem Ended.endIterator (h : s.Ended r') (ho : s.objs[r]? = some it) :
    (s.endIterator r it callback).Ended r' := by
  unfold Loop.endIterator
  split_ifs
  · exact h
  · exact h.setObj ho fun _ => rfl
  · exact h.setObj ho fun _ => rfl

theorem ended_endIterator (ho : s.objs[r]? = some it) : (s.endIterator r it callback).Ended r := by
  have hset : ∀ it', it'.ended = true → (s.setObj r it').Ended r := by
    intro it' he it'' ho'
    rw [← Option.some.inj ((getElem?_setObj_self ho).symm.trans ho')]
    exact he
  unfold endIterator
  split_ifs with he
  · intro it' ho'
    rw [ho] at ho'
    cases ho'
    exact he
  · exact hset _ rfl
  · exact hset _ rfl

theorem endIterator_iterators : (s.endIterator r it callback).iterators = s.iterators := by
  unfold endIterator
  split_ifs <;> rfl

theorem Ended.closeIterator (h : s.Ended r) (entry : Nat × Nat) : (s.closeIterator entry).Ended r := by
  unfold Loop.closeIterator
  split
  · exact h
  · next it ho =>
    split_ifs
    · exact h
    · exact h.endIterator ho

theorem ended_closeIterator (entry : Nat × Nat) : (s.closeIterator entry).Ended entry.2 := by
  unfold closeIterator
  split
  · next hnone =>
    intro it ho
    rw [hnone] at ho
    cases ho
  · next it ho =>
    split_ifs with he
    · intro it' ho'
      rw [ho] at ho'
      cases ho'
      exact he
    · exact ended_endIterator ho

theorem closeIterator_iterators (entry : Nat × Nat) : (s.closeIterator entry).iterators = s.iterators := by
  unfold closeIterator
  split
  · rfl
  · split_ifs
    · rfl
    · exact endIterator_iterators

theorem Ended.closeAll (h : s.Ended r) (l : List (Nat × Nat)) : (l.foldl Loop.closeIterator s).Ended r := by
  induction l generalizing s with
  | nil => exact h
  | cons entry l ih => exact ih (h.closeIterator entry)

theorem ended_closeAll {l : List (Nat × Nat)} {entry : Nat × Nat} (he : entry ∈ l) :
    (l.foldl closeIterator s).Ended entry.2 := by
  induction l generalizing s with
  | nil => cases he
  | cons e l ih =>
    rcases List.mem_cons.1 he with rfl | he
    · exact (ended_closeIterator entry).closeAll l
    · exact ih he

theorem closeAll_iterators (l : List (Nat × Nat)) : (l.foldl closeIterator s).iterators = s.iterators := by
  induction l generalizing s with
  | nil => rfl
  | cons entry l ih => exact ih.trans (closeIterator_iterators entry)

theorem jsClose_iterators : s.jsClose.iterators = s.iterators := by
  unfold jsClose
  dsimp only
  split_ifs
  · rfl
  · exact closeAll_iterators _

theorem ended_jsClose (hr : s.Registered r) : s.jsClose.Ended r := by
  obtain ⟨e, he, rfl⟩ := hr
  unfold jsClose
  dsimp only
  split_ifs with hnil
  · replace hnil : s.iterators.entries = [] := hnil
    rw [hnil] at he
    cases he
  · exact ended_closeAll he

namespace Covered

theorem closeIterator (h : Covered s) (entry : Nat × Nat) (hok : s.EndTaken entry.2) :
    Covered (s.closeIterator entry) := by
  unfold Loop.closeIterator
  split
  · exact h
  · next it ho =>
    split_ifs
    · exact h
    · exact h.endIterator ho fun _ => hok

theorem closeAll (h : Covered s) (l : List (Nat × Nat)) (hok : ∀ e ∈ l, s.EndTaken e.2) :
    Covered (l.foldl Loop.closeIterator s) := by
  induction l generalizing s with
  | nil => exact h
  | cons entry l ih =>
    refine ih (h.closeIterator entry (hok entry List.mem_cons_self)) fun e he => ?_
    exact closeIterator_open (P := fun nexting n => nexting = true → 0 < n) (hok e (List.mem_cons_of_mem _ he)) entry

theorem jsClose (h : Covered s) (hok : s.CloseSafe .jsClose) : Covered s.jsClose := by
  have hcall : ∀ p, Covered { { s with calls := s.calls + 1 }.emit (.closeCalled s.calls) with
      pendingCloseWorker := p } := fun _ => h
  unfold Loop.jsClose
  dsimp only
  split_ifs
  · exact (hcall _).queue _
  · exact (hcall (some s.calls)).closeAll _ hok.2

theorem step (hi : Inv s) (h : Covered s) (ha : Loop.step s a = some t) (hok : s.CloseSafe a) : Covered t := by
  cases stepped ha with
  | jsIterator options => exact h.jsIterator hi options
  | nextRefused ho he => exact h
  | @nextQueued r it ho he hn =>
    have hset := @setObj { s with calls := s.calls + 1 } r it { it with nexting := true } h ho rfl rfl
    exact hset.queue (.NextWorker r s.calls)
  | jsEnd ho => exact @endIterator _ _ _ _ h ho hok
  | jsClose => exact h.jsClose hok
  | nextExecuted ht ho =>
    exact @setTask _ _ _ _ _ (h.setObj ho Iterator.iteratorNext_frame.ended Iterator.iteratorNext_frame.endWorker) ht
  | executed ht hw => exact h.setTask ht
  | nextCompleted ht ho => exact h.nextComplete ht ho hok
  | endCompleted ht ho => exact h.endComplete hi ht ho
  | closeCompleted ht => exact h.eraseIdx ht (fun _ _ => rfl) fun _ _ hn => by cases hn

end Covered

def AllEnded (s : Loop) : Prop := ∀ n, .closeCalled n ∈ s.log → ∀ r, s.Registered r → s.Ended r

namespace AllEnded

theorem emit (h : AllEnded s) (he : ∀ n, e ≠ .closeCalled n) : AllEnded (s.emit e) := by
  intro n hn
  rcases List.mem_append.1 hn with hn | hn
  · exact h n hn
  · exact absurd (List.mem_singleton.1 hn).symm (he n)

theorem erase (h : AllEnded s) (id : Nat) : AllEnded { s with iterators := s.iterators.erase id } :=
  fun n hn r ⟨entry, hmem, hr⟩ => h n hn r ⟨entry, (OrdMap.mem_erase.1 hmem).1, hr⟩

theorem setObj (h : AllEnded s) (ho : s.objs[r]? = some it) (he : it.ended = true → it'.ended = true) :
    AllEnded (s.setObj r it') := fun n hn r' hr => (h n hn r' hr).setObj ho he

theorem endIterator (h : AllEnded s) (ho : s.objs[r]? = some it) : AllEnded (s.endIterator r it callback) := by
  unfold Loop.endIterator
  split_ifs
  · exact h
  · exact h.setObj ho fun _ => rfl
  · exact h.setObj ho fun _ => rfl

theorem nextComplete (h : AllEnded s) (ho : s.objs[r]? = some it) : AllEnded (s.nextComplete r call it report) := by
  unfold Loop.nextComplete
  split
  · refine emit ?_ fun _ => Event.noConfusion
    unfold Loop.checkEndCallback
    split
    · exact h
    · exact h.setObj ho fun he => he
  · exact h.emit fun _ => Event.noConfusion

theorem endComplete (h : AllEnded s) : AllEnded (s.endComplete r it callback) := by
  refine (emit ?_ fun _ => Event.noConfusion).emit fun _ => Event.noConfusion
  unfold Loop.releaseIterator
  dsimp only
  split_ifs
  · split <;> exact h.erase it.id
  · exact h.erase it.id

theorem step (h : AllEnded s) (ha : Loop.step s a = some t) (hok : s.CloseSafe a) : AllEnded t := by
  cases stepped ha with
  | jsIterator options => exact fun n hn => absurd hn (hok n)
  | nextRefused ho he => exact emit h fun _ => Event.noConfusion
  | @nextQueued r it ho he hn =>
    have hset := @setObj { s with calls := s.calls + 1 } r it { it with nexting := true } h ho fun he => he
    exact @emit (queue _ (.NextWorker r s.calls)) _ hset fun _ => Event.noConfusion
  | jsEnd ho => exact @endIterator { s with calls := s.calls + 1 } _ _ _ h ho
  | jsClose =>
    intro n _ r ⟨entry, hmem, hr⟩
    rw [jsClose_iterators] at hmem
    exact ended_jsClose ⟨entry, hmem, hr⟩
  | @nextExecuted i r call it openScan tablePtr ht ho =>
    have hf := @Iterator.iteratorNext_frame it openScan tablePtr
    exact @emit (setTask _ _ _) _ (h.setObj ho hf.ended.trans) fun _ => Event.noConfusion
  | executed ht hw => exact h
  | nextCompleted ht ho => exact @nextComplete { s with pool := _ } _ _ _ _ h ho
  | endCompleted ht ho => exact @endComplete { s with pool := _ } _ _ _ h
  | closeCompleted ht => exact @emit { s with pool := _ } _ h fun _ => Event.noConfusion

end AllEnded

/-! ### Every `Close` has its CloseWorker -/

theorem count_append_singleton {log : List Event} {e e' : Event} :
    (log ++ [e']).count e = log.count e + (decide (e' = e)).toNat := by
  rw [List.count_append, List.count_singleton]
  by_cases h : e' = e
  · simp [h]
  · simp [h]

/-- Each call of `Close` has its CloseWorker in the pool or pending, or has had its callback; one is pending
only while an iterator is registered. -/
structure CloseBook (s : Loop) : Prop where
  pending : s.pendingCloseWorker ≠ none → s.iterators.entries ≠ []
  called : ∀ n, s.log.count (.closeCalled n) =
    s.count (Worker.isClose n) + (decide (s.pendingCloseWorker = some n)).toNat + s.log.count (.closeCallback n)
  once : ∀ n, s.log.count (.closeCalled n) ≤ (decide (n < s.calls)).toNat

namespace CloseBook

theorem init : CloseBook init := ⟨fun h => absurd rfl h, fun _ => rfl, fun _ => Nat.zero_le _⟩

theorem emit (h : CloseBook s) (he : ∀ n, e ≠ .closeCalled n ∧ e ≠ .closeCallback n) : CloseBook (s.emit e) := by
  have hcount : ∀ n, (s.emit e).log.count (.closeCalled n) = s.log.count (.closeCalled n) ∧
      (s.emit e).log.count (.closeCallback n) = s.log.count (.closeCallback n) := by
    intro n
    unfold Loop.emit
    dsimp only
    rw [count_append_singleton, count_append_singleton, decide_eq_false (he n).1, decide_eq_false (he n).2]
    exact ⟨rfl, rfl⟩
  refine ⟨h.pending, fun n => ?_, fun n => ?_⟩
  · rw [(hcount n).1, (hcount n).2]
    exact h.called n
  · rw [(hcount n).1]
    exact h.once n

theorem nextCall (h : CloseBook s) : CloseBook { s with calls := s.calls + 1 } := by
  refine ⟨h.pending, h.called, fun n => Nat.le_trans (h.once n) (Bool.toNat_le_toNat fun hn => ?_)⟩
  exact decide_eq_true (Nat.lt_succ_of_lt (of_decide_eq_true hn))

theorem queue (h : CloseBook s) (hw : ∀ n, w.isClose n = false) : CloseBook (s.queue w) := by
  refine ⟨h.pending, fun n => ?_, h.once⟩
  rw [count_queue, hw]
  exact h.called n

theorem setObj (h : CloseBook s) : CloseBook (s.setObj r it) := ⟨h.pending, h.called, h.once⟩

theorem setTask {report' : Option Report} (h : CloseBook s) (ht : s.pool[i]? = some ⟨w, report'⟩) :
    CloseBook (s.setTask i ⟨w, some report⟩) := by
  refine ⟨h.pending, fun n => ?_, h.once⟩
  rw [count_setTask ht]
  exact h.called n

theorem eraseIdx (h : CloseBook s) (ht : s.pool[i]? = some ⟨w, some report⟩) (hw : ∀ n, w.isClose n = false) :
    CloseBook { s with pool := s.pool.eraseIdx i } := by
  refine ⟨h.pending, fun n => ?_, h.once⟩
  have hc := count_eraseIdx (f := Worker.isClose n) ht
  rw [hw, Bool.toNat_false, Nat.add_zero] at hc
  rw [hc]
  exact h.called n

theorem endIterator (h : CloseBook s) : CloseBook (s.endIterator r it callback) := by
  unfold Loop.endIterator
  split_ifs
  · exact h
  · exact h.setObj
  · exact h.setObj.queue fun _ => rfl

theorem closeAll (h : CloseBook s) (l : List (Nat × Nat)) : CloseBook (l.foldl closeIterator s) := by
  induction l generalizing s with
  | nil => exact h
  | cons entry l ih =>
    refine ih ?_
    unfold closeIterator
    split
    · exact h
    · split_ifs
      · exact h
      · exact h.endIterator

theorem jsClose (h : CloseBook s) (hnone : s.pendingCloseWorker = none) : CloseBook s.jsClose := by
  have hcalled : ∀ n, (s.log ++ [Event.closeCalled s.calls]).count (.closeCalled n) =
      s.log.count (.closeCalled n) + (decide (s.calls = n)).toNat := by
    intro n
    rw [count_append_singleton]
    simp
  have hcallback : ∀ n, (s.log ++ [Event.closeCalled s.calls]).count (.closeCallback n) =
      s.log.count (.closeCallback n) := by
    intro n
    rw [count_append_singleton]
    simp
  have honce : ∀ n, (s.log ++ [Event.closeCalled s.calls]).count (.closeCalled n) ≤ (decide (n < s.calls + 1)).toNat := by
    intro n
    have hn := h.once n
    rw [hcalled]
    by_cases h1 : s.calls = n
    · subst h1
      simpa using hn
    · refine Nat.le_trans (Nat.le_of_eq ?_) (h.nextCall.once n)
      simp [h1]
  have hbook := h.called
  rw [hnone] at hbook
  unfold Loop.jsClose
  dsimp only
  split_ifs with hnil
  · refine ⟨fun hp => absurd hnone hp, fun n => ?_, honce⟩
    rw [count_queue]
    show (s.log ++ [_]).count _ = s.count _ + _ + (decide (s.pendingCloseWorker = _)).toNat + (s.log ++ [_]).count _
    rw [hcalled, hcallback, hbook, hnone]
    simp [Worker.isClose]
    omega
  · apply closeAll
    refine ⟨fun _ => hnil, fun n => ?_, honce⟩
    show (s.log ++ [_]).count _ = s.count _ + (decide (some s.calls = _)).toNat + (s.log ++ [_]).count _
    rw [hcalled, hcallback, hbook]
    simp
    omega

theorem releaseIterator (h : CloseBook s) (id : Nat) : CloseBook (s.releaseIterator id) := by
  unfold Loop.releaseIterator
  dsimp only
  split_ifs with hnil
  · split
    · next hnone => exact ⟨fun hp => absurd hnone hp, h.called, h.once⟩
    · next call hsome =>
      replace hsome : s.pendingCloseWorker = some call := hsome
      refine ⟨fun hp => absurd rfl hp, fun n => ?_, h.once⟩
      have hc := h.called n
      have hq := @count_queue { s with iterators := s.iterators.erase id } (.CloseWorker call) (Worker.isClose n)
      rw [hsome] at hc
      refine hc.trans ?_
      show _ = (Loop.queue _ _).count _ + 0 + _
      rw [hq]
      simp [Worker.isClose]
      rfl
  · exact ⟨fun _ => hnil, h.called, h.once⟩

theorem jsIterator (h : CloseBook s) (options : IteratorOptions) : CloseBook (s.jsIterator options) :=
  ⟨fun _ => OrdMap.insert_ne_nil, h.called, h.once⟩

theorem nextComplete (h : CloseBook s) : CloseBook (s.nextComplete r call it report) := by
  unfold Loop.nextComplete
  split
  · refine emit ?_ fun n => ⟨Event.noConfusion, Event.noConfusion⟩
    unfold Loop.checkEndCallback
    split
    · exact h
    · exact (h.queue fun _ => rfl).setObj
  · exact h.emit fun n => ⟨Event.noConfusion, Event.noConfusion⟩

theorem endComplete (h : CloseBook s) : CloseBook (s.endComplete r it callback) :=
  ((h.releaseIterator it.id).emit fun _ => ⟨Event.noConfusion, Event.noConfusion⟩).emit
    fun _ => ⟨Event.noConfusion, Event.noConfusion⟩

theorem closeComplete (h : CloseBook s) (ht : s.pool[i]? = some ⟨.CloseWorker call, some report⟩) :
    CloseBook ({ s with pool := s.pool.eraseIdx i }.emit (.closeCallback call)) := by
  have hcalled : ∀ n, (s.log ++ [Event.closeCallback call]).count (.closeCalled n) =
      s.log.count (.closeCalled n) := by
    intro n
    rw [count_append_singleton]
    simp
  refine ⟨h.pending, fun n => ?_, fun n => ?_⟩
  · have hc : count { s with pool := s.pool.eraseIdx i } (Worker.isClose n) + (decide (call = n)).toNat =
        s.count (Worker.isClose n) := count_eraseIdx ht
    have hn := h.called n
    have hsame : decide (Event.closeCallback call = .closeCallback n) = decide (call = n) := by simp
    show (s.log ++ [_]).count _ = count { s with pool := s.pool.eraseIdx i } (Worker.isClose n) +
      (decide (s.pendingCloseWorker = some n)).toNat + (s.log ++ [_]).count _
    rw [hcalled, count_append_singleton, hsame]
    omega
  · show (s.log ++ [_]).count _ ≤ _
    rw [hcalled]
    exact h.once n

theorem step (h : CloseBook s) (ha : Loop.step s a = some t) (hok : s.CloseSafe a) : CloseBook t := by
  cases stepped ha with
  | jsIterator options => exact h.jsIterator options
  | nextRefused ho he => exact h.nextCall.emit fun _ => ⟨Event.noConfusion, Event.noConfusion⟩
  | nextQueued ho he hn =>
    exact (h.nextCall.setObj.queue fun _ => rfl).emit fun _ => ⟨Event.noConfusion, Event.noConfusion⟩
  | jsEnd ho => exact h.nextCall.endIterator
  | jsClose => exact h.jsClose hok.1
  | nextExecuted ht ho => exact (h.setObj.setTask ht).emit fun _ => ⟨Event.noConfusion, Event.noConfusion⟩
  | executed ht hw => exact h.setTask ht
  | nextCompleted ht ho => exact (h.eraseIdx ht fun _ => rfl).nextComplete
  | endCompleted ht ho => exact (h.eraseIdx ht fun _ => rfl).endComplete
  | closeCompleted ht => exact h.closeComplete ht

end CloseBook

/-! ### `Close` completes -/

structure Closed (s : Loop) : Prop where
  iterators : s.iterators.entries = []
  pending : s.pendingCloseWorker = none
  callbacks : ∀ n, .closeCalled n ∈ s.log → s.log.count (.closeCallback n) = 1

structure Closing (s : Loop) : Prop where
  inv : Inv s
  covered : Covered s
  allEnded : AllEnded s
  book : CloseBook s

namespace Closing

theorem init : Closing init :=
  ⟨Inv.init, fun e he => (by cases he), fun n hn => (by cases hn), CloseBook.init⟩

theorem step (h : Closing s) (ha : Loop.step s a = some t) (hok : s.CloseSafe a) : Closing t :=
  ⟨h.inv.step ha, h.covered.step h.inv ha hok, h.allEnded.step ha hok, h.book.step ha hok⟩

/-- With the pool empty nothing is to come, so no iterator is registered and no `Close` is pending. -/
theorem closed (h : Closing s) (hn : .closeCalled call ∈ s.log) (hp : s.pool = []) : Closed s := by
  have hzero : ∀ f, s.count f = 0 := fun f => by
    unfold count
    rw [hp]
    rfl
  have hnil : s.iterators.entries = [] := by
    refine List.eq_nil_iff_forall_not_mem.2 fun entry hmem => ?_
    obtain ⟨it, ho, -⟩ := h.inv.registered entry hmem
    have hended := h.allEnded call hn entry.2 ⟨entry, hmem, rfl⟩ it ho
    rcases h.covered entry hmem it ho hended with hpos | ⟨-, hpos⟩
    · exact absurd (hzero _) (Nat.pos_iff_ne_zero.1 hpos)
    · exact absurd (hzero _) (Nat.pos_iff_ne_zero.1 hpos)
  have hnone : s.pendingCloseWorker = none := by
    by_contra hsome
    exact h.book.pending hsome hnil
  refine ⟨hnil, hnone, fun n hmem => ?_⟩
  have hcalled := h.book.called n
  rw [hzero, hnone] at hcalled
  have honce := Nat.le_trans (h.book.once n) (Bool.toNat_le _)
  have hpos := List.count_pos_iff.2 hmem
  have h0 : (decide (none = some n)).toNat = 0 := rfl
  omega

end Closing

theorem log_subset (ha : step s a = some t) (hw : a.isWorker = true) : s.log ⊆ t.log := by
  cases stepped ha with
  | jsIterator | nextRefused | nextQueued | jsEnd | jsClose => cases hw
  | nextExecuted ht ho => exact (Later.nextExecute ht ho).log
  | executed ht _ => exact (Later.setTask ht).log
  | @nextCompleted i _ _ _ _ ht ho => exact (@Later.nextComplete { s with pool := s.pool.eraseIdx i } _ _ _ _ ho).log
  | @endCompleted i _ _ _ _ ht ho => exact (@Later.endComplete { s with pool := s.pool.eraseIdx i } _ _ _).log
  | @closeCompleted i _ _ ht => exact (@Later.emit { s with pool := s.pool.eraseIdx i } _).log

/-- Once `Close` has been called, in a run that keeps it alive, the workers come to an end when JS calls nothing
more; then the iterators are gone, no `Close` is pending and each has had its callback once. -/
theorem close_completes (hr : Run (Steps step CloseSafe) init as s) (hc : .closeCalled call ∈ s.log) :
    Settles CloseSafe s Closed := by
  have hs := hr.inv (I := Closing) (fun _ _ _ h ha => h.step ha.1 ha.2) Closing.init
  refine hs.inv.settles fun bs t hd hp => ?_
  have ht := Run.inv (I := fun u => Closing u ∧ .closeCalled call ∈ u.log)
    (fun _ _ _ h ha => ⟨h.1.step ha.1 ha.2.2, log_subset ha.1 ha.2.1 h.2⟩) hd ⟨hs, hc⟩
  exact ht.1.closed ht.2 hp

def closeMeanwhile : List Action := [.jsIterator {}, .jsNext 0, .jsClose]

def closeDrain : List Action :=
  [.execute 0 oneRow (some ⟨"t"⟩), .complete 0, .execute 0 noRows none, .complete 0, .execute 0 noRows none, .complete 0]

theorem closeMeanwhile_run : ∃ s t, exec step init closeMeanwhile = some s ∧ exec step s closeDrain = some t ∧
    .closeCalled 1 ∈ s.log ∧ t.pool = [] ∧ Run (Steps step CloseSafe) init closeMeanwhile s ∧
    Drain CloseSafe s closeDrain t := by
  refine ⟨_, _, rfl, rfl, by decide, rfl, ?_, ?_⟩
  · refine .cons ⟨rfl, fun n hn => by cases hn⟩ (.cons ⟨rfl, trivial⟩ (.cons ⟨rfl, rfl, fun e he => ?_⟩ (.nil _)))
    cases List.mem_singleton.1 he
    exact fun _ _ _ _ => by decide
  · have hok : ∀ {s : Loop} {report : Report}, report.isOk = true → s.pool[0]? = some ⟨.NextWorker 0 0, some report⟩ →
        s.CloseSafe (.complete 0) := by
      intro s report hok ht r call e ht'
      rw [ht] at ht'
      cases ht'
      cases hok
    refine .cons ⟨rfl, rfl, trivial⟩ (.cons ⟨rfl, rfl, hok rfl rfl⟩ (.cons ⟨rfl, rfl, trivial⟩ (.cons ⟨rfl, rfl, ?_⟩
      (.cons ⟨rfl, rfl, trivial⟩ (.cons ⟨rfl, rfl, ?_⟩ (.nil _))))))
    · intro r call e ht
      cases ht
    · intro r call e ht
      cases ht

theorem close_completes_meanwhile : ∃ s t, exec step init closeMeanwhile = some s ∧
    exec step s closeDrain = some t ∧ t.pool = [] ∧ Closed t := by
  obtain ⟨s, t, hs, ht, hc, hp, hr, hd⟩ := closeMeanwhile_run
  exact ⟨s, t, hs, ht, hp, (close_completes hr hc closeDrain t hd).2.2 hp⟩

/-- After a `Next` that returned a row `Close` parks the `End` of the iterator: no worker is left, the iterator is
still registered and `Close` still pending. -/
theorem close_hangs : ∃ s, exec step init (firstNext oneRow ++ [.jsClose]) = some s ∧ .closeCalled 1 ∈ s.log ∧
    s.pool = [] ∧ s.iterators.entries ≠ [] ∧ s.pendingCloseWorker = some 1 ∧ .closeCallback 1 ∉ s.log :=
  ⟨_, rfl, by decide, rfl, by decide, rfl, by decide⟩

end Loop
end Kududown
