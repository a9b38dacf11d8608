import Kududown.Close

/-!
# Every `next()` has its NextWorker

A `next()` that is let through queues a NextWorker, which runs the callback of this `next()`, and no other one does. So
it has run once when no worker is left (`NextBook.all_returned`).
-/

namespace Kududown

def Event.isNextCallbackOf (r call : Nat) : Event → Bool
  | nextCallback r' call' _ => r' = r && call' = call
  | _ => false

namespace Loop
variable {s t : Loop} {a : Action} {r i call : Nat} {it : Iterator} {e : Event} {w : Worker} {callback : EndCallback}
  {report : Report}

/-- Each `next()` that is let through has its NextWorker in the pool or has had its callback. -/
structure NextBook (s : Loop) : Prop where
  called : ∀ r call, s.log.count (.nextCalled r call) =
    s.count (· = .NextWorker r call) + s.log.countP (Event.isNextCallbackOf r call)
  once : ∀ r call, s.log.count (.nextCalled r call) ≤ (decide (call < s.calls)).toNat

theorem countP_append_singleton {log : List Event} {p : Event → Bool} :
    (log ++ [e]).countP p = log.countP p + (p e).toNat := by
  rw [List.countP_append, List.countP_singleton]
  cases p e <;> rfl

theorem log_emit : (s.emit e).log = s.log ++ [e] := rfl

namespace NextBook

theorem init : NextBook init := ⟨fun _ _ => rfl, fun _ _ => Nat.zero_le _⟩

theorem emit (h : NextBook s) (he : ∀ r call, e ≠ .nextCalled r call ∧ e.isNextCallbackOf r call = false) :
    NextBook (s.emit e) := by
  have hcalled : ∀ r call, (s.log ++ [e]).count (.nextCalled r call) = s.log.count (.nextCalled r call) := by
    intro r call
    rw [count_append_singleton, decide_eq_false (he r call).1]
    rfl
  refine ⟨fun r call => ?_, fun r call => ?_⟩
  · rw [count_emit, log_emit, hcalled, countP_append_singleton, (he r call).2]
    exact h.called r call
  · rw [log_emit, hcalled]
    exact h.once r call

theorem nextCall (h : NextBook s) : NextBook { s with calls := s.calls + 1 } := by
  refine ⟨h.called, fun r call => Nat.le_trans (h.once r call) (Bool.toNat_le_toNat fun hn => ?_)⟩
  exact decide_eq_true (Nat.lt_succ_of_lt (of_decide_eq_true hn))

theorem queue (h : NextBook s) (hw : ∀ r call, w ≠ .NextWorker r call) : NextBook (s.queue w) := by
  refine ⟨fun r call => ?_, h.once⟩
  rw [count_queue, decide_eq_false (hw r call)]
  exact h.called r call

theorem setObj (h : NextBook s) : NextBook (s.setObj r it) := ⟨h.called, h.once⟩

theorem pending (h : NextBook s) (p : Option Nat) : NextBook { s with pendingCloseWorker := p } := ⟨h.called, h.once⟩

theorem setTask {report' : Option Report} (h : NextBook s) (ht : s.pool[i]? = some ⟨w, report'⟩) :
    NextBook (s.setTask i ⟨w, some report⟩) := by
  refine ⟨fun r call => ?_, h.once⟩
  rw [count_setTask ht]
  exact h.called r call

theorem eraseIdx (h : NextBook s) (ht : s.pool[i]? = some ⟨w, some report⟩) (hw : ∀ r call, w ≠ .NextWorker r call) :
    NextBook { s with pool := s.pool.eraseIdx i } := by
  refine ⟨fun r call => ?_, h.once⟩
  have hcount := count_eraseIdx (f := (· = .NextWorker r call)) ht
  rw [decide_eq_false (hw r call), Bool.toNat_false, Nat.add_zero] at hcount
  rw [hcount]
  exact h.called r call

theorem endIterator (h : NextBook s) : NextBook (s.endIterator r it callback) := by
  unfold Loop.endIterator
  split_ifs
  · exact h
  · exact h.setObj
  · exact h.setObj.queue fun _ _ => Worker.noConfusion

theorem closeAll (h : NextBook s) (l : List (Nat × Nat)) : NextBook (l.foldl closeIterator s) := by
  induction l generalizing s with
  | nil => exact h
  | cons entry l ih =>
    refine ih ?_
    unfold closeIterator
    split
    · exact h
    · split_ifs
      · exact h
      · exact h.endIterator

theorem jsClose (h : NextBook s) : NextBook s.jsClose := by
  have hs : NextBook ({ s with calls := s.calls + 1 }.emit (.closeCalled s.calls)) :=
    h.nextCall.emit fun _ _ => ⟨Event.noConfusion, rfl⟩
  unfold Loop.jsClose
  dsimp only
  split_ifs
  · exact hs.queue fun _ _ => Worker.noConfusion
  · exact (hs.pending _).closeAll _

theorem releaseIterator (h : NextBook s) (id : Nat) : NextBook (s.releaseIterator id) := by
  have hs : NextBook { s with iterators := s.iterators.erase id } := ⟨h.called, h.once⟩
  unfold Loop.releaseIterator
  dsimp only
  split_ifs
  · split
    · exact hs
    · exact (hs.queue fun _ _ => Worker.noConfusion).pending _
  · exact hs

theorem nextQueued (h : NextBook s) :
    NextBook (({ s with calls := s.calls + 1 }.queue (.NextWorker r s.calls)).emit (.nextCalled r s.calls)) := by
  refine ⟨fun r' call => ?_, fun r' call => ?_⟩
  · have hcalled := h.called r' call
    rw [count_emit, count_queue, log_emit, count_append_singleton, countP_append_singleton]
    simp only [Event.nextCalled.injEq, Worker.NextWorker.injEq, Event.isNextCallbackOf, Bool.toNat_false, Nat.add_zero]
    exact (congrArg (· + _) hcalled).trans (Nat.add_right_comm _ _ _)
  · rw [log_emit, count_append_singleton]
    show s.log.count _ + _ ≤ (decide (call < s.calls + 1)).toNat
    have honce := h.once r' call
    by_cases hcall : s.calls = call
    · subst hcall
      rw [decide_eq_false (Nat.lt_irrefl _)] at honce
      rw [decide_eq_true (Nat.lt_succ_self _), Nat.le_zero.1 honce, Nat.zero_add]
      exact Bool.toNat_le _
    · have hne : Event.nextCalled r s.calls ≠ .nextCalled r' call := fun heq => hcall (Event.nextCalled.inj heq).2
      rw [decide_eq_false hne]
      exact h.nextCall.once r' call

theorem nextComplete (h : NextBook s) (ht : s.pool[i]? = some ⟨.NextWorker r call, some report⟩) :
    NextBook ({ s with pool := s.pool.eraseIdx i }.nextComplete r call it report) := by
  have hs : NextBook ({ s with pool := s.pool.eraseIdx i }.emit (.nextCallback r call report)) := by
    have hcalled : ∀ r' call', (s.log ++ [Event.nextCallback r call report]).count (.nextCalled r' call') =
        s.log.count (.nextCalled r' call') := by
      intro r' call'
      rw [count_append_singleton, decide_eq_false Event.noConfusion]
      rfl
    refine ⟨fun r' call' => ?_, fun r' call' => ?_⟩
    · have hcount := count_eraseIdx (f := (· = .NextWorker r' call')) ht
      rw [count_emit, log_emit, hcalled, countP_append_singleton, h.called r' call', ← hcount]
      simp only [Event.isNextCallbackOf, Worker.NextWorker.injEq, Bool.decide_and]
      omega
    · rw [log_emit, hcalled]
      exact h.once r' call'
  unfold Loop.nextComplete
  split
  · unfold Loop.checkEndCallback
    split
    · exact hs
    · exact @setObj _ r _ (hs.queue fun _ _ => Worker.noConfusion)
  · exact hs

theorem step (h : NextBook s) (ha : Loop.step s a = some t) : NextBook t := by
  cases stepped ha with
  | jsIterator options => exact ⟨h.called, h.once⟩
  | nextRefused ho he => exact h.nextCall.emit fun _ _ => ⟨Event.noConfusion, rfl⟩
  | nextQueued ho he hn => exact @nextQueued _ _ (h.setObj)
  | jsEnd ho => exact h.nextCall.endIterator
  | jsClose => exact h.jsClose
  | nextExecuted ht ho => exact (h.setObj.setTask ht).emit fun _ _ => ⟨Event.noConfusion, rfl⟩
  | executed ht hw => exact h.setTask ht
  | nextCompleted ht ho => exact h.nextComplete ht
  | endCompleted ht ho =>
    exact (((h.eraseIdx ht fun _ _ => Worker.noConfusion).releaseIterator _).emit
      fun _ _ => ⟨Event.noConfusion, rfl⟩).emit fun _ _ => ⟨Event.noConfusion, rfl⟩
  | closeCompleted ht =>
    exact (h.eraseIdx ht fun _ _ => Worker.noConfusion).emit fun _ _ => ⟨Event.noConfusion, rfl⟩

end NextBook

end Loop

end Kududown
