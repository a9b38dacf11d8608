import Kududown.LoopInv

/-!
# Workers come to an end

Every step of a worker lowers `work`, also one that queues another worker, and while there is a worker one can
take a step. So once JS calls nothing more the pool gets empty.
-/

namespace Kududown

/-- What a worker still takes: at most that many steps, with those of the workers that it queues. -/
def Task.work : Task → Nat
  | ⟨.NextWorker _ _, report⟩ => if report.isNone then 6 else 5
  | ⟨.EndWorker _ _, report⟩ => if report.isNone then 4 else 3
  | ⟨.CloseWorker _, report⟩ => if report.isNone then 2 else 1

namespace Loop
variable {s t : Loop} {a : Action} {r i call id : Nat} {it : Iterator} {w : Worker} {report : Report}
  {ok : Loop → Action → Prop} {P : Loop → Prop}

def work (s : Loop) : Nat := (s.pool.map Task.work).sum

theorem work_queue : (s.queue w).work = s.work + Task.work ⟨w, none⟩ := by
  unfold work queue
  simp

theorem work_eraseIdx {x : Task} (h : s.pool[i]? = some x) :
    work { s with pool := s.pool.eraseIdx i } + x.work = s.work := by
  obtain ⟨hi, rfl⟩ := List.getElem?_eq_some_iff.1 h
  have hp := ((List.getElem_cons_eraseIdx_perm hi).map Task.work).sum_eq
  rw [List.map_cons, List.sum_cons, Nat.add_comm] at hp
  exact hp

theorem work_setTask {x : Task} (h : s.pool[i]? = some x) (y : Task) :
    (s.setTask i y).work + x.work = s.work + y.work := by
  obtain ⟨hi, -⟩ := List.getElem?_eq_some_iff.1 h
  have hp := ((List.set_perm_cons_eraseIdx hi y).map Task.work).sum_eq
  rw [List.map_cons, List.sum_cons] at hp
  have he := work_eraseIdx h
  unfold work setTask at *
  dsimp only at *
  omega

theorem work_checkEndCallback : (s.checkEndCallback r it).work ≤ s.work + 4 := by
  unfold checkEndCallback
  split
  · exact Nat.le_add_right _ _
  · exact Nat.le_of_eq (@work_queue s (.EndWorker r _))

theorem work_releaseIterator : (s.releaseIterator id).work ≤ s.work + 2 := by
  unfold releaseIterator
  dsimp only
  split_ifs
  · split
    · exact Nat.le_add_right _ _
    · exact Nat.le_of_eq (@work_queue { s with iterators := s.iterators.erase id } (.CloseWorker _))
  · exact Nat.le_add_right _ _

theorem work_nextComplete : (s.nextComplete r call it report).work ≤ s.work + 4 := by
  unfold nextComplete
  split
  · exact work_checkEndCallback
  · exact Nat.le_add_right _ _

theorem step_work (ha : step s a = some t) (hw : a.isWorker = true) : t.work < s.work := by
  cases stepped ha with
  | jsIterator | nextRefused | nextQueued | jsEnd | jsClose => cases hw
  | @nextExecuted i r call it openScan tablePtr ht ho =>
    have h : (s.nextExecute i r call it openScan tablePtr).work + 6 = s.work + 5 := work_setTask ht _
    omega
  | @executed i w openScan tablePtr ht _ =>
    have h := work_setTask ht ⟨w, some (.ok [] true)⟩
    have hlt : Task.work ⟨w, some (.ok [] true)⟩ < Task.work ⟨w, none⟩ := by
      cases w <;> exact Nat.lt_succ_self _
    omega
  | nextCompleted ht ho =>
    have h : _ + 5 = s.work := work_eraseIdx ht
    exact Nat.lt_of_le_of_lt work_nextComplete (by omega)
  | endCompleted ht ho =>
    have h : _ + 3 = s.work := work_eraseIdx ht
    exact Nat.lt_of_le_of_lt work_releaseIterator (by omega)
  | closeCompleted ht =>
    have h : _ + 1 = s.work := work_eraseIdx ht
    exact Nat.lt_of_succ_le (Nat.le_of_eq h)

theorem Inv.obj_of_queued (h : Inv s) (hr : 0 < s.nexts r + s.ends r) : ∃ it, s.objs[r]? = some it := by
  refine ⟨_, List.getElem?_eq_getElem (Nat.lt_of_not_le fun hle => ?_)⟩
  have := h.fresh r hle
  omega

theorem Inv.obj_of_next {report' : Option Report} (h : Inv s) (ht : s.pool[i]? = some ⟨.NextWorker r call, report'⟩) :
    ∃ it, s.objs[r]? = some it :=
  h.obj_of_queued (Nat.add_pos_left (count_pos ht (decide_eq_true rfl)) _)

theorem Inv.obj_of_end {report' : Option Report} (h : Inv s) (ht : s.pool[i]? = some ⟨.EndWorker r callback, report'⟩) :
    ∃ it, s.objs[r]? = some it :=
  h.obj_of_queued (Nat.add_pos_right _ (count_pos ht (decide_eq_true rfl)))

theorem Inv.progress (h : Inv s) (hp : s.pool ≠ []) : ∃ a t, a.isWorker = true ∧ Loop.step s a = some t := by
  obtain ⟨⟨w, report⟩, pool, hpool⟩ := List.exists_cons_of_ne_nil hp
  have ht : s.pool[0]? = some ⟨w, report⟩ := by rw [hpool]; rfl
  rcases report with _ | report
  · refine ⟨.execute 0 (fun _ => .error ⟨.NetworkError, ""⟩) none, ?_⟩
    unfold Loop.step
    simp only [ht]
    cases w with
    | NextWorker r call =>
      obtain ⟨it, ho⟩ := h.obj_of_next ht
      exact ⟨_, rfl, congrArg (Option.map _) ho⟩
    | EndWorker r callback => exact ⟨_, rfl, rfl⟩
    | CloseWorker call => exact ⟨_, rfl, rfl⟩
  · refine ⟨.complete 0, ?_⟩
    unfold Loop.step
    simp only [ht]
    cases w with
    | NextWorker r call =>
      obtain ⟨it, ho⟩ := h.obj_of_next ht
      exact ⟨_, rfl, congrArg (Option.map _) ho⟩
    | EndWorker r callback =>
      obtain ⟨it, ho⟩ := h.obj_of_end ht
      exact ⟨_, rfl, congrArg (Option.map _) ho⟩
    | CloseWorker call => exact ⟨_, rfl, rfl⟩

def Drain (ok : Loop → Action → Prop) : Loop → List Action → Loop → Prop :=
  Run (Steps step fun s a => a.isWorker = true ∧ ok s a)

/-- When JS calls nothing more the workers come to an end, in whatever order they take their steps, and then `P`
holds. -/
def Settles (ok : Loop → Action → Prop) (s : Loop) (P : Loop → Prop) : Prop :=
  ∀ bs t, Drain ok s bs t → bs.length ≤ s.work ∧
    (t.pool ≠ [] → ∃ a u, a.isWorker = true ∧ step t a = some u) ∧ (t.pool = [] → P t)

theorem Inv.settles (h : Inv s) (hP : ∀ bs t, Drain ok s bs t → t.pool = [] → P t) : Settles ok s P := by
  intro bs t hd
  have hlen := hd.length_le (μ := work) fun _ _ _ ha => step_work ha.1 ha.2.1
  exact ⟨by omega, (h.run hd).progress, hP bs t hd⟩

end Loop
end Kududown
