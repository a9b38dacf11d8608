import Kududown.CallsMemory

/-!
# One callback a call

What the log says about a call (`about`): it is made, its worker is started, works and has executed, and then its
callback is run, once, with what the worker came back with (`Returned`). A call that is not through yet has got as far
as the stage of its job says (`Progressed`), so each call has its callback run or has a job, never both (`one_callback`).
-/

namespace Kududown
open Calls

namespace CallEvent
variable {ε : Type}

/-- The call that an event is about. -/
def call : CallEvent ε → Option Nat
  | called c _ _ _ | started c _ | work c _ | executed c _ _ | callback c _ _ => some c
  | filled _ | changed _ _ => none

def isCallbackOf (c : Nat) : CallEvent ε → Bool
  | callback c' _ _ => c' = c
  | _ => false

end CallEvent

namespace Calls
variable {σ π ε : Type} {backend : Backend σ π ε} {s t : Calls σ π ε} {log : List (CallEvent ε)} {e : CallEvent ε}
  {c callback i : Nat} {w : DatabaseWorker} {job : Job π} {k : σ}

/-- What the log says about a call. -/
def about (log : List (CallEvent ε)) (c : Nat) : List (CallEvent ε) := log.filter fun e => e.call = some c

/-- How far a call has got whose job is at this stage. -/
inductive Progressed (backend : Backend σ π ε) (c callback : Nat) (w : DatabaseWorker) :
    Stage π → List (CallEvent ε) → Prop
  | queued (asked : Request) : Progressed backend c callback w .queued [.called c callback w asked]
  | running {asked req : Request} {es : List ε} {p : π} (hreq : ∃ m, req = w.asked m) (hp : backend.Served req es p) :
      Progressed backend c callback w (.running p)
        (.called c callback w asked :: .started c req :: es.map (.work c))
  | executed {asked req : Request} {es : List ε} {p : π} {st : Status} {value : Slice} (hreq : ∃ m, req = w.asked m)
      (hp : backend.Served req es p) (hres : backend.result p = some (st, value)) :
      Progressed backend c callback w (.executed st value)
        (.called c callback w asked :: .started c req :: (es.map (.work c) ++ [.executed c st value]))

/-- The callback has been run. The worker of an empty batch has not been queued. -/
inductive Returned (backend : Backend σ π ε) (c : Nat) : List (CallEvent ε) → Prop
  | served {callback : Nat} {w : DatabaseWorker} {st : Status} {value : Slice} {es : List (CallEvent ε)}
      (h : Progressed backend c callback w (.executed st value) es) :
      Returned backend c (es ++ [.callback c callback (w.reply backend.ToString st value)])
  | empty (callback : Nat) (w : DatabaseWorker) :
      Returned backend c [.called c callback w (.batch {}), .callback c callback .nothing]

structure Accounted (backend : Backend σ π ε) (s : Calls σ π ε) : Prop where
  pending : ∀ job ∈ s.jobs, job.call < s.calls ∧
    Progressed backend job.call job.callback job.worker job.stage (about s.log job.call)
  returned : ∀ c < s.calls, c ∉ s.jobs.map Job.call → Returned backend c (about s.log c)
  unmade : ∀ c, s.calls ≤ c → about s.log c = []
  distinct : (s.jobs.map Job.call).Nodup

theorem about_concat : about (log ++ [e]) c = if e.call = some c then about log c ++ [e] else about log c := by
  unfold about
  rw [List.filter_append, List.filter_singleton]
  by_cases h : e.call = some c
  · simp [h]
  · simp [h]

theorem about_concat_self (h : e.call = some c) : about (log ++ [e]) c = about log c ++ [e] := by
  rw [about_concat, if_pos h]

theorem about_concat_ne (h : e.call ≠ some c) : about (log ++ [e]) c = about log c := by
  rw [about_concat, if_neg h]

/-! ### One job among the others -/

/-- The other jobs are those of other calls. -/
theorem mem_eraseIdx_jobs {jobs : List (Job π)} {other : Job π} (hnodup : (jobs.map Job.call).Nodup)
    (hi : jobs[i]? = some job) (h : other ∈ jobs.eraseIdx i) : other ∈ jobs ∧ other.call ≠ job.call := by
  obtain ⟨hlt, rfl⟩ := List.getElem?_eq_some_iff.1 hi
  have hperm := List.getElem_cons_eraseIdx_perm hlt
  have hcalls := (hperm.map Job.call).nodup_iff.2 hnodup
  refine ⟨hperm.mem_iff.1 (List.mem_cons_of_mem _ h), fun heq => ?_⟩
  refine (List.nodup_cons.1 hcalls).1 (List.mem_map.2 ⟨other, h, heq⟩)

theorem mem_set_jobs {jobs : List (Job π)} {other job' : Job π} (hnodup : (jobs.map Job.call).Nodup)
    (hi : jobs[i]? = some job) (h : other ∈ jobs.set i job') : other = job' ∨ other ∈ jobs ∧ other.call ≠ job.call := by
  obtain ⟨hlt, -⟩ := List.getElem?_eq_some_iff.1 hi
  rcases List.mem_cons.1 ((List.set_perm_cons_eraseIdx hlt job').mem_iff.1 h) with h | h
  · exact .inl h
  · exact .inr (mem_eraseIdx_jobs hnodup hi h)

theorem Progressed.next {m : Memory} {k k' : σ} {stage : Stage π} {es : List (CallEvent ε)}
    (h : Progressed backend job.call job.callback job.worker job.stage es) (hn : Next backend m k job stage e k')
    (hm : job.worker.request m = some (job.worker.asked m)) :
    Progressed backend job.call job.callback job.worker stage (es ++ [e]) ∧ e.call = some job.call := by
  cases hn with
  | start hstage hreq =>
    rw [hstage] at h
    cases h with
    | queued asked =>
      refine ⟨.running ⟨m, ?_⟩ .start, rfl⟩
      rw [hm] at hreq
      exact (Option.some.inj hreq).symm
  | @work p p' e k' hstage hw =>
    rw [hstage] at h
    cases h with
    | @running asked req es _ hreq hp =>
      have hnext : Progressed backend job.call job.callback job.worker (.running p')
          (.called job.call job.callback job.worker asked :: .started job.call req :: (es ++ [e]).map (.work job.call)) :=
        .running hreq (hp.work hw)
      rw [List.map_append] at hnext
      exact ⟨hnext, rfl⟩
  | executed hstage hres =>
    rw [hstage] at h
    cases h with
    | running hreq hp => exact ⟨.executed hreq hp hres, rfl⟩

/-! ### One step -/

theorem Accounted.queue {m : Memory} (h : s.Accounted backend) :
    ({ s with memory := m }.queue callback w).Accounted backend := by
  have hnew : about (s.log ++ [CallEvent.called s.calls callback w (w.asked m)]) s.calls =
      [CallEvent.called s.calls callback w (w.asked m)] := by
    rw [about_concat_self rfl, h.unmade _ (Nat.le_refl _)]
    rfl
  have hold : ∀ c, c ≠ s.calls → about (s.log ++ [CallEvent.called s.calls callback w (w.asked m)]) c = about s.log c :=
    fun c hc => about_concat_ne fun heq => hc (Option.some.inj heq).symm
  have hcalls : (s.jobs ++ [(⟨s.calls, callback, w, .queued⟩ : Job π)]).map Job.call = s.jobs.map Job.call ++ [s.calls] := by
    rw [List.map_append]
    rfl
  refine ⟨fun job hjob => ?_, fun c hc hmem => ?_, fun c hc => ?_, ?_⟩
  · rcases List.mem_append.1 hjob with hjob | hjob
    · obtain ⟨hlt, hprogress⟩ := h.pending job hjob
      refine ⟨Nat.lt_succ_of_lt hlt, ?_⟩
      show Progressed _ _ _ _ _ (about (s.log ++ _) _)
      rw [hold _ (Nat.ne_of_lt hlt)]
      exact hprogress
    · rw [List.mem_singleton.1 hjob]
      refine ⟨Nat.lt_succ_self _, ?_⟩
      show Progressed _ _ _ _ _ (about (s.log ++ _) _)
      rw [hnew]
      exact .queued _
  · have hmem' : c ∉ s.jobs.map Job.call ++ [s.calls] := hcalls ▸ hmem
    rw [List.mem_append, List.mem_singleton, not_or] at hmem'
    show Returned _ _ (about (s.log ++ _) _)
    rw [hold c hmem'.2]
    exact h.returned c (Nat.lt_of_le_of_ne (Nat.le_of_lt_succ hc) hmem'.2) hmem'.1
  · show about (s.log ++ _) _ = []
    rw [hold c (Nat.ne_of_gt hc)]
    exact h.unmade c (Nat.le_of_succ_le hc)
  · show ((s.jobs ++ [(⟨s.calls, callback, w, .queued⟩ : Job π)]).map Job.call).Nodup
    rw [hcalls]
    refine List.nodup_append.2 ⟨h.distinct, List.nodup_singleton _, fun c hc c' hc' heq => ?_⟩
    obtain ⟨job, hjob, rfl⟩ := List.mem_map.1 hc
    have hlt := (h.pending job hjob).1
    rw [heq, List.mem_singleton.1 hc'] at hlt
    exact Nat.lt_irrefl _ hlt

theorem Accounted.empty {m : Memory} (h : s.Accounted backend) (hasked : w.asked m = .batch {}) :
    ({ s with memory := m }.callAtOnce callback w).Accounted backend := by
  have hlog : ∀ c, about (s.log ++ [CallEvent.called s.calls callback w (w.asked m),
      .callback s.calls callback .nothing]) c =
        if c = s.calls then [.called c callback w (.batch {}), .callback c callback .nothing] else about s.log c := by
    intro c
    rw [List.append_cons, hasked]
    split_ifs with hc
    · rw [hc, about_concat_self rfl, about_concat_self rfl, h.unmade _ (Nat.le_refl _)]
      rfl
    · have hne : some s.calls ≠ some c := fun heq => hc (Option.some.inj heq).symm
      exact Eq.trans (about_concat_ne (by exact hne)) (about_concat_ne (by exact hne))
  refine ⟨fun job hjob => ?_, fun c hc hmem => ?_, fun c hc => ?_, h.distinct⟩
  · obtain ⟨hlt, hprogress⟩ := h.pending job hjob
    refine ⟨Nat.lt_succ_of_lt hlt, ?_⟩
    show Progressed _ _ _ _ _ (about (s.log ++ _) _)
    rw [hlog, if_neg (Nat.ne_of_lt hlt)]
    exact hprogress
  · show Returned _ _ (about (s.log ++ _) _)
    rw [hlog]
    split_ifs with heq
    · exact .empty callback w
    · exact h.returned c (Nat.lt_of_le_of_ne (Nat.le_of_lt_succ hc) heq) hmem
  · show about (s.log ++ _) _ = []
    rw [hlog, if_neg (Nat.ne_of_gt hc)]
    exact h.unmade c (Nat.le_of_succ_le hc)

/-- What is no event of a call leaves the account as it is. -/
theorem Accounted.wrote {m : Memory} (h : s.Accounted backend) (he : e.call = none) :
    Accounted backend { s with memory := m, log := s.log ++ [e] } := by
  have hlog : ∀ c, about (s.log ++ [e]) c = about s.log c := fun c => about_concat_ne (by simp [he])
  refine ⟨fun job hjob => ?_, fun c hc hmem => ?_, fun c hc => ?_, h.distinct⟩
  · show _ ∧ Progressed _ _ _ _ _ (about (s.log ++ [e]) _)
    rw [hlog]
    exact h.pending job hjob
  · show Returned _ _ (about (s.log ++ [e]) _)
    rw [hlog]
    exact h.returned c hc hmem
  · exact (hlog c).trans (h.unmade c hc)

theorem Accounted.setStage {k' : σ} {stage : Stage π} (h : s.Accounted backend) (hi : s.jobs[i]? = some job)
    (hn : Next backend s.memory s.kudu job stage e k')
    (hm : job.worker.request s.memory = some (job.worker.asked s.memory)) :
    ({ s with kudu := k' }.setStage i job stage e).Accounted backend := by
  obtain ⟨hlt, hprogress⟩ := h.pending job (List.mem_of_getElem? hi)
  obtain ⟨hnext, hcall⟩ := hprogress.next hn hm
  have hother : ∀ c, c ≠ job.call → about (s.log ++ [e]) c = about s.log c := fun c hc =>
    about_concat_ne fun heq => hc (Option.some.inj (heq.symm.trans hcall))
  have hcalls : (s.jobs.set i { job with stage }).map Job.call = s.jobs.map Job.call := map_setStage hi stage rfl
  refine ⟨fun other hjob => ?_, fun c hc hmem => ?_, fun c hc => ?_, ?_⟩
  · show _ ∧ Progressed _ _ _ _ _ (about (s.log ++ [e]) _)
    rcases mem_set_jobs h.distinct hi hjob with rfl | ⟨hjob, hne⟩
    · refine ⟨hlt, ?_⟩
      rw [about_concat_self hcall]
      exact hnext
    · rw [hother _ hne]
      exact h.pending other hjob
  · have hmem' : c ∉ s.jobs.map Job.call := hcalls ▸ hmem
    show Returned _ _ (about (s.log ++ [e]) _)
    rw [hother c fun heq => hmem' (heq ▸ List.mem_map.2 ⟨job, List.mem_of_getElem? hi, rfl⟩)]
    exact h.returned c hc hmem'
  · exact (hother c (Nat.ne_of_gt (Nat.lt_of_lt_of_le hlt hc))).trans (h.unmade c hc)
  · show ((s.jobs.set i { job with stage }).map Job.call).Nodup
    rw [hcalls]
    exact h.distinct

theorem Accounted.complete {st : Status} {value : Slice} (h : s.Accounted backend) (hi : s.jobs[i]? = some job)
    (hstage : job.stage = .executed st value) (hc : s.complete backend.ToString i job st value = some t) :
    t.Accounted backend := by
  obtain ⟨m, -, rfl⟩ := Option.map_eq_some_iff.1 hc
  obtain ⟨hlt, hprogress⟩ := h.pending job (List.mem_of_getElem? hi)
  rw [hstage] at hprogress
  have hother : ∀ c, c ≠ job.call → about (s.log ++ [CallEvent.callback job.call job.callback
      (job.worker.reply backend.ToString st value)]) c = about s.log c := fun c hc =>
    about_concat_ne fun heq => hc (Option.some.inj heq).symm
  have hperm := (List.getElem_cons_eraseIdx_perm (List.getElem?_eq_some_iff.1 hi).1).map Job.call
  refine ⟨fun other hjob => ?_, fun c hc hmem => ?_, fun c hc => ?_, ?_⟩
  · obtain ⟨hjob, hne⟩ := mem_eraseIdx_jobs h.distinct hi hjob
    show _ ∧ Progressed _ _ _ _ _ (about (s.log ++ _) _)
    rw [hother _ hne]
    exact h.pending other hjob
  · show Returned _ _ (about (s.log ++ _) _)
    by_cases heq : c = job.call
    · rw [heq, about_concat_self rfl]
      exact .served hprogress
    · rw [hother c heq]
      refine h.returned c hc fun hmem' => ?_
      rw [← hperm.mem_iff, List.map_cons, List.mem_cons, (List.getElem?_eq_some_iff.1 hi).2] at hmem'
      exact hmem'.elim heq hmem
  · exact (hother c (Nat.ne_of_gt (Nat.lt_of_lt_of_le hlt hc))).trans (h.unmade c hc)
  · exact (List.nodup_cons.1 (hperm.nodup_iff.2 h.distinct)).2

theorem Accounted.step (h : s.Accounted backend) (howned : s.Owned) (hstep : Stepped backend s t) :
    t.Accounted backend := by
  cases hstep with
  | queued callback hm hasked => exact h.queue
  | empty callback hm hlost hasked => exact h.empty hasked
  | memory hm => exact ⟨h.pending, h.returned, h.unmade, h.distinct⟩
  | wrote he => exact h.wrote (by cases he <;> rfl)
  | stage hi he => exact h.setStage hi he ((@Owned.toSafe σ π ε backend s howned).request _ (List.mem_of_getElem? hi))
  | complete hi hstage hc => exact h.complete hi hstage hc

theorem Accounted.start {buffers : Nat → Slice} :
    Accounted backend { memory := { buffers }, kudu := k } where
  pending job hjob := by cases hjob
  returned c hc := absurd hc (Nat.not_lt_zero c)
  unmade c hc := rfl
  distinct := List.nodup_nil

theorem Accounted.run {s₀ : Calls σ π ε} (h₀ : s₀.Owned) (hs : s₀.Accounted backend)
    (h : Relation.ReflTransGen (CallStep backend) s₀ s) : s.Accounted backend := by
  induction h with
  | refl => exact hs
  | tail hrun hstep ih => exact ih.step (h₀.run hrun) (stepped (h₀.run hrun) hstep)

theorem countP_about : log.countP (CallEvent.isCallbackOf c) = (about log c).countP (CallEvent.isCallbackOf c) := by
  unfold about
  rw [List.countP_filter]
  refine List.countP_congr fun e _ => ?_
  cases e <;> simp [CallEvent.isCallbackOf, CallEvent.call]

theorem Progressed.countP {stage : Stage π} {es : List (CallEvent ε)} (h : Progressed backend c callback w stage es) :
    es.countP (CallEvent.isCallbackOf c) = 0 := by
  refine List.countP_eq_zero.2 fun e he => ?_
  cases h with
  | queued => simp_all [CallEvent.isCallbackOf]
  | running =>
    simp only [List.mem_cons, List.mem_map] at he
    rcases he with rfl | rfl | ⟨e, -, rfl⟩ <;> exact Bool.false_ne_true
  | executed =>
    simp only [List.mem_cons, List.mem_append, List.mem_map, List.not_mem_nil, or_false] at he
    rcases he with rfl | rfl | ⟨e, -, rfl⟩ | rfl <;> exact Bool.false_ne_true

theorem Returned.countP {es : List (CallEvent ε)} (h : Returned backend c es) :
    es.countP (CallEvent.isCallbackOf c) = 1 := by
  cases h with
  | served hprogress =>
    rw [List.countP_append, hprogress.countP]
    simp [CallEvent.isCallbackOf]
  | empty callback w => simp [CallEvent.isCallbackOf]

theorem Accounted.countP (h : s.Accounted backend) (c : Nat) : s.log.countP (CallEvent.isCallbackOf c) =
    if c < s.calls ∧ c ∉ s.jobs.map Job.call then 1 else 0 := by
  rw [countP_about]
  split_ifs with hc
  · exact (h.returned c hc.1 hc.2).countP
  · rcases Nat.lt_or_ge c s.calls with hlt | hge
    · obtain ⟨job, hjob, rfl⟩ := List.mem_map.1 (not_not.1 fun hmem => hc ⟨hlt, hmem⟩)
      exact (h.pending job hjob).2.countP
    · rw [h.unmade c hge]
      rfl

end Calls

end Kududown
