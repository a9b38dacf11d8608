import Kududown.CallsLog

/-!
# The order of the events of a call

In the log a call comes before everything that is done for it, and its callback after (`Lifeline`), which gives the
places of the events to each other. A chained batch is written as what was put into it and deleted since its last
`clear` when `write` was called (`chained_batch`).
-/

namespace Kududown

namespace Calls
variable {ε σ π : Type} {backend : Backend σ π ε} {log X Z : List (CallEvent ε)} {e : CallEvent ε} {c n m : Nat}

/-- The call comes first, and its callback last. -/
inductive Lifeline (c : Nat) : List (CallEvent ε) → Prop
  | unmade : Lifeline c []
  | made {callback : Nat} {w : DatabaseWorker} {asked : Request} {mid last : List (CallEvent ε)}
      (hmid : ∀ e ∈ mid, (∀ callback w asked, e ≠ .called c callback w asked) ∧ ∀ callback r, e ≠ .callback c callback r)
      (hlast : last = [] ∨ ∃ callback r, last = [.callback c callback r]) :
      Lifeline c (.called c callback w asked :: (mid ++ last))

theorem Progressed.lifeline {callback : Nat} {w : DatabaseWorker} {stage : Stage π} {es last : List (CallEvent ε)}
    (h : Progressed backend c callback w stage es) (hlast : last = [] ∨ ∃ callback r, last = [.callback c callback r]) :
    Lifeline c (es ++ last) := by
  cases h with
  | queued asked => exact @Lifeline.made ε c callback w asked [] last (fun e he => by cases he) hlast
  | @running asked req es p hreq hp =>
    refine @Lifeline.made ε c callback w asked (.started c req :: es.map (.work c)) last (fun e he => ?_) hlast
    simp only [List.mem_cons, List.mem_map] at he
    rcases he with rfl | ⟨e, -, rfl⟩ <;> simp
  | @executed asked req es p st value hreq hp hres =>
    refine @Lifeline.made ε c callback w asked (.started c req :: (es.map (.work c) ++ [.executed c st value])) last
      (fun e he => ?_) hlast
    simp only [List.mem_cons, List.mem_append, List.mem_map, List.not_mem_nil, or_false] at he
    rcases he with rfl | ⟨e, -, rfl⟩ | rfl <;> simp

theorem Accounted.lifeline {s : Calls σ π ε} (h : s.Accounted backend) (c : Nat) : Lifeline c (about s.log c) := by
  by_cases hout : c ∈ s.jobs.map Job.call
  · obtain ⟨job, hjob, rfl⟩ := List.mem_map.1 hout
    have hline := (h.pending job hjob).2.lifeline (.inl rfl)
    rwa [List.append_nil] at hline
  · rcases Nat.lt_or_ge c s.calls with hlt | hge
    · have hreturned := h.returned c hlt hout
      generalize about s.log c = es at *
      cases hreturned with
      | served hp => exact hp.lifeline (.inr ⟨_, _, rfl⟩)
      | empty callback =>
        exact @Lifeline.made ε c callback _ _ [] _ (fun e he => by cases he) (.inr ⟨_, _, rfl⟩)
    · rw [h.unmade c hge]
      exact .unmade

/-- An event of a call is the first, or comes after it and is no second one; a callback is the last. -/
theorem Lifeline.split (h : Lifeline c (X ++ e :: Z)) :
    ((∃ callback w asked, e = .called c callback w asked) ↔ X = []) ∧
      (X ≠ [] → ∃ callback w asked, .called c callback w asked ∈ X) ∧ ((∃ callback r, e = .callback c callback r) → Z = []) := by
  generalize hes : X ++ e :: Z = es at h
  cases h with
  | unmade => exact absurd hes (by simp)
  | @made callback w asked mid last hmid hlast =>
    rcases X with _ | ⟨x, X⟩
    · obtain ⟨rfl, -⟩ := List.cons.inj hes
      exact ⟨by simp, by simp, by simp⟩
    · obtain ⟨rfl, hrest⟩ := List.cons.inj hes
      change X ++ e :: Z = mid ++ last at hrest
      have hmem : e ∈ mid ∨ (∃ callback r, e = .callback c callback r) ∧ Z = [] := by
        rcases hlast with rfl | ⟨callback', r, rfl⟩
        · rw [List.append_nil] at hrest
          exact .inl (hrest ▸ by simp)
        · rcases List.eq_nil_or_concat Z with rfl | ⟨Z, z, rfl⟩
          · obtain ⟨-, heq⟩ := List.append_inj' hrest rfl
            exact .inr ⟨⟨_, _, (List.cons.inj heq).1⟩, rfl⟩
          · rw [List.concat_eq_append, ← List.cons_append, ← List.append_assoc] at hrest
            obtain ⟨heq, -⟩ := List.append_inj' hrest rfl
            exact .inl (heq ▸ by simp)
      refine ⟨iff_of_false ?_ (List.cons_ne_nil _ _), fun _ => ⟨_, _, _, List.mem_cons_self⟩, ?_⟩
      · rintro ⟨callback', w', asked', rfl⟩
        rcases hmem with hmem | ⟨⟨_, _, heq⟩, -⟩
        · exact (hmid _ hmem).1 _ _ _ rfl
        · cases heq
      · rintro ⟨callback', r, rfl⟩
        rcases hmem with hmem | ⟨-, hZ⟩
        · exact absurd rfl ((hmid _ hmem).2 _ _)
        · exact hZ

/-! ### Positions in the log -/

variable {s : Calls σ π ε} {callback callback' : Nat} {w w' : DatabaseWorker} {asked asked' : Request} {r : Reply}
  {row : ε}

theorem about_split (hn : log[n]? = some e) (hc : e.call = some c) :
    about log c = about (log.take n) c ++ e :: about (log.drop (n + 1)) c := by
  obtain ⟨hlt, rfl⟩ := List.getElem?_eq_some_iff.1 hn
  have hsplit : log = log.take n ++ log[n] :: log.drop (n + 1) := by
    rw [← List.drop_eq_getElem_cons hlt, List.take_append_drop]
  unfold about
  conv_lhs => rw [hsplit]
  rw [List.filter_append, List.filter_cons_of_pos (by simpa using hc)]

theorem mem_about_take (hm : log[m]? = some e) (hc : e.call = some c) (hlt : m < n) : e ∈ about (log.take n) c :=
  List.mem_filter.2 ⟨List.mem_of_getElem? (List.getElem?_take_of_lt hlt ▸ hm), by simpa using hc⟩

theorem Accounted.not_called_lt (h : s.Accounted backend) (hm : s.log[m]? = some (.called c callback w asked))
    (hn : s.log[n]? = some (.called c callback' w' asked')) : ¬ m < n := by
  intro hlt
  have hsplit := h.lifeline c
  rw [about_split hn rfl] at hsplit
  have hmem := mem_about_take hm rfl hlt
  rw [hsplit.split.1.1 ⟨_, _, _, rfl⟩] at hmem
  cases hmem

/-- There is one call with a number. -/
theorem Accounted.called_unique (h : s.Accounted backend) (hm : s.log[m]? = some (.called c callback w asked))
    (hn : s.log[n]? = some (.called c callback' w' asked')) : m = n := by
  have hle := h.not_called_lt hm hn
  have hge := h.not_called_lt hn hm
  omega

theorem Accounted.returned_of_callback (h : s.Accounted backend) (hm : .callback c callback r ∈ s.log) :
    Returned backend c (about s.log c) := by
  have hpos : 0 < s.log.countP (CallEvent.isCallbackOf c) :=
    List.countP_pos_iff.2 ⟨_, hm, by simp [CallEvent.isCallbackOf]⟩
  rw [h.countP] at hpos
  split_ifs at hpos with hc
  · exact h.returned c hc.1 hc.2
  · cases hpos

/-- What has been done for a call that has been answered, and how. -/
theorem Accounted.served (h : s.Accounted backend) (hm : .callback c callback r ∈ s.log)
    (hn : .called c callback' w asked ∈ s.log) (hne : asked ≠ .batch {}) :
    ∃ req rows p st value, .started c req ∈ s.log ∧ backend.Served req rows p ∧ backend.result p = some (st, value) ∧
      r = w.reply backend.ToString st value ∧ ∀ row, .work c row ∈ s.log ↔ row ∈ rows := by
  have hmem : ∀ {e}, e.call = some c → (e ∈ s.log ↔ e ∈ about s.log c) := by
    intro e he
    unfold about
    rw [List.mem_filter, and_iff_left (by simpa using he)]
  have hreturned := h.returned_of_callback hm
  rw [hmem rfl] at hm hn
  generalize about s.log c = es at *
  cases hreturned with
  | @served _ _ st value _ hprogress =>
    cases hprogress with
    | @executed _ req rows p _ _ _ hp hres =>
      simp only [List.cons_append, List.append_assoc, List.mem_cons, List.mem_append, List.mem_map, reduceCtorEq,
        List.not_mem_nil, or_false, false_or, and_false, exists_false, CallEvent.callback.injEq, true_and,
        CallEvent.called.injEq] at hm hn
      obtain ⟨-, rfl, -⟩ := hn
      refine ⟨req, rows, p, st, value, (hmem rfl).2 (by simp), hp, hres, hm.2, fun row => ?_⟩
      rw [hmem rfl]
      simp
  | empty callback =>
    simp only [List.mem_cons, reduceCtorEq, List.not_mem_nil, or_false, CallEvent.called.injEq, true_and] at hn
    exact absurd hn.2.2 hne

/-- What has been done to a chained batch. -/
def changesOf (i : Nat) (log : List (CallEvent ε)) : List (Option Operation) :=
  log.filterMap fun
    | .changed j change => if j = i then some change else none
    | _ => none

/-- What there is in a chained batch. -/
def collectedIn (i : Nat) (log : List (CallEvent ε)) : List Operation := Batch.collected (changesOf i log)

theorem collectedIn_concat_of_ne {i : Nat} (h : ∀ change, e ≠ .changed i change) :
    collectedIn i (log ++ [e]) = collectedIn i log := by
  unfold collectedIn changesOf
  rw [List.filterMap_append]
  cases e with
  | changed j change =>
    have hj : j ≠ i := by
      rintro rfl
      exact h change rfl
    simp [hj]
  | called | filled | started | work | executed | callback => simp

theorem collectedIn_concat (i : Nat) (change : Option Operation) :
    collectedIn i (log ++ [CallEvent.changed i change]) = change.elim [] fun op => collectedIn i log ++ [op] := by
  have hchanges : changesOf i (log ++ [CallEvent.changed i change]) = changesOf i log ++ [change] := by
    unfold changesOf
    rw [List.filterMap_append]
    simp
  unfold collectedIn
  rw [hchanges, Batch.collected_concat]

/-- A chained batch holds what was put into it and deleted since it was cleared. `called` is what it holds when it is
written, and this is what its worker asks for when it is started. -/
structure Holds (s : Calls σ π ε) : Prop where
  batch : ∀ i, (s.memory.batches i).batch = Operation.batch (collectedIn i s.log)
  called : ∀ pre post c callback i asked, s.log = pre ++ .called c callback (.BatchWriteWorker i) asked :: post →
    asked = .batch (Operation.batch (collectedIn i pre))
  started : ∀ c req callback i asked, .started c req ∈ s.log →
    .called c callback (.BatchWriteWorker i) asked ∈ s.log → req = asked

/-- The callback of an empty batch is run at once. -/
def AtOnce (log : List (CallEvent ε)) : Prop :=
  ∀ pre post c callback w, log = pre ++ .called c callback w (.batch {}) :: post →
    ∃ later, post = .callback c callback .nothing :: later

theorem append_cons_eq_concat {α : Type} {xs pre post : List α} {x y : α} (h : xs ++ [y] = pre ++ x :: post) :
    pre = xs ∧ x = y ∧ post = [] ∨ ∃ mid, post = mid ++ [y] ∧ xs = pre ++ x :: mid := by
  rcases List.eq_nil_or_concat post with rfl | ⟨mid, last, rfl⟩
  · obtain ⟨rfl, heq⟩ := List.append_inj' h rfl
    exact .inl ⟨rfl, (List.cons.inj heq).1.symm, rfl⟩
  · rw [List.concat_eq_append, ← List.cons_append, ← List.append_assoc] at h
    obtain ⟨rfl, heq⟩ := List.append_inj' h rfl
    exact .inr ⟨mid, by rw [(List.cons.inj heq).1, List.concat_eq_append], rfl⟩

variable {t : Calls σ π ε}

/-- What one more event has to do. -/
theorem Holds.concat (h : s.Holds) (hlog : t.log = s.log ++ [e])
    (hbatch : ∀ i, (t.memory.batches i).batch = Operation.batch (collectedIn i (s.log ++ [e])))
    (hcalled : ∀ c callback i asked, e = .called c callback (.BatchWriteWorker i) asked →
      asked = .batch (s.memory.batches i).batch ∧ ∀ req, .started c req ∉ s.log)
    (hstarted : ∀ c req callback i asked, e = .started c req → .called c callback (.BatchWriteWorker i) asked ∈ s.log →
      req = asked) : t.Holds := by
  refine ⟨fun i => ?_, fun pre post c callback i asked hsplit => ?_, fun c req callback i asked hreq hmem => ?_⟩
  · rw [hlog]
    exact hbatch i
  · rw [hlog] at hsplit
    rcases append_cons_eq_concat hsplit with ⟨rfl, rfl, -⟩ | ⟨mid, -, hpre⟩
    · rw [← h.batch]
      exact (hcalled _ _ _ _ rfl).1
    · exact h.called _ _ _ _ _ _ hpre
  · rw [hlog, List.mem_append, List.mem_singleton] at hreq hmem
    rcases hreq with hreq | rfl
    · rcases hmem with hmem | rfl
      · exact h.started _ _ _ _ _ hreq hmem
      · exact absurd hreq ((hcalled _ _ _ _ rfl).2 req)
    · exact hstarted _ _ _ _ _ rfl (hmem.resolve_right (by simp))

/-- An event that changes no chained batch. -/
theorem Holds.batch_concat (h : s.Holds) {m : Memory} (hm : m.batches = s.memory.batches)
    (he : ∀ i change, e ≠ .changed i change) (i : Nat) :
    (m.batches i).batch = Operation.batch (collectedIn i (s.log ++ [e])) := by
  rw [hm, collectedIn_concat_of_ne (he i)]
  exact h.batch i

/-- The worker that is started is that of the call. -/
theorem Accounted.worker_eq {job : Job π} (h : s.Accounted backend) (hjob : job ∈ s.jobs) (hstage : job.stage = .queued)
    (hcalled : .called job.call callback w asked ∈ s.log) : w = job.worker := by
  have hmem : .called job.call callback w asked ∈ about s.log job.call := List.mem_filter.2 ⟨hcalled, by simp [CallEvent.call]⟩
  have hprogress := (h.pending job hjob).2
  rw [hstage] at hprogress
  generalize about s.log job.call = es at hprogress hmem
  cases hprogress with
  | queued asked' => exact (CallEvent.called.inj (List.mem_singleton.1 hmem)).2.2.1

theorem Accounted.not_started (h : s.Accounted backend) (req : Request) : .started s.calls req ∉ s.log := by
  intro hmem
  have habout : .started s.calls req ∈ about s.log s.calls := List.mem_filter.2 ⟨hmem, by simp [CallEvent.call]⟩
  rw [h.unmade s.calls (Nat.le_refl _)] at habout
  cases habout

theorem Accounted.asked_unique (h : s.Accounted backend) (hm : .called c callback w asked ∈ s.log)
    (hn : .called c callback' w' asked' ∈ s.log) : asked = asked' := by
  obtain ⟨m, hm⟩ := List.mem_iff_getElem?.1 hm
  obtain ⟨n, hn⟩ := List.mem_iff_getElem?.1 hn
  rw [h.called_unique hm hn, hn] at hm
  exact (CallEvent.called.inj (Option.some.inj hm)).2.2.2.symm

theorem Holds.queue {m : Memory} (h : s.Holds) (haccounted : s.Accounted backend) (hm : s.memory.Shares m) :
    ({ s with memory := m }.queue callback w).Holds := by
  refine h.concat rfl (h.batch_concat hm.batches (by simp)) (fun c callback' i asked heq => ?_) (by simp)
  obtain ⟨rfl, -, rfl, rfl⟩ := CallEvent.called.inj heq
  refine ⟨?_, haccounted.not_started⟩
  exact congrArg (fun batches => Request.batch (batches i).batch) hm.batches

theorem Holds.step (h : s.Holds) (howned : s.Owned) (hwritten : s.Written) (haccounted : s.Accounted backend)
    (hstep : Stepped backend s t) : t.Holds := by
  cases hstep with
  | queued callback hm => exact h.queue haccounted hm.shares
  | @empty m w callback hm =>
    have hcalled : ({ s with memory := m }.queue callback w).Holds := h.queue haccounted hm.shares
    refine @Holds.concat _ _ _ (.callback s.calls callback .nothing) _ _ hcalled ?_ (hcalled.batch_concat rfl (by simp))
      (by simp) (by simp)
    exact List.append_cons _ _ _
  | memory hm => exact ⟨fun i => hm.shares.batches ▸ h.batch i, h.called, h.started⟩
  | wrote he =>
    cases he with
    | filled b data =>
      refine h.concat rfl (h.batch_concat ?_ (by simp)) (by simp) (by simp)
      unfold Memory.fill
      split_ifs <;> rfl
    | @changed m i change hm =>
      refine h.concat rfl (fun j => ?_) (by simp) (by simp)
      show (if j = i then (m.batches i).change change else m.batches j).batch = _
      split_ifs with hj
      · rw [hj, hm.shares.batches, collectedIn_concat]
        exact Batch.change_batch (h.batch i) change
      · have hne : ∀ change', CallEvent.changed i change ≠ (.changed j change' : CallEvent ε) := fun change' heq =>
          hj (CallEvent.changed.inj heq).1.symm
        rw [hm.shares.batches, collectedIn_concat_of_ne hne]
        exact h.batch j
  | @stage i job stage e k hi he =>
    refine h.concat rfl (h.batch_concat rfl ?_) ?_ ?_
    · cases he <;> simp
    · cases he <;> simp
    · intro c req callback j asked heq hcalled
      cases he with
      | start hstage hreq =>
        obtain ⟨rfl, rfl⟩ := CallEvent.started.inj heq
        -- the batch is still what the call has asked for
        have hjob := List.mem_of_getElem? hi
        have hworker := (haccounted.worker_eq hjob hstage hcalled).symm
        obtain ⟨callback', hwritten⟩ := hwritten job hjob j hworker
        rw [hworker] at hreq
        rw [← Option.some.inj hreq]
        exact haccounted.asked_unique hwritten hcalled
      | work => cases heq
      | executed => cases heq
  | complete hi hstage hcomplete =>
    obtain ⟨m, hdispose, rfl⟩ := Option.map_eq_some_iff.1 hcomplete
    obtain ⟨m', hdispose', hshares, -⟩ := howned.disposeAll hi
    cases hdispose.symm.trans hdispose'
    exact h.concat rfl (h.batch_concat hshares.batches (by simp)) (by simp) (by simp)

theorem AtOnce.concat (h : AtOnce log) (he : ∀ c callback w, e ≠ .called c callback w (.batch {})) : AtOnce (log ++ [e]) := by
  intro pre post c callback w hsplit
  rcases append_cons_eq_concat hsplit with ⟨-, rfl, -⟩ | ⟨mid, rfl, hpre⟩
  · exact absurd rfl (he _ _ _)
  · obtain ⟨later, rfl⟩ := h _ _ _ _ _ hpre
    exact ⟨_, rfl⟩

theorem AtOnce.step (h : AtOnce s.log) (hstep : Stepped backend s t) : AtOnce t.log := by
  cases hstep with
  | @queued m w callback hm hasked =>
    refine h.concat fun c callback' w' heq => hasked ?_
    exact (CallEvent.called.inj heq).2.2.2
  | @empty m w callback hm hlost hasked =>
    intro pre post c callback' w' hsplit
    replace hsplit : s.log ++ [.called s.calls callback w (w.asked m), .callback s.calls callback .nothing] =
        pre ++ .called c callback' w' (.batch {}) :: post := hsplit
    rw [List.append_cons] at hsplit
    rcases append_cons_eq_concat hsplit with ⟨-, heq, -⟩ | ⟨mid, rfl, hpre⟩
    · cases heq
    · rcases append_cons_eq_concat hpre with ⟨-, heq, rfl⟩ | ⟨mid', rfl, hlog⟩
      · obtain ⟨rfl, rfl, -, -⟩ := CallEvent.called.inj heq
        exact ⟨[], rfl⟩
      · obtain ⟨later, rfl⟩ := h _ _ _ _ _ hlog
        exact ⟨_, rfl⟩
  | memory hm => exact h
  | wrote he =>
    refine h.concat ?_
    cases he <;> simp
  | stage hi he =>
    refine h.concat ?_
    cases he <;> simp
  | complete hi hstage hcomplete =>
    obtain ⟨m, -, rfl⟩ := Option.map_eq_some_iff.1 hcomplete
    exact h.concat (by simp)

end Calls

end Kududown
