import Kududown.Calls

/-!
# The memory of calls and workers

No run of calls and workers deletes an array twice or a Buffer's bytes, or reads what is gone; and what is not deleted
when all workers are through was given to `approximateSize`, or is empty (`safe`). A chained batch is as it was when it
was written for as long as its worker is out (`Written`).
-/

namespace Kududown

/-! ### Memory -/

namespace Calls
variable {σ π ε : Type} {s t : Calls σ π ε} {m m' : Memory} {w : DatabaseWorker} {held : List (Value × RawSlice)}
  {info : List Value}

/-- The slices of the worker are new in `m'`, the other ones are as in `m`. -/
structure Sliced (m m' : Memory) (new : List (Value × RawSlice)) : Prop where
  shares : m.Shares m'
  owned : ∀ held, m.Owned held → m'.Owned (new ++ held)

theorem sliced_one (m : Memory) (v : Value) :
    Sliced m (stringOrBufferToSlice m v).2 [(v, (stringOrBufferToSlice m v).1)] :=
  ⟨Memory.stringOrBufferToSlice_shares m v, fun _ h => h.stringOrBufferToSlice v⟩

theorem Sliced.trans {m'' : Memory} {new new' : List (Value × RawSlice)} (h : Sliced m m' new)
    (h' : Sliced m' m'' new') : Sliced m m'' (new' ++ new) := by
  refine ⟨h.shares.trans h'.shares, fun held hm => ?_⟩
  rw [List.append_assoc]
  exact h'.owned _ (h.owned _ hm)

theorem sliced_two (m : Memory) (v v' : Value) :
    Sliced m (stringOrBufferToSlice (stringOrBufferToSlice m v).2 v').2
      [(v', (stringOrBufferToSlice (stringOrBufferToSlice m v).2 v').1), (v, (stringOrBufferToSlice m v).1)] :=
  (sliced_one m v).trans (sliced_one _ v')

/-- A method that does not throw queues a worker with new slices, and none for an empty batch. -/
def Queues (s t : Calls σ π ε) : Prop :=
  ∃ m callback w, t = { s with memory := m }.queue callback w ∧ Sliced s.memory m (w.disposals ++ w.lost) ∧
    w.asked m ≠ .batch {}

theorem exists_of_map_ok {α β : Type} {x : Except String α} {f : α → β} {b : β} (h : x.map f = .ok b) :
    ∃ a, x = .ok a ∧ f a = b := by
  cases x with
  | error e => cases h
  | ok a => exact ⟨a, rfl, Except.ok.inj h⟩

theorem queues_put (h : s.put info = .ok t) : s.Queues t := by
  obtain ⟨⟨options, callback⟩, -, rfl⟩ := exists_of_map_ok h
  exact ⟨_, _, _, rfl, sliced_two _ _ _, Request.noConfusion⟩

theorem queues_get (h : s.get info = .ok t) : s.Queues t := by
  obtain ⟨⟨options, callback⟩, -, rfl⟩ := exists_of_map_ok h
  exact ⟨_, _, _, rfl, sliced_one _ _, Request.noConfusion⟩

theorem queues_delete (h : s.delete info = .ok t) : s.Queues t := by
  obtain ⟨⟨options, callback⟩, -, rfl⟩ := exists_of_map_ok h
  exact ⟨_, _, _, rfl, sliced_one _ _, Request.noConfusion⟩

theorem Sliced.perm {new new' : List (Value × RawSlice)} (h : Sliced m m' new) (hp : new.Perm new') :
    Sliced m m' new' :=
  ⟨h.shares, fun held hm => (h.owned held hm).perm (hp.append_right held)⟩

theorem queues_approximateSize (h : s.approximateSize info = .ok t) : s.Queues t := by
  obtain ⟨⟨options, callback⟩, -, rfl⟩ := exists_of_map_ok h
  exact ⟨_, _, _, rfl, (sliced_two _ _ _).perm (.swap _ _ _), Request.noConfusion⟩

theorem queues_compactRange (h : s.compactRange info = .ok t) : s.Queues t := by
  obtain ⟨⟨options, callback⟩, -, rfl⟩ := exists_of_map_ok h
  exact ⟨_, _, _, rfl, (sliced_two _ _ _).perm (.swap _ _ _), Request.noConfusion⟩

theorem Sliced.load {new : List (Value × RawSlice)} {x : Value × RawSlice} (h : Sliced m m' new)
    (hm : m.Owned held) (hx : x ∈ new) : m'.load x.2 = some (x.1.bytesIn m) := by
  rw [((h.owned held hm).sliceOf x (List.mem_append_left _ hx)).load, bytesIn_congr h.shares.buffers]

/-- New slices that are disposed of leave nothing. -/
theorem Sliced.dispose {new : List (Value × RawSlice)} (h : Sliced m m' new) (hm : m.Owned held) :
    ∃ m'', disposeAll m' new = some m'' ∧ Sliced m m'' [] := by
  obtain ⟨m'', hdispose, -, hshares⟩ := (h.owned held hm).disposeAll
  refine ⟨m'', hdispose, h.shares.trans hshares, fun held' hm' => ?_⟩
  obtain ⟨_, hdispose', howned, -⟩ := (h.owned held' hm').disposeAll
  cases hdispose.symm.trans hdispose'
  exact howned

theorem deleteArray_changeBatch {i : Nat} {change : Option Operation} {data : CharPtr} :
    (m.changeBatch i change).deleteArray data = (m.deleteArray data).map fun m => m.changeBatch i change := by
  cases data with
  | null | buffer => rfl
  | array p =>
    by_cases hp : (m.arrays[p]?.join).isSome = true
    · simp [Memory.deleteArray, Memory.changeBatch, hp]
    · simp [Memory.deleteArray, Memory.changeBatch, hp]

theorem disposeAll_changeBatch {i : Nat} {change : Option Operation} (new : List (Value × RawSlice)) :
    disposeAll (m.changeBatch i change) new = (disposeAll m new).map fun m => m.changeBatch i change := by
  induction new generalizing m with
  | nil => rfl
  | cons x new ih =>
    have hone : disposeStringOrBufferFromSlice (m.changeBatch i change) x.1 x.2 =
        (disposeStringOrBufferFromSlice m x.1 x.2).map fun m => m.changeBatch i change := by
      unfold disposeStringOrBufferFromSlice
      split_ifs with hsize
      · exact deleteArray_changeBatch
      · rfl
    unfold disposeAll
    rw [hone]
    cases disposeStringOrBufferFromSlice m x.1 x.2 with
    | none => rfl
    | some m' => exact ih

theorem operation_congr {obj : Value} (h : m'.buffers = m.buffers) : obj.operation m' = obj.operation m := by
  unfold Value.operation
  rw [bytesIn_congr h, bytesIn_congr h]

/-- The loop over an array collects the operations, and disposes of the slices that it makes. -/
theorem addOperations_spec {batch : WriteBatch} {hasData : Bool} {elements : List Value} (h : m.Owned held) :
    ∃ m', addOperations m batch hasData elements =
        some (m', (elements.filterMap (Value.operation m)).foldl Operation.addTo batch,
          hasData || !(elements.filterMap (Value.operation m)).isEmpty) ∧
      m'.Owned held ∧ m.Shares m' := by
  induction elements generalizing m batch hasData with
  | nil => exact ⟨m, by simp [addOperations], h, rfl, rfl⟩
  | cons obj elements ih =>
    unfold addOperations
    dsimp only
    split_ifs with hobj hdel hput
    · have hop : obj.operation m = some (.del ((obj.get "key").bytesIn m)) := by
        simp [Value.operation, hobj, hdel]
      have hslice := sliced_one m (obj.get "key")
      obtain ⟨m', hdispose, howned, hshares⟩ := (hslice.owned held h).disposeAll
      obtain ⟨m'', hrest, howned', hshares'⟩ := @ih m' (batch.delete ((obj.get "key").bytesIn m)) true howned
      have hboth := hslice.shares.trans hshares
      refine ⟨m'', ?_, howned', hboth.trans hshares'⟩
      rw [hslice.load h (List.mem_singleton_self _), Option.bind_some, hdispose, Option.bind_some, hrest,
        List.filterMap_cons_some hop, List.filterMap_congr fun obj _ => operation_congr hboth.buffers]
      simp [Operation.addTo]
    · have hop : obj.operation m = some (.put ((obj.get "key").bytesIn m) ((obj.get "value").bytesIn m)) := by
        simp [Value.operation, hobj, hdel, hput]
      have hslice := (sliced_two m (obj.get "key") (obj.get "value")).perm (.swap _ _ _)
      obtain ⟨m', hdispose, howned, hshares⟩ := (hslice.owned held h).disposeAll
      obtain ⟨m'', hrest, howned', hshares'⟩ :=
        @ih m' (batch.put ((obj.get "key").bytesIn m) ((obj.get "value").bytesIn m)) true howned
      have hboth := hslice.shares.trans hshares
      refine ⟨m'', ?_, howned', hboth.trans hshares'⟩
      rw [hslice.load h List.mem_cons_self, Option.bind_some, hslice.load h (List.mem_cons_of_mem _ List.mem_cons_self),
        Option.bind_some, hdispose, Option.bind_some, hrest, List.filterMap_cons_some hop,
        List.filterMap_congr fun obj _ => operation_congr hboth.buffers]
      simp [Operation.addTo]
    · rw [List.filterMap_cons_none (by simp [Value.operation, hobj, hdel, hput])]
      exact ih h
    · rw [List.filterMap_cons_none (by simp [Value.operation, hobj])]
      exact ih h

/-- The operations of an array, collected. -/
theorem batch_eq {elements : List Value} {text : Slice} (h : s.memory.Owned held)
    (hinfo : info.getD 0 .undefined = .array elements text) : ∃ m, Sliced s.memory m [] ∧
      s.batch info = (methodSetupCommon "batch" (some 1) 2 info).map fun x => some
        (if (elements.filterMap (Value.operation s.memory)).isEmpty then
          { s with memory := m }.callAtOnce x.2 (.BatchWorker {})
        else { s with memory := m }.queue x.2
          (.BatchWorker (Operation.batch (elements.filterMap (Value.operation s.memory))))) := by
  obtain ⟨m, hadd, -, hshares⟩ := @addOperations_spec s.memory held {} false elements h
  refine ⟨m, ⟨hshares, fun held' hm => ?_⟩, ?_⟩
  · obtain ⟨m', hadd', howned, -⟩ := @addOperations_spec s.memory held' {} false elements hm
    cases hadd.symm.trans hadd'
    exact howned
  · unfold batch
    rw [hinfo]
    dsimp only
    refine congrArg (fun f => Except.map f _) (funext fun x => ?_)
    rw [hadd, Option.map_some, Bool.false_or]
    cases hops : elements.filterMap (Value.operation s.memory) with
    | nil => rfl
    | cons op ops => rfl

/-- The text of the name is copied, and deleted again. -/
theorem getProperty_string (s : Calls σ π ε) (property : Slice) :
    s.getProperty (.string property) = some { s with memory := { s.memory with arrays := s.memory.arrays ++ [none] } } := by
  unfold getProperty stringOrBufferToSlice Memory.newArray Memory.deleteArray
  simp

/-- A `put` into a chained batch copies what it is given. -/
theorem batchPut_eq {i : Nat} (h : s.memory.Owned held) (key value : Value) : ∃ m, Sliced s.memory m [] ∧
    s.batchPut i key value = some
      { s with
        memory := m.changeBatch i (some (.put (key.bytesIn s.memory) (value.bytesIn s.memory)))
        log := s.log ++ [.changed i (some (.put (key.bytesIn s.memory) (value.bytesIn s.memory)))] } := by
  have hslice := (sliced_two s.memory key value).perm (.swap _ _ _)
  obtain ⟨m, hdispose, hsliced⟩ := hslice.dispose h
  refine ⟨m, hsliced, ?_⟩
  unfold batchPut
  dsimp only
  rw [hslice.load h List.mem_cons_self, Option.bind_some, hslice.load h (List.mem_cons_of_mem _ List.mem_cons_self),
    Option.bind_some, disposeAll_changeBatch, hdispose]
  rfl

theorem batchDel_eq {i : Nat} (h : s.memory.Owned held) (key : Value) : ∃ m, Sliced s.memory m [] ∧
    s.batchDel i key = some
      { s with
        memory := m.changeBatch i (some (.del (key.bytesIn s.memory)))
        log := s.log ++ [.changed i (some (.del (key.bytesIn s.memory)))] } := by
  have hslice := sliced_one s.memory key
  obtain ⟨m, hdispose, hsliced⟩ := hslice.dispose h
  refine ⟨m, hsliced, ?_⟩
  unfold batchDel
  dsimp only
  rw [hslice.load h (List.mem_singleton_self _), Option.bind_some, disposeAll_changeBatch, hdispose]
  rfl

/-! ### One step -/

/-- JS writes to a Buffer, or to a chained batch. -/
inductive Wrote {ε : Type} (m : Memory) : CallEvent ε → Memory → Prop
  | filled (b : Nat) (data : Slice) : Wrote m (.filled b) (m.fill b data)
  | changed {m' : Memory} (i : Nat) (change : Option Operation) (hm : Sliced m m' []) :
      Wrote m (.changed i change) (m'.changeBatch i change)

/-- The next stage of a job, and what happens. -/
inductive Next (backend : Backend σ π ε) (m : Memory) (k : σ) (job : Job π) : Stage π → CallEvent ε → σ → Prop
  | start {req : Request} (hstage : job.stage = .queued) (hreq : job.worker.request m = some req) :
      Next backend m k job (.running (backend.start req)) (.started job.call req) k
  | work {p p' : π} {e : ε} {k' : σ} (hstage : job.stage = .running p) (hw : backend.Work k p e k' p') :
      Next backend m k job (.running p') (.work job.call e) k'
  | executed {p : π} {st : Status} {value : Slice} (hstage : job.stage = .running p)
      (hres : backend.result p = some (st, value)) :
      Next backend m k job (.executed st value) (.executed job.call st value) k

/-- What a step does, the methods being all of a kind. -/
inductive Stepped (backend : Backend σ π ε) (s : Calls σ π ε) : Calls σ π ε → Prop
  | queued {m : Memory} {w : DatabaseWorker} (callback : Nat) (hm : Sliced s.memory m (w.disposals ++ w.lost))
      (hasked : w.asked m ≠ .batch {}) : Stepped backend s ({ s with memory := m }.queue callback w)
  | empty {m : Memory} {w : DatabaseWorker} (callback : Nat) (hm : Sliced s.memory m []) (hlost : w.lost = [])
      (hasked : w.asked m = .batch {}) : Stepped backend s ({ s with memory := m }.callAtOnce callback w)
  | memory {m : Memory} (hm : Sliced s.memory m []) : Stepped backend s { s with memory := m }
  | wrote {m : Memory} {e : CallEvent ε} (he : Wrote s.memory e m) :
      Stepped backend s { s with memory := m, log := s.log ++ [e] }
  | stage {i : Nat} {job : Job π} {stage : Stage π} {e : CallEvent ε} {k : σ} (hi : s.jobs[i]? = some job)
      (he : Next backend s.memory s.kudu job stage e k) :
      Stepped backend s ({ s with kudu := k }.setStage i job stage e)
  | complete {i : Nat} {job : Job π} {st : Status} {value : Slice} {t : Calls σ π ε} (hi : s.jobs[i]? = some job)
      (hstage : job.stage = .executed st value) (h : s.complete backend.ToString i job st value = some t) :
      Stepped backend s t

variable {backend : Backend σ π ε}

theorem Queues.stepped (h : s.Queues t) : Stepped backend s t := by
  obtain ⟨m, callback, w, rfl, hm, hasked⟩ := h
  exact .queued callback hm hasked

/-- The slices of the workers, and those that are lost. -/
def heldSlices (s : Calls σ π ε) : List (Value × RawSlice) := s.jobs.flatMap fun job => job.worker.disposals

end Calls

/-- What a call leaves to no one. -/
def CallEvent.lost {ε : Type} : CallEvent ε → List (Value × RawSlice)
  | called _ _ w _ => w.lost
  | _ => []

namespace Calls
variable {σ π ε : Type} {backend : Backend σ π ε} {s t : Calls σ π ε} {m m' : Memory}

/-- The account of the arrays: what is not deleted belongs to a worker, or was given to `approximateSize`. -/
def Owned (s : Calls σ π ε) : Prop := s.memory.Owned (s.heldSlices ++ s.log.flatMap CallEvent.lost)

theorem stepped (h : s.Owned) (hstep : CallStep backend s t) : Stepped backend s t := by
  cases hstep with
  | put h => exact (queues_put h).stepped
  | get h => exact (queues_get h).stepped
  | delete h => exact (queues_delete h).stepped
  | approximateSize h => exact (queues_approximateSize h).stepped
  | compactRange h => exact (queues_compactRange h).stepped
  | @batch info _ hbatch =>
    cases hinfo : info.getD 0 .undefined with
    | array elements text =>
      obtain ⟨m, hm, heq⟩ := batch_eq h hinfo
      rw [heq] at hbatch
      obtain ⟨⟨options, callback⟩, -, hx⟩ := exists_of_map_ok hbatch
      obtain rfl := Option.some.inj hx
      split_ifs with hops
      · exact .empty callback hm rfl rfl
      · refine .queued callback hm fun heq => hops ?_
        rw [List.isEmpty_iff]
        exact Operation.batch_eq_empty.1 (Request.batch.inj heq)
    | null | undefined | primitive | string | buffer | object | function =>
      obtain ⟨x, -, hx⟩ := exists_of_map_ok hbatch
      rw [hinfo] at hx
      cases hx
  | getProperty h =>
    rw [getProperty_string] at h
    cases h
    exact .memory ⟨⟨rfl, rfl⟩, fun held hm => hm.deleted⟩
  | fill b data => exact .wrote (.filled b data)
  | batchPut hput =>
    obtain ⟨m, hm, heq⟩ := batchPut_eq h _ _
    cases hput.symm.trans heq
    exact .wrote (.changed _ _ hm)
  | batchDel hdel =>
    obtain ⟨m, hm, heq⟩ := batchDel_eq h _
    cases hdel.symm.trans heq
    exact .wrote (.changed _ _ hm)
  | batchClear i => exact .wrote (.changed i none ⟨⟨rfl, rfl⟩, fun held hm => hm⟩)
  | @batchWrite i info _ hwrite =>
    obtain ⟨callback, -, rfl⟩ := Option.map_eq_some_iff.1 hwrite
    have hm : Sliced s.memory s.memory [] := ⟨⟨rfl, rfl⟩, fun held hm => hm⟩
    split_ifs with hdata
    · refine .queued callback hm fun heq => (s.memory.batches i).hasData_iff.1 hdata ?_
      exact congrArg WriteBatch.ops (Request.batch.inj heq)
    · exact .empty callback hm rfl (congrArg Request.batch (Batch.batch_eq_empty hdata))
  | start hi hstage hreq => exact .stage hi (.start hstage hreq)
  | work hi hstage hw => exact .stage hi (.work hstage hw)
  | executed hi hstage hres => exact .stage hi (.executed hstage hres)
  | complete hi hstage h => exact .complete hi hstage h

theorem heldSlices_queue {callback : Nat} {w : DatabaseWorker} :
    ({ s with memory := m }.queue callback w).heldSlices = s.heldSlices ++ w.disposals := by
  unfold heldSlices queue
  simp

/-- A new stage changes nothing else of a job. -/
theorem map_setStage {α : Type} {i : Nat} {job : Job π} (hi : s.jobs[i]? = some job) (stage : Stage π) {f : Job π → α}
    (hf : f { job with stage } = f job) : (s.jobs.set i { job with stage }).map f = s.jobs.map f := by
  rw [List.map_set, hf]
  refine List.ext_getElem? fun j => ?_
  rw [List.getElem?_set]
  split_ifs with hij hlt
  · rw [← hij, List.getElem?_map, hi]
    rfl
  · rw [← hij, List.getElem?_eq_none (Nat.le_of_not_lt hlt)]
  · rfl

theorem heldSlices_setStage {i : Nat} {job : Job π} {stage : Stage π} {e : CallEvent ε} {k : σ}
    (hi : s.jobs[i]? = some job) : ({ s with kudu := k }.setStage i job stage e).heldSlices = s.heldSlices := by
  have hmap := map_setStage hi stage (f := fun job => job.worker.disposals) rfl
  unfold heldSlices setStage
  rw [List.flatMap_def, List.flatMap_def]
  exact congrArg List.flatten hmap

theorem heldSlices_eraseIdx {i : Nat} {job : Job π} (hi : s.jobs[i]? = some job) :
    s.heldSlices.Perm (job.worker.disposals ++ (s.jobs.eraseIdx i).flatMap fun job => job.worker.disposals) := by
  obtain ⟨hlt, rfl⟩ := List.getElem?_eq_some_iff.1 hi
  exact ((List.getElem_cons_eraseIdx_perm hlt).flatMap_right _).symm

/-- An executed worker disposes of its slices. -/
theorem Owned.disposeAll {i : Nat} {job : Job π} (h : s.Owned) (hi : s.jobs[i]? = some job) :
    ∃ m, disposeAll s.memory job.worker.disposals = some m ∧ s.memory.Shares m ∧
      m.Owned ((s.jobs.eraseIdx i).flatMap (fun job => job.worker.disposals) ++ s.log.flatMap CallEvent.lost) := by
  have hperm := (heldSlices_eraseIdx hi).append_right (s.log.flatMap CallEvent.lost)
  rw [List.append_assoc] at hperm
  obtain ⟨m, hm, howned, hshares⟩ := (Memory.Owned.perm h hperm).disposeAll
  exact ⟨m, hm, hshares, howned⟩

theorem Next.lost {k k' : σ} {job : Job π} {stage : Stage π} {e : CallEvent ε} (h : Next backend m k job stage e k') :
    e.lost = [] := by
  cases h <;> rfl

theorem Owned.step (h : s.Owned) (hstep : Stepped backend s t) : t.Owned := by
  cases hstep with
  | @queued m w callback hm hasked =>
    refine (hm.owned _ h).perm ?_
    rw [heldSlices_queue]
    show List.Perm _ (_ ++ (s.log ++ [CallEvent.called s.calls callback w (w.asked m)]).flatMap CallEvent.lost)
    rw [List.flatMap_append, List.flatMap_singleton, ← Multiset.coe_eq_coe]
    simp only [← Multiset.coe_add, CallEvent.lost]
    abel
  | @empty m w callback hm hlost hasked =>
    refine (hm.owned _ h).perm (List.Perm.of_eq ?_)
    unfold heldSlices callAtOnce
    rw [List.flatMap_append]
    simp [CallEvent.lost, hlost]
  | memory hm => exact hm.owned _ h
  | @wrote m e he =>
    have hlost : (s.log ++ [e]).flatMap CallEvent.lost = s.log.flatMap CallEvent.lost := by
      cases he <;> simp [CallEvent.lost]
    have howned : m.Owned (s.heldSlices ++ s.log.flatMap CallEvent.lost) := by
      cases he with
      | filled b data => exact Memory.Owned.fill h
      | changed i change hm => exact (hm.owned _ h).changeBatch
    rw [← hlost] at howned
    exact howned
  | @stage i job stage e k hi he =>
    have hlost : (s.log ++ [e]).flatMap CallEvent.lost = s.log.flatMap CallEvent.lost := by
      simp [he.lost]
    unfold Owned
    rw [heldSlices_setStage hi]
    show s.memory.Owned (s.heldSlices ++ (s.log ++ [e]).flatMap CallEvent.lost)
    rw [hlost]
    exact h
  | @complete i job st value _ hi hstage hcomplete =>
    obtain ⟨m, hm, -, howned⟩ := h.disposeAll hi
    unfold complete at hcomplete
    rw [hm] at hcomplete
    cases hcomplete
    unfold Owned
    rw [List.flatMap_append]
    show m.Owned (_ ++ (_ ++ []))
    rw [List.append_nil]
    exact howned

theorem Owned.run (hs : s.Owned) (h : Relation.ReflTransGen (CallStep backend) s t) : t.Owned := by
  induction h with
  | refl => exact hs
  | tail _ hstep ih => exact ih.step (stepped ih hstep)

/-! ### Safety -/

theorem request_eq {w : DatabaseWorker} (h : ∀ x ∈ w.disposals, SliceOf m x.1 x.2) :
    w.request m = some (w.asked m) := by
  cases w with
  | WriteWorker key value keyHandle valueHandle =>
    have hkey : m.load key = some (keyHandle.bytesIn m) := (h (keyHandle, key) (by simp [DatabaseWorker.disposals])).load
    have hvalue : m.load value = some (valueHandle.bytesIn m) :=
      (h (valueHandle, value) (by simp [DatabaseWorker.disposals])).load
    simp only [DatabaseWorker.request, hkey, hvalue]
    rfl
  | DeleteWorker key keyHandle | ReadWorker key asBuffer keyHandle =>
    have hkey : m.load key = some (keyHandle.bytesIn m) := (h (keyHandle, key) (by simp [DatabaseWorker.disposals])).load
    simp only [DatabaseWorker.request, hkey]
    rfl
  | BatchWorker | BatchWriteWorker | ApproximateSizeWorker | CompactRangeWorker => rfl

/-- Nothing that is done to memory is undefined. `request` says what a worker finds in its slices when it executes, and
`rest` what is still there when there is no worker left. -/
structure Safe (backend : Backend σ π ε) (s : Calls σ π ε) : Prop where
  request : ∀ job ∈ s.jobs, job.worker.request s.memory = some (job.worker.asked s.memory)
  complete : ∀ i job st value, s.jobs[i]? = some job → job.stage = .executed st value →
    ∃ t, s.complete backend.ToString i job st value = some t
  batch : ∀ info elements text, info.getD 0 .undefined = .array elements text → s.batch info ≠ .ok none
  getProperty : ∀ property, ∃ t, s.getProperty (.string property) = some t
  rest : s.jobs = [] → ∀ p,
    (∃ text, text ≠ [] ∧ s.memory.arrays[p]? = some (some text)) ↔ p ∈ arraysOf (s.log.flatMap CallEvent.lost)

theorem Owned.toSafe (h : s.Owned) : s.Safe backend where
  request job hjob := request_eq fun x hx =>
    h.sliceOf x (List.mem_append_left _ (List.mem_flatMap.2 ⟨job, hjob, hx⟩))
  complete i job st value hi hstage := by
    obtain ⟨m, hm, -, -⟩ := h.disposeAll hi
    unfold Calls.complete
    rw [hm]
    exact ⟨_, rfl⟩
  batch info elements text hinfo hbatch := by
    obtain ⟨m, -, heq⟩ := batch_eq h hinfo
    rw [heq] at hbatch
    obtain ⟨x, -, hx⟩ := exists_of_map_ok hbatch
    cases hx
  getProperty property := ⟨_, getProperty_string s property⟩
  rest hjobs p := by
    have howned : s.memory.Owned (s.log.flatMap CallEvent.lost) := by
      unfold Owned heldSlices at h
      rwa [hjobs] at h
    exact howned.mem_live

/-! ### Chained batches that are written -/

/-- Whenever the worker of a chained batch reads it, it finds what `write` was called with. -/
def Written (s : Calls σ π ε) : Prop :=
  ∀ job ∈ s.jobs, ∀ i, job.worker = .BatchWriteWorker i → ∃ callback,
    .called job.call callback job.worker (.batch (s.memory.batches i).batch) ∈ s.log

/-- The workers that are out stay so, the log grows, and their batches are left alone. -/
theorem Written.of_kept (h : s.Written) (hlog : s.log ⊆ t.log)
    (hjobs : ∀ job ∈ t.jobs, ∃ job₀ ∈ s.jobs, job₀.call = job.call ∧ job₀.worker = job.worker)
    (hbatch : ∀ job ∈ s.jobs, ∀ i, job.worker = .BatchWriteWorker i → t.memory.batches i = s.memory.batches i) :
    t.Written := by
  intro job hjob i hw
  obtain ⟨job₀, hjob₀, hcall, hworker⟩ := hjobs job hjob
  rw [← hworker] at hw
  obtain ⟨callback, hcalled⟩ := h job₀ hjob₀ i hw
  rw [← hcall, ← hworker, hbatch job₀ hjob₀ i hw]
  exact ⟨callback, hlog hcalled⟩

theorem Written.step (h : s.Written) (howned : s.Owned) (hstep : LockedStep backend s t) : t.Written := by
  have hlocked := hstep.locked
  cases stepped howned hstep.step with
  | @queued m w callback hm hasked =>
    intro job hjob i hw
    rcases List.mem_append.1 hjob with hold | hnew
    · obtain ⟨callback', hcalled⟩ := h job hold i hw
      refine ⟨callback', List.mem_append_left _ ?_⟩
      show CallEvent.called _ _ _ (.batch (m.batches i).batch) ∈ s.log
      rw [hm.shares.batches]
      exact hcalled
    · obtain rfl := List.mem_singleton.1 hnew
      obtain rfl : w = .BatchWriteWorker i := hw
      exact ⟨callback, List.mem_append_right _ (List.mem_singleton_self _)⟩
  | empty callback hm =>
    exact h.of_kept (List.subset_append_left _ _) (fun job hjob => ⟨job, hjob, rfl, rfl⟩)
      fun _ _ i _ => congrFun hm.shares.batches i
  | memory hm =>
    exact h.of_kept (List.Subset.refl _) (fun job hjob => ⟨job, hjob, rfl, rfl⟩)
      fun _ _ i _ => congrFun hm.shares.batches i
  | @wrote m e he =>
    refine h.of_kept (List.subset_append_left _ _) (fun job hjob => ⟨job, hjob, rfl, rfl⟩) fun job hjob i hw => ?_
    cases he with
    | filled b data =>
      show (s.memory.fill b data).batches i = _
      unfold Memory.fill
      split_ifs <;> rfl
    | @changed m' j change hm =>
      have hne : i ≠ j := by
        rintro rfl
        exact hlocked i change rfl job hjob hw
      show (if i = j then _ else m'.batches i) = _
      rw [if_neg hne, hm.shares.batches]
  | @stage j job stage e k hi he =>
    refine h.of_kept (List.subset_append_left _ _) (fun job' hjob' => ?_) fun _ _ _ _ => rfl
    rcases List.mem_or_eq_of_mem_set hjob' with hold | rfl
    · exact ⟨job', hold, rfl, rfl⟩
    · exact ⟨job, List.mem_of_getElem? hi, rfl, rfl⟩
  | complete hi hstage hcomplete =>
    obtain ⟨m, hdispose, rfl⟩ := Option.map_eq_some_iff.1 hcomplete
    obtain ⟨m', hdispose', hshares, -⟩ := howned.disposeAll hi
    cases hdispose.symm.trans hdispose'
    exact h.of_kept (List.subset_append_left _ _) (fun job hjob => ⟨job, List.mem_of_mem_eraseIdx hjob, rfl, rfl⟩)
      fun _ _ i _ => congrFun hshares.batches i

theorem callSteps (h : Relation.ReflTransGen (LockedStep backend) s t) : Relation.ReflTransGen (CallStep backend) s t :=
  Relation.ReflTransGen.mono (fun _ _ (hstep : LockedStep backend _ _) => hstep.step) s t h

theorem Written.run {buffers : Nat → Slice} {k : σ}
    (h : Relation.ReflTransGen (LockedStep backend) { memory := { buffers }, kudu := k } s) : s.Written := by
  induction h with
  | refl => exact fun job hjob => by cases hjob
  | tail hrun hstep ih =>
    exact ih.step (Owned.run (s := { memory := { buffers }, kudu := k }) (Memory.Owned.nil buffers) (callSteps hrun)) hstep

end Calls

end Kududown
