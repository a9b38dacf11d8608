import Kududown.Lib.Run
import Kududown.Slices

/-!
# Calls and workers

`Database::Put`, `Get`, `Delete`, `Batch`, `ApproximateSize`, `CompactRange` and `GetProperty` and the methods of a
chained `Batch` on the main thread, and the workers they queue: `Execute` on the thread pool, in any order and
interleaved, and later `WorkComplete` on the main thread. What serves a request is a `Backend`, so the results hold
whatever the client library does. The slices of a worker are made by the call and disposed of by `WorkComplete`; a
Buffer is not copied, so a worker asks for what is in it when it executes (`safe`). The worker of a chained batch reads
it on the thread pool, one operation after the other, so it has to stay as it is while the worker is out
(`LockedStep`). Every call runs its callback once (`one_callback`).
-/

namespace Kududown

/-! ### Workers -/

/-- What a worker asks of the database. -/
inductive Request
  | put (key value : Slice)
  | get (key : Slice)
  | del (key : Slice)
  | batch (b : WriteBatch)
  | nothing
deriving DecidableEq

/-- What a callback is run with. -/
inductive Reply
  | error (message : String)
  | nothing
  | null
  | buffer (value : Slice)
  | string (value : Slice)
  | size (n : Nat)
deriving DecidableEq

/-- The workers of a `Database` and of a `Batch`, with what their constructors keep. -/
inductive DatabaseWorker
  | WriteWorker (key value : RawSlice) (keyHandle valueHandle : Value)
  | DeleteWorker (key : RawSlice) (keyHandle : Value)
  | ReadWorker (key : RawSlice) (asBuffer : Bool) (keyHandle : Value)
  | BatchWorker (batch : WriteBatch)
  | BatchWriteWorker (batch : Nat)
  | ApproximateSizeWorker (start limit : RawSlice) (startHandle endHandle : Value)
  | CompactRangeWorker (rangeStart rangeEnd : RawSlice) (startHandle endHandle : Value)

namespace DatabaseWorker

/-- What `Execute` asks for, `none` when it would read bytes that are gone. The operations of a chained batch are in fact
read one by one later on, which comes to the same under `LockedStep`. -/
def request (m : Memory) : DatabaseWorker → Option Request
  | WriteWorker key value _ _ => (m.load key).bind fun k => (m.load value).map fun v => .put k v
  | DeleteWorker key _ => (m.load key).map .del
  | ReadWorker key _ _ => (m.load key).map .get
  | BatchWorker batch => some (.batch batch)
  | BatchWriteWorker i => some (.batch (m.batches i).batch)
  | ApproximateSizeWorker _ _ _ _ | CompactRangeWorker _ _ _ _ => some .nothing

/-- The slices that `WorkComplete` disposes of, in this order. `ApproximateSizeWorker` has it commented out. -/
def disposals : DatabaseWorker → List (Value × RawSlice)
  | WriteWorker key value keyHandle valueHandle => [(valueHandle, value), (keyHandle, key)]
  | DeleteWorker key keyHandle | ReadWorker key _ keyHandle => [(keyHandle, key)]
  | BatchWorker _ | BatchWriteWorker _ | ApproximateSizeWorker _ _ _ _ => []
  | CompactRangeWorker rangeStart rangeEnd startHandle endHandle => [(startHandle, rangeStart), (endHandle, rangeEnd)]

/-- The slices that nothing disposes of. -/
def lost : DatabaseWorker → List (Value × RawSlice)
  | ApproximateSizeWorker start limit startHandle endHandle => [(startHandle, start), (endHandle, limit)]
  | _ => []

/-- `HandleOKCallback`. -/
def handleOKCallback (value : Slice) : DatabaseWorker → Reply
  | ReadWorker _ asBuffer _ => if asBuffer then .buffer value else .string value
  | ApproximateSizeWorker _ _ _ _ => .size 0
  | CompactRangeWorker _ _ _ _ => .null
  | _ => .nothing

/-- `SetStatus`, and then `Nan::AsyncWorker::WorkComplete`, which looks at the error message. -/
def reply (ToString : Failure → String) (st : Status) (value : Slice) (w : DatabaseWorker) : Reply :=
  match st with
  | .error e => .error (ToString e)
  | .OK => w.handleOKCallback value

/-- What the values that the worker was made of ask for now. -/
def asked (m : Memory) : DatabaseWorker → Request
  | WriteWorker _ _ keyHandle valueHandle => .put (keyHandle.bytesIn m) (valueHandle.bytesIn m)
  | DeleteWorker _ keyHandle => .del (keyHandle.bytesIn m)
  | ReadWorker _ _ keyHandle => .get (keyHandle.bytesIn m)
  | BatchWorker batch => .batch batch
  | BatchWriteWorker i => .batch (m.batches i).batch
  | ApproximateSizeWorker _ _ _ _ | CompactRangeWorker _ _ _ _ => .nothing

end DatabaseWorker

/-! ### Serving requests -/

/-- What serves the requests: from a state `σ`, in steps on processes `π` that each do an `ε`. Different processes take
their steps interleaved. -/
structure Backend (σ π ε : Type) where
  start : Request → π
  Work : σ → π → ε → σ → π → Prop
  result : π → Option (Status × Slice)
  ToString : Failure → String

/-- The process got from `start` to `p` by doing `es`. -/
inductive Backend.Served {σ π ε : Type} (backend : Backend σ π ε) (req : Request) : List ε → π → Prop
  | start : Served backend req [] (backend.start req)
  | work {es : List ε} {e : ε} {p p' : π} {k k' : σ} (h : Served backend req es p) (hw : backend.Work k p e k' p') :
      Served backend req (es ++ [e]) p'

inductive Stage (π : Type)
  | queued
  | running (p : π)
  | executed (st : Status) (value : Slice)

/-- A queued worker, with the number of its call and its callback. -/
structure Job (π : Type) where
  call : Nat
  callback : Nat
  worker : DatabaseWorker
  stage : Stage π

/-- What happened, in order. `asked` is what the call asked for when it was made. -/
inductive CallEvent (ε : Type)
  | called (call callback : Nat) (worker : DatabaseWorker) (asked : Request)
  | filled (b : Nat)
  | changed (batch : Nat) (change : Option Operation)
  | started (call : Nat) (req : Request)
  | work (call : Nat) (e : ε)
  | executed (call : Nat) (st : Status) (value : Slice)
  | callback (call callback : Nat) (reply : Reply)

/-- The main thread and the pool; `kudu` is the state of the backend. -/
structure Calls (σ π ε : Type) where
  memory : Memory
  kudu : σ
  jobs : List (Job π) := []
  calls : Nat := 0
  log : List (CallEvent ε) := []

/-! ### The methods -/

/-- `LD_METHOD_SETUP_COMMON`: the options and the callback, or the error that is thrown. No `optionPos` is -1. -/
def methodSetupCommon (name : String) (optionPos : Option Nat) (callbackPos : Nat) (info : List Value) :
    Except String (Option Value × Nat) :=
  let thrown := .error (name ++ "() requires a callback argument")
  let arg := fun i => info.getD i .undefined
  if info.length = 0 then thrown
  else
    match optionPos with
    | none =>
      match (arg callbackPos).asFunction with
      | some f => .ok (none, f)
      | none => thrown
    | some optionPos =>
      match (arg (callbackPos - 1)).asFunction with
      | some f => .ok (none, f)
      | none =>
        match (arg optionPos).isObject, (arg callbackPos).asFunction with
        | true, some f => .ok (some (arg optionPos), f)
        | _, _ => thrown

/-- `BooleanOptionValue`. -/
def booleanOptionValue (options : Option Value) (key : String) (dflt : Bool) : Bool :=
  match options with
  | some options => if options.has key then (options.get key).truth else dflt
  | none => dflt

/-- The loop of `Database::Batch` over the array. What is no object, and has no type that is known, is skipped. -/
def addOperations (m : Memory) (batch : WriteBatch) (hasData : Bool) :
    List Value → Option (Memory × WriteBatch × Bool)
  | [] => some (m, batch, hasData)
  | obj :: elements =>
    if obj.isObject then
      let keyBuffer := obj.get "key"
      let type := obj.get "type"
      if type.isString "del" then
        let (key, m) := stringOrBufferToSlice m keyBuffer
        (m.load key).bind fun k =>
          (disposeAll m [(keyBuffer, key)]).bind fun m => addOperations m (batch.delete k) true elements
      else if type.isString "put" then
        let valueBuffer := obj.get "value"
        let (key, m) := stringOrBufferToSlice m keyBuffer
        let (value, m) := stringOrBufferToSlice m valueBuffer
        (m.load key).bind fun k => (m.load value).bind fun v =>
          (disposeAll m [(keyBuffer, key), (valueBuffer, value)]).bind fun m =>
            addOperations m (batch.put k v) true elements
      else addOperations m batch hasData elements
    else addOperations m batch hasData elements

/-- The operation that an element of the array stands for. -/
def Value.operation (m : Memory) (obj : Value) : Option Operation :=
  if obj.isObject then
    if (obj.get "type").isString "del" then some (.del ((obj.get "key").bytesIn m))
    else if (obj.get "type").isString "put" then some (.put ((obj.get "key").bytesIn m) ((obj.get "value").bytesIn m))
    else none
  else none

namespace Calls
variable {σ π ε : Type}

/-- `Nan::AsyncQueueWorker(worker)`. -/
def queue (s : Calls σ π ε) (callback : Nat) (worker : DatabaseWorker) : Calls σ π ε :=
  { s with
    jobs := s.jobs ++ [⟨s.calls, callback, worker, .queued⟩]
    calls := s.calls + 1
    log := s.log ++ [.called s.calls callback worker (worker.asked s.memory)] }

/-- `LD_RUN_CALLBACK(callback, 0, NULL)`, without the worker. -/
def callAtOnce (s : Calls σ π ε) (callback : Nat) (worker : DatabaseWorker) : Calls σ π ε :=
  { s with
    calls := s.calls + 1
    log := s.log ++ [.called s.calls callback worker (worker.asked s.memory), .callback s.calls callback .nothing] }

def put (s : Calls σ π ε) (info : List Value) : Except String (Calls σ π ε) :=
  (methodSetupCommon "put" (some 2) 3 info).map fun (_, callback) =>
    let keyHandle := info.getD 0 .undefined
    let valueHandle := info.getD 1 .undefined
    let (key, m) := stringOrBufferToSlice s.memory keyHandle
    let (value, m) := stringOrBufferToSlice m valueHandle
    { s with memory := m }.queue callback (.WriteWorker key value keyHandle valueHandle)

def get (s : Calls σ π ε) (info : List Value) : Except String (Calls σ π ε) :=
  (methodSetupCommon "get" (some 1) 2 info).map fun (options, callback) =>
    let keyHandle := info.getD 0 .undefined
    let (key, m) := stringOrBufferToSlice s.memory keyHandle
    let asBuffer := booleanOptionValue options "asBuffer" true
    { s with memory := m }.queue callback (.ReadWorker key asBuffer keyHandle)

def delete (s : Calls σ π ε) (info : List Value) : Except String (Calls σ π ε) :=
  (methodSetupCommon "del" (some 1) 2 info).map fun (_, callback) =>
    let keyHandle := info.getD 0 .undefined
    let (key, m) := stringOrBufferToSlice s.memory keyHandle
    { s with memory := m }.queue callback (.DeleteWorker key keyHandle)

/-- With an array. An empty batch is not let through: its callback is run at once. -/
def batch (s : Calls σ π ε) (info : List Value) : Except String (Option (Calls σ π ε)) :=
  (methodSetupCommon "batch" (some 1) 2 info).map fun (_, callback) =>
    match info.getD 0 .undefined with
    | .array elements _ =>
      (addOperations s.memory {} false elements).map fun (m, batch, hasData) =>
        if hasData then { s with memory := m }.queue callback (.BatchWorker batch)
        else { s with memory := m }.callAtOnce callback (.BatchWorker batch)
    | _ => none

/-- `Database::ApproximateSize` and `CompactRange`, up to the worker. -/
def rangeMethod (s : Calls σ π ε) (name : String) (worker : RawSlice → RawSlice → Value → Value → DatabaseWorker)
    (info : List Value) : Except String (Calls σ π ε) :=
  (methodSetupCommon name none 2 info).map fun (_, callback) =>
    let startHandle := info.getD 0 .undefined
    let endHandle := info.getD 1 .undefined
    let (start, m) := stringOrBufferToSlice s.memory startHandle
    let (limit, m) := stringOrBufferToSlice m endHandle
    { s with memory := m }.queue callback (worker start limit startHandle endHandle)

def approximateSize (s : Calls σ π ε) : List Value → Except String (Calls σ π ε) :=
  s.rangeMethod "approximateSize" .ApproximateSizeWorker

def compactRange (s : Calls σ π ε) : List Value → Except String (Calls σ π ε) :=
  s.rangeMethod "compactRange" .CompactRangeWorker

/-- `Database::GetProperty`, as far as memory goes: it deletes what the slice points to, whatever that is. -/
def getProperty (s : Calls σ π ε) (propertyHandle : Value) : Option (Calls σ π ε) :=
  let (property, m) := stringOrBufferToSlice s.memory propertyHandle
  (m.deleteArray property.data).map fun m => { s with memory := m }

def fill (s : Calls σ π ε) (b : Nat) (data : Slice) : Calls σ π ε :=
  { s with memory := s.memory.fill b data, log := s.log ++ [.filled b] }

/-- `Batch::Put`. -/
def batchPut (s : Calls σ π ε) (i : Nat) (keyBuffer valueBuffer : Value) : Option (Calls σ π ε) :=
  let (key, m) := stringOrBufferToSlice s.memory keyBuffer
  let (value, m) := stringOrBufferToSlice m valueBuffer
  (m.load key).bind fun k => (m.load value).bind fun v =>
    (disposeAll (m.changeBatch i (some (.put k v))) [(keyBuffer, key), (valueBuffer, value)]).map fun m =>
      { s with memory := m, log := s.log ++ [.changed i (some (.put k v))] }

/-- `Batch::Del`. -/
def batchDel (s : Calls σ π ε) (i : Nat) (keyBuffer : Value) : Option (Calls σ π ε) :=
  let (key, m) := stringOrBufferToSlice s.memory keyBuffer
  (m.load key).bind fun k => (disposeAll (m.changeBatch i (some (.del k))) [(keyBuffer, key)]).map fun m =>
    { s with memory := m, log := s.log ++ [.changed i (some (.del k))] }

/-- `Batch::Clear`. -/
def batchClear (s : Calls σ π ε) (i : Nat) : Calls σ π ε :=
  { s with memory := s.memory.changeBatch i none, log := s.log ++ [.changed i none] }

/-- `Batch::Write`, which takes its argument for a function. -/
def batchWrite (s : Calls σ π ε) (i : Nat) (info : Value) : Option (Calls σ π ε) :=
  info.asFunction.map fun callback =>
    if (s.memory.batches i).hasData then s.queue callback (.BatchWriteWorker i)
    else s.callAtOnce callback (.BatchWriteWorker i)

def setStage (s : Calls σ π ε) (i : Nat) (job : Job π) (stage : Stage π) (e : CallEvent ε) : Calls σ π ε :=
  { s with jobs := s.jobs.set i { job with stage }, log := s.log ++ [e] }

/-- `WorkComplete` of an executed worker. -/
def complete (s : Calls σ π ε) (ToString : Failure → String) (i : Nat) (job : Job π) (st : Status) (value : Slice) :
    Option (Calls σ π ε) :=
  (disposeAll s.memory job.worker.disposals).map fun m =>
    { s with
      memory := m
      jobs := s.jobs.eraseIdx i
      log := s.log ++ [.callback job.call job.callback (job.worker.reply ToString st value)] }

end Calls

/-- One step. A call that throws changes nothing. JS asks only for properties with a string as their name. -/
inductive CallStep {σ π ε : Type} (backend : Backend σ π ε) (s : Calls σ π ε) : Calls σ π ε → Prop
  | put {info : List Value} {t : Calls σ π ε} (h : s.put info = .ok t) : CallStep backend s t
  | get {info : List Value} {t : Calls σ π ε} (h : s.get info = .ok t) : CallStep backend s t
  | delete {info : List Value} {t : Calls σ π ε} (h : s.delete info = .ok t) : CallStep backend s t
  | batch {info : List Value} {t : Calls σ π ε} (h : s.batch info = .ok (some t)) : CallStep backend s t
  | approximateSize {info : List Value} {t : Calls σ π ε} (h : s.approximateSize info = .ok t) : CallStep backend s t
  | compactRange {info : List Value} {t : Calls σ π ε} (h : s.compactRange info = .ok t) : CallStep backend s t
  | getProperty {property : Slice} {t : Calls σ π ε} (h : s.getProperty (.string property) = some t) :
      CallStep backend s t
  | fill (b : Nat) (data : Slice) : CallStep backend s (s.fill b data)
  | batchPut {i : Nat} {key value : Value} {t : Calls σ π ε} (h : s.batchPut i key value = some t) : CallStep backend s t
  | batchDel {i : Nat} {key : Value} {t : Calls σ π ε} (h : s.batchDel i key = some t) : CallStep backend s t
  | batchClear (i : Nat) : CallStep backend s (s.batchClear i)
  | batchWrite {i : Nat} {info : Value} {t : Calls σ π ε} (h : s.batchWrite i info = some t) : CallStep backend s t
  | start {i : Nat} {job : Job π} {req : Request} (hi : s.jobs[i]? = some job) (hstage : job.stage = .queued)
      (hreq : job.worker.request s.memory = some req) :
      CallStep backend s (s.setStage i job (.running (backend.start req)) (.started job.call req))
  | work {i : Nat} {job : Job π} {p p' : π} {e : ε} {k : σ} (hi : s.jobs[i]? = some job)
      (hstage : job.stage = .running p) (hw : backend.Work s.kudu p e k p') :
      CallStep backend s ({ s with kudu := k }.setStage i job (.running p') (.work job.call e))
  | executed {i : Nat} {job : Job π} {p : π} {st : Status} {value : Slice} (hi : s.jobs[i]? = some job)
      (hstage : job.stage = .running p) (hres : backend.result p = some (st, value)) :
      CallStep backend s (s.setStage i job (.executed st value) (.executed job.call st value))
  | complete {i : Nat} {job : Job π} {st : Status} {value : Slice} {t : Calls σ π ε} (hi : s.jobs[i]? = some job)
      (hstage : job.stage = .executed st value) (h : s.complete backend.ToString i job st value = some t) :
      CallStep backend s t

/-- A step that changes no chained batch whose worker is out. `AbstractChainedBatch` throws when JS tries to. -/
structure LockedStep {σ π ε : Type} (backend : Backend σ π ε) (s t : Calls σ π ε) : Prop where
  step : CallStep backend s t
  locked : ∀ i change, t.log = s.log ++ [.changed i change] → ∀ job ∈ s.jobs, job.worker ≠ .BatchWriteWorker i

end Kududown
