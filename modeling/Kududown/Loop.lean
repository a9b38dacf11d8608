import Kududown.Lib.OrdMap
import Kududown.Lib.Run
import Kududown.Iterator

/-!
# The event loop

The main thread's calls `Database::Iterator`, `Iterator::Next`, `Iterator::End` and `Database::Close`, and
the two steps of every queued worker: `Execute` on the thread pool and, later and in any order, `WorkComplete`
on the main thread. An iterator is referred to by its position in `objs`, a call by its number. `log` tells
what happened, in order.
-/

namespace Kududown

inductive Worker
  | NextWorker (iterator call : Nat)
  | EndWorker (iterator : Nat) (callback : EndCallback)
  | CloseWorker (call : Nat)
deriving DecidableEq

namespace Worker

def isNext (r : Nat) : Worker → Bool
  | NextWorker r' _ => r' = r
  | _ => false

def isEnd (r : Nat) : Worker → Bool
  | EndWorker r' _ => r' = r
  | _ => false

def isClose (n : Nat) : Worker → Bool
  | CloseWorker n' => n' = n
  | _ => false

end Worker

/-- A queued worker, with its report once it has been executed. -/
structure Task where
  worker : Worker
  report : Option Report

inductive Event
  | nextCalled (iterator call : Nat)
  | nextRefused (iterator call : Nat)
  | iteratorNext (iterator : Nat) (exit : Exit)
  | nextCallback (iterator call : Nat) (report : Report)
  | released (iterator : Nat)
  | endCallback (iterator : Nat) (callback : EndCallback)
  | closeCalled (call : Nat)
  | closeCallback (call : Nat)
deriving DecidableEq

/-- The database with its iterators, and what has been queued. -/
structure Loop where
  objs : List Iterator
  currentIteratorId : Nat
  iterators : OrdMap Nat Nat
  pendingCloseWorker : Option Nat
  pool : List Task
  calls : Nat
  log : List Event

/-- `Database(from)`. -/
def Loop.init : Loop := ⟨[], 0, .empty, none, [], 0, []⟩

inductive Action
  | jsIterator (options : IteratorOptions)
  | jsNext (iterator : Nat)
  | jsEnd (iterator : Nat)
  | jsClose
  | execute (task : Nat) (openScan : ScanSpec → OpenReply) (tablePtr : Option KuduTable)
  | complete (task : Nat)

/-- A step of a worker, not a call from JS. -/
def Action.isWorker : Action → Bool
  | execute _ _ _ | complete _ => true
  | _ => false

namespace Loop

/-- `Nan::AsyncQueueWorker(worker)`. -/
def queue (s : Loop) (w : Worker) : Loop := { s with pool := s.pool ++ [⟨w, none⟩] }

def emit (s : Loop) (e : Event) : Loop := { s with log := s.log ++ [e] }

def setObj (s : Loop) (r : Nat) (it : Iterator) : Loop := { s with objs := s.objs.set r it }

def setTask (s : Loop) (i : Nat) (t : Task) : Loop := { s with pool := s.pool.set i t }

def count (s : Loop) (f : Worker → Bool) : Nat := s.pool.countP fun t => f t.worker

def nexts (s : Loop) (r : Nat) : Nat := s.count (Worker.isNext r)

def ends (s : Loop) (r : Nat) : Nat := s.count (Worker.isEnd r)

/-! ### Calls -/

/-- `Database::Iterator`: the id is a `uint32_t` and wraps around. -/
def jsIterator (s : Loop) (options : IteratorOptions) : Loop :=
  { s with
    objs := s.objs ++ [Iterator.new s.currentIteratorId options]
    currentIteratorId := (s.currentIteratorId + 1) % 2 ^ 32
    iterators := s.iterators.insert s.currentIteratorId s.objs.length }

/-- `Iterator::Next`. -/
def jsNext (s : Loop) (r : Nat) (it : Iterator) : Loop :=
  let call := s.calls
  let s := { s with calls := call + 1 }
  if it.ended then s.emit (.nextRefused r call)
  else ((s.setObj r { it with nexting := true }).queue (.NextWorker r call)).emit (.nextCalled r call)

/-- `Iterator::End`. -/
def endIterator (s : Loop) (r : Nat) (it : Iterator) (callback : EndCallback) : Loop :=
  if it.ended then s
  else if it.nexting then
    -- waiting for a next() to return, queue the end
    s.setObj r { it with ended := true, endWorker := some callback }
  else (s.setObj r { it with ended := true }).queue (.EndWorker r callback)

/-- The body of the loop in `Database::Close`. -/
def closeIterator (s : Loop) (entry : Nat × Nat) : Loop :=
  match s.objs[entry.2]? with
  | none => s
  | some it => if it.ended then s else s.endIterator entry.2 it .EmptyMethod

/-- `Database::Close`. -/
def jsClose (s : Loop) : Loop :=
  let call := s.calls
  let s := { s with calls := call + 1 }.emit (.closeCalled call)
  if s.iterators.entries = [] then s.queue (.CloseWorker call)
  else s.iterators.entries.foldl closeIterator { s with pendingCloseWorker := some call }

/-! ### Completions -/

def checkEndCallback (s : Loop) (r : Nat) (it : Iterator) : Loop :=
  match it.endWorker with
  | none => s
  | some callback => (s.queue (.EndWorker r callback)).setObj r { it with endWorker := none }

/-- `Database::ReleaseIterator`. -/
def releaseIterator (s : Loop) (id : Nat) : Loop :=
  let s := { s with iterators := s.iterators.erase id }
  if s.iterators.entries = [] then
    match s.pendingCloseWorker with
    | none => s
    | some call => { s.queue (.CloseWorker call) with pendingCloseWorker := none }
  else s

/-- `WorkComplete` of an executed NextWorker: `HandleOKCallback`, or the inherited `HandleErrorCallback`,
which knows nothing of `checkEndCallback`. -/
def nextComplete (s : Loop) (r call : Nat) (it : Iterator) (report : Report) : Loop :=
  match report with
  | .ok _ _ => (s.checkEndCallback r it).emit (.nextCallback r call report)
  | .error _ => s.emit (.nextCallback r call report)

/-- `EndWorker::HandleOKCallback`. -/
def endComplete (s : Loop) (r : Nat) (it : Iterator) (callback : EndCallback) : Loop :=
  ((s.releaseIterator it.id).emit (.released r)).emit (.endCallback r callback)

def nextExecute (s : Loop) (i r call : Nat) (it : Iterator) (openScan : ScanSpec → OpenReply)
    (tablePtr : Option KuduTable) : Loop :=
  let res := it.iteratorNext openScan tablePtr
  ((s.setObj r res.iterator).setTask i ⟨.NextWorker r call, some res.report⟩).emit (.iteratorNext r res.exit)

/-- One step. JS never has two next() calls of an iterator outstanding (`AbstractIterator` sees to that). -/
def step (s : Loop) : Action → Option Loop
  | .jsIterator options => some (s.jsIterator options)
  | .jsNext r => s.objs[r]?.bind fun it => if s.nexts r = 0 then some (s.jsNext r it) else none
  | .jsEnd r => s.objs[r]?.map fun it => { s with calls := s.calls + 1 }.endIterator r it (.js s.calls)
  | .jsClose => some s.jsClose
  | .execute i openScan tablePtr =>
    match s.pool[i]? with
    | some ⟨.NextWorker r call, none⟩ => s.objs[r]?.map fun it => s.nextExecute i r call it openScan tablePtr
    | some ⟨w, none⟩ => some (s.setTask i ⟨w, some (.ok [] true)⟩)
    | _ => none
  | .complete i =>
    let rest := { s with pool := s.pool.eraseIdx i }
    match s.pool[i]? with
    | some ⟨.NextWorker r call, some report⟩ => s.objs[r]?.map fun it => rest.nextComplete r call it report
    | some ⟨.EndWorker r callback, some _⟩ => s.objs[r]?.map fun it => rest.endComplete r it callback
    | some ⟨.CloseWorker call, some _⟩ => some (rest.emit (.closeCallback call))
    | _ => none

end Loop

end Kududown
