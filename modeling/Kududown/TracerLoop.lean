import Kududown.Tracer

/-!
# Logging from many threads

`tracer::Log` is called on the main thread and on the threads of the pool. Its steps interleave with those of other
calls, and with `flush_log_messages` on the main thread, which calls the logger; that is JS, so it may log, flush and
register a logger in turn. `uv_async_send` asks for a flush later, and many of them may be answered by one. The look at
the length and the `clear` are not one step, so the queue may grow past `buffer_length`, by two messages a thread at
most. While a message is queued somebody is going to flush it, and when nobody logs any more the queue gets empty
(`never_stalls`).
-/

namespace Kududown

theorem ThreadsafeQueue.dequeue_cons {α : Type} {q : ThreadsafeQueue α} {item : α} {queue : List α}
    (h : q.queue = item :: queue) : q.dequeue = (some item, ⟨queue, (q.queueLength + (2 ^ 32 - 1)) % 2 ^ 32⟩) := by
  unfold dequeue
  rw [h]

def LogLevel.TRACE : LogLevel := 0
def LogLevel.DEBUG : LogLevel := 1
def LogLevel.INFO : LogLevel := 2
def LogLevel.ERROR : LogLevel := 4
def LogLevel.FATAL : LogLevel := 5

/-! ### The state -/

/-- What is queued: a message with the number of its call of `Log`, or a notice. Nothing reads the number. -/
structure LogEntry where
  call : Option Nat
  message : LogMessage
deriving DecidableEq

/-- What a call of `Log` does next. -/
inductive LogNext
  | length | clear | notice | enqueue | signal
deriving DecidableEq

structure LogCall where
  call : Nat
  message : LogMessage
  next : LogNext
deriving DecidableEq

/-- What a call of `flush_log_messages` does next; `logger` is that the logger returns. -/
inductive FlushNext
  | dequeue | logger | length
deriving DecidableEq

/-- `callback` is the logger registered when the flush begins, if there is one. -/
structure FlushCall where
  callback : Option Nat
  maxInBatch : Nat
  next : FlushNext
deriving DecidableEq

/-- `tracer` with its threads. `loggerAsync` says that there is a `_logger_async`, and `sent` that its callback is to be
run. Its handle is unreferenced, so this takes a loop that something else keeps running. `logs` are the calls of `Log`
that are under way, and `flushes` those of `flush_log_messages`, the innermost first. `begun` are the messages of the
calls that were let through, `entered` is what was ever queued; it was handed to a logger, taken off the queue by a
flush that did not hand it out, thrown away, or is still queued. -/
structure TracerLoop where
  logger : Option Nat := none
  loggerAsync : Bool := true
  logLevel : LogLevel
  batchLength : Nat
  bufferLength : Nat
  logMessages : ThreadsafeQueue LogEntry := {}
  sent : Bool := false
  logs : List LogCall := []
  flushes : List FlushCall := []
  begun : List LogMessage := []
  entered : List LogEntry := []
  delivered : List (Nat × LogEntry) := []
  passed : List LogEntry := []
  discarded : List LogEntry := []

/-- The environment: what `std::stoi` makes of the numbers. -/
structure TracerEnv where
  TRACER_BATCH_LENGTH : Option Int32
  TRACER_BUFFER_LENGTH : Option Int32
  TRACER_LOG_LEVEL : Option String

/-- `get_env<int>`, as an `unsigned int`, and the default for 0. -/
def getEnvLength (env : Option Int32) : Nat :=
  let length := (env.getD 0).toUInt32.toNat
  if length < 1 then 1000 else length

def logLevelOf (logLevelString : String) : LogLevel :=
  if logLevelString = "TRACE" ∨ logLevelString = "0" then .TRACE
  else if logLevelString = "DEBUG" ∨ logLevelString = "1" then .DEBUG
  else if logLevelString = "INFO" ∨ logLevelString = "2" then .INFO
  else if logLevelString = "WARN" ∨ logLevelString = "3" then .WARN
  else if logLevelString = "ERROR" ∨ logLevelString = "4" then .ERROR
  else if logLevelString = "FATAL" ∨ logLevelString = "5" then .FATAL
  else .WARN

inductive TracerLoopAction
  | log (module : String) (loglevel : LogLevel) (message : String)
  | logStep (i : Nat)
  | flush
  | flushStep
  | asyncLoggerCallback
  | registerLogger (callback : Option Nat)
  | setLogLevel (value : Int)
  | setBatchLength (value : Int)
  | deinit

namespace TracerLoop

/-- `tracer::Init`. -/
def init (env : TracerEnv) : TracerLoop :=
  { logLevel := logLevelOf (env.TRACER_LOG_LEVEL.getD "")
    batchLength := getEnvLength env.TRACER_BATCH_LENGTH
    bufferLength := getEnvLength env.TRACER_BUFFER_LENGTH }

/-! ### `Log` -/

def signal (s : TracerLoop) : TracerLoop := { s with sent := s.sent || s.loggerAsync }

def enqueue (s : TracerLoop) (e : LogEntry) : TracerLoop :=
  { s with logMessages := s.logMessages.enqueue e, entered := s.entered ++ [e] }

def clear (s : TracerLoop) : TracerLoop :=
  { s with logMessages := s.logMessages.clear, discarded := s.discarded ++ s.logMessages.queue }

def setLog (s : TracerLoop) (i : Nat) (c : LogCall) : TracerLoop := { s with logs := s.logs.set i c }

/-- A call of `Log` begins, on one of the threads that are not in one. -/
def log (s : TracerLoop) (threads : Nat) (module : String) (loglevel : LogLevel) (message : String) :
    Option TracerLoop :=
  if loglevel ≥ s.logLevel then
    if s.logs.length < threads then
      some { s with
        logs := s.logs ++ [⟨s.begun.length, ⟨module, loglevel, message⟩, .length⟩]
        begun := s.begun ++ [⟨module, loglevel, message⟩] }
    else none
  else some s

def logNext (s : TracerLoop) (i : Nat) (c : LogCall) : TracerLoop :=
  match c.next with
  | .length =>
    if s.logMessages.length > s.bufferLength then s.setLog i { c with next := .clear }
    else s.setLog i { c with next := .enqueue }
  | .clear => s.clear.setLog i { c with next := .notice }
  | .notice => (s.enqueue ⟨none, overwriting⟩).setLog i { c with next := .enqueue }
  | .enqueue => (s.enqueue ⟨some c.call, c.message⟩).setLog i { c with next := .signal }
  | .signal => signal { s with logs := s.logs.eraseIdx i }

/-! ### `flush_log_messages` -/

def flush (s : TracerLoop) : TracerLoop := { s with flushes := ⟨s.logger, s.batchLength, .dequeue⟩ :: s.flushes }

/-- `_log_messages.dequeue(lm)` has given a message, and `f` goes on with the others. -/
def dequeued (s : TracerLoop) (f : FlushCall) (rest : List FlushCall) (lm : LogEntry) : TracerLoop :=
  if f.maxInBatch > 0 ∧ lm.message.level ≥ s.logLevel then
    match f.callback with
    | some logger =>
      if s.logger.isSome && s.loggerAsync then
        { s with
          delivered := s.delivered ++ [(logger, lm)]
          flushes := { f with maxInBatch := f.maxInBatch - 1, next := .logger } :: rest }
      else
        { s with passed := s.passed ++ [lm], flushes := { f with maxInBatch := f.maxInBatch - 1 } :: rest }
    | none => { s with passed := s.passed ++ [lm], flushes := { f with maxInBatch := f.maxInBatch - 1 } :: rest }
  else { s with passed := s.passed ++ [lm], flushes := { f with next := .length } :: rest }

def flushNext (s : TracerLoop) (f : FlushCall) (rest : List FlushCall) : TracerLoop :=
  match f.next with
  | .dequeue =>
    match s.logMessages.dequeue with
    | (none, _) => { s with flushes := { f with next := .length } :: rest }
    | (some lm, logMessages) => dequeued { s with logMessages } f rest lm
  | .logger => { s with flushes := { f with next := .dequeue } :: rest }
  | .length =>
    if s.logMessages.length > 0 then signal { s with flushes := rest } else { s with flushes := rest }

/-! ### Steps -/

/-- JS is run: nothing is being flushed, or the logger was called. -/
def inJs (s : TracerLoop) : Bool :=
  match s.flushes with
  | [] => true
  | f :: _ => f.next = .logger

def js (s t : TracerLoop) : Option TracerLoop := if s.inJs then some t else none

/-- `RegisterLogger`; `none` is anything but a function. -/
def registerLogger (s : TracerLoop) (callback : Option Nat) : TracerLoop :=
  match callback with
  | some logger => { s with logger := some logger }
  | none => clear { s with logger := none }

/-- The cast to `uint8_t`. -/
def setLogLevel (s : TracerLoop) (value : Int) : TracerLoop := { s with logLevel := .ofNat (value % 2 ^ 8).toNat }

/-- The cast to `unsigned int`. -/
def setBatchLength (s : TracerLoop) (value : Int) : TracerLoop :=
  let batchLength := (value % 2 ^ 32).toNat
  { s with batchLength := if batchLength < 1 then 1 else batchLength }

/-- `Log` may be called on any of the `threads`. -/
def step (threads : Nat) (s : TracerLoop) : TracerLoopAction → Option TracerLoop
  | .log module loglevel message => s.log threads module loglevel message
  | .logStep i => s.logs[i]?.map fun c => s.logNext i c
  | .flush => s.js s.flush
  | .flushStep => s.flushes.head?.map fun f => s.flushNext f s.flushes.tail
  | .asyncLoggerCallback => if s.sent ∧ s.flushes = [] then some (flush { s with sent := false }) else none
  | .registerLogger callback => s.js (s.registerLogger callback)
  | .setLogLevel value => s.js (s.setLogLevel value)
  | .setBatchLength value => s.js (s.setBatchLength value)
  | .deinit => s.js { s with loggerAsync := false, sent := false }

variable {s t : TracerLoop} {threads : Nat} {action : TracerLoopAction}

/-- What a step can do. -/
inductive Stepped (threads : Nat) (s : TracerLoop) : TracerLoopAction → TracerLoop → Prop
  | quiet {module : String} {loglevel : LogLevel} {message : String} (h : ¬ loglevel ≥ s.logLevel) :
    Stepped threads s (.log module loglevel message) s
  | begun {module : String} {loglevel : LogLevel} {message : String} (h : s.logs.length < threads) :
    Stepped threads s (.log module loglevel message) { s with
      logs := s.logs ++ [⟨s.begun.length, ⟨module, loglevel, message⟩, .length⟩]
      begun := s.begun ++ [⟨module, loglevel, message⟩] }
  | full {i : Nat} {c : LogCall} (hi : s.logs[i]? = some c) (hnext : c.next = .length)
    (h : s.logMessages.length > s.bufferLength) : Stepped threads s (.logStep i) (s.setLog i { c with next := .clear })
  | room {i : Nat} {c : LogCall} (hi : s.logs[i]? = some c) (hnext : c.next = .length)
    (h : s.logMessages.length ≤ s.bufferLength) :
    Stepped threads s (.logStep i) (s.setLog i { c with next := .enqueue })
  | cleared {i : Nat} {c : LogCall} (hi : s.logs[i]? = some c) (hnext : c.next = .clear) :
    Stepped threads s (.logStep i) (s.clear.setLog i { c with next := .notice })
  | noticed {i : Nat} {c : LogCall} (hi : s.logs[i]? = some c) (hnext : c.next = .notice) :
    Stepped threads s (.logStep i) ((s.enqueue ⟨none, overwriting⟩).setLog i { c with next := .enqueue })
  | entered {i : Nat} {c : LogCall} (hi : s.logs[i]? = some c) (hnext : c.next = .enqueue) :
    Stepped threads s (.logStep i) ((s.enqueue ⟨some c.call, c.message⟩).setLog i { c with next := .signal })
  | logged {i : Nat} {c : LogCall} (hi : s.logs[i]? = some c) (hnext : c.next = .signal) :
    Stepped threads s (.logStep i) (signal { s with logs := s.logs.eraseIdx i })
  | flush : Stepped threads s .flush s.flush
  | empty {f : FlushCall} {rest : List FlushCall} (hf : s.flushes = f :: rest) (hnext : f.next = .dequeue)
    (h : s.logMessages.queue = []) :
    Stepped threads s .flushStep { s with flushes := { f with next := .length } :: rest }
  | handed {f : FlushCall} {rest : List FlushCall} {lm : LogEntry} {queue : List LogEntry} {logger : Nat}
    (hf : s.flushes = f :: rest) (hnext : f.next = .dequeue) (h : s.logMessages.queue = lm :: queue)
    (hpass : f.maxInBatch > 0 ∧ lm.message.level ≥ s.logLevel) (hlogger : f.callback = some logger)
    (hactive : (s.logger.isSome && s.loggerAsync) = true) :
    Stepped threads s .flushStep { s with
      logMessages := s.logMessages.dequeue.2
      delivered := s.delivered ++ [(logger, lm)]
      flushes := { f with maxInBatch := f.maxInBatch - 1, next := .logger } :: rest }
  | passed {f f' : FlushCall} {rest : List FlushCall} {lm : LogEntry} {queue : List LogEntry}
    (hf : s.flushes = f :: rest) (hnext : f.next = .dequeue) (h : s.logMessages.queue = lm :: queue)
    (hf' : f' = { f with maxInBatch := f.maxInBatch - 1 } ∧
        (f.callback = none ∨ (s.logger.isSome && s.loggerAsync) ≠ true) ∨
      f' = { f with next := .length } ∧ ¬ (f.maxInBatch > 0 ∧ lm.message.level ≥ s.logLevel)) :
    Stepped threads s .flushStep { s with
      logMessages := s.logMessages.dequeue.2
      passed := s.passed ++ [lm]
      flushes := f' :: rest }
  | returned {f : FlushCall} {rest : List FlushCall} (hf : s.flushes = f :: rest) (hnext : f.next = .logger) :
    Stepped threads s .flushStep { s with flushes := { f with next := .dequeue } :: rest }
  | more {f : FlushCall} {rest : List FlushCall} (hf : s.flushes = f :: rest) (hnext : f.next = .length)
    (h : s.logMessages.length > 0) : Stepped threads s .flushStep (signal { s with flushes := rest })
  | done {f : FlushCall} {rest : List FlushCall} (hf : s.flushes = f :: rest) (hnext : f.next = .length)
    (h : s.logMessages.length = 0) : Stepped threads s .flushStep { s with flushes := rest }
  | callback (hsent : s.sent = true) (hf : s.flushes = []) :
    Stepped threads s .asyncLoggerCallback (TracerLoop.flush { s with sent := false })
  | registered (logger : Nat) : Stepped threads s (.registerLogger (some logger)) { s with logger := some logger }
  | unregistered : Stepped threads s (.registerLogger none) (clear { s with logger := none })
  | setLogLevel (value : Int) : Stepped threads s (.setLogLevel value) (s.setLogLevel value)
  | setBatchLength (value : Int) : Stepped threads s (.setBatchLength value) (s.setBatchLength value)
  | deinit : Stepped threads s .deinit { s with loggerAsync := false, sent := false }

theorem of_js {u : TracerLoop} (h : s.js u = some t) : t = u := by
  unfold js at h
  split_ifs at h
  exact (Option.some.inj h).symm

theorem stepped_logNext {i : Nat} {c : LogCall} (hi : s.logs[i]? = some c) :
    Stepped threads s (.logStep i) (s.logNext i c) := by
  unfold logNext
  split
  · rename_i hnext
    split_ifs with hfull
    · exact .full hi hnext hfull
    · exact .room hi hnext (Nat.le_of_not_lt hfull)
  · rename_i hnext
    exact .cleared hi hnext
  · rename_i hnext
    exact .noticed hi hnext
  · rename_i hnext
    exact .entered hi hnext
  · rename_i hnext
    exact .logged hi hnext

theorem stepped_dequeued {f : FlushCall} {rest : List FlushCall} {lm : LogEntry} {queue : List LogEntry}
    (hf : s.flushes = f :: rest) (hnext : f.next = .dequeue) (hqueue : s.logMessages.queue = lm :: queue) :
    Stepped threads s .flushStep (dequeued { s with logMessages := s.logMessages.dequeue.2 } f rest lm) := by
  unfold dequeued
  split_ifs with hpass hactive
  · split
    · rename_i logger hlogger
      exact .handed hf hnext hqueue hpass hlogger hactive
    · rename_i hlogger
      exact .passed hf hnext hqueue (.inl ⟨rfl, .inl hlogger⟩)
  · split
    · exact .passed hf hnext hqueue (.inl ⟨rfl, .inr hactive⟩)
    · exact .passed hf hnext hqueue (.inl ⟨rfl, .inr hactive⟩)
  · exact .passed hf hnext hqueue (.inr ⟨rfl, hpass⟩)

theorem stepped_flushNext {f : FlushCall} {rest : List FlushCall} (hf : s.flushes = f :: rest) :
    Stepped threads s .flushStep (s.flushNext f rest) := by
  unfold flushNext
  split
  · rename_i hnext
    rcases hqueue : s.logMessages.queue with _ | ⟨lm, queue⟩
    · have hdequeue : s.logMessages.dequeue = (none, s.logMessages) := by
        unfold ThreadsafeQueue.dequeue
        rw [hqueue]
      rw [hdequeue]
      exact .empty hf hnext hqueue
    · have hdequeued := @stepped_dequeued s threads _ _ _ _ hf hnext hqueue
      rw [ThreadsafeQueue.dequeue_cons hqueue] at hdequeued ⊢
      exact hdequeued
  · rename_i hnext
    exact .returned hf hnext
  · rename_i hnext
    split_ifs with hlength
    · exact .more hf hnext hlength
    · exact .done hf hnext (Nat.eq_zero_of_not_pos hlength)

theorem stepped (h : s.step threads action = some t) : Stepped threads s action t := by
  cases action with
  | log module loglevel message =>
    change s.log threads module loglevel message = some t at h
    unfold log at h
    split_ifs at h with hlevel hthread
    · exact Option.some.inj h ▸ .begun hthread
    · exact Option.some.inj h ▸ .quiet hlevel
  | logStep i =>
    obtain ⟨c, hi, rfl⟩ := Option.map_eq_some_iff.1 h
    exact stepped_logNext hi
  | flush => exact of_js h ▸ .flush
  | flushStep =>
    obtain ⟨f, hf, rfl⟩ := Option.map_eq_some_iff.1 h
    exact stepped_flushNext (List.cons_head?_tail hf).symm
  | asyncLoggerCallback =>
    change (if s.sent ∧ s.flushes = [] then some (flush { s with sent := false }) else none) = some t at h
    split_ifs at h with hcallback
    exact Option.some.inj h ▸ .callback hcallback.1 hcallback.2
  | registerLogger callback =>
    rw [of_js h]
    rcases callback with _ | logger
    · exact .unregistered
    · exact .registered logger
  | setLogLevel value => exact of_js h ▸ .setLogLevel value
  | setBatchLength value => exact of_js h ▸ .setBatchLength value
  | deinit => exact of_js h ▸ .deinit

end TracerLoop

/-! ### What a call is still to do -/

/-- The messages that a call of `Log` is to queue without looking at the length again. -/
def LogNext.reserved : LogNext → Nat
  | .length | .clear | .signal => 0
  | .notice => 2
  | .enqueue => 1

theorem LogNext.reserved_le (next : LogNext) : next.reserved ≤ 2 := by
  cases next <;> decide

/-- What is not asked for by JS, or by a thread that begins to log. -/
def TracerLoopAction.isOwn : TracerLoopAction → Bool
  | .logStep _ | .flushStep | .asyncLoggerCallback => true
  | _ => false

/-- What a call of `Log` still takes at most, with the flush of what it queues. -/
def LogNext.work : LogNext → Nat
  | .length => 20
  | .clear => 19
  | .notice => 18
  | .enqueue => 11
  | .signal => 4

/-- What a flush still takes when it leaves the queue as it is. It asks for another one if it sees messages left. -/
def FlushNext.work (queued : Nat) : FlushNext → Nat
  | .dequeue => 2
  | .logger => 3
  | .length => if queued = 0 then 1 else 4

theorem FlushNext.work_le (queued : Nat) (next : FlushNext) : next.work queued ≤ 4 := by
  cases next <;> simp only [FlushNext.work]
  · omega
  · omega
  · split_ifs <;> omega

namespace TracerLoop
variable {s t : TracerLoop} {threads i : Nat} {action : TracerLoopAction} {c : LogCall}

/-! ### The length of the queue -/

def reserved (s : TracerLoop) : Nat := (s.logs.map fun c => c.next.reserved).sum

/-- The queue and what is about to be queued is short. -/
structure Bounded (threads : Nat) (s : TracerLoop) : Prop where
  counted : s.logMessages.Counted
  logs : s.logs.length ≤ threads
  pos : 0 < s.bufferLength
  size : s.bufferLength + 2 * threads ≤ 2 ^ 32
  length : s.logMessages.queue.length + s.reserved < s.bufferLength + 2 * threads

theorem reserved_le (l : List LogCall) : (l.map fun c => c.next.reserved).sum ≤ 2 * l.length := by
  induction l with
  | nil => exact Nat.le_refl 0
  | cons c l ih =>
    have := c.next.reserved_le
    simp only [List.map_cons, List.sum_cons, List.length_cons]
    omega

/-- The other calls reserve at most two messages each. -/
theorem reserved_others (hi : s.logs[i]? = some c) : s.reserved + 2 ≤ 2 * s.logs.length + c.next.reserved := by
  have herase := sum_map_eraseIdx hi fun c : LogCall => c.next.reserved
  have hothers := reserved_le (s.logs.eraseIdx i)
  obtain ⟨hlt, -⟩ := List.getElem?_eq_some_iff.1 hi
  rw [List.length_eraseIdx_of_lt hlt] at hothers
  unfold reserved
  omega

theorem reserved_setLog (hi : s.logs[i]? = some c) (c' : LogCall) :
    (s.setLog i c').reserved + c.next.reserved = s.reserved + c'.next.reserved :=
  sum_map_set hi c' _

theorem Bounded.dequeue {lm : LogEntry} {queue : List LogEntry} (h : s.Bounded threads)
    (hqueue : s.logMessages.queue = lm :: queue) :
    s.logMessages.dequeue.2.Counted ∧
      s.logMessages.dequeue.2.queue.length + s.reserved < s.bufferLength + 2 * threads := by
  have hrest : s.logMessages.dequeue.2.queue = queue := by rw [ThreadsafeQueue.dequeue_cons hqueue]
  have hlength := h.length
  rw [hqueue, List.length_cons] at hlength
  rw [hrest]
  exact ⟨h.counted.dequeue, by omega⟩

/-- The counter is exact. -/
theorem Bounded.length_eq (h : s.Bounded threads) : s.logMessages.length = s.logMessages.queue.length := by
  have hlength := h.length
  have hsize := h.size
  exact h.counted.trans (Nat.mod_eq_of_lt (by omega))

theorem Bounded.stepped (h : s.Bounded threads) (hstep : Stepped threads s action t) : t.Bounded threads := by
  have hlength := h.length
  cases hstep with
  | quiet => exact h
  | begun hthread =>
    refine ⟨h.counted, ?_, h.pos, h.size, ?_⟩
    · rw [List.length_append]
      exact hthread
    · unfold reserved at hlength ⊢
      simpa [LogNext.reserved] using hlength
  | @full i c hi hnext =>
    have hreserved := reserved_setLog hi { c with next := .clear }
    rw [hnext] at hreserved
    refine ⟨h.counted, by rw [setLog, List.length_set]; exact h.logs, h.pos, h.size, ?_⟩
    simp only [LogNext.reserved] at hreserved
    show s.logMessages.queue.length + _ < s.bufferLength + _
    omega
  | @room i c hi hnext hroom =>
    rw [h.length_eq] at hroom
    have hreserved := reserved_setLog hi { c with next := .enqueue }
    have hothers := reserved_others hi
    have hlogs := h.logs
    rw [hnext] at hreserved hothers
    refine ⟨h.counted, by rw [setLog, List.length_set]; exact h.logs, h.pos, h.size, ?_⟩
    simp only [LogNext.reserved] at hreserved hothers
    show s.logMessages.queue.length + _ < s.bufferLength + _
    omega
  | @cleared i c hi hnext =>
    have hthreads := reserved_le (s.clear.setLog i { c with next := .notice }).logs
    have hpos := h.pos
    have hlogs : (s.clear.setLog i { c with next := .notice }).logs.length ≤ threads := by
      rw [setLog, List.length_set]
      exact h.logs
    refine ⟨rfl, hlogs, h.pos, h.size, ?_⟩
    show 0 + reserved _ < s.bufferLength + _
    unfold reserved
    omega
  | @noticed i c hi hnext =>
    have hreserved := @reserved_setLog (s.enqueue ⟨none, overwriting⟩) i c hi { c with next := .enqueue }
    rw [hnext] at hreserved
    refine ⟨h.counted.enqueue _, by rw [setLog, List.length_set]; exact h.logs, h.pos, h.size, ?_⟩
    simp only [LogNext.reserved] at hreserved
    change _ = s.reserved + 1 at hreserved
    show (s.logMessages.queue ++ [_]).length + _ < s.bufferLength + _
    rw [List.length_append, List.length_singleton]
    omega
  | @entered i c hi hnext =>
    have hreserved := @reserved_setLog (s.enqueue ⟨some c.call, c.message⟩) i c hi { c with next := .signal }
    rw [hnext] at hreserved
    refine ⟨h.counted.enqueue _, by rw [setLog, List.length_set]; exact h.logs, h.pos, h.size, ?_⟩
    simp only [LogNext.reserved] at hreserved
    change _ = s.reserved + 0 at hreserved
    show (s.logMessages.queue ++ [_]).length + _ < s.bufferLength + _
    rw [List.length_append, List.length_singleton]
    omega
  | @logged i c hi hnext =>
    have hreserved := sum_map_eraseIdx hi fun c : LogCall => c.next.reserved
    refine ⟨h.counted, Nat.le_trans (List.length_eraseIdx_le _ _) h.logs, h.pos, h.size, ?_⟩
    unfold reserved at hlength
    show s.logMessages.queue.length + ((s.logs.eraseIdx i).map _).sum < s.bufferLength + _
    omega
  | @handed f rest lm queue logger hf hnext hqueue =>
    obtain ⟨hcounted, hshorter⟩ := h.dequeue hqueue
    exact ⟨hcounted, h.logs, h.pos, h.size, hshorter⟩
  | @passed f f' rest lm queue hf hnext hqueue =>
    obtain ⟨hcounted, hshorter⟩ := h.dequeue hqueue
    exact ⟨hcounted, h.logs, h.pos, h.size, hshorter⟩
  | unregistered =>
    refine ⟨rfl, h.logs, h.pos, h.size, ?_⟩
    show 0 + s.reserved < s.bufferLength + _
    omega
  | flush | empty | returned | more | done | callback | registered | setLogLevel | setBatchLength | deinit =>
    exact ⟨h.counted, h.logs, h.pos, h.size, h.length⟩

/-! ### Somebody is going to flush -/

/-- While a message is queued a flush has been asked for, or a call is under way that will ask for one, or look. -/
def Awake (s : TracerLoop) : Prop :=
  s.loggerAsync = true → s.logMessages.queue ≠ [] → s.sent = true ∨ s.logs ≠ [] ∨ s.flushes ≠ []

theorem set_ne_nil {α : Type} {l : List α} {i : Nat} {a b : α} (h : l[i]? = some a) : l.set i b ≠ [] := by
  intro hnil
  rw [List.set_eq_nil_iff] at hnil
  rw [hnil] at h
  simp at h

theorem signal_sent (h : s.signal.loggerAsync = true) : s.signal.sent = true := by
  have hactive : s.loggerAsync = true := h
  show (s.sent || s.loggerAsync) = true
  rw [hactive, Bool.or_true]

theorem Awake.stepped (h : s.Awake) (hb : s.Bounded threads) (hstep : Stepped threads s action t) : t.Awake := by
  intro hactive hqueue
  cases hstep with
  | quiet | registered | setLogLevel | setBatchLength => exact h hactive hqueue
  | begun => exact .inr (.inl (by simp))
  | full hi | room hi | cleared hi | noticed hi | entered hi => exact .inr (.inl (set_ne_nil hi))
  | logged | more => exact .inl (signal_sent hactive)
  | flush | empty | handed | passed | returned | callback => exact .inr (.inr (List.cons_ne_nil _ _))
  | done hf hnext hlength =>
    rw [hb.length_eq] at hlength
    exact absurd (List.length_eq_zero_iff.1 hlength) hqueue
  | unregistered => exact absurd rfl hqueue
  | deinit => cases hactive

/-! ### The queue gets empty -/

def flushWork (queued : Nat) : List FlushCall → Nat
  | [] => 0
  | f :: rest => f.next.work queued + 4 * rest.length

theorem flushWork_cons {queued : Nat} {f : FlushCall} {rest : List FlushCall} :
    flushWork queued (f :: rest) = f.next.work queued + 4 * rest.length := rfl

theorem flushWork_le (queued : Nat) (flushes : List FlushCall) : flushWork queued flushes ≤ 4 * flushes.length := by
  rcases flushes with _ | ⟨f, rest⟩
  · exact Nat.zero_le _
  · have := f.next.work_le queued
    simp only [flushWork, List.length_cons]
    omega

/-- It makes a difference only for the flush that is about to look at the length. -/
theorem flushWork_le_add (queued queued' : Nat) (flushes : List FlushCall) :
    flushWork queued' flushes ≤ flushWork queued flushes + 3 := by
  rcases flushes with _ | ⟨⟨callback, maxInBatch, next⟩, rest⟩
  · exact Nat.zero_le _
  · cases next <;> simp only [flushWork, FlushNext.work]
    · omega
    · omega
    · split_ifs <;> omega

theorem flushWork_zero (queued : Nat) (flushes : List FlushCall) : flushWork 0 flushes ≤ flushWork queued flushes := by
  rcases flushes with _ | ⟨⟨callback, maxInBatch, next⟩, rest⟩
  · exact Nat.zero_le _
  · cases next <;> simp only [flushWork, FlushNext.work]
    · omega
    · omega
    · split_ifs <;> omega

def work (s : TracerLoop) : Nat :=
  3 * s.logMessages.queue.length + (s.logs.map fun c => c.next.work).sum + flushWork s.logMessages.length s.flushes +
    if s.sent then 3 else 0

/-- The work of a call of `Log`. -/
theorem work_setLog (hi : s.logs[i]? = some c) (c' : LogCall) :
    (s.setLog i c').work + c.next.work = s.work + c'.next.work := by
  have hsum := sum_map_set hi c' fun c : LogCall => c.next.work
  unfold work setLog
  dsimp only
  omega

theorem work_enqueue (e : LogEntry) : (s.enqueue e).work ≤ s.work + 6 := by
  have hflush := flushWork_le_add s.logMessages.length (s.logMessages.enqueue e).length s.flushes
  have hqueue : (s.logMessages.enqueue e).queue.length = s.logMessages.queue.length + 1 := List.length_append
  unfold work enqueue
  dsimp only
  omega

theorem work_clear : s.clear.work ≤ s.work := by
  have hflush := flushWork_zero s.logMessages.length s.flushes
  have hqueue : s.logMessages.clear.queue.length = 0 := rfl
  have hlength : s.logMessages.clear.length = 0 := rfl
  unfold work clear
  dsimp only
  rw [hqueue, hlength]
  omega

theorem work_signal : s.signal.work ≤ s.work + 3 := by
  unfold work signal
  dsimp only
  split_ifs <;> omega

theorem work_flushes {flushes : List FlushCall} :
    work { s with flushes } + flushWork s.logMessages.length s.flushes =
      s.work + flushWork s.logMessages.length flushes := by
  unfold work
  dsimp only
  omega

theorem work_dequeue {lm : LogEntry} {queue : List LogEntry} {f' : FlushCall} {rest : List FlushCall}
    (hqueue : s.logMessages.queue = lm :: queue) :
    work { s with logMessages := s.logMessages.dequeue.2, flushes := f' :: rest } + 3 +
      flushWork s.logMessages.length s.flushes = s.work + flushWork s.logMessages.dequeue.2.length (f' :: rest) := by
  have hrest : s.logMessages.dequeue.2.queue = queue := by rw [ThreadsafeQueue.dequeue_cons hqueue]
  unfold work
  dsimp only
  rw [hrest, hqueue, List.length_cons]
  omega

theorem step_work (hcounted : s.logMessages.Counted) (hstep : Stepped threads s action t)
    (hown : action.isOwn = true) : t.work < s.work := by
  cases hstep with
  | quiet | begun | flush | registered | unregistered | setLogLevel | setBatchLength | deinit => cases hown
  | @full i c hi hnext =>
    have h := work_setLog hi { c with next := .clear }
    simp only [hnext, LogNext.work] at h
    omega
  | @room i c hi hnext =>
    have h := work_setLog hi { c with next := .enqueue }
    simp only [hnext, LogNext.work] at h
    omega
  | @cleared i c hi hnext =>
    have h := @work_setLog s.clear _ _ hi { c with next := .notice }
    have hclear := @work_clear s
    simp only [hnext, LogNext.work] at h
    omega
  | @noticed i c hi hnext =>
    have h := @work_setLog (s.enqueue ⟨none, overwriting⟩) _ _ hi { c with next := .enqueue }
    have henqueue := @work_enqueue s ⟨none, overwriting⟩
    simp only [hnext, LogNext.work] at h
    omega
  | @entered i c hi hnext =>
    have h := @work_setLog (s.enqueue ⟨some c.call, c.message⟩) _ _ hi { c with next := .signal }
    have henqueue := @work_enqueue s ⟨some c.call, c.message⟩
    simp only [hnext, LogNext.work] at h
    omega
  | @logged i c hi hnext =>
    have hsum := sum_map_eraseIdx hi fun c : LogCall => c.next.work
    have hsignal := @work_signal { s with logs := s.logs.eraseIdx i }
    have hwork : c.next.work = 4 := by rw [hnext]; rfl
    have h : work { s with logs := s.logs.eraseIdx i } + 4 = s.work := by
      unfold work
      dsimp only at hsum ⊢
      omega
    omega
  | @empty f rest hf hnext hqueue =>
    have h := @work_flushes s ({ f with next := .length } :: rest)
    have hlength : s.logMessages.length = 0 := by
      unfold ThreadsafeQueue.Counted at hcounted
      rw [hqueue] at hcounted
      exact hcounted
    rw [hf, flushWork_cons, flushWork_cons] at h
    simp only [hnext, FlushNext.work, if_pos hlength] at h
    omega
  | @handed f rest lm queue logger hf hnext hqueue =>
    have h := @work_dequeue s _ _ { f with maxInBatch := f.maxInBatch - 1, next := .logger } rest hqueue
    rw [hf, flushWork_cons, flushWork_cons] at h
    simp only [hnext, FlushNext.work] at h
    show work { s with
      logMessages := s.logMessages.dequeue.2
      flushes := { f with maxInBatch := f.maxInBatch - 1, next := .logger } :: rest } < s.work
    omega
  | @passed f f' rest lm queue hf hnext hqueue =>
    have h := @work_dequeue s _ _ f' rest hqueue
    have hle := f'.next.work_le s.logMessages.dequeue.2.length
    have hdequeue : f.next.work s.logMessages.length = 2 := by rw [hnext]; rfl
    rw [hf, flushWork_cons, flushWork_cons, hdequeue] at h
    show work { s with logMessages := s.logMessages.dequeue.2, flushes := f' :: rest } < s.work
    omega
  | @returned f rest hf hnext =>
    have h := @work_flushes s ({ f with next := .dequeue } :: rest)
    rw [hf, flushWork_cons, flushWork_cons] at h
    simp only [hnext, FlushNext.work] at h
    omega
  | @more f rest hf hnext hlength =>
    have h := @work_flushes s rest
    have hrest := flushWork_le s.logMessages.length rest
    have hsignal := @work_signal { s with flushes := rest }
    rw [hf, flushWork_cons, hnext, FlushNext.work, if_neg (Nat.ne_of_gt hlength)] at h
    omega
  | @done f rest hf hnext hlength =>
    have h := @work_flushes s rest
    have hrest := flushWork_le s.logMessages.length rest
    rw [hf, flushWork_cons, hnext, FlushNext.work, if_pos hlength] at h
    omega
  | callback hsent hf =>
    unfold work flush
    simp only [hsent, hf, flushWork, FlushNext.work]
    simp

/-- Nothing is under way. -/
def Quiet (s : TracerLoop) : Prop := s.logs = [] ∧ s.flushes = [] ∧ s.sent = false

theorem progress (h : ¬ s.Quiet) : ∃ action t, action.isOwn = true ∧ s.step threads action = some t := by
  rcases hlogs : s.logs with _ | ⟨c, logs⟩
  · rcases hflushes : s.flushes with _ | ⟨f, rest⟩
    · have hsent : s.sent = true := by
        by_contra hsent
        exact h ⟨hlogs, hflushes, Bool.eq_false_iff.2 hsent⟩
      exact ⟨.asyncLoggerCallback, _, rfl, if_pos ⟨hsent, hflushes⟩⟩
    · refine ⟨.flushStep, s.flushNext f s.flushes.tail, rfl, ?_⟩
      show s.flushes.head?.map _ = _
      rw [hflushes]
      rfl
  · refine ⟨.logStep 0, s.logNext 0 c, rfl, ?_⟩
    show s.logs[0]?.map _ = _
    rw [hlogs]
    rfl

/-- When nobody begins to log and JS calls nothing more, what is under way ends, whatever the order of the steps, and
then nothing is queued. -/
def Settles (threads : Nat) (s : TracerLoop) : Prop :=
  ∀ actions t, Run (Steps (step threads) fun _ action => action.isOwn = true) s actions t →
    actions.length ≤ s.work ∧
      (¬ t.Quiet → ∃ action u, action.isOwn = true ∧ t.step threads action = some u) ∧
      (t.Quiet → t.logMessages.queue = [])

theorem own_loggerAsync (hstep : Stepped threads s action t) (hown : action.isOwn = true) :
    t.loggerAsync = s.loggerAsync := by
  cases hstep with
  | quiet | begun | flush | registered | unregistered | setLogLevel | setBatchLength | deinit => cases hown
  | full | room | cleared | noticed | entered | logged | empty | handed | passed | returned | more | done | callback =>
    rfl

/-- What it takes for nothing to be left. -/
structure Serviced (threads : Nat) (s : TracerLoop) : Prop where
  bounded : s.Bounded threads
  awake : s.Awake
  active : s.loggerAsync = true

theorem Serviced.own (h : s.Serviced threads) (hstep : Stepped threads s action t) (hown : action.isOwn = true) :
    t.Serviced threads :=
  ⟨h.bounded.stepped hstep, h.awake.stepped h.bounded hstep, (own_loggerAsync hstep hown).trans h.active⟩

theorem Serviced.flushed (h : s.Serviced threads) (hquiet : s.Quiet) : s.logMessages.queue = [] := by
  by_contra hqueue
  obtain ⟨hlogs, hflushes, hsent⟩ := hquiet
  rcases h.awake h.active hqueue with h' | h' | h'
  · rw [hsent] at h'
    cases h'
  · exact h' hlogs
  · exact h' hflushes

theorem Serviced.settles (h : s.Serviced threads) : s.Settles threads := by
  intro actions t hrun
  have hend : t.Serviced threads := hrun.inv (fun _ _ _ h ha => h.own (stepped ha.1) ha.2) h
  have hlength := hrun.inv_length_le (fun _ _ _ h ha => h.own (stepped ha.1) ha.2)
    (fun _ _ _ h ha => step_work h.bounded.counted (stepped ha.1) ha.2) h
  exact ⟨by omega, progress, hend.flushed⟩

theorem getEnvLength_pos (env : Option Int32) : 0 < getEnvLength env := by
  unfold getEnvLength
  dsimp only
  split_ifs <;> omega

theorem bounded_init {env : TracerEnv} (hsize : (init env).bufferLength + 2 * threads ≤ 2 ^ 32) :
    (init env).Bounded threads :=
  ⟨rfl, Nat.zero_le _, getEnvLength_pos _, hsize, Nat.lt_of_lt_of_le (getEnvLength_pos _) (Nat.le_add_right _ _)⟩

theorem bufferLength_eq (hstep : Stepped threads s action t) : t.bufferLength = s.bufferLength := by
  cases hstep <;> rfl

/-- However the threads interleave, the queue is bounded, and until `deinit` every message queued is flushed. -/
theorem never_stalls {env : TracerEnv} {actions : List TracerLoopAction}
    (hsize : (init env).bufferLength + 2 * threads ≤ 2 ^ 32)
    (h : Run (Steps (step threads) fun _ _ => True) (init env) actions s) :
    s.logMessages.queue.length < (init env).bufferLength + 2 * threads ∧
      (s.loggerAsync = true → s.Settles threads) := by
  have hinv : s.Bounded threads ∧ s.Awake ∧ s.bufferLength = (init env).bufferLength := by
    refine h.inv (I := fun s => s.Bounded threads ∧ s.Awake ∧ s.bufferLength = (init env).bufferLength) ?_
      ⟨bounded_init hsize, fun _ hqueue => absurd rfl hqueue, rfl⟩
    rintro s action t ⟨hb, hawake, hbuffer⟩ ⟨hstep, -⟩
    have hstepped := stepped hstep
    exact ⟨hb.stepped hstepped, hawake.stepped hb hstepped, (bufferLength_eq hstepped).trans hbuffer⟩
  obtain ⟨hb, hawake, hbuffer⟩ := hinv
  refine ⟨?_, fun hactive => Serviced.settles ⟨hb, hawake, hactive⟩⟩
  have hlength := hb.length
  omega

/-- Nothing is set. -/
def defaultEnv : TracerEnv := ⟨none, none, none⟩

/-- Two threads look at the length before either queues its message; one flush is asked for by both. -/
def twoThreads : List TracerLoopAction :=
  [.registerLogger (some 0), .log "Database" 3 "first", .log "Iterator" 3 "second", .logStep 0, .logStep 1, .logStep 1,
    .logStep 1, .logStep 0, .logStep 0, .asyncLoggerCallback, .flushStep, .flushStep]

theorem never_stalls_twoThreads : ∃ s, exec (step 5) (init defaultEnv) twoThreads = some s ∧
    s.logMessages.queue.length < (init defaultEnv).bufferLength + 2 * 5 ∧ (s.loggerAsync = true → s.Settles 5) := by
  obtain ⟨s, hs⟩ : ∃ s, exec (step 5) (init defaultEnv) twoThreads = some s := ⟨_, rfl⟩
  exact ⟨s, hs, never_stalls (by decide) (.of_exec hs)⟩

end TracerLoop
end Kududown
