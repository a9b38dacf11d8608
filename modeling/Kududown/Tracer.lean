import Kududown.Lib.Run
import Kududown.Kudu

/-!
# Log messages

`tracer::Log` queues a message, and throws the queue away for a notice when it has grown too long.
`flush_log_messages` hands what is queued to the logger, up to `batch_length` messages. Its loop takes a message off the
queue before it looks at the budget and at the level, so the message that ends the loop is lost (`flush_eq`). In runs
whose flushes find no more than they may hand out, every message is accounted for (`log_conserved`).
-/

namespace Kududown

/-! ### The queue -/

/-- `threadsafe_queue`; `_queue_length` is an `atomic_uint`. -/
structure ThreadsafeQueue (α : Type) where
  queue : List α := []
  queueLength : Nat := 0

namespace ThreadsafeQueue
variable {α : Type}

def enqueue (q : ThreadsafeQueue α) (item : α) : ThreadsafeQueue α :=
  ⟨q.queue ++ [item], (q.queueLength + 1) % 2 ^ 32⟩

def dequeue (q : ThreadsafeQueue α) : Option α × ThreadsafeQueue α :=
  match q.queue with
  | [] => (none, q)
  | item :: queue => (some item, ⟨queue, (q.queueLength + (2 ^ 32 - 1)) % 2 ^ 32⟩)

def length (q : ThreadsafeQueue α) : Nat := q.queueLength

def clear (_ : ThreadsafeQueue α) : ThreadsafeQueue α := {}

/-- The counter is right, but for its overflow. -/
def Counted (q : ThreadsafeQueue α) : Prop := q.queueLength = q.queue.length % 2 ^ 32

variable {q : ThreadsafeQueue α}

theorem Counted.enqueue (h : q.Counted) (item : α) : (q.enqueue item).Counted := by
  unfold Counted at h ⊢
  show (q.queueLength + 1) % 2 ^ 32 = (q.queue ++ [item]).length % 2 ^ 32
  rw [h, List.length_append, List.length_singleton, Nat.mod_add_mod]

theorem Counted.dequeue (h : q.Counted) : q.dequeue.2.Counted := by
  unfold Counted at h ⊢
  unfold ThreadsafeQueue.dequeue
  cases hq : q.queue with
  | nil => exact h
  | cons item queue =>
    rw [hq, List.length_cons] at h
    show (q.queueLength + (2 ^ 32 - 1)) % 2 ^ 32 = queue.length % 2 ^ 32
    omega

theorem Counted.ne_nil (h : q.Counted) (hlength : 0 < q.length) : q.queue ≠ [] := by
  intro hnil
  unfold Counted at h
  unfold ThreadsafeQueue.length at hlength
  rw [hnil, List.length_nil, Nat.zero_mod] at h
  omega

end ThreadsafeQueue

/-! ### The tracer -/

/-- `enum class LogLevel : uint8_t`; JS gives levels as numbers. -/
abbrev LogLevel := UInt8

def LogLevel.WARN : LogLevel := 3

structure LogMessage where
  module : String
  level : LogLevel
  message : String
deriving DecidableEq

/-- The static members of `tracer`. `loggerAsync` is what `isActive` says, if there is a `_logger_async`, and `signals`
how often it was signalled; `delivered` are the calls of the logger, and `discarded` is what `Log` has cleared. -/
structure Tracer where
  logger : Bool
  loggerAsync : Option Bool
  logLevel : LogLevel
  batchLength : Nat
  bufferLength : Nat
  logMessages : ThreadsafeQueue LogMessage := {}
  signals : Nat := 0
  delivered : List LogMessage := []
  discarded : List LogMessage := []

inductive TracerAction
  | log (module : String) (loglevel : LogLevel) (message : String)
  | flush
deriving DecidableEq

/-- What `Log` puts in the place of the messages it clears. -/
def overwriting : LogMessage := ⟨"tracer", .WARN, "Log buffer is full, overwriting..."⟩

namespace Tracer

def signal (t : Tracer) : Tracer := if t.loggerAsync.isSome then { t with signals := t.signals + 1 } else t

/-- `if (_log_messages.length() > tracer::buffer_length)`. -/
def clearFull (t : Tracer) : Tracer :=
  if t.logMessages.length > t.bufferLength then
    { t with
      logMessages := t.logMessages.clear.enqueue overwriting
      discarded := t.discarded ++ t.logMessages.queue }
  else t

/-- `tracer::Log`. -/
def log (t : Tracer) (module : String) (loglevel : LogLevel) (message : String) : Tracer :=
  if loglevel ≥ t.logLevel then
    let t := t.clearFull
    signal { t with logMessages := t.logMessages.enqueue ⟨module, loglevel, message⟩ }
  else t

/-- The call of the logger. -/
def deliver (t : Tracer) (lm : LogMessage) : Tracer :=
  if t.logger && t.loggerAsync = some true then { t with delivered := t.delivered ++ [lm] } else t

/-- `while (_log_messages.dequeue(lm) && (max_in_batch > 0) && (lm.level >= tracer::log_level))`, along the messages
queued. -/
def flushLoop (t : Tracer) (maxInBatch : Nat) : List LogMessage → Tracer
  | [] => t
  | lm :: queue =>
    let t := { t with logMessages := t.logMessages.dequeue.2 }
    if maxInBatch > 0 ∧ lm.level ≥ t.logLevel then (t.deliver lm).flushLoop (maxInBatch - 1) queue
    else t

/-- `tracer::flush_log_messages`. -/
def flush (t : Tracer) : Tracer :=
  let t := t.flushLoop t.batchLength t.logMessages.queue
  if t.logMessages.length > 0 then t.signal else t

def step (t : Tracer) : TracerAction → Option Tracer
  | .log module loglevel message => some (t.log module loglevel message)
  | .flush => some t.flush

/-- A logger is registered and active. -/
def start (logLevel : LogLevel) (batchLength bufferLength : Nat) : Tracer :=
  { logger := true, loggerAsync := some true, logLevel, batchLength, bufferLength }

end Tracer

/-! ### What becomes of the messages -/

/-- A place of the stream of messages: a message, or the notice that stands for those thrown away there. -/
inductive Place (α : Type)
  | message (m : α)
  | gap (lost : List α)

namespace Place
variable {α : Type}

def entry (notice : α) : Place α → α
  | message m => m
  | gap _ => notice

def messages : Place α → List α
  | message m => [m]
  | gap lost => lost

def lost : Place α → List α
  | message _ => []
  | gap lost => lost

end Place

/-- The messages of a run that `Log` has let through. -/
def loggedMessages (logLevel : LogLevel) : List TracerAction → List LogMessage
  | [] => []
  | .log module loglevel message :: actions =>
    if loglevel ≥ logLevel then ⟨module, loglevel, message⟩ :: loggedMessages logLevel actions
    else loggedMessages logLevel actions
  | .flush :: actions => loggedMessages logLevel actions

namespace Tracer

/-- The messages are at the places delivered and queued, each once and in order. Those at gaps are among what `Log` has
cleared. -/
structure Accounts (t : Tracer) (logged : List LogMessage) (sent pending : List (Place LogMessage)) : Prop where
  delivered : t.delivered = sent.map (Place.entry overwriting)
  queued : t.logMessages.queue = pending.map (Place.entry overwriting)
  logged : (sent ++ pending).flatMap Place.messages = logged
  lost : List.Sublist ((sent ++ pending).flatMap Place.lost) t.discarded
  gaps : ∀ ms, .gap ms ∈ sent ++ pending → ms ≠ []

def Conserved (t : Tracer) (logged : List LogMessage) : Prop := ∃ sent pending, Accounts t logged sent pending

/-- A flush hands out at most a batch of the messages queued and leaves the rest. -/
def FlushKeeps (t : Tracer) : Prop :=
  ∃ k, k ≤ t.batchLength ∧ t.flush.delivered = t.delivered ++ t.logMessages.queue.take k ∧
    t.flush.logMessages.queue = t.logMessages.queue.drop k

/-- All that is queued may go out with the next flush. -/
def FlushFits (t : Tracer) : Prop :=
  t.logMessages.queue.length ≤ t.batchLength ∧ ∀ lm ∈ t.logMessages.queue, lm.level ≥ t.logLevel

variable {t t' : Tracer} {maxInBatch : Nat} {lm : LogMessage} {queue logged : List LogMessage}
  {sent pending : List (Place LogMessage)} {logLevel : LogLevel} {batchLength bufferLength : Nat}

/-! ### A flush -/

/-- The logger is called for what is delivered. -/
def Active (t : Tracer) : Prop := t.logger = true ∧ t.loggerAsync = some true

theorem Active.deliver (h : t.Active) : t.deliver lm = { t with delivered := t.delivered ++ [lm] } := by
  unfold Tracer.deliver
  rw [h.1, h.2]
  rfl

/-- The messages that the loop hands out. -/
def handedOut (logLevel : LogLevel) (maxInBatch : Nat) (queue : List LogMessage) : List LogMessage :=
  (queue.take maxInBatch).takeWhile fun lm => lm.level ≥ logLevel

theorem handedOut_nil : handedOut logLevel maxInBatch [] = [] := by
  unfold handedOut
  rw [List.take_nil, List.takeWhile_nil]

theorem handedOut_cons {n : Nat} (h : lm.level ≥ logLevel) :
    handedOut logLevel (n + 1) (lm :: queue) = lm :: handedOut logLevel n queue := by
  unfold handedOut
  rw [List.take_succ_cons, List.takeWhile_cons_of_pos (by simpa using h)]

theorem handedOut_stop (h : ¬ (maxInBatch > 0 ∧ lm.level ≥ logLevel)) :
    handedOut logLevel maxInBatch (lm :: queue) = [] := by
  unfold handedOut
  rcases maxInBatch with _ | n
  · rfl
  · have hlevel : ¬ lm.level ≥ logLevel := fun hl => h ⟨Nat.succ_pos n, hl⟩
    rw [List.take_succ_cons, List.takeWhile_cons_of_neg (by simpa using hlevel)]

theorem length_handedOut_le : (handedOut logLevel maxInBatch queue).length ≤ maxInBatch :=
  Nat.le_trans (List.takeWhile_prefix _).length_le (List.length_take_le _ _)

theorem handedOut_eq_iff : handedOut logLevel maxInBatch queue = queue ↔
    queue.length ≤ maxInBatch ∧ ∀ lm ∈ queue, lm.level ≥ logLevel := by
  constructor
  · intro h
    refine ⟨?_, fun lm hlm => ?_⟩
    · rw [← h]
      exact length_handedOut_le
    · rw [← h] at hlm
      exact of_decide_eq_true (List.mem_takeWhile_imp (p := fun lm : LogMessage => decide (lm.level ≥ logLevel)) hlm)
  · rintro ⟨hlen, hlevel⟩
    unfold handedOut
    rw [List.take_of_length_le hlen, List.takeWhile_eq_self_iff]
    exact fun lm hlm => decide_eq_true (hlevel lm hlm)

/-- The message after those that the loop hands out is gone. -/
theorem flushLoop_eq (h : t.Active) (hqueue : t.logMessages.queue = queue) :
    (t.flushLoop maxInBatch queue).delivered = t.delivered ++ handedOut t.logLevel maxInBatch queue ∧
      (t.flushLoop maxInBatch queue).logMessages.queue =
        queue.drop ((handedOut t.logLevel maxInBatch queue).length + 1) ∧
      (t.flushLoop maxInBatch queue).discarded = t.discarded := by
  induction queue generalizing t maxInBatch with
  | nil =>
    unfold flushLoop
    rw [hqueue, handedOut_nil]
    exact ⟨(List.append_nil _).symm, rfl, rfl⟩
  | cons lm queue ih =>
    have hdequeue : t.logMessages.dequeue.2.queue = queue := by
      unfold ThreadsafeQueue.dequeue
      rw [hqueue]
    unfold flushLoop
    dsimp only
    split_ifs with hpass
    · obtain ⟨n, rfl⟩ := Nat.exists_eq_succ_of_ne_zero (Nat.ne_of_gt hpass.1)
      have hactive : Active { t with logMessages := t.logMessages.dequeue.2 } := h
      rw [hactive.deliver, handedOut_cons hpass.2]
      obtain ⟨hdelivered, hleft, hdiscarded⟩ := @ih { t with
        logMessages := t.logMessages.dequeue.2, delivered := t.delivered ++ [lm] } n h hdequeue
      refine ⟨hdelivered.trans ?_, hleft, hdiscarded⟩
      rw [List.append_assoc]
      rfl
    · rw [handedOut_stop hpass]
      exact ⟨(List.append_nil _).symm, hdequeue, rfl⟩

theorem signal_logMessages : t.signal.logMessages = t.logMessages := by
  unfold signal
  split_ifs <;> rfl

theorem signal_delivered : t.signal.delivered = t.delivered := by
  unfold signal
  split_ifs <;> rfl

theorem signal_discarded : t.signal.discarded = t.discarded := by
  unfold signal
  split_ifs <;> rfl

theorem flush_eq (h : t.Active) :
    t.flush.delivered = t.delivered ++ handedOut t.logLevel t.batchLength t.logMessages.queue ∧
      t.flush.logMessages.queue =
        t.logMessages.queue.drop ((handedOut t.logLevel t.batchLength t.logMessages.queue).length + 1) ∧
      t.flush.discarded = t.discarded := by
  have hloop := @flushLoop_eq t t.batchLength _ h rfl
  unfold flush
  dsimp only
  split_ifs
  · rw [signal_delivered, signal_logMessages, signal_discarded]
    exact hloop
  · exact hloop

/-- A flush loses nothing just if all that is queued may go out with it. -/
theorem flushKeeps_iff (h : t.Active) : t.FlushKeeps ↔ t.FlushFits := by
  obtain ⟨hdelivered, hleft, -⟩ := flush_eq h
  unfold FlushKeeps FlushFits
  rw [hdelivered, hleft, ← handedOut_eq_iff]
  constructor
  · rintro ⟨k, -, htake, hdrop⟩
    have htaken := List.append_cancel_left htake
    have hlen := congrArg List.length hdrop
    rw [htaken, List.length_drop, List.length_drop, List.length_take] at hlen
    rw [htaken]
    exact List.take_of_length_le (by omega)
  · intro hall
    refine ⟨t.logMessages.queue.length, ?_, ?_, ?_⟩
    · exact (handedOut_eq_iff.1 hall).1
    · rw [hall, List.take_length]
    · rw [hall, List.drop_length]
      exact List.drop_eq_nil_of_le (Nat.le_succ _)

/-! ### Runs -/

/-- The queue is notices, then messages. -/
structure Inv (t : Tracer) (logLevel : LogLevel) (logged : List LogMessage) : Prop where
  active : t.Active
  logLevel : t.logLevel = logLevel
  counted : t.logMessages.Counted
  places : ∃ (sent gaps : List (Place LogMessage)) (ms : List LogMessage),
    Accounts t logged sent (gaps ++ ms.map Place.message) ∧ ∀ p ∈ gaps, ∃ lost, p = .gap lost

theorem flatMap_gaps {gaps : List (Place LogMessage)} (h : ∀ p ∈ gaps, ∃ lost, p = .gap lost) :
    gaps.flatMap Place.messages = gaps.flatMap Place.lost := by
  refine List.flatMap_congr fun p hp => ?_
  obtain ⟨lost, rfl⟩ := h p hp
  rfl

theorem flatMap_messages {ms : List LogMessage} : (ms.map Place.message).flatMap Place.messages = ms := by
  induction ms with
  | nil => rfl
  | cons m ms ih => exact congrArg (m :: ·) ih

theorem flatMap_lost {ms : List LogMessage} : (ms.map Place.message).flatMap Place.lost = [] := by
  induction ms with
  | nil => rfl
  | cons m ms ih => exact ih

theorem map_entry {ms : List LogMessage} : (ms.map Place.message).map (Place.entry overwriting) = ms := by
  induction ms with
  | nil => rfl
  | cons m ms ih => exact congrArg (m :: ·) ih

/-- What is thrown away with the queue are the messages at its places, those of its notice included. -/
theorem Accounts.clear {gaps : List (Place LogMessage)} {ms : List LogMessage}
    (h : Accounts t logged sent (gaps ++ ms.map Place.message)) (hgaps : ∀ p ∈ gaps, ∃ lost, p = .gap lost)
    (hne : t.logMessages.queue ≠ []) :
    Accounts { t with
      logMessages := t.logMessages.clear.enqueue overwriting
      discarded := t.discarded ++ t.logMessages.queue } logged sent
      [.gap ((gaps ++ ms.map Place.message).flatMap Place.messages)] := by
  refine ⟨h.delivered, rfl, ?_, ?_, ?_⟩
  · rw [← h.logged, List.flatMap_append, List.flatMap_append]
    simp [Place.messages]
  · have hlost := h.lost
    rw [← List.append_assoc, List.flatMap_append, List.flatMap_append, flatMap_lost, List.append_nil] at hlost
    have hmessages : List.Sublist ms t.logMessages.queue := by
      rw [h.queued, List.map_append, map_entry]
      exact List.sublist_append_right _ _
    have hnew := hlost.append hmessages
    rw [List.flatMap_append, List.flatMap_singleton]
    show List.Sublist (sent.flatMap Place.lost ++ (gaps ++ ms.map Place.message).flatMap Place.messages) _
    rw [List.flatMap_append, flatMap_gaps hgaps, flatMap_messages, ← List.append_assoc]
    exact hnew
  · intro lost hlost hnil
    rcases List.mem_append.1 hlost with hsent | hnew
    · exact h.gaps lost (List.mem_append_left _ hsent) hnil
    · rw [List.mem_singleton] at hnew
      cases hnew
      obtain ⟨p, pending, hp⟩ := List.exists_cons_of_ne_nil (l := gaps ++ ms.map Place.message) (by
        intro hempty
        rw [h.queued, hempty] at hne
        exact hne rfl)
      rw [hp, List.flatMap_cons] at hnil
      have hmem : p ∈ sent ++ (gaps ++ ms.map Place.message) := by
        rw [hp]
        exact List.mem_append_right _ List.mem_cons_self
      cases p with
      | message m => cases hnil
      | gap ls => exact h.gaps ls hmem (List.append_eq_nil_iff.1 hnil).1

theorem Inv.clearFull (h : t.Inv logLevel logged) : t.clearFull.Inv logLevel logged := by
  unfold Tracer.clearFull
  split_ifs with hfull
  · obtain ⟨sent, gaps, ms, haccounts, hgaps⟩ := h.places
    have hne := h.counted.ne_nil (Nat.lt_of_le_of_lt (Nat.zero_le _) hfull)
    exact ⟨h.active, h.logLevel, rfl, sent, _, [], haccounts.clear hgaps hne, fun p hp => ⟨_, List.mem_singleton.1 hp⟩⟩
  · exact h

theorem Accounts.enqueue (h : Accounts t logged sent pending) (lm : LogMessage) :
    Accounts { t with logMessages := t.logMessages.enqueue lm } (logged ++ [lm]) sent (pending ++ [.message lm]) := by
  refine ⟨h.delivered, ?_, ?_, ?_, fun lost hlost => ?_⟩
  · show t.logMessages.queue ++ [lm] = _
    rw [h.queued, List.map_append]
    rfl
  · rw [← h.logged, ← List.append_assoc, List.flatMap_append]
    rfl
  · rw [← List.append_assoc, List.flatMap_append]
    simpa [Place.lost] using h.lost
  · rw [← List.append_assoc] at hlost
    rcases List.mem_append.1 hlost with hold | hnew
    · exact h.gaps lost hold
    · cases List.mem_singleton.1 hnew

theorem Inv.enqueue (h : t.Inv logLevel logged) (lm : LogMessage) :
    Inv { t with logMessages := t.logMessages.enqueue lm } logLevel (logged ++ [lm]) := by
  obtain ⟨sent, gaps, ms, haccounts, hgaps⟩ := h.places
  refine ⟨h.active, h.logLevel, h.counted.enqueue lm, sent, gaps, ms ++ [lm], ?_, hgaps⟩
  rw [List.map_append, ← List.append_assoc]
  exact haccounts.enqueue lm

theorem Inv.signal (h : t.Inv logLevel logged) : t.signal.Inv logLevel logged := by
  unfold Tracer.signal
  split_ifs
  · obtain ⟨sent, gaps, ms, haccounts, hgaps⟩ := h.places
    exact ⟨h.active, h.logLevel, h.counted, sent, gaps, ms,
      ⟨haccounts.delivered, haccounts.queued, haccounts.logged, haccounts.lost, haccounts.gaps⟩, hgaps⟩
  · exact h

theorem flushLoop_kept : (t.flushLoop maxInBatch queue).logger = t.logger ∧
    (t.flushLoop maxInBatch queue).loggerAsync = t.loggerAsync ∧
    (t.flushLoop maxInBatch queue).logLevel = t.logLevel ∧
    (t.logMessages.Counted → (t.flushLoop maxInBatch queue).logMessages.Counted) := by
  induction queue generalizing t maxInBatch with
  | nil => exact ⟨rfl, rfl, rfl, id⟩
  | cons lm queue ih =>
    unfold flushLoop
    dsimp only
    split_ifs
    · obtain ⟨hlogger, hasync, hlevel, hcounted⟩ :=
        @ih (deliver { t with logMessages := t.logMessages.dequeue.2 } lm) (maxInBatch - 1)
      rw [hlogger, hasync, hlevel]
      unfold deliver at hcounted ⊢
      split_ifs at hcounted ⊢ <;> exact ⟨rfl, rfl, rfl, fun h => hcounted h.dequeue⟩
    · exact ⟨rfl, rfl, rfl, fun h => h.dequeue⟩

/-- A flush that may hand out all that is queued moves it to what is delivered. -/
theorem Inv.flushLoop (h : t.Inv logLevel logged) (hfits : t.FlushFits) :
    (t.flushLoop t.batchLength t.logMessages.queue).Inv logLevel logged := by
  obtain ⟨hlogger, hasync, hlevel, hcounted⟩ := @flushLoop_kept t t.batchLength t.logMessages.queue
  obtain ⟨hdelivered, hleft, hdiscarded⟩ := @flushLoop_eq t t.batchLength _ h.active rfl
  obtain ⟨sent, gaps, ms, haccounts, hgaps⟩ := h.places
  rw [handedOut_eq_iff.2 hfits] at hdelivered hleft
  rw [List.drop_eq_nil_of_le (Nat.le_succ _)] at hleft
  refine ⟨⟨hlogger.trans h.active.1, hasync.trans h.active.2⟩, hlevel.trans h.logLevel, hcounted h.counted,
    sent ++ (gaps ++ ms.map Place.message), [], [], ⟨?_, hleft, ?_, ?_, ?_⟩, fun p hp => (by cases hp)⟩
  · rw [hdelivered, haccounts.delivered, haccounts.queued, ← List.map_append]
  · rw [List.map_nil, List.append_nil, List.append_nil]
    exact haccounts.logged
  · rw [List.map_nil, List.append_nil, List.append_nil, hdiscarded]
    exact haccounts.lost
  · rw [List.map_nil, List.append_nil, List.append_nil]
    exact haccounts.gaps

theorem Inv.flush (h : t.Inv logLevel logged) (hfits : t.FlushFits) : t.flush.Inv logLevel logged := by
  unfold Tracer.flush
  dsimp only
  split_ifs
  · exact (h.flushLoop hfits).signal
  · exact h.flushLoop hfits

theorem Inv.log (h : t.Inv logLevel logged) (module : String) (loglevel : LogLevel) (message : String) :
    (t.log module loglevel message).Inv logLevel (logged ++ loggedMessages logLevel [.log module loglevel message]) := by
  unfold Tracer.log loggedMessages
  rw [h.logLevel]
  split_ifs
  · exact (h.clearFull.enqueue _).signal
  · rw [loggedMessages, List.append_nil]
    exact h

theorem loggedMessages_cons {action : TracerAction} {actions : List TracerAction} :
    loggedMessages logLevel (action :: actions) = loggedMessages logLevel [action] ++ loggedMessages logLevel actions := by
  cases action with
  | log module loglevel message =>
    simp only [loggedMessages]
    split_ifs <;> rfl
  | flush => rfl

/-- One step. -/
theorem Inv.step {action : TracerAction} (h : t.Inv logLevel logged) (hstep : t.step action = some t')
    (hfits : action = .flush → t.FlushFits) : t'.Inv logLevel (logged ++ loggedMessages logLevel [action]) := by
  cases action with
  | log module loglevel message =>
    cases hstep
    exact h.log module loglevel message
  | flush =>
    cases hstep
    rw [loggedMessages, loggedMessages, List.append_nil]
    exact h.flush (hfits rfl)

theorem Inv.run {actions : List TracerAction} (h : t.Inv logLevel logged)
    (hrun : Run (Steps Tracer.step fun t action => action = .flush → t.FlushFits) t actions t') :
    t'.Inv logLevel (logged ++ loggedMessages logLevel actions) := by
  induction hrun generalizing logged with
  | nil t =>
    rw [loggedMessages, List.append_nil]
    exact h
  | cons hstep _ ih =>
    rw [loggedMessages_cons, ← List.append_assoc]
    exact ih (h.step hstep.1 hstep.2)

theorem inv_start : (start logLevel batchLength bufferLength).Inv logLevel [] :=
  ⟨⟨rfl, rfl⟩, rfl, rfl, [], [], [], ⟨rfl, rfl, rfl, List.Sublist.refl _, fun ms hms => (by cases hms)⟩,
    fun p hp => (by cases hp)⟩

/-- In a run whose flushes find no more than they may hand out, the messages are conserved in every state reached, and
the next flush keeps them just if it finds no more than that. -/
theorem log_conserved {actions : List TracerAction}
    (h : Run (Steps step fun t action => action = .flush → t.FlushFits) (start logLevel batchLength bufferLength)
      actions t) :
    t.Conserved (loggedMessages logLevel actions) ∧ (t.FlushKeeps ↔ t.FlushFits) := by
  have hinv := inv_start.run h
  obtain ⟨sent, gaps, ms, haccounts, -⟩ := hinv.places
  exact ⟨⟨sent, _, haccounts⟩, flushKeeps_iff hinv.active⟩

/-- Two messages are logged and flushed. -/
def twoLogged : List TracerAction := [.log "Database" 3 "first", .log "Database" 3 "second", .flush]

theorem log_conserved_two : ∃ t, exec step (start 3 2 1000) twoLogged = some t ∧
    t.Conserved (loggedMessages 3 twoLogged) ∧ (t.FlushKeeps ↔ t.FlushFits) := by
  refine ⟨_, rfl, log_conserved (.cons ⟨rfl, fun h => (by cases h)⟩ (.cons ⟨rfl, fun h => (by cases h)⟩
    (.cons ⟨rfl, fun _ => ⟨by decide, by decide⟩⟩ (.nil _))))⟩

/-- With a batch length of 1 the second message is neither delivered nor queued, and no notice stands for it. -/
theorem flush_loses : ∃ t, exec step (start 3 1 1000) twoLogged = some t ∧
    t.delivered = [⟨"Database", 3, "first"⟩] ∧ t.logMessages.queue = [] ∧ t.discarded = [] ∧
    ¬ t.Conserved (loggedMessages 3 twoLogged) := by
  refine ⟨_, rfl, rfl, rfl, rfl, ?_⟩
  rintro ⟨sent, pending, haccounts⟩
  have hpending : pending = [] := List.map_eq_nil_iff.1 haccounts.queued.symm
  obtain ⟨p, rfl⟩ : ∃ p, sent = [p] := by
    have hlen := congrArg List.length haccounts.delivered
    rw [List.length_map] at hlen
    exact List.length_eq_one_iff.1 hlen.symm
  subst hpending
  have hlogged := congrArg List.length haccounts.logged
  cases p with
  | message m =>
    change 1 = 2 at hlogged
    omega
  | gap lost =>
    have hlost := haccounts.lost.length_le
    change (lost ++ []).length = 2 at hlogged
    change (lost ++ []).length ≤ 0 at hlost
    omega

end Tracer

end Kududown
