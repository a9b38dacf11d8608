import Kududown.TracerLoop

/-!
# Where the messages are

Every message that was let through is queued once, and then it is handed to a logger, dropped by a flush or thrown away
with the queue, once (`logged_once`). Messages are handed out in the order in which they were queued, so if a call of
`Log` has returned before another one begins their messages come in this order (`delivered_in_order`). While there is
a logger a flush drops one message at most (`flush_drops_one`). Calls that do not overlap do what `Tracer` says
(`one_at_a_time`).
-/

namespace Kududown

/-- The call has yet to queue its message. -/
def LogCall.entering (c : LogCall) : Option Nat := if c.next = .signal then none else some c.call

def TracerLoopAction.isFlush : TracerLoopAction → Bool
  | .flush | .asyncLoggerCallback => true
  | _ => false

namespace TracerLoop
variable {s t : TracerLoop} {threads i : Nat} {action : TracerLoopAction} {c c' : LogCall} {env : TracerEnv}

/-! ### Each message has its place -/

def entering (s : TracerLoop) : List Nat := s.logs.filterMap LogCall.entering

/-- The message of the call that the entry is of. -/
def IsOf (s : TracerLoop) (e : LogEntry) : Prop :=
  match e.call with
  | some i => s.begun[i]? = some e.message
  | none => e.message = overwriting

structure Kept (s : TracerLoop) : Prop where
  order : List.Sublist (s.delivered.map Prod.snd ++ s.logMessages.queue) s.entered
  fates : List.Perm (s.delivered.map Prod.snd ++ (s.passed ++ (s.discarded ++ s.logMessages.queue))) s.entered
  calls : List.Perm (s.entered.filterMap LogEntry.call ++ s.entering) (List.range s.begun.length)
  entries : ∀ e ∈ s.entered, s.IsOf e
  logs : ∀ c ∈ s.logs, s.begun[c.call]? = some c.message

theorem entering_perm (hi : s.logs[i]? = some c) :
    List.Perm s.entering (c.entering.toList ++ (s.logs.eraseIdx i).filterMap LogCall.entering) := by
  obtain ⟨hlt, rfl⟩ := List.getElem?_eq_some_iff.1 hi
  have hperm := (List.getElem_cons_eraseIdx_perm hlt).filterMap LogCall.entering
  refine hperm.symm.trans (List.Perm.of_eq ?_)
  rw [List.filterMap_cons]
  cases (s.logs[i]).entering <;> rfl

theorem entering_set_perm (hi : s.logs[i]? = some c) (c' : LogCall) :
    List.Perm (s.setLog i c').entering (c'.entering.toList ++ (s.logs.eraseIdx i).filterMap LogCall.entering) := by
  obtain ⟨hlt, -⟩ := List.getElem?_eq_some_iff.1 hi
  have hperm := (List.set_perm_cons_eraseIdx hlt c').filterMap LogCall.entering
  refine hperm.trans (List.Perm.of_eq ?_)
  rw [List.filterMap_cons]
  cases c'.entering <;> rfl

/-- A call goes on, and has its message queued neither before nor after. -/
theorem Kept.setLog (h : s.Kept) (hi : s.logs[i]? = some c) (hcall : c'.call = c.call) (hmessage : c'.message = c.message)
    (hentering : c'.entering = c.entering) : (s.setLog i c').Kept := by
  refine ⟨h.order, h.fates, ?_, h.entries, fun x hx => ?_⟩
  · have hperm : List.Perm (s.setLog i c').entering s.entering := by
      refine (entering_set_perm hi c').trans ?_
      rw [hentering]
      exact (entering_perm hi).symm
    exact (hperm.append_left _).trans h.calls
  · rcases List.mem_or_eq_of_mem_set hx with hx | rfl
    · exact h.logs x hx
    · show s.begun[x.call]? = _
      rw [hcall, hmessage]
      exact h.logs c (List.mem_of_getElem? hi)

theorem Kept.clear (h : s.Kept) : s.clear.Kept := by
  refine ⟨?_, ?_, h.calls, h.entries, h.logs⟩
  · show List.Sublist (s.delivered.map Prod.snd ++ []) s.entered
    rw [List.append_nil]
    exact (List.sublist_append_left _ _).trans h.order
  · show List.Perm (_ ++ (s.passed ++ ((s.discarded ++ s.logMessages.queue) ++ []))) s.entered
    rw [List.append_nil]
    exact h.fates

theorem Kept.enqueue (h : s.Kept) {e : LogEntry} (hof : s.IsOf e)
    (hcalls : List.Perm ((s.entered ++ [e]).filterMap LogEntry.call ++ t.entering) (List.range s.begun.length))
    (hlogs : ∀ c ∈ t.logs, s.begun[c.call]? = some c.message) (ht : t = { s.enqueue e with logs := t.logs }) :
    t.Kept := by
  rw [ht]
  refine ⟨?_, ?_, hcalls, fun x hx => ?_, hlogs⟩
  · show List.Sublist (s.delivered.map Prod.snd ++ (s.logMessages.queue ++ [e])) (s.entered ++ [e])
    rw [← List.append_assoc]
    exact h.order.append (List.Sublist.refl _)
  · show List.Perm (_ ++ (s.passed ++ (s.discarded ++ (s.logMessages.queue ++ [e])))) (s.entered ++ [e])
    have hfates := h.fates.append_right [e]
    simp only [List.append_assoc] at hfates
    exact hfates
  · rcases List.mem_append.1 hx with hx | hx
    · exact h.entries x hx
    · rw [List.mem_singleton.1 hx]
      exact hof

/-- A message is taken off the queue. -/
theorem Kept.dequeue {lm : LogEntry} {queue : List LogEntry} (h : s.Kept) (hqueue : s.logMessages.queue = lm :: queue) :
    List.Sublist (s.delivered.map Prod.snd ++ lm :: s.logMessages.dequeue.2.queue) s.entered ∧
      List.Perm (s.delivered.map Prod.snd ++ (s.passed ++ (s.discarded ++ lm :: s.logMessages.dequeue.2.queue)))
        s.entered := by
  have hrest : s.logMessages.dequeue.2.queue = queue := by rw [ThreadsafeQueue.dequeue_cons hqueue]
  rw [hrest, ← hqueue]
  exact ⟨h.order, h.fates⟩

theorem getElem?_concat_of_some {α : Type} {l : List α} {a b : α} (h : l[i]? = some a) : (l ++ [b])[i]? = some a :=
  (List.getElem?_append_left (List.getElem?_eq_some_iff.1 h).1).trans h

theorem Kept.stepped (h : s.Kept) (hstep : Stepped threads s action t) : t.Kept := by
  cases hstep with
  | quiet => exact h
  | @begun module loglevel message hthread =>
    refine ⟨h.order, h.fates, ?_, fun e he => ?_, fun c hc => ?_⟩
    · show List.Perm (s.entered.filterMap LogEntry.call ++ (s.logs ++ [_]).filterMap LogCall.entering) _
      rw [List.filterMap_append, ← List.append_assoc, List.length_append, List.length_singleton, List.range_succ]
      exact h.calls.append_right _
    · have hof := h.entries e he
      unfold IsOf at hof ⊢
      split
      · rename_i i hcall
        rw [hcall] at hof
        exact getElem?_concat_of_some hof
      · rename_i hcall
        rw [hcall] at hof
        exact hof
    · rcases List.mem_append.1 hc with hc | hc
      · exact getElem?_concat_of_some (h.logs c hc)
      · rw [List.mem_singleton.1 hc]
        exact List.getElem?_concat_length
  | full hi hnext | room hi hnext =>
    refine h.setLog hi rfl rfl ?_
    simp [LogCall.entering, hnext]
  | cleared hi hnext =>
    refine h.clear.setLog hi rfl rfl ?_
    simp [LogCall.entering, hnext]
  | @noticed i c hi hnext =>
    have hset : (s.setLog i { c with next := .enqueue }).Kept := by
      refine h.setLog hi rfl rfl ?_
      simp [LogCall.entering, hnext]
    refine h.enqueue (e := ⟨none, overwriting⟩) rfl ?_ hset.logs rfl
    rw [List.filterMap_append]
    show List.Perm (s.entered.filterMap LogEntry.call ++ [] ++ _) _
    rw [List.append_nil]
    exact hset.calls
  | @entered i c hi hnext =>
    have hof := h.logs c (List.mem_of_getElem? hi)
    refine h.enqueue (e := ⟨some c.call, c.message⟩) hof ?_ (fun x hx => ?_) rfl
    · have hbefore := h.calls
      have hset := entering_set_perm hi { c with next := .signal }
      have hc : c.entering = some c.call := by simp [LogCall.entering, hnext]
      rw [List.filterMap_append]
      refine ((hset.append_left _).trans ?_).trans ((entering_perm hi).append_left _ |>.symm.trans hbefore)
      rw [hc]
      exact List.Perm.of_eq (List.append_assoc _ _ _)
    · rcases List.mem_or_eq_of_mem_set hx with hx | rfl
      · exact h.logs x hx
      · exact hof
  | @logged i c hi hnext =>
    refine ⟨h.order, h.fates, ?_, h.entries, fun x hx => h.logs x (List.mem_of_mem_eraseIdx hx)⟩
    have hentering := entering_perm hi
    have hc : c.entering = none := by simp [LogCall.entering, hnext]
    rw [hc] at hentering
    exact (hentering.symm.append_left _).trans h.calls
  | @handed f rest lm queue logger hf hnext hqueue =>
    obtain ⟨horder, hfates⟩ := h.dequeue hqueue
    refine ⟨?_, ?_, h.calls, h.entries, h.logs⟩
    · show List.Sublist ((s.delivered ++ [(logger, lm)]).map Prod.snd ++ _) s.entered
      rw [List.map_append, List.append_assoc]
      exact horder
    · refine List.Perm.trans ?_ hfates
      simp only [List.perm_iff_count, List.map_append, List.map_cons, List.map_nil, List.count_append, List.count_cons,
        List.count_nil]
      intro e
      omega
  | @passed f f' rest lm queue hf hnext hqueue =>
    obtain ⟨horder, hfates⟩ := h.dequeue hqueue
    refine ⟨?_, ?_, h.calls, h.entries, h.logs⟩
    · exact (List.Sublist.append (List.Sublist.refl _) (List.sublist_cons_self _ _)).trans horder
    · refine List.Perm.trans ?_ hfates
      simp only [List.perm_iff_count, List.count_append, List.count_cons, List.count_nil]
      intro e
      omega
  | unregistered => exact ⟨h.clear.order, h.clear.fates, h.calls, h.entries, h.logs⟩
  | flush | empty | returned | more | done | callback | registered | setLogLevel | setBatchLength | deinit =>
    exact ⟨h.order, h.fates, h.calls, h.entries, h.logs⟩

theorem kept_init : (init env).Kept :=
  ⟨List.Sublist.refl _, .refl _, .refl _, fun e he => (by cases he), fun c hc => (by cases hc)⟩

theorem Kept.run {actions : List TracerLoopAction} (h : s.Kept)
    (hrun : Run (Steps (step threads) fun _ _ => True) s actions t) : t.Kept :=
  hrun.inv (I := Kept) (fun _ _ _ hs hstep => hs.stepped (TracerLoop.stepped hstep.1)) h

/-- In every run each message let through is in one place. -/
theorem logged_once {actions : List TracerLoopAction}
    (h : Run (Steps (step threads) fun _ _ => True) (init env) actions s) : s.Kept :=
  kept_init.run h

theorem logged_once_twoThreads : ∃ s, exec (step 5) (init defaultEnv) twoThreads = some s ∧ s.Kept := by
  obtain ⟨s, hs⟩ : ∃ s, exec (step 5) (init defaultEnv) twoThreads = some s := ⟨_, rfl⟩
  exact ⟨s, hs, logged_once (.of_exec hs)⟩

/-! ### In their order -/

/-- What was queued stays in the record, and calls that begin are new. -/
theorem entered_prefix (hstep : Stepped threads s action t) :
    s.entered <+: t.entered ∧ s.begun <+: t.begun := by
  cases hstep with
  | begun => exact ⟨List.prefix_refl _, List.prefix_append _ _⟩
  | noticed | entered => exact ⟨List.prefix_append _ _, List.prefix_refl _⟩
  | quiet | full | room | cleared | logged | flush | empty | handed | passed | returned | more | done | callback |
    registered | unregistered | setLogLevel | setBatchLength | deinit =>
    exact ⟨List.prefix_refl _, List.prefix_refl _⟩

theorem entered_prefix_run {actions : List TracerLoopAction}
    (h : Run (Steps (step threads) fun _ _ => True) s actions t) : s.entered <+: t.entered ∧ s.begun <+: t.begun := by
  induction h with
  | nil => exact ⟨List.prefix_refl _, List.prefix_refl _⟩
  | cons hstep _ ih =>
    obtain ⟨hentered, hbegun⟩ := entered_prefix (stepped hstep.1)
    exact ⟨hentered.trans ih.1, hbegun.trans ih.2⟩

/-- A call that has returned has its message queued. -/
theorem Kept.mem_entered (h : s.Kept) (hi : i < s.begun.length) (hreturned : ∀ c ∈ s.logs, c.call ≠ i) :
    i ∈ s.entered.filterMap LogEntry.call := by
  have hmem := h.calls.mem_iff.2 (List.mem_range.2 hi)
  rcases List.mem_append.1 hmem with hmem | hmem
  · exact hmem
  · obtain ⟨c, hc, hcall⟩ := List.mem_filterMap.1 hmem
    unfold LogCall.entering at hcall
    split_ifs at hcall
    exact absurd (Option.some.inj hcall) (hreturned c hc)

theorem Kept.lt_begun (h : s.Kept) {e : LogEntry} (he : e ∈ s.entered) (hcall : e.call = some i) :
    i < s.begun.length :=
  List.mem_range.1 (h.calls.mem_iff.1 (List.mem_append_left _ (List.mem_filterMap.2 ⟨e, he, hcall⟩)))

theorem Kept.nodup (h : s.Kept) : (s.entered.filterMap LogEntry.call).Nodup :=
  (List.nodup_append.1 (h.calls.nodup_iff.2 List.nodup_range)).1

/-- If a call of `Log` has returned before another one begins, a logger is not given their messages the other way
round. -/
theorem delivered_in_order {actions actions' : List TracerLoopAction} {j : Nat} {e e' : LogEntry}
    (h : Run (Steps (step threads) fun _ _ => True) (init env) actions s)
    (h' : Run (Steps (step threads) fun _ _ => True) s actions' t)
    (hi : i < s.begun.length) (hreturned : ∀ c ∈ s.logs, c.call ≠ i) (hj : s.begun.length ≤ j)
    (he : e ∈ t.delivered.map Prod.snd) (hcall : e.call = some i)
    (he' : e' ∈ t.delivered.map Prod.snd) (hcall' : e'.call = some j) :
    List.Sublist [e, e'] (t.delivered.map Prod.snd) := by
  have hs : s.Kept := kept_init.run h
  have ht : t.Kept := hs.run h'
  obtain ⟨new, hnew⟩ := (entered_prefix_run h').1
  have hsub := (List.sublist_append_left _ _).trans ht.order
  rw [← hnew] at hsub
  obtain ⟨l, l', hsplit, hl, hl'⟩ := List.sublist_append_iff.1 hsub
  have hnodup := ht.nodup
  rw [← hnew, List.filterMap_append] at hnodup
  -- the message of `i` was queued in `s`, so it is not among the new ones
  have hmem : e ∈ l := by
    rw [hsplit] at he
    rcases List.mem_append.1 he with he | he
    · exact he
    · have hold := hs.mem_entered hi hreturned
      have hlater := List.mem_filterMap.2 ⟨e, hl'.subset he, hcall⟩
      exact absurd rfl ((List.nodup_append.1 hnodup).2.2 _ hold _ hlater)
  have hmem' : e' ∈ l' := by
    rw [hsplit] at he'
    rcases List.mem_append.1 he' with he' | he'
    · exact absurd (hs.lt_begun (hl.subset he') hcall') (Nat.not_lt.2 hj)
    · exact he'
  rw [hsplit]
  exact List.Sublist.append (List.singleton_sublist.2 hmem) (List.singleton_sublist.2 hmem')

def firstLogged : List TracerLoopAction :=
  [.registerLogger (some 0), .log "Database" 3 "first", .logStep 0, .logStep 0, .logStep 0]

def secondLogged : List TracerLoopAction :=
  [.log "Iterator" 3 "second", .logStep 0, .logStep 0, .logStep 0, .asyncLoggerCallback, .flushStep, .flushStep,
    .flushStep]

theorem delivered_in_order_two : ∃ s t, exec (step 5) (init defaultEnv) firstLogged = some s ∧
    exec (step 5) s secondLogged = some t ∧
    List.Sublist [⟨some 0, ⟨"Database", 3, "first"⟩⟩, ⟨some 1, ⟨"Iterator", 3, "second"⟩⟩] (t.delivered.map Prod.snd) :=
  ⟨_, _, rfl, rfl, @delivered_in_order _ _ 5 0 defaultEnv firstLogged secondLogged 1 _ _ (.of_exec rfl) (.of_exec rfl)
    (by decide) (fun c hc => (by cases hc)) (by decide) (by decide) rfl (by decide) rfl⟩

/-! ### What a flush drops -/

/-- A flush begins when there is a logger, no logger is taken away, and `deinit`, which runs at exit, does not
come. -/
def hasLogger (s : TracerLoop) : TracerLoopAction → Bool
  | .flush | .asyncLoggerCallback => s.logger.isSome
  | .registerLogger none | .deinit => false
  | _ => true

/-- The flushes under way have a logger, and those of them that have not ended their loop may drop one message each. -/
structure Drops (s : TracerLoop) (flushes : Nat) : Prop where
  active : s.loggerAsync = true
  logger : s.flushes ≠ [] → s.logger.isSome = true
  callbacks : ∀ f ∈ s.flushes, f.callback.isSome = true
  passed : s.passed.length + s.flushes.countP (fun f => f.next ≠ .length) ≤ flushes

theorem Drops.flush {n : Nat} (h : s.Drops n) (hlogger : s.logger.isSome = true) : s.flush.Drops (n + 1) := by
  refine ⟨h.active, fun _ => hlogger, fun f hf => ?_, ?_⟩
  · rcases List.mem_cons.1 hf with rfl | hf
    · exact hlogger
    · exact h.callbacks f hf
  · have hpassed := h.passed
    show s.passed.length + List.countP _ (_ :: s.flushes) ≤ n + 1
    rw [List.countP_cons_of_pos (by rfl)]
    omega

/-- The innermost flush goes on, and may end its loop with the message that it drops. -/
theorem Drops.head {n : Nat} {f : FlushCall} {rest : List FlushCall} (h : s.Drops n) (f' : FlushCall)
    (hf : s.flushes = f :: rest) (hnext : f.next ≠ .length)
    (ht : t = { t with loggerAsync := s.loggerAsync, logger := s.logger, flushes := f' :: rest })
    (hcallback : f'.callback = f.callback)
    (hpassed : t.passed.length + (if f'.next ≠ .length then 1 else 0) ≤ s.passed.length + 1) : t.Drops n := by
  have hcallbacks := h.callbacks
  have hle := h.passed
  rw [hf] at hcallbacks hle
  rw [List.countP_cons_of_pos (by simpa using hnext)] at hle
  rw [ht]
  refine ⟨h.active, fun _ => h.logger (by rw [hf]; exact List.cons_ne_nil _ _), fun x hx => ?_, ?_⟩
  · rcases List.mem_cons.1 hx with rfl | hx
    · rw [hcallback]
      exact hcallbacks f List.mem_cons_self
    · exact hcallbacks x (List.mem_cons_of_mem _ hx)
  · show t.passed.length + List.countP _ (f' :: rest) ≤ n
    rw [List.countP_cons]
    simp only [decide_eq_true_eq]
    omega

theorem Drops.tail {n : Nat} {f : FlushCall} {rest : List FlushCall} (h : s.Drops n) (hf : s.flushes = f :: rest) :
    Drops { s with flushes := rest } n := by
  have hpassed := h.passed
  rw [hf, List.countP_cons] at hpassed
  refine ⟨h.active, fun _ => h.logger (by rw [hf]; exact List.cons_ne_nil _ _), fun x hx => ?_, ?_⟩
  · exact h.callbacks x (by rw [hf]; exact List.mem_cons_of_mem _ hx)
  · show s.passed.length + rest.countP _ ≤ n
    omega

theorem Drops.stepped {n : Nat} (h : s.Drops n) (hstep : Stepped threads s action t) (hok : s.hasLogger action = true) :
    t.Drops (n + [action].countP TracerLoopAction.isFlush) := by
  cases hstep with
  | flush => exact h.flush hok
  | callback hsent hf =>
    exact @Drops.flush { s with sent := false } n ⟨h.active, h.logger, h.callbacks, h.passed⟩ hok
  | @empty f rest hf hnext =>
    exact h.head { f with next := .length } hf (by rw [hnext]; decide) rfl rfl (Nat.le_succ _)
  | @handed f rest lm queue logger hf hnext hqueue =>
    exact h.head { f with maxInBatch := f.maxInBatch - 1, next := .logger } hf (by rw [hnext]; decide) rfl rfl
      (Nat.le_refl _)
  | @passed f f' rest lm queue hf hnext hqueue hf' =>
    have hlogger := h.logger (by rw [hf]; exact List.cons_ne_nil _ _)
    have hcallback := h.callbacks f (by rw [hf]; exact List.mem_cons_self)
    rcases hf' with ⟨-, hnone | hinactive⟩ | ⟨rfl, -⟩
    · rw [hnone] at hcallback
      cases hcallback
    · rw [hlogger, h.active] at hinactive
      exact absurd rfl hinactive
    · refine h.head { f with next := .length } hf (by rw [hnext]; decide) rfl rfl ?_
      exact Nat.le_of_eq List.length_append
  | @returned f rest hf hnext =>
    exact h.head { f with next := .dequeue } hf (by rw [hnext]; decide) rfl rfl (Nat.le_refl _)
  | more hf => exact ⟨h.active, (h.tail hf).logger, (h.tail hf).callbacks, (h.tail hf).passed⟩
  | done hf => exact h.tail hf
  | unregistered | deinit => cases hok
  | registered => exact ⟨h.active, fun _ => rfl, h.callbacks, h.passed⟩
  | quiet | begun | full | room | cleared | noticed | entered | logged | setLogLevel | setBatchLength =>
    exact ⟨h.active, h.logger, h.callbacks, h.passed⟩

theorem Drops.run {n : Nat} {actions : List TracerLoopAction} (h : s.Drops n)
    (hrun : Run (Steps (step threads) fun s action => s.hasLogger action = true) s actions t) :
    t.Drops (n + actions.countP TracerLoopAction.isFlush) := by
  induction hrun generalizing n with
  | nil => exact h
  | @cons s u t action actions hstep _ ih =>
    have hu := ih (h.stepped (TracerLoop.stepped hstep.1) hstep.2)
    rw [Nat.add_assoc, ← List.countP_append] at hu
    exact hu

/-- While there is a logger a flush drops one message at most, the one that ends its loop. -/
theorem flush_drops_one {actions : List TracerLoopAction}
    (h : Run (Steps (step threads) fun s action => s.hasLogger action = true) (init env) actions s) :
    s.passed.length ≤ actions.countP TracerLoopAction.isFlush := by
  have hinit : (init env).Drops 0 := ⟨rfl, fun hne => absurd rfl hne, fun f hf => (by cases hf), Nat.le_refl _⟩
  have hpassed := (hinit.run h).passed
  omega

/-- The level is raised before a message is flushed. -/
def levelRaised : List TracerLoopAction :=
  [.registerLogger (some 0), .log "Database" 3 "first", .logStep 0, .logStep 0, .logStep 0, .setLogLevel 5,
    .asyncLoggerCallback, .flushStep]

theorem flush_drops_one_levelRaised : ∃ s, Run (Steps (step 5) fun s action => s.hasLogger action = true)
    (init defaultEnv) levelRaised s ∧ s.passed.length = 1 ∧
    s.passed.length ≤ levelRaised.countP TracerLoopAction.isFlush := by
  obtain ⟨s, hs, hpassed⟩ : ∃ s, exec (fun s action => if s.hasLogger action then s.step 5 action else none)
    (init defaultEnv) levelRaised = some s ∧ s.passed.length = 1 := ⟨_, rfl, rfl⟩
  have hrun : Run (Steps (step 5) fun s action => s.hasLogger action = true) (init defaultEnv) levelRaised s := by
    refine (Run.of_exec hs).mono ?_
    rintro s action t ⟨hstep, -⟩
    dsimp only at hstep
    split_ifs at hstep with hok
    exact ⟨hstep, hok⟩
  exact ⟨s, hrun, hpassed, flush_drops_one hrun⟩

/-! ### Calls that do not overlap -/

/-- The tracer is as `Tracer` has it. -/
structure At (s : TracerLoop) (tr : Tracer) : Prop where
  logger : s.logger.isSome = tr.logger
  loggerAsync : tr.loggerAsync = if s.loggerAsync then some true else none
  logLevel : s.logLevel = tr.logLevel
  batchLength : s.batchLength = tr.batchLength
  bufferLength : s.bufferLength = tr.bufferLength
  queue : s.logMessages.queue.map LogEntry.message = tr.logMessages.queue
  queueLength : s.logMessages.queueLength = tr.logMessages.queueLength
  delivered : s.delivered.map (fun d => d.2.message) = tr.delivered
  discarded : s.discarded.map LogEntry.message = tr.discarded

def Idle (s : TracerLoop) : Prop := s.logs = [] ∧ s.flushes = []

variable {tr tr' : Tracer} {f : FlushCall} {e : LogEntry}

theorem at_start (logger : Nat) : At { init env with logger := some logger }
    (Tracer.start (init env).logLevel (init env).batchLength (init env).bufferLength) :=
  ⟨rfl, rfl, rfl, rfl, rfl, rfl, rfl, rfl, rfl⟩

theorem At.signal (h : s.At tr) : s.signal.At tr.signal := by
  unfold Tracer.signal
  split_ifs
  · exact ⟨h.logger, h.loggerAsync, h.logLevel, h.batchLength, h.bufferLength, h.queue, h.queueLength, h.delivered,
      h.discarded⟩
  · exact ⟨h.logger, h.loggerAsync, h.logLevel, h.batchLength, h.bufferLength, h.queue, h.queueLength, h.delivered,
      h.discarded⟩

theorem At.enqueue (h : s.At tr) (e : LogEntry) :
    (s.enqueue e).At { tr with logMessages := tr.logMessages.enqueue e.message } := by
  refine ⟨h.logger, h.loggerAsync, h.logLevel, h.batchLength, h.bufferLength, ?_, ?_, h.delivered, h.discarded⟩
  · show (s.logMessages.queue ++ [e]).map LogEntry.message = tr.logMessages.queue ++ [e.message]
    rw [List.map_append, h.queue]
    rfl
  · show (s.logMessages.queueLength + 1) % 2 ^ 32 = (tr.logMessages.queueLength + 1) % 2 ^ 32
    rw [h.queueLength]

theorem At.clear (h : s.At tr) : s.clear.At { tr with
    logMessages := tr.logMessages.clear, discarded := tr.discarded ++ tr.logMessages.queue } := by
  refine ⟨h.logger, h.loggerAsync, h.logLevel, h.batchLength, h.bufferLength, rfl, rfl, h.delivered, ?_⟩
  show (s.discarded ++ s.logMessages.queue).map LogEntry.message = _
  rw [List.map_append, h.discarded, h.queue]

theorem At.logs (h : s.At tr) (logs : List LogCall) (begun : List LogMessage) : At { s with logs, begun } tr :=
  ⟨h.logger, h.loggerAsync, h.logLevel, h.batchLength, h.bufferLength, h.queue, h.queueLength, h.delivered, h.discarded⟩

theorem At.flushes (h : s.At tr) (flushes : List FlushCall) : At { s with flushes } tr :=
  ⟨h.logger, h.loggerAsync, h.logLevel, h.batchLength, h.bufferLength, h.queue, h.queueLength, h.delivered, h.discarded⟩

def Reaches (threads : Nat) (s t : TracerLoop) : Prop :=
  ∃ actions, Run (Steps (step threads) fun _ _ => True) s actions t

theorem Reaches.refl (s : TracerLoop) : Reaches threads s s := ⟨[], .nil s⟩

theorem Reaches.trans {u : TracerLoop} (h : Reaches threads s t) (h' : Reaches threads t u) : Reaches threads s u := by
  obtain ⟨actions, hrun⟩ := h
  obtain ⟨actions', hrun'⟩ := h'
  exact ⟨_, hrun.append hrun'⟩

/-- The only call of `Log` under way goes on. -/
theorem reaches_logNext (threads : Nat) (hlogs : s.logs = [c]) : Reaches threads s (s.logNext 0 c) := by
  refine ⟨[.logStep 0], .single ⟨?_, trivial⟩⟩
  show s.logs[0]?.map _ = _
  rw [hlogs]
  rfl

theorem setLog_logs (hlogs : s.logs = [c]) (c' : LogCall) : (s.setLog 0 c').logs = [c'] := by
  show s.logs.set 0 c' = [c']
  rw [hlogs]
  rfl

theorem At.setLog (h : s.At tr) (i : Nat) (c : LogCall) : (s.setLog i c).At tr := h.logs _ _

theorem At.length_eq (h : s.At tr) : s.logMessages.length = tr.logMessages.length := h.queueLength

/-- The call looks at the length, and clears the queue if that is too long. -/
theorem At.clearFull (h : s.At tr) (threads : Nat) (hlogs : s.logs = [c]) (hnext : c.next = .length) :
    ∃ t, Reaches threads s t ∧ t.At tr.clearFull ∧ t.logs = [{ c with next := .enqueue }] ∧ t.flushes = s.flushes := by
  have hstep := reaches_logNext threads hlogs
  unfold logNext at hstep
  rw [hnext] at hstep
  rw [h.length_eq, h.bufferLength] at hstep
  unfold Tracer.clearFull
  split_ifs with hfull
  · simp only [if_pos hfull] at hstep
    have hclear := reaches_logNext threads (setLog_logs hlogs { c with next := .clear })
    have hlogs' := setLog_logs (s := TracerLoop.clear (s.setLog 0 { c with next := .clear }))
      (setLog_logs hlogs { c with next := .clear }) { c with next := .notice }
    have hnotice := reaches_logNext threads hlogs'
    exact ⟨_, (hstep.trans hclear).trans hnotice, (((h.setLog _ _).clear.setLog _ _).enqueue _).setLog _ _,
      setLog_logs hlogs' _, rfl⟩
  · simp only [if_neg hfull] at hstep
    exact ⟨_, hstep, h.setLog _ _, setLog_logs hlogs _, rfl⟩

theorem At.entered (h : s.At tr) (threads : Nat) (hlogs : s.logs = [c]) (hnext : c.next = .enqueue)
    (hflushes : s.flushes = []) :
    ∃ t, Reaches threads s t ∧ t.Idle ∧
      t.At (Tracer.signal { tr with logMessages := tr.logMessages.enqueue c.message }) := by
  have hstep := reaches_logNext threads hlogs
  unfold logNext at hstep
  rw [hnext] at hstep
  have hlogs' := setLog_logs (s := s.enqueue ⟨some c.call, c.message⟩) hlogs { c with next := .signal }
  refine ⟨_, hstep.trans (reaches_logNext threads hlogs'), ⟨?_, hflushes⟩, ?_⟩
  · show List.eraseIdx _ 0 = []
    rw [hlogs']
    rfl
  · exact ((h.enqueue ⟨some c.call, c.message⟩).logs _ _).signal

/-- A call of `Log` that is not interrupted. -/
theorem At.log (h : s.At tr) (hidle : s.Idle) (hthreads : 0 < threads) (module : String) (loglevel : LogLevel)
    (message : String) :
    ∃ t, Reaches threads s t ∧ t.Idle ∧ t.At (tr.log module loglevel message) := by
  unfold Tracer.log
  split_ifs with hlevel
  · have hbegun : s.step threads (.log module loglevel message) = some { s with
        logs := [⟨s.begun.length, ⟨module, loglevel, message⟩, .length⟩]
        begun := s.begun ++ [⟨module, loglevel, message⟩] } := by
      show s.log threads module loglevel message = _
      unfold TracerLoop.log
      rw [if_pos (by rw [h.logLevel]; exact hlevel), hidle.1, List.length_nil, if_pos hthreads]
      rfl
    have hat := h.logs [⟨s.begun.length, ⟨module, loglevel, message⟩, .length⟩]
      (s.begun ++ [⟨module, loglevel, message⟩])
    obtain ⟨u, hu, hat, hlogs, hflushes⟩ := hat.clearFull threads rfl rfl
    obtain ⟨t, ht, hidle', hat'⟩ := hat.entered threads hlogs rfl (hflushes.trans hidle.2)
    exact ⟨t, .trans ⟨_, .single ⟨hbegun, trivial⟩⟩ (hu.trans ht), hidle', hat'⟩
  · refine ⟨s, ⟨[.log module loglevel message], .single ⟨?_, trivial⟩⟩, hidle, h⟩
    exact if_neg (by rw [h.logLevel]; exact hlevel)

theorem reaches_flushNext (threads : Nat) {rest : List FlushCall} (hf : s.flushes = f :: rest) :
    Reaches threads s (s.flushNext f rest) := by
  refine ⟨[.flushStep], .single ⟨?_, trivial⟩⟩
  show s.flushes.head?.map (fun f => s.flushNext f s.flushes.tail) = _
  rw [hf]
  rfl

theorem At.dequeue {lm : LogEntry} {queue : List LogEntry} (h : s.At tr) (hqueue : s.logMessages.queue = lm :: queue) :
    At { s with logMessages := s.logMessages.dequeue.2 } { tr with logMessages := tr.logMessages.dequeue.2 } := by
  have hqueue' : tr.logMessages.queue = lm.message :: queue.map LogEntry.message := by
    rw [← h.queue, hqueue]
    rfl
  rw [ThreadsafeQueue.dequeue_cons hqueue, ThreadsafeQueue.dequeue_cons hqueue', h.queueLength]
  exact ⟨h.logger, h.loggerAsync, h.logLevel, h.batchLength, h.bufferLength, rfl, rfl, h.delivered, h.discarded⟩

theorem At.passed (h : s.At tr) (passed : List LogEntry) (flushes : List FlushCall) : At { s with passed, flushes } tr :=
  ⟨h.logger, h.loggerAsync, h.logLevel, h.batchLength, h.bufferLength, h.queue, h.queueLength, h.delivered, h.discarded⟩

theorem flushNext_dequeue {rest : List FlushCall} {lm : LogEntry} {queue : List LogEntry} (hnext : f.next = .dequeue)
    (hqueue : s.logMessages.queue = lm :: queue) :
    s.flushNext f rest = dequeued { s with logMessages := s.logMessages.dequeue.2 } f rest lm := by
  unfold flushNext
  rw [hnext, ThreadsafeQueue.dequeue_cons hqueue]

theorem dequeued_handed {rest : List FlushCall} {lm : LogEntry} {logger : Nat}
    (hpass : f.maxInBatch > 0 ∧ lm.message.level ≥ s.logLevel) (hcallback : f.callback = some logger)
    (hactive : (s.logger.isSome && s.loggerAsync) = true) :
    s.dequeued f rest lm = { s with
      delivered := s.delivered ++ [(logger, lm)]
      flushes := { f with maxInBatch := f.maxInBatch - 1, next := .logger } :: rest } := by
  unfold dequeued
  rw [if_pos hpass]
  split
  · rename_i logger' hcallback'
    cases hcallback'.symm.trans hcallback
    exact if_pos hactive
  · rename_i hnone
    cases hnone.symm.trans hcallback

theorem dequeued_passed {rest : List FlushCall} {lm : LogEntry}
    (hpass : f.maxInBatch > 0 ∧ lm.message.level ≥ s.logLevel)
    (hinactive : f.callback = none ∨ (s.logger.isSome && s.loggerAsync) ≠ true) :
    s.dequeued f rest lm = { s with
      passed := s.passed ++ [lm], flushes := { f with maxInBatch := f.maxInBatch - 1 } :: rest } := by
  unfold dequeued
  rw [if_pos hpass]
  split
  · rename_i logger hcallback
    rcases hinactive with hnone | hinactive
    · cases hnone.symm.trans hcallback
    · exact if_neg hinactive
  · rfl

/-- A message is taken off the queue, and the logger returns at once if it is called. -/
theorem At.dequeued {lm : LogEntry} {queue : List LogEntry} (h : s.At tr) (threads : Nat) (hf : s.flushes = [f])
    (hnext : f.next = .dequeue) (hcallback : f.callback = s.logger) (hqueue : s.logMessages.queue = lm :: queue)
    (hpass : f.maxInBatch > 0 ∧ lm.message.level ≥ s.logLevel) :
    ∃ t, Reaches threads s t ∧ t.At (Tracer.deliver { tr with logMessages := tr.logMessages.dequeue.2 } lm.message) ∧
      t.flushes = [{ f with maxInBatch := f.maxInBatch - 1 }] ∧ t.logs = s.logs ∧ t.logger = s.logger ∧
      t.logMessages.queue = queue := by
  have hrest : s.logMessages.dequeue.2.queue = queue := by rw [ThreadsafeQueue.dequeue_cons hqueue]
  have hstep := reaches_flushNext threads hf
  rw [flushNext_dequeue hnext hqueue] at hstep
  have hdequeue := h.dequeue hqueue
  have hactive : (tr.logger && decide (tr.loggerAsync = some true)) = (s.logger.isSome && s.loggerAsync) := by
    rw [h.loggerAsync, h.logger]
    cases s.loggerAsync <;> rfl
  unfold Tracer.deliver
  rw [hactive]
  split_ifs with hcalled
  · obtain ⟨logger, hlogger⟩ := Option.isSome_iff_exists.1 (Bool.and_eq_true_iff.1 hcalled).1
    rw [dequeued_handed (s := { s with logMessages := s.logMessages.dequeue.2 }) hpass (hcallback.trans hlogger)
      hcalled] at hstep
    refine ⟨_, hstep.trans (reaches_flushNext threads rfl), ?_, ?_, rfl, rfl, hrest⟩
    · refine ⟨h.logger, h.loggerAsync, h.logLevel, h.batchLength, h.bufferLength, hdequeue.queue, hdequeue.queueLength,
        ?_, h.discarded⟩
      show (s.delivered ++ [_]).map _ = tr.delivered ++ [_]
      rw [List.map_append, h.delivered]
      rfl
    · show [FlushCall.mk f.callback (f.maxInBatch - 1) .dequeue] = [FlushCall.mk f.callback (f.maxInBatch - 1) f.next]
      rw [hnext]
  · rw [dequeued_passed (s := { s with logMessages := s.logMessages.dequeue.2 }) hpass (.inr hcalled)] at hstep
    exact ⟨_, hstep, hdequeue.passed _ _, rfl, rfl, rfl, hrest⟩

/-- The loop of a flush. -/
theorem At.flushLoop {queue : List LogEntry} (h : s.At tr) (threads : Nat) (hf : s.flushes = [f])
    (hnext : f.next = .dequeue) (hcallback : f.callback = s.logger) (hqueue : s.logMessages.queue = queue) :
    ∃ t f', Reaches threads s t ∧ t.At (tr.flushLoop f.maxInBatch (queue.map LogEntry.message)) ∧ t.flushes = [f'] ∧
      f'.next = .length ∧ t.logs = s.logs := by
  induction queue generalizing s tr f with
  | nil =>
    have hstep := reaches_flushNext threads hf
    have hempty : s.flushNext f [] = { s with flushes := [{ f with next := .length }] } := by
      unfold flushNext ThreadsafeQueue.dequeue
      rw [hnext, hqueue]
    rw [hempty] at hstep
    exact ⟨_, _, hstep, h.passed _ _, rfl, rfl, rfl⟩
  | cons lm queue ih =>
    rw [List.map_cons]
    unfold Tracer.flushLoop
    dsimp only
    have hlevel := h.logLevel
    split_ifs with hpass
    · rw [← hlevel] at hpass
      obtain ⟨u, hu, hat, hflushes, hlogs, hlogger, hrest⟩ := h.dequeued threads hf hnext hcallback hqueue hpass
      obtain ⟨t, f', ht, hat', hf', hnext', hlogs'⟩ := ih hat hflushes hnext (hcallback.trans hlogger.symm) hrest
      exact ⟨t, f', hu.trans ht, hat', hf', hnext', hlogs'.trans hlogs⟩
    · have hstep := reaches_flushNext threads hf
      rw [flushNext_dequeue hnext hqueue] at hstep
      unfold TracerLoop.dequeued at hstep
      rw [← hlevel] at hpass
      rw [if_neg hpass] at hstep
      exact ⟨_, _, hstep, (h.dequeue hqueue).passed _ _, rfl, rfl, rfl⟩

/-- A flush during which nobody logs, and whose logger does nothing but return. -/
theorem At.flush (h : s.At tr) (hidle : s.Idle) (threads : Nat) :
    ∃ t, Reaches threads s t ∧ t.Idle ∧ t.At tr.flush := by
  have hbegun : Reaches threads s s.flush := by
    refine ⟨[.flush], .single ⟨?_, trivial⟩⟩
    show s.js s.flush = some s.flush
    unfold js inJs
    rw [hidle.2]
    rfl
  have hf : s.flush.flushes = [⟨s.logger, s.batchLength, .dequeue⟩] := by
    show _ :: s.flushes = _
    rw [hidle.2]
  have hat : s.flush.At tr := h.flushes _
  obtain ⟨u, f, hu, hat', hflushes, hnext, hlogs⟩ := hat.flushLoop threads hf rfl rfl rfl
  have hlength := reaches_flushNext threads hflushes
  have hrest : u.logs = [] := hlogs.trans hidle.1
  unfold flushNext at hlength
  rw [hnext] at hlength
  dsimp only at hlength
  change At u (tr.flushLoop s.batchLength (s.logMessages.queue.map LogEntry.message)) at hat'
  rw [h.batchLength, h.queue] at hat'
  rw [hat'.length_eq] at hlength
  unfold Tracer.flush
  dsimp only
  split_ifs at hlength ⊢ with hmore
  · exact ⟨_, (hbegun.trans hu).trans hlength, ⟨hrest, rfl⟩, (hat'.flushes _).signal⟩
  · exact ⟨_, (hbegun.trans hu).trans hlength, ⟨hrest, rfl⟩, hat'.flushes _⟩

/-- One call after another, `TracerLoop` can do what `Tracer` does. -/
theorem At.exec {actions : List TracerAction} (h : s.At tr) (hidle : s.Idle) (hthreads : 0 < threads)
    (hexec : exec Tracer.step tr actions = some tr') : ∃ t, Reaches threads s t ∧ t.Idle ∧ t.At tr' := by
  induction actions generalizing s tr with
  | nil =>
    cases hexec
    exact ⟨s, .refl s, hidle, h⟩
  | cons action actions ih =>
    obtain ⟨tr'', hstep, hexec⟩ := Option.bind_eq_some_iff.1 hexec
    have hone : ∃ u, Reaches threads s u ∧ u.Idle ∧ u.At tr'' := by
      cases action with
      | log module loglevel message =>
        cases hstep
        exact h.log hidle hthreads module loglevel message
      | flush =>
        cases hstep
        exact h.flush hidle threads
    obtain ⟨u, hu, hidle', hat⟩ := hone
    obtain ⟨t, ht, hidle'', hat'⟩ := ih hat hidle' hexec
    exact ⟨t, hu.trans ht, hidle'', hat'⟩

/-- Every run of `Tracer` is one of `TracerLoop` in which a logger is registered and no two calls overlap. -/
theorem one_at_a_time {actions : List TracerAction} (hthreads : 0 < threads)
    (hexec : exec Tracer.step (Tracer.start (init env).logLevel (init env).batchLength (init env).bufferLength) actions =
      some tr) :
    ∃ t, Reaches threads (init env) t ∧ t.Idle ∧ t.At tr := by
  have hregistered : Reaches threads (init env) { init env with logger := some 0 } :=
    ⟨[.registerLogger (some 0)], .single ⟨rfl, trivial⟩⟩
  obtain ⟨t, ht, hidle, hat⟩ := (@at_start env 0).exec ⟨rfl, rfl⟩ hthreads hexec
  exact ⟨t, hregistered.trans ht, hidle, hat⟩

def loggedAndFlushed : List TracerAction := [.log "Database" 3 "first", .log "Database" 2 "second", .flush]

example : ∃ tr t, Reaches 5 (init defaultEnv) t ∧ t.Idle ∧ t.At tr ∧
    tr.delivered = [⟨"Database", 3, "first"⟩] := by
  obtain ⟨tr, htr, hdelivered⟩ : ∃ tr, exec Tracer.step (Tracer.start (init defaultEnv).logLevel
    (init defaultEnv).batchLength (init defaultEnv).bufferLength) loggedAndFlushed = some tr ∧
      tr.delivered = [⟨"Database", 3, "first"⟩] := ⟨_, rfl, rfl⟩
  obtain ⟨t, ht, hidle, hat⟩ := one_at_a_time (by decide : 0 < 5) htr
  exact ⟨tr, t, ht, hidle, hat, hdelivered⟩

end TracerLoop
end Kududown
