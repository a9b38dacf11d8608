import Kududown.IteratorRun
import Kududown.JsIterator

/-!
# Progress

`_next` asks the binding again when a reply has no rows and is not the last, so it comes back only if `IteratorNext`
brings a row whenever it returns true. It does when the watermark is positive. A watermark that is narrowed to 0 leaves
every row unread: `IteratorNext` returns true with nothing, again and again (`waits_at_zero`).
-/

namespace Kududown

/-- A batch with a row comes before the end of the scan and before its failure. -/
def hasRow : List BatchReply → Bool
  | [] => false
  | .error _ :: _ => false
  | .ok rows :: replies => !rows.isEmpty || hasRow replies

namespace JsIterator
section
variable (opens : Nat → ScanSpec → OpenReply) (tablePtr : Option KuduTable)

/-- A step with the binding behind it: the reply is what `IteratorNext` reports when it is called. -/
def liveStep (s : JsIterator) : JsAction → Option JsIterator
  | .next => s.step .next
  | .future => s.step .future
  | .reply =>
    let r := s.native.iteratorNext (opens (s.bindingCalls - 1)) tablePtr
    { s with native := r.iterator, replies := [r.report] }.step .reply

/-- The callback of call `call` has been run, or is about to be. -/
def Answered (s : JsIterator) (call : Nat) (t : JsIterator) : Prop :=
  (∃ args, t.waiting = .future call args) ∨ ∃ args, t.waiting = .idle ∧ t.log = s.log ++ [(call, args)]

/-- Whenever a call waits for the binding, finitely many replies bring it to its callback. -/
def ComesBack (it : Iterator) : Prop :=
  ∀ actions t call, Run (Steps (liveStep opens tablePtr) fun _ _ => True) (start it []) actions t →
    t.waiting = .binding call →
    ∃ k u, exec (liveStep opens tablePtr) t (List.replicate k .reply) = some u ∧ t.Answered call u

end
end JsIterator

section
variable (opens : Nat → ScanSpec → OpenReply) (tablePtr : Option KuduTable)

/-- A call that returns true brings a row, and every call of JS comes back. -/
structure Progresses (it : Iterator) : Prop where
  rows : ∀ n, (it.call opens tablePtr n).ret = true → (it.call opens tablePtr n).result ≠ []
  comesBack : JsIterator.ComesBack opens tablePtr it

/-- The scanners that open have a row to hand out. -/
def OpensRow (it : Iterator) : Prop :=
  ∃ m schema replies, (∀ j < m, ∃ e, opens j (it.scanSpec tablePtr) = .error e) ∧
    opens m (it.scanSpec tablePtr) = .ok (schema, replies) ∧ hasRow replies = true

end

variable {opens : Nat → ScanSpec → OpenReply} {tablePtr : Option KuduTable} {it : Iterator}
  {openScan : ScanSpec → OpenReply} {schema : KuduSchema} {replies : List BatchReply} {scanner : KuduScanner}
  {m n : Nat}

namespace Iterator

/-! ### A positive watermark -/

/-- Either no scanner has been opened by call `n`, or one of the calls up to it opened the scanner. -/
theorem opened_or_not (opens : Nat → ScanSpec → OpenReply) (spec : ScanSpec) (n : Nat) :
    (∀ j < n, ∃ e, opens j spec = .error e) ∨
      ∃ m schema replies, m < n ∧ (∀ j < m, ∃ e, opens j spec = .error e) ∧ opens m spec = .ok (schema, replies) := by
  induction n with
  | zero => exact .inl fun j hj => absurd hj (Nat.not_lt_zero j)
  | succ n ih =>
    rcases ih with hfail | ⟨m, schema, replies, hlt, hfail, ho⟩
    · cases ho : opens n spec with
      | ok p => exact .inr ⟨n, p.1, p.2, Nat.lt_succ_self n, hfail, ho⟩
      | error e =>
        refine .inl fun j hj => ?_
        rcases Nat.lt_succ_iff_lt_or_eq.1 hj with hj | rfl
        · exact hfail j hj
        · exact ⟨e, ho⟩
    · exact .inr ⟨m, schema, replies, Nat.lt_succ_of_lt hlt, hfail, ho⟩

theorem Fresh.call_ne_nil (h : it.Fresh) (hmark : 0 < it.highWaterMark) (hret : (it.call opens tablePtr n).ret = true) :
    (it.call opens tablePtr n).result ≠ [] := by
  rcases opened_or_not opens (it.scanSpec tablePtr) (n + 1) with hfail | ⟨m, schema, replies, hlt, hfail, ho⟩
  · obtain ⟨e, he⟩ := h.call_unopened hfail (Nat.lt_succ_self n)
    rw [he] at hret
    cases hret
  · obtain ⟨k, rfl⟩ := Nat.exists_eq_add_of_le (Nat.lt_succ_iff.1 hlt)
    have hpopped := h.call hmark hfail ho k
    cases hchunks : (scanDelivery pairSize it.highWaterMark it.full 0 (scanPairs schema replies)).chunks.drop k with
    | nil =>
      rw [hchunks] at hpopped
      rw [hpopped.stopped_inv.1] at hret
      cases hret
    | cons c cs =>
      rw [hchunks] at hpopped
      have hmem : c ∈ (scanDelivery pairSize it.highWaterMark it.full 0 (scanPairs schema replies)).chunks := by
        refine List.mem_of_mem_drop (i := k) ?_
        rw [hchunks]
        exact List.mem_cons_self
      obtain ⟨b, -, hchunk⟩ := chunkOf_scanDelivery hmark 0 _ c hmem
      rw [hpopped.rows_inv.2.1]
      exact hchunk.ne_nil

/-! ### Scans without rows -/

theorem nextBatches_hasRow (hrows : hasRow replies = true) :
    (it.nextBatches scanner replies).1 = true ∧ (it.nextBatches scanner replies).2.batchRowCount ≠ 0 := by
  induction replies generalizing it with
  | nil => cases hrows
  | cons reply replies ih =>
    rcases reply with e | rows
    · cases hrows
    · unfold nextBatches
      dsimp only
      split_ifs with hzero
      · have hnil : rows = [] := List.length_eq_zero_iff.1 hzero
        rw [hnil] at hrows
        exact ih hrows
      · exact ⟨rfl, hzero⟩

/-- The scanner is open, no row is left to read and none is to come. -/
structure Drained (it : Iterator) : Prop where
  scanner : ∃ scanner, it.scanner = some scanner ∧ hasRow scanner.replies = false
  read : it.batchRowCount ≤ it.currentRowCount

theorem nextBatches_rowless (hrows : hasRow replies = false) (hzero : it.batchRowCount = 0) :
    (it.nextBatches scanner replies).2.batchRowCount = 0 ∧
      ∃ scanner', (it.nextBatches scanner replies).2.scanner = some scanner' ∧ hasRow scanner'.replies = false := by
  induction replies generalizing it with
  | nil => exact ⟨hzero, _, rfl, rfl⟩
  | cons reply replies ih =>
    rcases reply with e | rows
    · exact ⟨hzero, _, rfl, rfl⟩
    · have hsplit := Bool.or_eq_false_iff.1 hrows
      have hnil : rows.length = 0 := by simpa using hsplit.1
      unfold nextBatches
      dsimp only
      rw [if_pos hnil]
      exact ih hsplit.2 hnil

theorem Drained.processBatch {p : Bool × Iterator} (hzero : p.2.batchRowCount = 0)
    (hscanner : ∃ scanner, p.2.scanner = some scanner ∧ hasRow scanner.replies = false) :
    (processBatch p).ret = false ∧ (processBatch p).iterator.Drained := by
  obtain ⟨b, it⟩ := p
  have hread : it.batchRowCount ≤ it.currentRowCount := by
    rw [hzero]
    exact Nat.zero_le _
  cases b with
  | false => exact ⟨rfl, hscanner, hread⟩
  | true =>
    unfold Iterator.processBatch
    dsimp only
    rw [if_pos hzero]
    exact ⟨rfl, hscanner, hread⟩

theorem Drained.next (h : it.Drained) :
    (it.iteratorNext openScan tablePtr).ret = false ∧ (it.iteratorNext openScan tablePtr).iterator.Drained := by
  obtain ⟨scanner, hscanner, hrows⟩ := h.scanner
  have hnext : it.iteratorNext openScan tablePtr = it.nextFrom scanner := by
    unfold iteratorNext createScanner
    simp only [hscanner]
  rw [hnext]
  unfold nextFrom
  split_ifs with h1 h2 h3
  · exact ⟨rfl, h.scanner, h.read⟩
  · exact ⟨rfl, h.scanner, h.read⟩
  · obtain ⟨hzero, hscanner'⟩ := @nextBatches_rowless { it with batchRowCount := 0, currentRowCount := 0 } _ scanner
      hrows rfl
    exact Drained.processBatch hzero hscanner'
  · exact absurd h.read h3

theorem Drained.call (h : (it.after opens tablePtr m).Drained) (k : Nat) :
    (it.call opens tablePtr (m + k)).ret = false ∧ (it.after opens tablePtr (m + k)).Drained := by
  induction k with
  | zero => exact ⟨h.next.1, h⟩
  | succ k ih =>
    have hdrained : (it.after opens tablePtr (m + k + 1)).Drained := ih.2.next.2
    exact ⟨hdrained.next.1, hdrained⟩

/-- The call that opens a scanner whatever the watermark. -/
theorem Fresh.next_rowless (h : it.Fresh) (ho : openScan (it.scanSpec tablePtr) = .ok (schema, replies))
    (hrows : hasRow replies = false) :
    (it.iteratorNext openScan tablePtr).ret = false ∧ (it.iteratorNext openScan tablePtr).iterator.Drained := by
  rw [h.next_opened ho]
  have hread : it.batchRowCount ≤ it.currentRowCount := by
    rw [h.batchRowCount]
    exact Nat.zero_le _
  exact Drained.next ⟨⟨_, rfl, hrows⟩, hread⟩

theorem Fresh.scanSpec_after (h : it.Fresh) (hfail : ∀ j < m, ∃ e, opens j (it.scanSpec tablePtr) = .error e) :
    (it.after opens tablePtr m).scanSpec tablePtr = it.scanSpec tablePtr := by
  unfold Iterator.scanSpec
  rw [(h.after hfail).2.highWaterMark]

theorem Fresh.call_rowless (h : it.Fresh) (hno : ¬ OpensRow opens tablePtr it) (n : Nat) :
    (it.call opens tablePtr n).ret = false := by
  rcases opened_or_not opens (it.scanSpec tablePtr) (n + 1) with hfail | ⟨m, schema, replies, hlt, hfail, ho⟩
  · obtain ⟨e, he⟩ := h.call_unopened hfail (Nat.lt_succ_self n)
    rw [he]
    rfl
  · obtain ⟨k, rfl⟩ := Nat.exists_eq_add_of_le (Nat.lt_succ_iff.1 hlt)
    have hrows : hasRow replies = false := by
      by_contra hrow
      exact hno ⟨m, schema, replies, hfail, ho, eq_true_of_ne_false hrow⟩
    have hopen := (h.after hfail).1.next_rowless ((h.scanSpec_after hfail).symm ▸ ho) hrows
    rcases k with _ | k
    · exact hopen.1
    · have hdrained : (it.after opens tablePtr (m + 1)).Drained := hopen.2
      rw [Nat.add_comm k 1, ← Nat.add_assoc]
      exact (hdrained.call k).1

/-! ### A watermark of 0 -/

theorem processBatch_zero {p : Bool × Iterator} (hok : p.1 = true) (hne : p.2.batchRowCount ≠ 0)
    (hmark : p.2.highWaterMark = 0) : (processBatch p).ret = true ∧ (processBatch p).result = [] := by
  obtain ⟨b, it⟩ := p
  dsimp only at hok hne hmark
  subst hok
  unfold processBatch
  dsimp only
  rw [if_neg hne, readRows_of_le (Nat.le_of_eq hmark)]
  exact ⟨rfl, rfl⟩

/-- The call that opens a scanner with a row returns true and brings nothing. -/
theorem Fresh.call_hasRow (h : it.Fresh) (hmark : it.highWaterMark = 0)
    (hfail : ∀ j < m, ∃ e, opens j (it.scanSpec tablePtr) = .error e)
    (ho : opens m (it.scanSpec tablePtr) = .ok (schema, replies)) (hrows : hasRow replies = true) :
    (it.call opens tablePtr m).ret = true ∧ (it.call opens tablePtr m).result = [] := by
  obtain ⟨hfresh, hframe⟩ := h.after hfail
  have hmark' := hframe.highWaterMark.trans hmark
  unfold Iterator.call
  rw [hfresh.next_opened ((h.scanSpec_after hfail).symm ▸ ho)]
  generalize it.after opens tablePtr m = it' at hfresh hmark'
  have hlimit : ¬ (it'.limit > 0 ∧ (it'.totalRowCount : Int) ≥ it'.limit) := by
    rw [hfresh.totalRowCount]
    omega
  have hread : it'.currentRowCount ≥ it'.batchRowCount := by
    rw [hfresh.batchRowCount]
    exact Nat.zero_le _
  have hnext := @nextFrom_fetch (it'.opened tablePtr schema replies)
    { (KuduScanner.new tablePtr).SetBatchSizeBytes it'.highWaterMark with replies } rfl hlimit hread
  rw [show (it'.opened tablePtr schema replies).iteratorNext (opens m) tablePtr = _ from hnext]
  obtain ⟨hok, hne⟩ := @nextBatches_hasRow { it'.opened tablePtr schema replies with
    batchRowCount := 0, currentRowCount := 0 } _ _ hrows
  exact processBatch_zero hok hne (nextBatches_frame.highWaterMark.trans hmark')

end Iterator

/-! ### The loop of `_next` -/

theorem set_ne_nil {a : JSArray} {index : Int} {value : JSValue} (h : 0 ≤ index) : a.set index value ≠ [] := by
  unfold JSArray.set
  rw [if_neg (Int.not_lt.2 h)]
  split_ifs with hlt
  · refine List.ne_nil_of_length_pos ?_
    rw [List.length_set]
    omega
  · simp

/-- The value of the last row goes to index 0. -/
theorem setRows_ne_nil {rows : List (Slice × Slice)} {a : JSArray} {arraySize idx : Nat} (h : rows ≠ [])
    (hsize : arraySize = idx * 2 + rows.length * 2) : setRows it arraySize idx a rows ≠ [] := by
  induction rows generalizing idx a with
  | nil => exact absurd rfl h
  | cons row rows ih =>
    obtain ⟨key, value⟩ := row
    rw [List.length_cons] at hsize
    unfold setRows
    dsimp only
    by_cases hrows : rows = []
    · subst hrows
      have hindex : arraySize - idx * 2 - 2 = 0 := by
        rw [List.length_nil] at hsize
        omega
      rw [hindex]
      exact set_ne_nil (Int.le_refl 0)
    · exact ih hrows (by omega)

theorem handleOKCallback_ne_nil {rows : List (Slice × Slice)} (h : rows ≠ []) : handleOKCallback it rows ≠ [] :=
  setRows_ne_nil h (by omega)

namespace JsIterator
variable {s t : JsIterator} {call : Nat} {action : JsAction} {actions : List JsAction}

/-- How often the binding has answered. -/
def answers (s : JsIterator) : Nat :=
  match s.waiting with
  | .binding _ => s.bindingCalls - 1
  | .idle | .future _ _ => s.bindingCalls

/-- The iterator behind the binding is where the answers given have left it. -/
def Live (opens : Nat → ScanSpec → OpenReply) (tablePtr : Option KuduTable) (it : Iterator) (s : JsIterator) : Prop :=
  s.native = it.after opens tablePtr s.answers ∧ ∀ call, s.waiting = .binding call → 0 < s.bindingCalls

theorem Live.next (h : s.native = it.after opens tablePtr s.bindingCalls) :
    (s.next call).Live opens tablePtr it := by
  unfold JsIterator.next
  dsimp only
  split_ifs
  · exact ⟨h, fun c hc => (by cases hc)⟩
  · exact ⟨h, fun c hc => (by cases hc)⟩
  · exact ⟨h, fun _ _ => Nat.succ_pos _⟩

theorem liveStep_reply (hwaiting : s.waiting = .binding call) :
    liveStep opens tablePtr s .reply =
      match (s.native.iteratorNext (opens (s.bindingCalls - 1)) tablePtr).report with
      | .error e => some { s with
          native := (s.native.iteratorNext (opens (s.bindingCalls - 1)) tablePtr).iterator
          replies := [], waiting := .idle, log := s.log ++ [(call, .error e)] }
      | .ok result ok => some ({ s with
          native := (s.native.iteratorNext (opens (s.bindingCalls - 1)) tablePtr).iterator
          cache := some (handleOKCallback (s.native.iteratorNext (opens (s.bindingCalls - 1)) tablePtr).iterator result)
          finished := !ok, replies := [] }.next call) := by
  unfold liveStep step
  dsimp only
  rw [hwaiting]
  cases (s.native.iteratorNext (opens (s.bindingCalls - 1)) tablePtr).report with
  | error e => rfl
  | ok result ok => rfl

theorem Live.step (h : s.Live opens tablePtr it) (hstep : liveStep opens tablePtr s action = some t) :
    t.Live opens tablePtr it := by
  cases action with
  | next =>
    unfold liveStep JsIterator.step at hstep
    dsimp only at hstep
    split_ifs at hstep with hidle
    cases hstep
    have hnative := h.1
    unfold answers at hnative
    rw [hidle] at hnative
    exact Live.next hnative
  | future =>
    unfold liveStep JsIterator.step at hstep
    dsimp only at hstep
    split at hstep
    · next call args hwaiting =>
      cases hstep
      have hnative := h.1
      unfold answers at hnative
      rw [hwaiting] at hnative
      exact ⟨hnative, fun c hc => (by cases hc)⟩
    · cases hstep
  | reply =>
    cases hwaiting : s.waiting with
    | idle =>
      unfold liveStep JsIterator.step at hstep
      dsimp only at hstep
      rw [hwaiting] at hstep
      cases hstep
    | future call args =>
      unfold liveStep JsIterator.step at hstep
      dsimp only at hstep
      rw [hwaiting] at hstep
      cases hstep
    | binding call =>
      have hnative := h.1
      have hpos := h.2 call hwaiting
      unfold answers at hnative
      rw [hwaiting] at hnative
      have hafter : (s.native.iteratorNext (opens (s.bindingCalls - 1)) tablePtr).iterator =
          it.after opens tablePtr s.bindingCalls := by
        obtain ⟨n, hn⟩ := Nat.exists_eq_succ_of_ne_zero (Nat.ne_of_gt hpos)
        rw [hn] at hnative ⊢
        rw [hnative]
        rfl
      rw [liveStep_reply hwaiting] at hstep
      split at hstep
      · cases hstep
        exact ⟨hafter, fun c hc => (by cases hc)⟩
      · cases hstep
        exact Live.next hafter

theorem live_start : (start it []).Live opens tablePtr it := ⟨rfl, fun c hc => (by cases hc)⟩

/-- With rows in the cache or after the last reply `_next` needs no further reply. -/
theorem next_answers (h : s.cache.getD [] ≠ [] ∨ s.finished = true) : ∃ args, (s.next call).waiting = .future call args := by
  unfold next
  dsimp only
  split_ifs with hcache hfinished
  · exact ⟨_, rfl⟩
  · exact ⟨_, rfl⟩
  · rcases h with hrows | hlast
    · exact absurd (List.length_eq_zero_iff.1 (not_not.1 hcache)) hrows
    · exact absurd hlast hfinished

/-- One reply is enough when it has a row or is the last. -/
theorem reply_answers (hwaiting : s.waiting = .binding call)
    (hrows : (s.native.iteratorNext (opens (s.bindingCalls - 1)) tablePtr).ret = true →
      (s.native.iteratorNext (opens (s.bindingCalls - 1)) tablePtr).result ≠ []) :
    ∃ t, liveStep opens tablePtr s .reply = some t ∧ s.Answered call t := by
  rw [liveStep_reply hwaiting]
  generalize s.native.iteratorNext (opens (s.bindingCalls - 1)) tablePtr = r at hrows
  unfold NextResult.report
  split_ifs with hret
  · exact ⟨_, rfl, .inl (next_answers (.inl (handleOKCallback_ne_nil (hrows hret))))⟩
  · cases r.status with
    | OK => exact ⟨_, rfl, .inl (next_answers (.inr rfl))⟩
    | error e => exact ⟨_, rfl, .inr ⟨_, rfl, rfl⟩⟩

theorem comesBack_of_rows (hrows : ∀ n, (it.call opens tablePtr n).ret = true → (it.call opens tablePtr n).result ≠ []) :
    ComesBack opens tablePtr it := by
  intro actions t call hrun hwaiting
  have hlive : t.Live opens tablePtr it := hrun.inv (fun _ _ _ hs ha => hs.step ha.1) live_start
  have hnative := hlive.1
  unfold answers at hnative
  rw [hwaiting] at hnative
  obtain ⟨u, hstep, hanswered⟩ := @reply_answers opens tablePtr t call hwaiting (by
    rw [hnative]
    exact hrows (t.bindingCalls - 1))
  refine ⟨1, u, ?_, hanswered⟩
  show (liveStep opens tablePtr t .reply).bind some = some u
  rw [hstep]
  rfl

/-- The first call waits for the binding, which has returned true `n` times and brought nothing. -/
structure Waits (opens : Nat → ScanSpec → OpenReply) (tablePtr : Option KuduTable) (it : Iterator) (n : Nat)
    (s : JsIterator) : Prop where
  waiting : s.waiting = .binding 0
  bindingCalls : s.bindingCalls = n + 1
  native : s.native = it.after opens tablePtr n

theorem Waits.reply (h : s.Waits opens tablePtr it n)
    (hcall : (it.call opens tablePtr n).ret = true ∧ (it.call opens tablePtr n).result = []) :
    ∃ t, liveStep opens tablePtr s .reply = some t ∧ t.Waits opens tablePtr it (n + 1) := by
  have hasked : s.bindingCalls - 1 = n := by
    rw [h.bindingCalls]
    rfl
  have hreport : (s.native.iteratorNext (opens (s.bindingCalls - 1)) tablePtr).report = .ok [] true := by
    rw [hasked, h.native]
    show (it.call opens tablePtr n).report = .ok [] true
    unfold NextResult.report
    rw [if_pos hcall.1, hcall.2]
  rw [liveStep_reply h.waiting, hreport]
  refine ⟨_, rfl, rfl, congrArg (· + 1) h.bindingCalls, ?_⟩
  show (s.native.iteratorNext (opens (s.bindingCalls - 1)) tablePtr).iterator = _
  rw [hasked, h.native]
  rfl

/-- With a watermark of 0, no limit and a row to hand out, the first call never comes back. -/
theorem waits_at_zero {B : List (List RowPtr)} (h : it.Fresh) (hmark : it.highWaterMark = 0) (hlimit : it.limit < 0)
    (ho : opens 0 (it.scanSpec tablePtr) = .ok (schema, B.map .ok)) (hrow : B.flatten ≠ []) (k : Nat) :
    ∃ t, exec (liveStep opens tablePtr) (start it []) (.next :: List.replicate k .reply) = some t ∧
      t.waiting = .binding 0 := by
  have hcall : ∀ n, (it.call opens tablePtr n).ret = true ∧ (it.call opens tablePtr n).result = [] := by
    intro n
    obtain ⟨hret, hresult, -⟩ := h.call_zero hmark hlimit ho n
    rw [decide_eq_false hrow] at hret
    exact ⟨hret, hresult⟩
  have hrun : ∀ k n s, Waits opens tablePtr it n s →
      ∃ t, exec (liveStep opens tablePtr) s (List.replicate k .reply) = some t ∧ t.waiting = .binding 0 := by
    intro k
    induction k with
    | zero => exact fun n s hs => ⟨s, rfl, hs.waiting⟩
    | succ k ih =>
      intro n s hs
      obtain ⟨t, hstep, ht⟩ := hs.reply (hcall n)
      obtain ⟨u, hexec, hu⟩ := ih (n + 1) t ht
      refine ⟨u, ?_, hu⟩
      rw [List.replicate_succ, exec, hstep]
      exact hexec
  exact hrun k 0 ({ start it [] with calls := 1 }.next 0) ⟨rfl, rfl, rfl⟩

end JsIterator

/-- The iterator makes progress just if its watermark is not narrowed to 0 or there is no row to hand out. -/
theorem progress_iff (id : Nat) (options : IteratorOptions) (opens : Nat → ScanSpec → OpenReply)
    (tablePtr : Option KuduTable) :
    Progresses opens tablePtr (Iterator.new id options) ↔
      toUint32 (options.highWaterMark.getD (16 * 1024)).toInt ≠ 0 ∨ ¬ OpensRow opens tablePtr (Iterator.new id options) := by
  have hfresh := Iterator.fresh_new id options
  constructor
  · intro h
    by_contra hboth
    obtain ⟨hzero, m, schema, replies, hfail, ho, hrows⟩ := not_or.1 hboth |>.imp not_not.1 not_not.1
    obtain ⟨hret, hresult⟩ := hfresh.call_hasRow hzero hfail ho hrows
    exact h.rows m hret hresult
  · intro h
    have hrows : ∀ n, ((Iterator.new id options).call opens tablePtr n).ret = true →
        ((Iterator.new id options).call opens tablePtr n).result ≠ [] := by
      intro n hret
      rcases h with hmark | hno
      · exact hfresh.call_ne_nil (Nat.pos_of_ne_zero hmark) hret
      · rw [hfresh.call_rowless hno n] at hret
        cases hret
    exact ⟨hrows, JsIterator.comesBack_of_rows hrows⟩

/-- A scan of one row. -/
def opensOneRow (_ : Nat) (_ : ScanSpec) : OpenReply := .ok (stringSchema, [.ok [stringRow (bytes "a") (bytes "1")]])

/-- With a watermark of 2 ^ 32 the row is never delivered, and the call of JS never comes back. -/
theorem no_progress :
    (∀ k, ∃ t, exec (JsIterator.liveStep opensOneRow (some ⟨"t"⟩))
        (JsIterator.start (Iterator.new 0 { highWaterMark := some 4294967296 }) [])
        (.next :: List.replicate k .reply) = some t ∧ t.waiting = .binding 0) ∧
    ¬ Progresses opensOneRow (some ⟨"t"⟩) (Iterator.new 0 { highWaterMark := some 4294967296 }) := by
  have hfresh := Iterator.fresh_new 0 { highWaterMark := some 4294967296 }
  have hmark : (Iterator.new 0 { highWaterMark := some 4294967296 }).highWaterMark = 0 := by decide
  refine ⟨fun k => ?_, fun h => ?_⟩
  · exact @JsIterator.waits_at_zero _ _ _ stringSchema [[stringRow (bytes "a") (bytes "1")]] hfresh hmark (by decide)
      rfl (List.cons_ne_nil _ _) k
  · obtain ⟨hret, hresult⟩ := @Iterator.Fresh.call_hasRow opensOneRow (some ⟨"t"⟩) _ stringSchema
      [.ok [stringRow (bytes "a") (bytes "1")]] 0 hfresh hmark (fun j hj => absurd hj (Nat.not_lt_zero j)) rfl rfl
    exact h.rows 0 hret hresult

end Kududown
