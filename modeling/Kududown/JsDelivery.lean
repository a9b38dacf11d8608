import Kududown.IteratorDelivery
import Kududown.Progress

/-!
# From the scan to the callbacks

`_next` on top of `IteratorNext` (`JsIterator.liveStep`). Call `n` of JS is answered with the error of the `Open` that
failed for it, or else with the next row of the delivery of the scan, and after the last row with how the scan has
ended, again and again (`answerAt`). So the chunks of `IteratorNext` and the array that is popped from its end come to
the rows of the scan in their order, one for each call (`handed_to_js`).
-/

namespace Kududown

/-! ### Keys and values as Buffers -/

namespace Iterator

/-- `it'` hands out keys and values as `it` does. -/
structure SameBuffers (it it' : Iterator) : Prop where
  keyAsBuffer : it'.keyAsBuffer = it.keyAsBuffer
  valueAsBuffer : it'.valueAsBuffer = it.valueAsBuffer

variable {it it' it'' : Iterator} {openScan : ScanSpec → OpenReply} {opens : Nat → ScanSpec → OpenReply}
  {tablePtr : Option KuduTable} {scanner : KuduScanner} {replies : List BatchReply} {size : Nat}
  {result : List (Slice × Slice)} {rows : List RowPtr}

theorem SameBuffers.refl (it : Iterator) : it.SameBuffers it := ⟨rfl, rfl⟩

theorem SameBuffers.trans (h : it.SameBuffers it') (h' : it'.SameBuffers it'') : it.SameBuffers it'' :=
  ⟨h'.keyAsBuffer.trans h.keyAsBuffer, h'.valueAsBuffer.trans h.valueAsBuffer⟩

theorem SameBuffers.after (h' : it'.SameBuffers it'') (h : it.SameBuffers it') : it.SameBuffers it'' := h.trans h'

theorem createScanner_sameBuffers : it.SameBuffers (it.createScanner openScan tablePtr).2 := by
  unfold createScanner
  split
  · exact .refl it
  · dsimp only
    split <;> exact ⟨rfl, rfl⟩

theorem nextBatches_sameBuffers : it.SameBuffers (it.nextBatches scanner replies).2 := by
  induction replies generalizing it with
  | nil => exact ⟨rfl, rfl⟩
  | cons reply replies ih =>
    rcases reply with e | rows
    · exact ⟨rfl, rfl⟩
    · unfold nextBatches
      dsimp only
      split_ifs
      · exact .after ih ⟨rfl, rfl⟩
      · exact ⟨rfl, rfl⟩

theorem readRows_sameBuffers : it.SameBuffers (it.readRows size result rows).iterator := by
  induction rows generalizing it size result with
  | nil => exact ⟨rfl, rfl⟩
  | cons row rows ih =>
    unfold readRows
    dsimp only
    split_ifs
    · split
      · exact ⟨rfl, rfl⟩
      · split
        · exact ⟨rfl, rfl⟩
        · exact .after ih ⟨rfl, rfl⟩
    · exact ⟨rfl, rfl⟩

theorem processBatch_sameBuffers {p : Bool × Iterator} : p.2.SameBuffers (processBatch p).iterator := by
  obtain ⟨b, it⟩ := p
  rcases b with _ | _
  · exact .refl it
  · unfold processBatch
    dsimp only
    split_ifs
    · exact ⟨rfl, rfl⟩
    · exact readRows_sameBuffers

theorem iteratorNext_sameBuffers : it.SameBuffers (it.iteratorNext openScan tablePtr).iterator := by
  have hopened := @createScanner_sameBuffers it openScan tablePtr
  unfold iteratorNext
  dsimp only
  split
  · exact hopened
  · refine hopened.trans ?_
    unfold nextFrom
    split_ifs
    · exact ⟨rfl, rfl⟩
    · exact ⟨rfl, rfl⟩
    · exact .after (.after processBatch_sameBuffers nextBatches_sameBuffers) ⟨rfl, rfl⟩
    · exact readRows_sameBuffers

theorem after_sameBuffers (n : Nat) : it.SameBuffers (it.after opens tablePtr n) := by
  induction n with
  | zero => exact .refl it
  | succ n ih => exact ih.trans iteratorNext_sameBuffers

theorem SameBuffers.layout (h : it.SameBuffers it') : layout it' result = layout it result := by
  unfold Kududown.layout returnKey returnValue
  rw [h.keyAsBuffer, h.valueAsBuffer]

end Iterator

/-! ### Answers -/

/-- How a scan ends. -/
def endOf : Option Failure → CallbackArgs
  | none => .nothing
  | some e => .error e

/-- What call `n` is answered with: `errors` are those of the `Open`s that failed, `d` is the delivery of the scan. -/
def answerAt (it : Iterator) (errors : List Failure) (d : Delivery Failure (Slice × Slice)) (n : Nat) : CallbackArgs :=
  match errors[n]? with
  | some e => .error e
  | none =>
    match d.items[n - errors.length]? with
    | some row => .entry (some (returnKey it row.1)) (some (returnValue it row.2))
    | none => endOf d.error

namespace JsIterator
variable {s t : JsIterator} {it : Iterator} {opens : Nat → ScanSpec → OpenReply} {tablePtr : Option KuduTable}
  {errors : List Failure} {d : Delivery Failure (Slice × Slice)} {taken k call : Nat} {action : JsAction}
  {c : List (Slice × Slice)} {e : Failure}

/-- What the binding reports: the errors, and then the chunks of the delivery. -/
structure Brought (opens : Nat → ScanSpec → OpenReply) (tablePtr : Option KuduTable) (it : Iterator)
    (errors : List Failure) (d : Delivery Failure (Slice × Slice)) : Prop where
  unopened : ∀ n (h : n < errors.length), (it.call opens tablePtr n).report = .error errors[n]
  opened : ∀ n, Iterator.Popped ⟨d.chunks.drop n, d.error⟩ (it.call opens tablePtr (errors.length + n))
  fits : ∀ c ∈ d.chunks, c.length ≤ 2 ^ 30

/-- `c` are the rows in the cache when `taken` answers are settled and the binding has been asked `k` times. -/
structure Left (errors : List Failure) (d : Delivery Failure (Slice × Slice)) (taken k : Nat) (finished : Bool)
    (c : List (Slice × Slice)) : Prop where
  unopened : k ≤ errors.length → taken = k ∧ c = [] ∧ finished = false
  opened : errors.length ≤ k → errors.length ≤ taken ∧
    d.items.drop (taken - errors.length) = c ++ (d.chunks.drop (k - errors.length)).flatten
  finished : finished = true → d.error = none ∧ d.chunks.drop (k - errors.length) = []

structure Stands (opens : Nat → ScanSpec → OpenReply) (tablePtr : Option KuduTable) (it : Iterator)
    (errors : List Failure) (d : Delivery Failure (Slice × Slice)) (taken k : Nat) (s : JsIterator) : Prop where
  native : s.native = it.after opens tablePtr k
  cache : ∃ c, s.cache.getD [] = layout it c ∧ Left errors d taken k s.finished c
  log : s.log = (List.range s.log.length).map fun n => (n, answerAt it errors d n)

/-- The invariant of a run with the binding behind it. -/
def Hands (opens : Nat → ScanSpec → OpenReply) (tablePtr : Option KuduTable) (it : Iterator) (errors : List Failure)
    (d : Delivery Failure (Slice × Slice)) (s : JsIterator) : Prop :=
  match s.waiting with
  | .idle => s.Stands opens tablePtr it errors d s.log.length s.bindingCalls ∧ s.calls = s.log.length
  | .future call args => s.Stands opens tablePtr it errors d (s.log.length + 1) s.bindingCalls ∧
      s.calls = s.log.length + 1 ∧ call = s.log.length ∧ args = answerAt it errors d call
  | .binding call => (∃ k, s.bindingCalls = k + 1 ∧ s.Stands opens tablePtr it errors d s.log.length k) ∧
      s.calls = s.log.length + 1 ∧ call = s.log.length ∧ s.cache.getD [] = [] ∧ s.finished = false

/-! ### One answer -/

/-- A row in the cache is the answer. -/
theorem Left.row (it : Iterator) {finished : Bool} {row : Slice × Slice} (h : Left errors d taken k finished (row :: c)) :
    answerAt it errors d taken = .entry (some (returnKey it row.1)) (some (returnValue it row.2)) ∧
      Left errors d (taken + 1) k finished c := by
  have hk : errors.length ≤ k := by
    by_contra hlt
    have hnil := (h.unopened (by omega)).2.1
    cases hnil
  obtain ⟨htaken, hdrop⟩ := h.opened hk
  refine ⟨?_, fun hle => ?_, fun _ => ⟨by omega, ?_⟩, h.finished⟩
  · unfold answerAt
    rw [List.getElem?_eq_none htaken, ← List.head?_drop, hdrop]
    rfl
  · have hnil := (h.unopened hle).2.1
    cases hnil
  · rw [show taken + 1 - errors.length = taken - errors.length + 1 by omega, ← List.tail_drop, hdrop]
    rfl

/-- With no row left the answer is how the scan has ended. -/
theorem Left.ended (it : Iterator) {finished : Bool} (h : Left errors d taken k finished []) (hk : errors.length ≤ k)
    (hchunks : d.chunks.drop (k - errors.length) = []) :
    answerAt it errors d taken = endOf d.error ∧ errors.length ≤ taken ∧
      d.items.drop (taken + 1 - errors.length) = [] := by
  obtain ⟨htaken, hdrop⟩ := h.opened hk
  rw [hchunks] at hdrop
  refine ⟨?_, htaken, ?_⟩
  · unfold answerAt
    rw [List.getElem?_eq_none htaken, ← List.head?_drop, hdrop]
    rfl
  · rw [show taken + 1 - errors.length = taken - errors.length + 1 by omega, ← List.tail_drop, hdrop]
    rfl

theorem Left.finished_le {finished : Bool} (h : Left errors d taken k finished c) (hfinished : finished = true) :
    errors.length < k := by
  by_contra hle
  have hnot := (h.unopened (by omega)).2.2
  rw [hfinished] at hnot
  cases hnot

/-- `_next` takes a row out of the cache, or finds the end, or asks the binding. -/
theorem Stands.next (h : s.Stands opens tablePtr it errors d s.log.length s.bindingCalls)
    (hcalls : s.calls = s.log.length + 1) : (s.next s.log.length).Hands opens tablePtr it errors d := by
  obtain ⟨c, hcache, hleft⟩ := h.cache
  rcases c with _ | ⟨row, c⟩
  · have hempty : ¬ (s.cache.getD []).length ≠ 0 := by
      rw [hcache]
      exact fun h => h rfl
    unfold JsIterator.next
    dsimp only
    rw [if_neg hempty]
    split_ifs with hfinished
    · obtain ⟨herror, hchunks⟩ := hleft.finished hfinished
      have hk := hleft.finished_le hfinished
      obtain ⟨hanswer, htaken, hdrop⟩ := hleft.ended it (Nat.le_of_lt hk) hchunks
      refine ⟨⟨h.native, ⟨[], hcache, fun hle => ?_, fun _ => ⟨Nat.le_succ_of_le htaken, ?_⟩, hleft.finished⟩, h.log⟩,
        hcalls, rfl, ?_⟩
      · exact absurd hle (Nat.not_le.2 hk)
      · rw [hdrop, hchunks]
        rfl
      · rw [hanswer, herror]
        rfl
    · exact ⟨⟨_, rfl, h.native, ⟨[], hcache, hleft⟩, h.log⟩, hcalls, rfl, hcache, eq_false_of_ne_true hfinished⟩
  · rw [next_entry hcache]
    obtain ⟨hanswer, hleft'⟩ := hleft.row it
    exact ⟨⟨h.native, ⟨c, rfl, hleft'⟩, h.log⟩, hcalls, rfl, hanswer.symm⟩

/-! ### One step -/

theorem log_answers {args : CallbackArgs} (h : s.log = (List.range s.log.length).map fun n => (n, answerAt it errors d n))
    (hargs : args = answerAt it errors d s.log.length) : s.log ++ [(s.log.length, args)] =
      (List.range (s.log ++ [(s.log.length, args)]).length).map fun n => (n, answerAt it errors d n) := by
  rw [List.length_append, List.length_singleton, List.range_succ, List.map_append, ← h, hargs]
  rfl

theorem Hands.next (h : s.Hands opens tablePtr it errors d) (hstep : liveStep opens tablePtr s .next = some t) :
    t.Hands opens tablePtr it errors d := by
  unfold liveStep JsIterator.step at hstep
  dsimp only at hstep
  split_ifs at hstep with hidle
  cases hstep
  unfold Hands at h
  rw [hidle] at h
  obtain ⟨hstands, hcalls⟩ := h
  have hstands' : Stands opens tablePtr it errors d s.log.length s.bindingCalls { s with calls := s.calls + 1 } :=
    ⟨hstands.native, hstands.cache, hstands.log⟩
  rw [hcalls] at hstands' ⊢
  exact hstands'.next rfl

theorem Hands.future (h : s.Hands opens tablePtr it errors d) (hstep : liveStep opens tablePtr s .future = some t) :
    t.Hands opens tablePtr it errors d := by
  unfold liveStep JsIterator.step at hstep
  dsimp only at hstep
  split at hstep
  · next call args hwaiting =>
    cases hstep
    unfold Hands at h
    rw [hwaiting] at h
    obtain ⟨hstands, hcalls, rfl, hargs⟩ := h
    refine ⟨⟨hstands.native, ?_, log_answers hstands.log hargs⟩, ?_⟩
    · rw [List.length_append]
      exact hstands.cache
    · rw [List.length_append]
      exact hcalls
  · cases hstep

/-- The binding brings rows, or the end, and `_next` is called again. -/
theorem Stands.brings {finished : Bool} (h : s.Stands opens tablePtr it errors d s.log.length k)
    (hcalls : s.calls = s.log.length + 1) (hbinding : s.bindingCalls = k + 1) (hlen : c.length ≤ 2 ^ 30)
    (hleft : Left errors d s.log.length (k + 1) finished c) :
    ({ s with
      native := (it.call opens tablePtr k).iterator
      cache := some (handleOKCallback (it.call opens tablePtr k).iterator c)
      finished, replies := [] }.next s.log.length).Hands opens tablePtr it errors d := by
  rw [← hbinding] at hleft
  refine Stands.next (s := { s with
      native := (it.call opens tablePtr k).iterator
      cache := some (handleOKCallback (it.call opens tablePtr k).iterator c)
      finished, replies := [] }) ⟨?_, ⟨c, ?_, hleft⟩, h.log⟩ hcalls
  · rw [hbinding]
    rfl
  · have hbuffers : it.SameBuffers (it.call opens tablePtr k).iterator := Iterator.after_sameBuffers (k + 1)
    rw [← hbuffers.layout, ← handleOKCallback_eq hlen]
    rfl

/-- The binding brings an error, which is the answer. -/
theorem Stands.fails (h : s.Stands opens tablePtr it errors d s.log.length k) (hcalls : s.calls = s.log.length + 1)
    (hbinding : s.bindingCalls = k + 1) (hempty : s.cache.getD [] = []) (hanswer : answerAt it errors d s.log.length = .error e)
    (hleft : Left errors d (s.log.length + 1) (k + 1) s.finished []) : Hands opens tablePtr it errors d
      { s with
        native := (it.call opens tablePtr k).iterator
        replies := [], waiting := .idle, log := s.log ++ [(s.log.length, .error e)] } := by
  refine ⟨⟨?_, ⟨[], hempty, ?_⟩, log_answers h.log hanswer.symm⟩, ?_⟩
  · show _ = it.after opens tablePtr s.bindingCalls
    rw [hbinding]
    rfl
  · show Left errors d (s.log ++ [(s.log.length, CallbackArgs.error e)]).length s.bindingCalls s.finished []
    rw [List.length_append, hbinding]
    exact hleft
  · rw [List.length_append]
    exact hcalls

theorem Hands.reply (hbrought : Brought opens tablePtr it errors d) (h : s.Hands opens tablePtr it errors d)
    (hstep : liveStep opens tablePtr s .reply = some t) : t.Hands opens tablePtr it errors d := by
  cases hwaiting : s.waiting with
  | idle =>
    unfold liveStep JsIterator.step at hstep
    dsimp only at hstep
    rw [hwaiting] at hstep
    cases hstep
  | future call args =>
    unfold liveStep JsIterator.step at hstep
    dsimp only at hstep
    rw [hwaiting] at hstep
    cases hstep
  | binding call =>
    rw [liveStep_reply hwaiting] at hstep
    unfold Hands at h
    rw [hwaiting] at h
    obtain ⟨⟨k, hbinding, hstands⟩, hcalls, rfl, hempty, hfinished⟩ := h
    have hcall : s.native.iteratorNext (opens (s.bindingCalls - 1)) tablePtr = it.call opens tablePtr k := by
      rw [hstands.native, hbinding]
      rfl
    rw [hcall] at hstep
    obtain ⟨c, hcache, hleft⟩ := hstands.cache
    obtain rfl : c = [] := by
      rcases c with _ | ⟨row, c⟩
      · rfl
      · rw [hempty, layout_cons] at hcache
        exact absurd hcache.symm (by simp)
    rcases Nat.lt_or_ge k errors.length with hk | hk
    · -- the `Open` fails
      have htaken := (hleft.unopened (Nat.le_of_lt hk)).1
      rw [hbrought.unopened k hk] at hstep
      cases hstep
      refine hstands.fails hcalls hbinding hempty ?_ ⟨fun _ => ⟨by rw [htaken], rfl, hfinished⟩, fun hge => ?_, ?_⟩
      · unfold answerAt
        rw [htaken, List.getElem?_eq_getElem hk]
      · obtain heq : k + 1 = errors.length := Nat.le_antisymm hk hge
        rw [htaken, heq, Nat.sub_self]
        exact ⟨Nat.le_refl _, rfl⟩
      · rw [hfinished]
        exact fun h => absurd h Bool.false_ne_true
    · obtain ⟨htaken, hdrop⟩ := hleft.opened hk
      obtain ⟨j, rfl⟩ := Nat.exists_eq_add_of_le hk
      have hpopped := hbrought.opened j
      rw [Nat.add_sub_cancel_left] at hdrop
      have hlater : errors.length + j + 1 - errors.length = j + 1 := by omega
      rcases hchunks : d.chunks.drop j with _ | ⟨c, cs⟩
      · rw [hchunks] at hpopped hdrop
        obtain ⟨hret, hresult, hstatus, -⟩ := hpopped.stopped_inv
        have hnone : d.chunks.drop (errors.length + j + 1 - errors.length) = [] := by
          rw [hlater, ← List.tail_drop, hchunks]
          rfl
        obtain ⟨hanswer, -, hdrop'⟩ := hleft.ended it hk (by rw [Nat.add_sub_cancel_left]; exact hchunks)
        cases herror : d.error with
        | none =>
          have hreport : (it.call opens tablePtr (errors.length + j)).report = .ok [] false := by
            rw [herror] at hstatus
            unfold NextResult.report
            rw [hret, if_neg Bool.false_ne_true, hstatus, hresult herror]
            rfl
          rw [hreport] at hstep
          cases hstep
          refine hstands.brings hcalls hbinding (Nat.zero_le _) ⟨fun hle => by omega, fun _ => ⟨htaken, ?_⟩, fun _ => ⟨herror, hnone⟩⟩
          rw [hdrop, hnone]
        | some e =>
          have hreport : (it.call opens tablePtr (errors.length + j)).report = .error e := by
            rw [herror] at hstatus
            unfold NextResult.report
            rw [hret, if_neg Bool.false_ne_true, hstatus]
            rfl
          rw [hreport] at hstep
          cases hstep
          rw [herror] at hanswer
          refine hstands.fails hcalls hbinding hempty hanswer
            ⟨fun hle => by omega, fun _ => ⟨Nat.le_succ_of_le htaken, ?_⟩, ?_⟩
          · rw [hdrop', hnone]
            rfl
          · rw [hfinished]
            exact fun h => absurd h Bool.false_ne_true
      · rw [hchunks] at hpopped hdrop
        obtain ⟨hret, hresult, -, -⟩ := hpopped.rows_inv
        have hreport : (it.call opens tablePtr (errors.length + j)).report = .ok c true := by
          unfold NextResult.report
          rw [hret, if_pos rfl, hresult]
        rw [hreport] at hstep
        cases hstep
        have hmem : c ∈ d.chunks := List.mem_of_mem_drop (hchunks ▸ List.mem_cons_self)
        refine hstands.brings hcalls hbinding (hbrought.fits c hmem)
          ⟨fun hle => by omega, fun _ => ⟨htaken, ?_⟩, fun h => absurd h Bool.false_ne_true⟩
        rw [hdrop, hlater, ← List.tail_drop, hchunks]
        rfl

theorem Hands.step (hbrought : Brought opens tablePtr it errors d) (h : s.Hands opens tablePtr it errors d)
    (hstep : liveStep opens tablePtr s action = some t) : t.Hands opens tablePtr it errors d := by
  cases action with
  | next => exact h.next hstep
  | future => exact h.future hstep
  | reply => exact h.reply hbrought hstep

/-! ### Every run -/

theorem hands_start (hempty : d.items = d.chunks.flatten) : (start it []).Hands opens tablePtr it errors d := by
  refine ⟨⟨rfl, ⟨[], rfl, fun _ => ⟨rfl, rfl, rfl⟩, fun hle => ?_, fun h => ?_⟩, rfl⟩, rfl⟩
  · obtain hzero : errors.length = 0 := Nat.le_zero.1 hle
    rw [hzero]
    exact ⟨Nat.le_refl _, hempty⟩
  · cases h

theorem Hands.log (h : s.Hands opens tablePtr it errors d) :
    s.log = (List.range s.log.length).map (fun n => (n, answerAt it errors d n)) ∧
      s.calls = s.log.length + if s.waiting = .idle then 0 else 1 := by
  unfold Hands at h
  cases hwaiting : s.waiting with
  | idle =>
    rw [hwaiting] at h
    exact ⟨h.1.log, h.2⟩
  | future call args =>
    rw [hwaiting] at h
    exact ⟨h.1.log, h.2.1⟩
  | binding call =>
    rw [hwaiting] at h
    obtain ⟨⟨k, -, hstands⟩, hcalls, -⟩ := h
    exact ⟨hstands.log, hcalls⟩

/-- A new iterator: the errors of the `Open`s, and then the delivery of the scan that was opened. -/
theorem brought_of_fresh {schema : KuduSchema} {replies : List BatchReply} (h : it.Fresh) (hmark : 0 < it.highWaterMark)
    (hfail : ∀ n (hn : n < errors.length), opens n (it.scanSpec tablePtr) = .error errors[n])
    (hopen : opens errors.length (it.scanSpec tablePtr) = .ok (schema, replies))
    (hlen : ∀ rows, .ok rows ∈ replies → rows.length ≤ 2 ^ 30) :
    Brought opens tablePtr it errors (scanDelivery pairSize it.highWaterMark it.full 0 (scanPairs schema replies)) := by
  have hfail' : ∀ n < errors.length, ∃ e, opens n (it.scanSpec tablePtr) = .error e := fun n hn => ⟨_, hfail n hn⟩
  refine ⟨fun n hn => ?_, h.call hmark hfail' hopen, fun c hc => ?_⟩
  · have hbefore : ∀ j < n, ∃ e, opens j (it.scanSpec tablePtr) = .error e := fun j hj => hfail' j (Nat.lt_trans hj hn)
    have hspec : (it.after opens tablePtr n).scanSpec tablePtr = it.scanSpec tablePtr := h.scanSpec_after hbefore
    have hnext := (h.after hbefore).1.next_error (hspec ▸ hfail n hn)
    unfold Iterator.call
    rw [hnext]
    rfl
  · obtain ⟨b, hb, hchunk⟩ := chunkOf_scanDelivery hmark 0 _ c hc
    obtain ⟨reply, hreply, heq⟩ := List.mem_map.1 hb
    cases reply with
    | error e => cases heq
    | ok rows =>
      have hle := hchunk.isInfix.length_le
      rw [← Except.ok.inj heq, List.length_map, List.length_map] at hle
      exact hle.trans (hlen rows hreply)

/-- In every run with the binding behind it, each call of JS runs its callback once and comes back: the calls that
cannot open the scanner with the error, the next ones with the rows delivered, one each and in order, and all others
with how the delivery has ended. Without a limit these are all rows of the scan, or those handed out before the chunk
that meets its first failure: the rows read in the same chunk are lost. -/
theorem handed_to_js {id : Nat} {options : IteratorOptions} {schema : KuduSchema} {replies : List BatchReply}
    {actions : List JsAction} (hmark : 1 ≤ (Iterator.new id options).highWaterMark)
    (hfail : ∀ n (hn : n < errors.length), opens n ((Iterator.new id options).scanSpec tablePtr) = .error errors[n])
    (hopen : opens errors.length ((Iterator.new id options).scanSpec tablePtr) = .ok (schema, replies))
    (hlen : ∀ rows, .ok rows ∈ replies → rows.length ≤ 2 ^ 30)
    (hrun : Run (Steps (liveStep opens tablePtr) fun _ _ => True) (start (Iterator.new id options) []) actions t) :
    ComesBack opens tablePtr (Iterator.new id options) ∧
      t.calls = t.log.length + (if t.waiting = .idle then 0 else 1) ∧
      ∃ d : Delivery Failure (Slice × Slice),
        t.log = (List.range t.log.length).map (fun n => (n, answerAt (Iterator.new id options) errors d n)) ∧
        d = scanDelivery pairSize (Iterator.new id options).highWaterMark (Iterator.new id options).full 0
          (scanPairs schema replies) ∧
        ((Iterator.new id options).limit < 0 → d.Of (scanItems (scanPairs schema replies)) ∧ ∀ e, d.error = some e →
          Strikes pairSize (Iterator.new id options).highWaterMark e d.items (scanPairs schema replies)) := by
  have hfresh := Iterator.fresh_new id options
  have hbrought := brought_of_fresh hfresh hmark hfail hopen hlen
  have hhands := hrun.inv (fun _ _ _ hs ha => hs.step hbrought ha.1) (hands_start rfl)
  refine ⟨comesBack_of_rows fun n => hfresh.call_ne_nil hmark, hhands.log.2, _, hhands.log.1, rfl, fun hlimit => ?_⟩
  rw [full_of_neg hlimit]
  exact ⟨scanDelivery_of hmark 0 _, fun _ => strikes_of_error hmark⟩

/-- The first `Open` fails, then a row comes and then the scan fails. -/
theorem handed_to_js_retried : ∃ t, exec (liveStep retried (some ⟨"t"⟩)) (start (Iterator.new 0 {}) [])
      [.next, .reply, .next, .reply, .future, .next, .reply, .next, .reply] = some t ∧
    ∃ d : Delivery Failure (Slice × Slice), d.Of [.ok (bytes "a", bytes "1"), .error ⟨.TimedOut, "scan"⟩] ∧
      t.log = (List.range 4).map fun n => (n, answerAt (Iterator.new 0 {}) [⟨.NetworkError, "no tablet server"⟩] d n) := by
  obtain ⟨t, hexec, hlength⟩ : ∃ t, exec (liveStep retried (some ⟨"t"⟩)) (start (Iterator.new 0 {}) [])
      [.next, .reply, .next, .reply, .future, .next, .reply, .next, .reply] = some t ∧ t.log.length = 4 := ⟨_, rfl, rfl⟩
  obtain ⟨-, -, d, hlog, -, hof⟩ := @handed_to_js t retried (some ⟨"t"⟩) [⟨.NetworkError, "no tablet server"⟩] 0 {}
    stringSchema [.ok [stringRow (bytes "a") (bytes "1")], .error ⟨.TimedOut, "scan"⟩] _ (by decide)
    (fun n hn => by
      obtain rfl : n = 0 := Nat.lt_one_iff.1 hn
      rfl) rfl
    (fun rows hrows => by
      simp only [List.mem_cons, Except.ok.injEq, reduceCtorEq, List.not_mem_nil, or_false] at hrows
      rw [hrows]
      decide) (.of_exec hexec)
  rw [hlength] at hlog
  exact ⟨t, hexec, d, (hof (by decide)).1, hlog⟩

end JsIterator

end Kududown
