import Kududown.IteratorScan

/-!
# Calling `IteratorNext` again and again

The calls a new iterator answers, one after another. `opens n` is what the cluster says to an `Open` during
call `n`, counted from 0. Calls that cannot open the scanner return false with an error; from the call that
opens it on, the calls hand out the delivery of the scan chunk by chunk (`Fresh.call`).
-/

namespace Kududown

/-- What a scanner created by the iterator is configured with: the watermark, and nothing else. -/
def Iterator.scanSpec (tablePtr : Option KuduTable) (it : Iterator) : ScanSpec :=
  ((KuduScanner.new tablePtr).SetBatchSizeBytes it.highWaterMark).spec

section
variable (opens : Nat → ScanSpec → OpenReply) (tablePtr : Option KuduTable)

/-- The iterator after `n` calls. -/
def Iterator.after (it : Iterator) : Nat → Iterator
  | 0 => it
  | n + 1 => ((it.after n).iteratorNext (opens n) tablePtr).iterator

def Iterator.call (it : Iterator) (n : Nat) : NextResult := (it.after opens tablePtr n).iteratorNext (opens n) tablePtr

/-- The calls hand out the chunks one by one, then return false and nothing more. -/
structure HandsOut (it : Iterator) (chunks : List (List (Slice × Slice))) : Prop where
  rows : ∀ n (h : n < chunks.length),
    (it.call opens tablePtr n).ret = true ∧ (it.call opens tablePtr n).result = chunks[n]
  stops : ∀ n, chunks.length ≤ n →
    (it.call opens tablePtr n).ret = false ∧ (it.call opens tablePtr n).result = []

/-- Calling until false is returned yields `rows` in all. -/
def Delivers (it : Iterator) (rows : List (Slice × Slice)) : Prop :=
  ∃ chunks, HandsOut opens tablePtr it chunks ∧ chunks.flatten = rows

/-- The rows of the first `n` calls, as far as they returned true. -/
def Iterator.delivered (it : Iterator) (n : Nat) : List (Slice × Slice) :=
  (List.range n).flatMap fun k =>
    if (it.call opens tablePtr k).ret then (it.call opens tablePtr k).result else []

end

variable {opens : Nat → ScanSpec → OpenReply} {tablePtr : Option KuduTable} {it : Iterator}
  {openScan : ScanSpec → OpenReply} {d : Delivery Failure (Slice × Slice)} {res : NextResult}
  {chunks chunks' : List (List (Slice × Slice))} {schema : KuduSchema} {replies : List BatchReply} {m n : Nat}

theorem HandsOut.length_le (h : HandsOut opens tablePtr it chunks) (h' : HandsOut opens tablePtr it chunks') :
    chunks.length ≤ chunks'.length := by
  by_contra hlt
  have htrue := (h.rows chunks'.length (Nat.lt_of_not_le hlt)).1
  rw [(h'.stops _ (Nat.le_refl _)).1] at htrue
  cases htrue

theorem HandsOut.unique (h : HandsOut opens tablePtr it chunks) (h' : HandsOut opens tablePtr it chunks') :
    chunks = chunks' := by
  refine List.ext_getElem (Nat.le_antisymm (h.length_le h') (h'.length_le h)) fun n hn hn' => ?_
  rw [← (h.rows n hn).2, (h'.rows n hn').2]

theorem HandsOut.delivers_iff {rows : List (Slice × Slice)} (h : HandsOut opens tablePtr it chunks) :
    Delivers opens tablePtr it rows ↔ chunks.flatten = rows := by
  refine ⟨?_, fun hr => ⟨chunks, h, hr⟩⟩
  rintro ⟨chunks', h', hr⟩
  rw [h.unique h', hr]

theorem Delivers.first_le {rows : List (Slice × Slice)} (h : Delivers opens tablePtr it rows) :
    (it.call opens tablePtr 0).result.length ≤ rows.length := by
  obtain ⟨chunks, hc, rfl⟩ := h
  rcases chunks with _ | ⟨c, cs⟩
  · rw [(hc.stops 0 (Nat.le_refl _)).2]
    exact Nat.zero_le _
  · rw [(hc.rows 0 (Nat.succ_pos _)).2, List.flatten_cons, List.length_append]
    exact Nat.le_add_right _ _

namespace Iterator

/-! ### From one call to all of them -/

theorem Popped.rows_inv {c : List (Slice × Slice)} {cs : List (List (Slice × Slice))} {err : Option Failure}
    (h : Popped ⟨c :: cs, err⟩ res) :
    res.ret = true ∧ res.result = c ∧ res.status = .OK ∧ res.iterator.Reading ⟨cs, err⟩ := by
  cases h with
  | rows hexit hres hstatus hread => exact ⟨decide_eq_true hexit, hres, hstatus, hread⟩

theorem Popped.stopped_inv {err : Option Failure} (h : Popped ⟨[], err⟩ res) :
    res.ret = false ∧ (err = none → res.result = []) ∧ res.status = .ofError err ∧
      res.iterator.Reading ⟨[], err⟩ := by
  cases h with
  | stopped hexit hstatus hres hread => exact ⟨decide_eq_false hexit, hres, hstatus, hread⟩

theorem Popped.reading (h : Popped d res) : res.iterator.Reading ⟨d.chunks.drop 1, d.error⟩ := by
  cases h with
  | rows _ _ _ hread => exact hread
  | stopped _ _ _ hread => exact hread

theorem Popped.pushed (h : Popped d res) : (if res.ret then res.result else []) = (d.chunks.take 1).flatten := by
  cases h with
  | rows hexit hres _ _ => rw [NextResult.ret, hexit, hres]; simp
  | stopped hexit _ _ _ => rw [NextResult.ret, decide_eq_false hexit]; rfl

theorem delivered_succ : it.delivered opens tablePtr (n + 1) = it.delivered opens tablePtr n ++
    if (it.call opens tablePtr n).ret then (it.call opens tablePtr n).result else [] := by
  unfold delivered
  rw [List.range_succ, List.flatMap_append, List.flatMap_singleton]

theorem Reading.after (h : (it.after opens tablePtr n).Reading d) (k : Nat) :
    (it.after opens tablePtr (n + k)).Reading ⟨d.chunks.drop k, d.error⟩ := by
  induction k with
  | zero => exact h
  | succ k ih =>
    have := (ih.next : Popped _ ((it.after opens tablePtr (n + k)).iteratorNext (opens (n + k)) tablePtr)).reading
    rw [List.drop_drop] at this
    exact this

/-- No scanner yet, and nothing read. -/
structure Fresh (it : Iterator) : Prop where
  scanner : it.scanner = none
  batchRowCount : it.batchRowCount = 0
  currentRowCount : it.currentRowCount = 0
  totalRowCount : it.totalRowCount = 0

theorem fresh_new (id : Nat) (options : IteratorOptions) : (new id options).Fresh := ⟨rfl, rfl, rfl, rfl⟩

theorem Fresh.next_error {e : Failure} (h : it.Fresh) (ho : openScan (it.scanSpec tablePtr) = .error e) :
    it.iteratorNext openScan tablePtr = ⟨.openFailed, { it with iteratorStatus := .error e }, []⟩ := by
  unfold scanSpec at ho
  unfold iteratorNext createScanner
  simp only [h.scanner, ho]

theorem full_zero : it.full 0 = false := decide_eq_false fun ⟨h1, h2⟩ => by omega

/-- `it` with the scanner that has just been opened. -/
def opened (tablePtr : Option KuduTable) (schema : KuduSchema) (replies : List BatchReply) (it : Iterator) : Iterator :=
  { it with
    iteratorStatus := .OK
    scanner := some { (KuduScanner.new tablePtr).SetBatchSizeBytes it.highWaterMark with replies }
    schema := schema
    batch := [] }

theorem Fresh.next_opened (h : it.Fresh) (ho : openScan (it.scanSpec tablePtr) = .ok (schema, replies)) :
    it.iteratorNext openScan tablePtr = (it.opened tablePtr schema replies).iteratorNext openScan tablePtr := by
  unfold scanSpec at ho
  unfold opened iteratorNext createScanner
  simp only [h.scanner, ho]

theorem nextFrom_fetch {scanner : KuduScanner} (hok : it.iteratorStatus = .OK)
    (hlimit : ¬ (it.limit > 0 ∧ (it.totalRowCount : Int) ≥ it.limit)) (hread : it.currentRowCount ≥ it.batchRowCount) :
    it.nextFrom scanner =
      processBatch (nextBatches { it with batchRowCount := 0, currentRowCount := 0 } scanner scanner.replies) := by
  unfold nextFrom
  rw [if_neg (by rw [hok]; exact Bool.noConfusion), if_neg hlimit, if_pos hread]

/-- The call that opens the scanner starts the delivery of the scan. -/
theorem Fresh.next_ok (h : it.Fresh) (hm : 0 < it.highWaterMark)
    (ho : openScan (it.scanSpec tablePtr) = .ok (schema, replies)) :
    Popped (scanDelivery pairSize it.highWaterMark it.full 0 (scanPairs schema replies))
      (it.iteratorNext openScan tablePtr) := by
  rw [h.next_opened ho]
  refine Reading.next ⟨⟨_, rfl, ?_⟩, hm, h.batchRowCount.le⟩
  have hu : (it.opened tablePtr schema replies).unread = [] := unread_eq_nil (by simp [opened, h.batchRowCount])
  rw [remaining_of_ok rfl, hu, List.map_nil]
  show restDelivery pairSize it.highWaterMark it.full it.totalRowCount [] (scanPairs schema replies) = _
  rw [h.totalRowCount, restDelivery, full_zero, batchDelivery_nil]
  rfl

/-- As long as the scanner cannot be opened the iterator stays as it was, its status apart. -/
theorem Fresh.after (h : it.Fresh) (hfail : ∀ j < m, ∃ e, opens j (it.scanSpec tablePtr) = .error e) :
    (it.after opens tablePtr m).Fresh ∧ it.Frame (it.after opens tablePtr m) := by
  induction m with
  | zero => exact ⟨h, .refl it⟩
  | succ m ih =>
    obtain ⟨hf, hframe⟩ := ih fun j hj => hfail j (Nat.lt_succ_of_lt hj)
    obtain ⟨e, he⟩ := hfail m (Nat.lt_succ_self m)
    have hspec : (it.after opens tablePtr m).scanSpec tablePtr = it.scanSpec tablePtr := by
      unfold scanSpec; rw [hframe.highWaterMark]
    have hnext := hf.next_error (hspec ▸ he)
    unfold Iterator.after
    rw [hnext]
    exact ⟨⟨hf.scanner, hf.batchRowCount, hf.currentRowCount, hf.totalRowCount⟩,
      hframe.trans ⟨rfl, rfl, rfl, rfl, rfl⟩⟩

section
variable (h : it.Fresh) (hm : 0 < it.highWaterMark)
  (hfail : ∀ j < m, ∃ e, opens j (it.scanSpec tablePtr) = .error e)

include h hfail in
theorem Fresh.call_openFailed {e : Failure} (hn : n < m) (he : opens n (it.scanSpec tablePtr) = .error e) :
    it.call opens tablePtr n =
      ⟨.openFailed, { it.after opens tablePtr n with iteratorStatus := .error e }, []⟩ := by
  obtain ⟨hf, hframe⟩ := h.after fun j hj => hfail j (Nat.lt_trans hj hn)
  have hspec : (it.after opens tablePtr n).scanSpec tablePtr = it.scanSpec tablePtr := by
    unfold scanSpec; rw [hframe.highWaterMark]
  exact hf.next_error (hspec ▸ he)

include h hfail in
theorem Fresh.call_unopened (hn : n < m) :
    ∃ e, it.call opens tablePtr n =
      ⟨.openFailed, { it.after opens tablePtr n with iteratorStatus := .error e }, []⟩ :=
  (hfail n hn).imp fun _ he => h.call_openFailed hfail hn he

include h hfail in
theorem Fresh.delivered_unopened (hn : n ≤ m) : it.delivered opens tablePtr n = [] := by
  refine List.flatMap_eq_nil_iff.2 fun k hk => ?_
  obtain ⟨e, he⟩ := h.call_unopened hfail (Nat.lt_of_lt_of_le (List.mem_range.1 hk) hn)
  rw [he]
  rfl

variable (ho : opens m (it.scanSpec tablePtr) = .ok (schema, replies))
include h hm hfail ho

/-- From the call that opens the scanner on, call after call takes a chunk off the delivery of the scan. -/
theorem Fresh.call (k : Nat) : Popped
    ⟨(scanDelivery pairSize it.highWaterMark it.full 0 (scanPairs schema replies)).chunks.drop k,
      (scanDelivery pairSize it.highWaterMark it.full 0 (scanPairs schema replies)).error⟩
    (it.call opens tablePtr (m + k)) := by
  obtain ⟨hf, hframe⟩ := h.after hfail
  have hspec : (it.after opens tablePtr m).scanSpec tablePtr = it.scanSpec tablePtr := by
    unfold scanSpec; rw [hframe.highWaterMark]
  have hfull : (it.after opens tablePtr m).full = it.full := by unfold full; rw [hframe.limit]
  have h0 := hf.next_ok (by rw [hframe.highWaterMark]; exact hm) (hspec ▸ ho)
  rw [hfull, hframe.highWaterMark] at h0
  rcases k with _ | k
  · exact h0
  · have h1 : (it.after opens tablePtr (m + 1)).Reading _ := h0.reading
    have hr := h1.after k
    rw [List.drop_drop, Nat.add_comm 1 k, Nat.add_right_comm] at hr
    exact hr.next

theorem Fresh.delivered (k : Nat) : it.delivered opens tablePtr (m + k) =
    ((scanDelivery pairSize it.highWaterMark it.full 0 (scanPairs schema replies)).chunks.take k).flatten := by
  induction k with
  | zero => exact h.delivered_unopened hfail (Nat.le_refl m)
  | succ k ih =>
    rw [← Nat.add_assoc, delivered_succ, ih, List.take_add, List.flatten_append,
      (h.call hm hfail ho k).pushed]

end

/-! ### A watermark of 0 -/

/-- With a watermark of 0 and no limit: a batch with rows stays unread, an empty scan is at its end. -/
structure AtZero (empty : Bool) (it : Iterator) : Prop where
  mark : it.highWaterMark = 0
  limit : it.limit < 0
  status : it.iteratorStatus = .OK
  scanner : ∃ scanner, it.scanner = some scanner ∧ (empty = true → scanner.replies = [])
  unread : it.currentRowCount < it.batchRowCount ↔ empty = false

theorem nextBatches_all {B : List (List RowPtr)} {scanner : KuduScanner} (hok : it.iteratorStatus = .OK)
    (hn : it.batchRowCount = 0) (hc : it.currentRowCount = 0) :
    (it.nextBatches scanner (B.map .ok)).1 = true ∧ (it.nextBatches scanner (B.map .ok)).2.iteratorStatus = .OK ∧
      (it.nextBatches scanner (B.map .ok)).2.currentRowCount = 0 ∧
      (0 < (it.nextBatches scanner (B.map .ok)).2.batchRowCount ↔ B.flatten ≠ []) ∧
      ∃ scanner', (it.nextBatches scanner (B.map .ok)).2.scanner = some scanner' ∧
        (B.flatten = [] → scanner'.replies = []) := by
  induction B generalizing it with
  | nil => exact ⟨rfl, hok, hc, by simp [nextBatches, hn], _, rfl, fun _ => rfl⟩
  | cons rows B ih =>
    rw [List.map_cons]
    unfold nextBatches
    dsimp only
    split_ifs with hrows
    · rw [List.length_eq_zero_iff.1 hrows, List.flatten_cons, List.nil_append]
      exact ih rfl rfl hc
    · have hne : (rows :: B).flatten ≠ [] := by
        rw [List.flatten_cons]
        exact List.append_ne_nil_of_left_ne_nil (mt List.length_eq_zero_iff.2 hrows) _
      exact ⟨rfl, rfl, hc, iff_of_true (Nat.pos_of_ne_zero hrows) hne, _, rfl, fun h => absurd h hne⟩

theorem AtZero.next {empty : Bool} (h : it.AtZero empty) :
    (it.iteratorNext openScan tablePtr).ret = !empty ∧ (it.iteratorNext openScan tablePtr).result = [] ∧
      (it.iteratorNext openScan tablePtr).iterator.AtZero empty := by
  obtain ⟨scanner, hscanner, hempty⟩ := h.scanner
  have hnext : it.iteratorNext openScan tablePtr = it.nextFrom scanner := by
    unfold iteratorNext createScanner
    simp only [hscanner]
  have hlimit : ¬ (it.limit > 0 ∧ (it.totalRowCount : Int) ≥ it.limit) := by
    have := h.limit
    omega
  rw [hnext]
  unfold nextFrom
  rw [if_neg (by rw [h.status]; exact Bool.noConfusion), if_neg hlimit]
  cases empty with
  | true =>
    have hge : it.currentRowCount ≥ it.batchRowCount := Nat.not_lt.1 (mt h.unread.1 Bool.noConfusion)
    rw [if_pos hge, hempty rfl]
    exact ⟨rfl, rfl, h.mark, h.limit, h.status, ⟨_, rfl, fun _ => rfl⟩, by simp [nextBatches, processBatch]⟩
  | false =>
    have hlt := h.unread.2 rfl
    rw [if_neg (Nat.not_le.2 hlt), readRows_of_le (Nat.le_of_eq h.mark)]
    exact ⟨rfl, rfl, h.mark, h.limit, h.status, h.scanner, h.unread⟩

theorem AtZero.of_fetched {empty : Bool} {p : Bool × Iterator} (hp : p.1 = true) (hmark : p.2.highWaterMark = 0)
    (hlimit : p.2.limit < 0) (hok : p.2.iteratorStatus = .OK) (hc : p.2.currentRowCount = 0)
    (hn : 0 < p.2.batchRowCount ↔ empty = false)
    (hs : ∃ scanner, p.2.scanner = some scanner ∧ (empty = true → scanner.replies = [])) :
    (processBatch p).ret = !empty ∧ (processBatch p).result = [] ∧ (processBatch p).iterator.AtZero empty := by
  obtain ⟨b, it⟩ := p
  dsimp only at hp hmark hlimit hok hc hn hs
  subst hp
  have hzero : it.AtZero empty := ⟨hmark, hlimit, hok, hs, by rw [hc]; exact hn⟩
  unfold processBatch
  dsimp only
  cases empty with
  | true =>
    have hrows : it.batchRowCount = 0 := Nat.eq_zero_of_not_pos (mt hn.1 Bool.noConfusion)
    rw [if_pos hrows]
    exact ⟨rfl, rfl, hzero.mark, hzero.limit, hzero.status, hzero.scanner, hzero.unread⟩
  | false =>
    rw [if_neg (Nat.ne_of_gt (hn.2 rfl)), readRows_of_le (Nat.le_of_eq hmark)]
    exact ⟨rfl, rfl, hzero.mark, hzero.limit, hzero.status, hzero.scanner, hzero.unread⟩

/-- The call that opens the scanner. -/
theorem Fresh.next_zero {B : List (List RowPtr)} (h : it.Fresh) (hmark : it.highWaterMark = 0) (hlimit : it.limit < 0)
    (ho : openScan (it.scanSpec tablePtr) = .ok (schema, B.map .ok)) :
    (it.iteratorNext openScan tablePtr).ret = !decide (B.flatten = []) ∧
      (it.iteratorNext openScan tablePtr).result = [] ∧
      (it.iteratorNext openScan tablePtr).iterator.AtZero (decide (B.flatten = [])) := by
  have hlimit' : ¬ (it.limit > 0 ∧ (it.totalRowCount : Int) ≥ it.limit) := by omega
  have hge : it.currentRowCount ≥ it.batchRowCount := by rw [h.batchRowCount]; exact Nat.zero_le _
  have hnext := @nextFrom_fetch (it.opened tablePtr schema (B.map .ok))
    { (KuduScanner.new tablePtr).SetBatchSizeBytes it.highWaterMark with replies := B.map .ok } rfl hlimit' hge
  rw [h.next_opened ho, show (it.opened tablePtr schema (B.map .ok)).iteratorNext openScan tablePtr = _ from hnext]
  obtain ⟨hb, hok, hc, hn, scanner, hs, hempty⟩ := @nextBatches_all
    { it.opened tablePtr schema (B.map .ok) with batchRowCount := 0, currentRowCount := 0 } B
    { (KuduScanner.new tablePtr).SetBatchSizeBytes it.highWaterMark with replies := B.map .ok } rfl rfl rfl
  refine AtZero.of_fetched hb ?_ ?_ hok hc ?_ ⟨scanner, hs, fun h => hempty (of_decide_eq_true h)⟩
  · rw [nextBatches_frame.highWaterMark]
    exact hmark
  · rw [nextBatches_frame.limit]
    exact hlimit
  · exact hn.trans decide_eq_false_iff_not.symm

/-- The iterator ends at once when the scan has no rows, and never when it has. -/
theorem Fresh.call_zero {B : List (List RowPtr)} (h : it.Fresh) (hmark : it.highWaterMark = 0) (hlimit : it.limit < 0)
    (ho : opens 0 (it.scanSpec tablePtr) = .ok (schema, B.map .ok)) (n : Nat) :
    (it.call opens tablePtr n).ret = !decide (B.flatten = []) ∧ (it.call opens tablePtr n).result = [] ∧
      (it.call opens tablePtr n).iterator.AtZero (decide (B.flatten = [])) := by
  induction n with
  | zero => exact h.next_zero hmark hlimit ho
  | succ n ih => exact ih.2.2.next

end Iterator

end Kududown
