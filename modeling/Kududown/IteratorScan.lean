import Kududown.Lib.Delivery
import Kududown.Iterator

/-!
# `IteratorNext` hands out a delivery

`Iterator.Reading it d`: the scanner is open and what the iterator still has to hand out is `d`, the delivery
of the rows left in the batch and of the replies left in the scanner. A call of `IteratorNext` takes the first
chunk off `d` (`Reading.next_cons`), or returns false with the error `d` ends in (`Reading.next_nil`).
-/

namespace Kududown

/-- The key and the value of a row as the iterator reads them. -/
def rowPair (schema : KuduSchema) (row : RowPtr) : Except Failure (Slice × Slice) :=
  match getSliceAsString row (schema.type 0) 0 [] with
  | (.error e, _) => .error e
  | (.OK, key) =>
    match getSliceAsString row (schema.type 1) 1 [] with
    | (.error e, _) => .error e
    | (.OK, value) => .ok (key, value)

def pairSize (p : Slice × Slice) : Nat := p.1.length + p.2.length

def scanPairs (schema : KuduSchema) (replies : List BatchReply) :
    List (Except Failure (List (Except Failure (Slice × Slice)))) :=
  replies.map fun r => r.map (List.map (rowPair schema))

/-- The status that goes with the end of a delivery. -/
def Status.ofError : Option Failure → Status
  | none => .OK
  | some e => .error e

theorem scanPairs_ok {schema : KuduSchema} {rows : List RowPtr} {replies : List BatchReply} :
    scanPairs schema (.ok rows :: replies) = .ok (rows.map (rowPair schema)) :: scanPairs schema replies := rfl

namespace Iterator

/-- The test of `limit` against the number of fetched rows. -/
def full (it : Iterator) (n : Nat) : Bool := decide (it.limit > 0 ∧ (n : Int) ≥ it.limit)

/-- What is still to be handed out when the scanner has `replies` left. -/
def remaining (it : Iterator) (replies : List BatchReply) : Delivery Failure (Slice × Slice) :=
  match it.iteratorStatus with
  | .error e => .fail e
  | .OK =>
    restDelivery pairSize it.highWaterMark it.full it.totalRowCount (it.unread.map (rowPair it.schema))
      (scanPairs it.schema replies)

variable {it it' : Iterator} {scanner : KuduScanner} {replies : List BatchReply} {size : Nat}
  {result : List (Slice × Slice)} {rows : List RowPtr} {e : Failure} {c : List (Slice × Slice)}
  {r : List (Except Failure (Slice × Slice))}

/-! ### One chunk -/

theorem readRows_cons_ok {row : RowPtr} {p : Slice × Slice} (hs : size < it.highWaterMark)
    (hok : it.iteratorStatus = .OK) (hp : rowPair it.schema row = .ok p) :
    it.readRows size result (row :: rows) =
      readRows { it with currentRowCount := it.currentRowCount + 1 } (size + pairSize p) (result ++ [p]) rows := by
  unfold rowPair at hp
  split at hp
  · cases hp
  · next hkey =>
    split at hp
    · cases hp
    · next hvalue =>
      cases hp
      rw [readRows, if_pos hs]
      simp only [hkey, hvalue, hok, pairSize]

theorem readRows_cons_error {row : RowPtr} (hs : size < it.highWaterMark)
    (hp : rowPair it.schema row = .error e) :
    ∃ x : Exit, (x = .keyFailed ∨ x = .valueFailed) ∧ it.readRows size result (row :: rows) =
      ⟨x, { it with currentRowCount := it.currentRowCount + 1, iteratorStatus := .error e, nexting := false },
        result⟩ := by
  unfold rowPair at hp
  split at hp
  · next hkey =>
    cases hp
    exact ⟨.keyFailed, .inl rfl, by rw [readRows, if_pos hs]; simp only [hkey]⟩
  · next hkey =>
    split at hp
    · next hvalue =>
      cases hp
      exact ⟨.valueFailed, .inr rfl, by rw [readRows, if_pos hs]; simp only [hkey, hvalue]⟩
    · cases hp

theorem readRows_of_le (hs : it.highWaterMark ≤ size) :
    it.readRows size result rows = ⟨.rows, { it with nexting := true }, result⟩ := by
  match rows with
  | [] => rfl
  | row :: rows => rw [readRows, if_neg (Nat.not_lt.2 hs)]

theorem readRows_of_fill_ok (hok : it.iteratorStatus = .OK)
    (h : fill pairSize it.highWaterMark size (rows.map (rowPair it.schema)) = .ok (c, r)) :
    it.readRows size result rows =
      ⟨.rows, { it with nexting := true, currentRowCount := it.currentRowCount + c.length }, result ++ c⟩ := by
  induction rows generalizing it size result c with
  | nil => cases h; simp [readRows]
  | cons row rows ih =>
    by_cases hs : size < it.highWaterMark
    · rw [List.map_cons] at h
      cases hp : rowPair it.schema row with
      | error e => rw [hp, fill_cons_error hs] at h; cases h
      | ok p =>
        rw [hp, fill_cons_ok hs] at h
        obtain ⟨⟨c', r'⟩, h', heq⟩ := map_eq_ok h
        cases heq
        rw [readRows_cons_ok hs hok hp]
        rw [@ih { it with currentRowCount := it.currentRowCount + 1 } _ (result ++ [p]) _ hok h']
        simp only [List.length_cons, List.append_assoc, List.cons_append, List.nil_append]
        congr 2; omega
    · rw [fill_of_le (Nat.not_lt.1 hs)] at h
      cases h
      simp [readRows_of_le (Nat.not_lt.1 hs)]

theorem readRows_of_fill_error (hok : it.iteratorStatus = .OK)
    (h : fill pairSize it.highWaterMark size (rows.map (rowPair it.schema)) = .error e) :
    ∃ x n res, (x = Exit.keyFailed ∨ x = Exit.valueFailed) ∧ it.readRows size result rows =
      ⟨x, { it with currentRowCount := n, iteratorStatus := .error e, nexting := false }, res⟩ := by
  induction rows generalizing it size result with
  | nil => cases h
  | cons row rows ih =>
    by_cases hs : size < it.highWaterMark
    · rw [List.map_cons] at h
      cases hp : rowPair it.schema row with
      | error e' =>
        rw [hp, fill_cons_error hs] at h; cases h
        obtain ⟨x, hx, heq⟩ := readRows_cons_error hs hp
        exact ⟨x, _, _, hx, heq⟩
      | ok p =>
        rw [hp, fill_cons_ok hs] at h
        rw [readRows_cons_ok hs hok hp]
        exact @ih { it with currentRowCount := it.currentRowCount + 1 } _ _ hok (map_eq_error h)
    · rw [fill_of_le (Nat.not_lt.1 hs)] at h; cases h

/-! ### Fetching -/

/-- What the refill loop, started at an empty batch, says about the delivery of the `replies`. -/
inductive Fetched (mark total : Nat) (schema : KuduSchema) (replies : List BatchReply) : Bool → Iterator → Prop
  | nothing {it' : Iterator} {s : KuduScanner} (hok : it'.iteratorStatus = .OK) (hn : it'.batchRowCount = 0)
      (hs : it'.scanner = some s) (hr : s.replies = [])
      (hd : ∀ full n, scanDelivery pairSize mark full n (scanPairs schema replies) = .done) :
      Fetched mark total schema replies true it'
  | failed {it' : Iterator} {s : KuduScanner} {e : Failure} (he : it'.iteratorStatus = .error e)
      (hn : it'.batchRowCount = 0) (hs : it'.scanner = some s)
      (hd : ∀ full n, scanDelivery pairSize mark full n (scanPairs schema replies) = .fail e) :
      Fetched mark total schema replies false it'
  | rows {it' : Iterator} {s : KuduScanner} (hok : it'.iteratorStatus = .OK) (hne : it'.batch ≠ [])
      (hn : it'.batchRowCount = it'.batch.length) (hc : it'.currentRowCount = 0)
      (ht : it'.totalRowCount = total + it'.batch.length) (hschema : it'.schema = schema)
      (hs : it'.scanner = some s)
      (hd : ∀ full n, scanDelivery pairSize mark full n (scanPairs schema replies) =
        scanDelivery pairSize mark full n (scanPairs schema (.ok it'.batch :: s.replies))) :
      Fetched mark total schema replies true it'

theorem nextBatches_fetched {mark : Nat} (hok : it.iteratorStatus = .OK) (hn : it.batchRowCount = 0)
    (hc : it.currentRowCount = 0) :
    Fetched mark it.totalRowCount it.schema replies (it.nextBatches scanner replies).1
      (it.nextBatches scanner replies).2 := by
  induction replies generalizing it with
  | nil => exact .nothing hok hn rfl rfl fun _ _ => rfl
  | cons reply replies ih =>
    rcases reply with e | rows
    · exact .failed rfl hn rfl fun _ _ => rfl
    · unfold nextBatches
      dsimp only
      split_ifs with hrows
      · obtain rfl := List.length_eq_zero_iff.1 hrows
        have hskip : ∀ full n, scanDelivery pairSize mark full n (scanPairs it.schema (.ok [] :: replies)) =
            scanDelivery pairSize mark full n (scanPairs it.schema replies) := fun full n => by
          rw [scanPairs_ok]; exact scanDelivery_cons_nil
        have hrec := @ih { it with
            iteratorStatus := .OK, nexting := true, batch := [], batchRowCount := 0,
            totalRowCount := it.totalRowCount + 0 } rfl rfl hc
        simp only [List.length_nil]
        revert hrec
        generalize nextBatches _ scanner replies = q
        obtain ⟨b, it'⟩ := q
        intro hrec
        cases hrec with
        | nothing hok hn hs hr hd => exact .nothing hok hn hs hr fun full n => (hskip full n).trans (hd full n)
        | failed he hn hs hd => exact .failed he hn hs fun full n => (hskip full n).trans (hd full n)
        | rows hok hne hn hc ht hsch hs hd =>
          exact .rows hok hne hn hc ht hsch hs fun full n => (hskip full n).trans (hd full n)
      · exact .rows rfl (mt List.length_eq_zero_iff.2 hrows) rfl hc rfl rfl rfl fun _ _ => rfl

/-! ### One call -/

/-- The scanner is open and what the iterator still has to hand out is `d`. -/
structure Reading (it : Iterator) (d : Delivery Failure (Slice × Slice)) : Prop where
  scanner : ∃ s, it.scanner = some s ∧ it.remaining s.replies = d
  mark : 0 < it.highWaterMark
  rows : it.batchRowCount ≤ it.batch.length

/-- `res` hands out the first chunk of a delivery, or reports how it ends. -/
inductive Popped : Delivery Failure (Slice × Slice) → NextResult → Prop
  | rows {c : List (Slice × Slice)} {cs : List (List (Slice × Slice))} {err : Option Failure}
      {res : NextResult} (hexit : res.exit = .rows) (hres : res.result = c) (hstatus : res.status = .OK)
      (hread : res.iterator.Reading ⟨cs, err⟩) : Popped ⟨c :: cs, err⟩ res
  | stopped {err : Option Failure} {res : NextResult} (hexit : res.exit ≠ .rows)
      (hstatus : res.status = .ofError err) (hres : err = none → res.result = [])
      (hread : res.iterator.Reading ⟨[], err⟩) : Popped ⟨[], err⟩ res

variable {d : Delivery Failure (Slice × Slice)} {openScan : ScanSpec → OpenReply} {tablePtr : Option KuduTable}

theorem remaining_of_error (h : it.iteratorStatus = .error e) : it.remaining replies = .fail e := by
  unfold remaining; rw [h]

theorem remaining_of_ok (h : it.iteratorStatus = .OK) : it.remaining replies =
    restDelivery pairSize it.highWaterMark it.full it.totalRowCount (it.unread.map (rowPair it.schema))
      (scanPairs it.schema replies) := by
  unfold remaining; rw [h]

theorem unread_eq_nil (h : it.batchRowCount ≤ it.currentRowCount) : it.unread = [] := by
  have := List.length_take_le it.batchRowCount it.batch
  exact List.drop_eq_nil_of_le (by omega)

theorem unread_ne_nil (hb : it.batchRowCount ≤ it.batch.length) (h : it.currentRowCount < it.batchRowCount) :
    it.unread ≠ [] := by
  intro hn
  have := List.drop_eq_nil_iff.1 hn
  rw [List.length_take] at this
  omega

theorem popped_readRows (hok : it.iteratorStatus = .OK) (hs : it.scanner = some scanner)
    (hm : 0 < it.highWaterMark) (hb : it.batchRowCount ≤ it.batch.length)
    (h : fill pairSize it.highWaterMark 0 (it.unread.map (rowPair it.schema)) = .ok (c, r)) :
    Popped (.cons c (restDelivery pairSize it.highWaterMark it.full it.totalRowCount r
      (scanPairs it.schema scanner.replies))) (it.readRows 0 [] it.unread) := by
  have hr : r = (it.unread.drop c.length).map (rowPair it.schema) := by
    have hl := (fill_eq_ok h).1
    rw [List.map_drop, hl, List.drop_left' (List.length_map _)]
  rw [readRows_of_fill_ok hok h, List.nil_append]
  refine .rows rfl rfl hok ⟨⟨scanner, hs, ?_⟩, hm, hb⟩
  refine (@remaining_of_ok { it with
    nexting := true, currentRowCount := it.currentRowCount + c.length } _ hok).trans ?_
  rw [hr]
  unfold unread
  rw [List.drop_drop]
  rfl

theorem popped_readRows_error (hok : it.iteratorStatus = .OK) (hs : it.scanner = some scanner)
    (hm : 0 < it.highWaterMark) (hb : it.batchRowCount ≤ it.batch.length)
    (h : fill pairSize it.highWaterMark 0 (it.unread.map (rowPair it.schema)) = .error e) :
    Popped (.fail e) (it.readRows 0 [] it.unread) := by
  obtain ⟨x, n, res, hx, heq⟩ := @readRows_of_fill_error _ _ [] _ _ hok h
  rw [heq]
  refine .stopped ?_ rfl (fun h => by cases h) ⟨⟨scanner, hs, remaining_of_error rfl⟩, hm, hb⟩
  rcases hx with rfl | rfl <;> exact Exit.noConfusion

theorem popped_fetched {b : Bool} {total : Nat} (hm : 0 < it.highWaterMark)
    (h : Fetched it.highWaterMark total it.schema replies b it')
    (hf : Frame { it with batchRowCount := 0, currentRowCount := 0 } it') :
    Popped (scanDelivery pairSize it.highWaterMark it.full total (scanPairs it.schema replies))
      (processBatch (b, it')) := by
  unfold processBatch
  have hmark : it'.highWaterMark = it.highWaterMark := hf.highWaterMark
  have hm' : 0 < it'.highWaterMark := hmark ▸ hm
  cases h with
  | @nothing _ s hok hn hs hr hd =>
    rw [hd]
    dsimp only
    rw [if_pos hn]
    refine .stopped Exit.noConfusion hok (fun _ => rfl) ⟨⟨s, hs, ?_⟩, hm', by rw [hn]; exact Nat.zero_le _⟩
    refine (remaining_of_ok hok).trans ?_
    have hu : it'.unread = [] := unread_eq_nil (by rw [hn]; exact Nat.zero_le _)
    rw [hu, hr, restDelivery, List.map_nil, batchDelivery_nil]
    split_ifs <;> rfl
  | @failed _ s e he hn hs hd =>
    rw [hd]
    exact .stopped Exit.noConfusion he (fun h => by cases h)
      ⟨⟨s, hs, remaining_of_error he⟩, hm', by rw [hn]; exact Nat.zero_le _⟩
  | @rows _ s hok hne hn hc ht hschema hs hd =>
    have hu : it'.unread = it'.batch := by
      unfold unread; rw [hn, hc, List.take_length, List.drop_zero]
    have hfull : it.full = it'.full := by unfold full; rw [hf.limit]
    have hne' : it'.batch.map (rowPair it.schema) ≠ [] := mt List.map_eq_nil_iff.1 hne
    have h0 : ¬ it'.batchRowCount = 0 := by rw [hn]; exact mt List.length_eq_zero_iff.1 hne
    rw [hd, scanPairs_ok]
    dsimp only
    rw [if_neg h0]
    cases hfill : fill pairSize it.highWaterMark 0 (it'.batch.map (rowPair it.schema)) with
    | error e =>
      rw [scanDelivery_of_error hfill]
      refine popped_readRows_error hok hs hm' hn.le ?_
      rw [hmark, hu, hschema]; exact hfill
    | ok p =>
      obtain ⟨c, r⟩ := p
      rw [scanDelivery_of_ok hne' hfill, List.length_map, ← ht, ← hmark, hfull, ← hschema]
      refine popped_readRows hok hs hm' hn.le ?_
      rw [hmark, hu, hschema]; exact hfill

/-- One call of `IteratorNext` hands out the next chunk, or reports how the delivery ends. -/
theorem Reading.next (h : it.Reading d) : Popped d (it.iteratorNext openScan tablePtr) := by
  obtain ⟨⟨s, hs, rfl⟩, hm, hb⟩ := h
  have hnext : it.iteratorNext openScan tablePtr = it.nextFrom s := by
    unfold iteratorNext createScanner; simp only [hs]
  rw [hnext]
  unfold nextFrom
  split_ifs with h1 h2 h3
  · obtain ⟨e, hst⟩ := Status.not_ok_iff.1 h1
    rw [remaining_of_error hst]
    exact .stopped Exit.noConfusion hst (fun _ => rfl) ⟨⟨s, hs, remaining_of_error hst⟩, hm, hb⟩
  · have hok := Status.ok_iff.1 (eq_true_of_ne_false h1)
    have hfull : it.full it.totalRowCount = true := decide_eq_true h2
    have hd : it.remaining s.replies = .done := by
      rw [remaining_of_ok hok, restDelivery, if_pos hfull]
    rw [hd]
    exact .stopped Exit.noConfusion hok (fun _ => rfl) ⟨⟨s, hs, hd⟩, hm, hb⟩
  · -- the batch is read: what is left is what the scanner has left
    have hok := Status.ok_iff.1 (eq_true_of_ne_false h1)
    have hfull : ¬ it.full it.totalRowCount = true := mt of_decide_eq_true h2
    rw [remaining_of_ok hok, unread_eq_nil h3, restDelivery, if_neg hfull, List.map_nil, batchDelivery_nil,
      Delivery.done_append]
    have hfetch := @nextBatches_fetched { it with batchRowCount := 0, currentRowCount := 0 } s s.replies
      it.highWaterMark hok rfl rfl
    exact popped_fetched hm hfetch nextBatches_frame
  · have hok := Status.ok_iff.1 (eq_true_of_ne_false h1)
    have hfull : ¬ it.full it.totalRowCount = true := mt of_decide_eq_true h2
    have hne : it.unread.map (rowPair it.schema) ≠ [] :=
      mt List.map_eq_nil_iff.1 (unread_ne_nil hb (Nat.lt_of_not_le h3))
    rw [remaining_of_ok hok, restDelivery, if_neg hfull]
    cases hf : fill pairSize it.highWaterMark 0 (it.unread.map (rowPair it.schema)) with
    | error e =>
      rw [batchDelivery_of_error hf, Delivery.fail_append]
      exact popped_readRows_error hok hs hm hb hf
    | ok p =>
      obtain ⟨c, r⟩ := p
      have hrest := popped_readRows hok hs hm hb hf
      rw [restDelivery, if_neg hfull] at hrest
      rw [batchDelivery_of_ok hne hm hf, Delivery.cons_append]
      exact hrest

end Iterator

end Kududown
