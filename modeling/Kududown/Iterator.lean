import Kududown.SliceAsString

/-!
# The iterator

`Iterator::New` with its options, the constructor, `CreateScanner` and `IteratorNext`. The scanner is opened
by the first `IteratorNext`, and an `Open` that failed is tried again by the next one. Both `while` loops of
`IteratorNext` are recursions: `nextBatches` over the replies of the scanner, `readRows` over the rows of
the batch that are still to be read.
-/

namespace Kududown

/-- The callback an `EndWorker` holds: one given by JS, or `EmptyMethod`. -/
inductive EndCallback
  | js (call : Nat)
  | EmptyMethod
deriving DecidableEq

structure Iterator where
  id : Nat
  keys : Bool
  values : Bool
  limit : Int -- -1 is unlimited, otherwise this is a row limit
  lt : Option Slice
  lte : Option Slice
  gt : Option Slice
  gte : Option Slice
  keyAsBuffer : Bool
  valueAsBuffer : Bool
  highWaterMark : Nat
  batchRowCount : Nat := 0
  currentRowCount : Nat := 0
  totalRowCount : Nat := 0
  nexting : Bool := false
  ended : Bool := false
  endWorker : Option EndCallback := none
  iteratorStatus : Status := .OK
  scanner : Option KuduScanner := none
  batch : List RowPtr := []
  schema : KuduSchema := ⟨[]⟩

/-! ### Construction -/

/-- `Value::Int32Value`, and the narrowing of a wider integer to `int`. -/
def toInt32 (x : Int) : Int := x.bmod (2 ^ 32)

/-- The narrowing of a wider integer to `uint32_t`. -/
def toUint32 (x : Int) : Nat := (x % (2 ^ 32 : Nat)).toNat

/-- The value of a bound option: a string (its UTF-8), a buffer, or neither. -/
inductive BoundValue
  | string (utf8 : Slice)
  | buffer (data : Slice)
  | other
deriving DecidableEq

/-- The options object, with the properties it has. The two numbers are what `Integer::Value()` reads, an
`int64_t` each. -/
structure IteratorOptions where
  limit : Option Int64 := none
  highWaterMark : Option Int64 := none
  lt : Option BoundValue := none
  lte : Option BoundValue := none
  gt : Option BoundValue := none
  gte : Option BoundValue := none
  keys : Option Bool := none
  values : Option Bool := none
  keyAsBuffer : Option Bool := none
  valueAsBuffer : Option Bool := none
deriving DecidableEq

/-- A bound is copied when it is a string or a buffer of positive length. -/
def boundOption : Option BoundValue → Option Slice
  | some (.string s) => if s.length > 0 then some s else none
  | some (.buffer s) => if s.length > 0 then some s else none
  | _ => none

/-- `Iterator::New` and the constructor. -/
def Iterator.new (id : Nat) (options : IteratorOptions) : Iterator where
  id := toUint32 (toInt32 id)
  keys := options.keys.getD true
  values := options.values.getD true
  limit := (options.limit.map fun limit => toInt32 limit.toInt).getD (-1)
  lt := boundOption options.lt
  lte := boundOption options.lte
  gt := boundOption options.gt
  gte := boundOption options.gte
  keyAsBuffer := options.keyAsBuffer.getD true
  valueAsBuffer := options.valueAsBuffer.getD true
  highWaterMark := toUint32 (options.highWaterMark.getD (16 * 1024)).toInt

theorem toUint32_toInt32 {id : Nat} (h : id < 2 ^ 32) : toUint32 (toInt32 id) = id := by
  unfold toUint32 toInt32
  have hmod : ((id : Int).bmod (2 ^ 32)) % ((2 ^ 32 : Nat) : Int) = id % ((2 ^ 32 : Nat) : Int) := Int.bmod_emod
  omega

theorem Iterator.new_id {id : Nat} (options : IteratorOptions) (h : id < 2 ^ 32) : (new id options).id = id := by
  simpa only [new] using toUint32_toInt32 h

/-! ### Reading -/

/-- The return statements of `IteratorNext`. -/
inductive Exit
  | openFailed | statusNotOk | limitReached | nextBatchFailed | nothingLeft | keyFailed | valueFailed | rows
deriving DecidableEq

/-- What a call of `IteratorNext` leaves behind: where it returned, the iterator, and the rows pushed to
`result`. -/
structure NextResult where
  exit : Exit
  iterator : Iterator
  result : List (Slice × Slice)

namespace NextResult

/-- The value returned: only the last return statement returns true. -/
def ret (r : NextResult) : Bool := r.exit = .rows

def status (r : NextResult) : Status := r.iterator.iteratorStatus

end NextResult

/-- What an executed worker will report: its `result` and `ok`, or the error message that was set. -/
inductive Report
  | ok (result : List (Slice × Slice)) (ok : Bool)
  | error (e : Failure)
deriving DecidableEq

def Report.isOk : Report → Bool
  | ok _ _ => true
  | error _ => false

/-- `NextWorker::Execute`: the status is looked at only when `IteratorNext` returned false. -/
def NextResult.report (r : NextResult) : Report :=
  if r.ret then .ok r.result true
  else
    match r.status with
    | .OK => .ok r.result false
    | .error e => .error e

namespace Iterator

/-- `Iterator::CreateScanner`: false if the scanner is already created or cannot be. -/
def createScanner (openScan : ScanSpec → OpenReply) (tablePtr : Option KuduTable) (it : Iterator) :
    Bool × Iterator :=
  match it.scanner with
  | some _ => (false, it)
  | none =>
    let scanner := (KuduScanner.new tablePtr).SetBatchSizeBytes it.highWaterMark
    match openScan scanner.spec with
    | .error e => (false, { it with iteratorStatus := .error e })
    | .ok (schema, replies) =>
      (true, { it with iteratorStatus := .OK, scanner := some { scanner with replies }, schema, batch := [] })

/-- `while (scanner->HasMoreRows() && batchRowCount == 0)`; false when `NextBatch` failed. -/
def nextBatches (it : Iterator) (scanner : KuduScanner) : List BatchReply → Bool × Iterator
  | [] => (true, { it with scanner := some { scanner with replies := [] } })
  | .error e :: _ =>
    (false, { it with iteratorStatus := .error e, scanner := some scanner.Close, nexting := false })
  | .ok rows :: replies =>
    let it := { it with
      iteratorStatus := .OK
      nexting := true
      batch := rows
      batchRowCount := rows.length
      totalRowCount := it.totalRowCount + rows.length }
    if it.batchRowCount = 0 then it.nextBatches scanner replies
    else (true, { it with scanner := some { scanner with replies } })

/-- `while (size < highWaterMark && currentRowCount < batchRowCount)`, on the rows from `currentRowCount` to
`batchRowCount`. -/
def readRows (it : Iterator) (size : Nat) (result : List (Slice × Slice)) : List RowPtr → NextResult
  | [] => ⟨.rows, { it with nexting := true }, result⟩
  | row :: rows =>
    if size < it.highWaterMark then
      let it := { it with currentRowCount := it.currentRowCount + 1 }
      match getSliceAsString row (it.schema.type 0) 0 [] with
      | (.error e, _) => ⟨.keyFailed, { it with iteratorStatus := .error e, nexting := false }, result⟩
      | (.OK, key) =>
        match getSliceAsString row (it.schema.type 1) 1 [] with
        | (.error e, _) => ⟨.valueFailed, { it with iteratorStatus := .error e, nexting := false }, result⟩
        | (.OK, value) =>
          readRows { it with iteratorStatus := .OK } (size + (key.length + value.length))
            (result ++ [(key, value)]) rows
    else ⟨.rows, { it with nexting := true }, result⟩

def unread (it : Iterator) : List RowPtr := (it.batch.take it.batchRowCount).drop it.currentRowCount

def processBatch : Bool × Iterator → NextResult
  | (false, it) => ⟨.nextBatchFailed, it, []⟩
  | (true, it) =>
    -- nothing left to read
    if it.batchRowCount = 0 then ⟨.nothingLeft, { it with nexting := false }, []⟩
    else it.readRows 0 [] it.unread

/-- `IteratorNext` with an open scanner. -/
def nextFrom (it : Iterator) (scanner : KuduScanner) : NextResult :=
  if it.iteratorStatus.ok = false then ⟨.statusNotOk, { it with nexting := false }, []⟩
  else if it.limit > 0 ∧ (it.totalRowCount : Int) ≥ it.limit then
    ⟨.limitReached, { it with nexting := false }, []⟩
  else if it.currentRowCount ≥ it.batchRowCount then
    processBatch
      (nextBatches { it with batchRowCount := 0, currentRowCount := 0 } scanner scanner.replies)
  else it.readRows 0 [] it.unread

/-- `Iterator::IteratorNext`. A scanner that cannot be opened returns before `nexting` is touched. -/
def iteratorNext (openScan : ScanSpec → OpenReply) (tablePtr : Option KuduTable) (it : Iterator) : NextResult :=
  let it := (it.createScanner openScan tablePtr).2
  match it.scanner with
  | none => ⟨.openFailed, it, []⟩
  | some scanner => it.nextFrom scanner

/-! ### What a call leaves behind -/

/-- `it'` is `it` as far as reading does not change it. -/
structure Frame (it it' : Iterator) : Prop where
  id : it'.id = it.id
  limit : it'.limit = it.limit
  highWaterMark : it'.highWaterMark = it.highWaterMark
  ended : it'.ended = it.ended
  endWorker : it'.endWorker = it.endWorker

variable {it it' it'' : Iterator} {openScan : ScanSpec → OpenReply} {tablePtr : Option KuduTable}
  {scanner : KuduScanner} {replies : List BatchReply} {size : Nat} {result : List (Slice × Slice)}
  {rows : List RowPtr}

theorem Frame.refl (it : Iterator) : it.Frame it := ⟨rfl, rfl, rfl, rfl, rfl⟩

theorem Frame.trans (h : it.Frame it') (h' : it'.Frame it'') : it.Frame it'' :=
  ⟨h'.id.trans h.id, h'.limit.trans h.limit, h'.highWaterMark.trans h.highWaterMark,
    h'.ended.trans h.ended, h'.endWorker.trans h.endWorker⟩

theorem Frame.after (h' : it'.Frame it'') (h : it.Frame it') : it.Frame it'' := h.trans h'

theorem createScanner_frame : it.Frame (it.createScanner openScan tablePtr).2 := by
  unfold createScanner
  split
  · exact .refl it
  · dsimp only
    split <;> exact ⟨rfl, rfl, rfl, rfl, rfl⟩

theorem nextBatches_frame : it.Frame (it.nextBatches scanner replies).2 := by
  induction replies generalizing it with
  | nil => exact ⟨rfl, rfl, rfl, rfl, rfl⟩
  | cons reply replies ih =>
    rcases reply with e | rows
    · exact ⟨rfl, rfl, rfl, rfl, rfl⟩
    · unfold nextBatches
      dsimp only
      split_ifs
      · exact .after ih ⟨rfl, rfl, rfl, rfl, rfl⟩
      · exact ⟨rfl, rfl, rfl, rfl, rfl⟩

theorem readRows_frame : it.Frame (it.readRows size result rows).iterator := by
  induction rows generalizing it size result with
  | nil => exact ⟨rfl, rfl, rfl, rfl, rfl⟩
  | cons row rows ih =>
    unfold readRows
    dsimp only
    split_ifs
    · split
      · exact ⟨rfl, rfl, rfl, rfl, rfl⟩
      · split
        · exact ⟨rfl, rfl, rfl, rfl, rfl⟩
        · exact .after ih ⟨rfl, rfl, rfl, rfl, rfl⟩
    · exact ⟨rfl, rfl, rfl, rfl, rfl⟩

theorem processBatch_frame {p : Bool × Iterator} : p.2.Frame (processBatch p).iterator := by
  obtain ⟨b, it⟩ := p
  rcases b with _ | _
  · exact .refl it
  · unfold processBatch
    dsimp only
    split_ifs
    · exact ⟨rfl, rfl, rfl, rfl, rfl⟩
    · exact readRows_frame

theorem nextFrom_frame : it.Frame (it.nextFrom scanner).iterator := by
  unfold nextFrom
  split_ifs
  · exact ⟨rfl, rfl, rfl, rfl, rfl⟩
  · exact ⟨rfl, rfl, rfl, rfl, rfl⟩
  · exact .after (.after processBatch_frame nextBatches_frame) ⟨rfl, rfl, rfl, rfl, rfl⟩
  · exact readRows_frame

theorem iteratorNext_frame : it.Frame (it.iteratorNext openScan tablePtr).iterator := by
  unfold iteratorNext
  dsimp only
  split
  · exact createScanner_frame
  · exact createScanner_frame.trans nextFrom_frame

end Iterator

def Exit.isOk : Exit → Bool
  | .rows | .nothingLeft | .limitReached => true
  | _ => false

/-- `nexting` after a call that found it to be `b`. -/
def Exit.nexting (b : Bool) : Exit → Bool
  | .rows => true
  | .openFailed => b
  | _ => false

/-- What the return statement says about the fields written on the way to it. -/
structure NextResult.Left (b : Bool) (r : NextResult) : Prop where
  nexting : r.iterator.nexting = r.exit.nexting b
  status : r.status.ok = r.exit.isOk

theorem NextResult.Left.report {b : Bool} {r : NextResult} (h : r.Left b) : r.report.isOk = r.exit.isOk := by
  unfold NextResult.report
  split_ifs with hret
  · rw [of_decide_eq_true hret]; rfl
  · rw [← h.status]
    cases r.status <;> rfl

namespace Iterator
variable {it it' : Iterator} {openScan : ScanSpec → OpenReply} {tablePtr : Option KuduTable}
  {scanner : KuduScanner} {replies : List BatchReply} {size : Nat} {result : List (Slice × Slice)}
  {rows : List RowPtr} {b : Bool}

theorem readRows_left (h : it.iteratorStatus = .OK) : (it.readRows size result rows).Left b := by
  induction rows generalizing it size result with
  | nil => exact ⟨rfl, Status.ok_iff.2 h⟩
  | cons row rows ih =>
    unfold readRows
    dsimp only
    split_ifs
    · split
      · exact ⟨rfl, rfl⟩
      · split
        · exact ⟨rfl, rfl⟩
        · exact ih rfl
    · exact ⟨rfl, Status.ok_iff.2 h⟩

theorem nextBatches_status (h : it.iteratorStatus = .OK) :
    (it.nextBatches scanner replies).2.iteratorStatus.ok = (it.nextBatches scanner replies).1 ∧
      ((it.nextBatches scanner replies).1 = false → (it.nextBatches scanner replies).2.nexting = false) := by
  induction replies generalizing it with
  | nil => exact ⟨Status.ok_iff.2 h, fun h => by cases h⟩
  | cons reply replies ih =>
    rcases reply with e | rows
    · exact ⟨rfl, fun _ => rfl⟩
    · unfold nextBatches
      dsimp only
      split_ifs
      · exact ih rfl
      · exact ⟨rfl, fun h => by cases h⟩

theorem processBatch_left {p : Bool × Iterator} (h : p.2.iteratorStatus.ok = p.1)
    (hn : p.1 = false → p.2.nexting = false) : (processBatch p).Left b := by
  obtain ⟨ok, it⟩ := p
  rcases ok with _ | _
  · exact ⟨hn rfl, h⟩
  · unfold processBatch
    dsimp only
    split_ifs
    · exact ⟨rfl, h⟩
    · exact readRows_left (Status.ok_iff.1 h)

theorem nextFrom_left : (it.nextFrom scanner).Left b := by
  unfold nextFrom
  split_ifs with h1 h2 h3
  · exact ⟨rfl, h1⟩
  · exact ⟨rfl, eq_true_of_ne_false h1⟩
  · have hok : it.iteratorStatus = .OK := Status.ok_iff.1 (eq_true_of_ne_false h1)
    have hs := @nextBatches_status { it with batchRowCount := 0, currentRowCount := 0 } scanner
      scanner.replies hok
    exact processBatch_left hs.1 hs.2
  · exact readRows_left (Status.ok_iff.1 (eq_true_of_ne_false h1))

theorem createScanner_none (h : (it.createScanner openScan tablePtr).2.scanner = none) :
    (it.createScanner openScan tablePtr).2.iteratorStatus.ok = false ∧
      (it.createScanner openScan tablePtr).2.nexting = it.nexting := by
  unfold createScanner at h ⊢
  split at h
  · next hs => rw [hs] at h; cases h
  · dsimp only at h ⊢
    split at h
    · exact ⟨rfl, rfl⟩
    · cases h

theorem iteratorNext_left : (it.iteratorNext openScan tablePtr).Left it.nexting := by
  unfold iteratorNext
  dsimp only
  split
  · next h => exact ⟨(createScanner_none h).2, (createScanner_none h).1⟩
  · exact nextFrom_left

end Iterator

end Kududown
