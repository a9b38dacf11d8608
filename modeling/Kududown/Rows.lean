import Kududown.CallsLog
import Kududown.KeyValue

/-!
# Serving requests row by row

The table as a backend, whose calls may fail. Of the calls of the client library that `PutToDatabase` and
`DeleteFromDatabase` make only `Apply` touches the table, and Kudu is taken to write a row at one moment, so each is one
step, before and after which other requests take theirs. `GetFromDatabase` is taken to read its row at one moment
between its call of `Open` and its last one of `NextBatch`. The `Flush` of a batch is not atomic: it writes one row
after the other, and rows of other requests may be written and read in between. A write that fails was made when it is
reported, or never. `Row.Answers` says what each step has to come back with after the steps before it, whoever took
them, and `answers_work` that it does. Left alone a batch does what `WriteBatchToDatabase` does (`flush_alone`).
-/

namespace Kududown

/-! ### Failures -/

/-- What fails in a session: a `SetString`, by its column, or `Apply`, the row having been written or not. -/
structure Faults where
  SetString : Nat → Option Failure := fun _ => none
  Apply : Option (Failure × Bool) := none

namespace Faults

/-- Nothing fails in a write of this many columns. -/
def ok (faults : Faults) (columns : Nat) : Bool :=
  (List.range columns).all (fun i => (faults.SetString i).isNone) && faults.Apply.isNone

/-- A write of this many columns is made all the same. -/
def made (faults : Faults) (columns : Nat) : Bool :=
  (List.range columns).all (fun i => (faults.SetString i).isNone) && faults.Apply.all (·.2)

end Faults

/-- The scanner when `Open` comes back with `opened`. -/
def ScanService.opening (scan : ScanService) (opened : Status) : ScannerClient ScanState :=
  { scan.scanner with
    Open := fun s =>
      match opened with
      | .OK => scan.scanner.Open s
      | .error e => (.error e, s) }

namespace TableService

/-- The client of the table. -/
def failing (svc : TableService) (faults : Faults) : KuduClient TableState :=
  { svc.client with
    SetString := fun row i value s =>
      match faults.SetString i with
      | some e => ((.error e, row), s)
      | none => svc.client.SetString row i value s
    Apply := fun w s =>
      match faults.Apply with
      | some (e, made) => (.error e, if made then (svc.client.Apply w s).2 else s)
      | none => svc.client.Apply w s }

def failingDatabase (svc : TableService) (tablePtr : KuduTable) (tableStatus : Status) (faults : Faults) :
    Database TableState :=
  ⟨some (svc.failing faults), some tablePtr, tableStatus⟩

/-- A buffered write; `fault` says that it fails, and whether it is made all the same. -/
def writeRow (svc : TableService) (table : Table) (fault : Option Bool) (w : KuduWriteOperation) : Bool × Table :=
  match fault with
  | none => svc.write table w
  | some made => (false, if made then (svc.write table w).2 else table)

end TableService

/-! ### Requests -/

/-- What is done to the table in one step, with what fails in it. -/
inductive Row
  | put (key value : Slice) (faults : Faults) (st : Status)
  | del (key : Slice) (faults : Faults) (st : Status)
  | get (key : Slice) (opened st : Status) (value : Slice)
  | batched (w : KuduWriteOperation) (fault : Option Bool) (ok : Bool)
  | nothing

/-- A request that is being served. -/
inductive Serving
  | todo (req : Request)
  | flushing (ok : Bool) (ws : List KuduWriteOperation)
  | done (st : Status) (value : Slice)

/-- The write that the session is given for an operation of a batch. -/
def BatchOp.kuduWrite (op : BatchOp) : KuduWriteOperation :=
  ⟨if op.op = 'p' then .UPSERT else .DELETE, TableService.setAll .empty 0 op.keys⟩

/-- The request writes the row with this key. -/
def Request.Writes (k : Slice) : Request → Prop
  | put key _ | del key => key = k
  | batch b => ∃ op ∈ b.ops, op.kuduWrite.row.get? 0 = some k
  | get _ | nothing => False

namespace TableService

/-- One step on the table. Every request opens a session of its own. A `SetString` that fails in a batch leads to the
`Flush` of the operations before it, an `Apply` that fails to none. -/
inductive Work (svc : TableService) (tablePtr : KuduTable) (tableStatus : Status) (valueName : String) :
    Table → Serving → Row → Table → Serving → Prop
  | put {table : Table} (key value : Slice) (faults : Faults) :
      Work svc tablePtr tableStatus valueName table (.todo (.put key value))
      (.put key value faults ((svc.failingDatabase tablePtr tableStatus faults).putToDatabase key value { table }).1)
      ((svc.failingDatabase tablePtr tableStatus faults).putToDatabase key value { table }).2.table
      (.done ((svc.failingDatabase tablePtr tableStatus faults).putToDatabase key value { table }).1 [])
  | del {table : Table} (key : Slice) (faults : Faults) :
      Work svc tablePtr tableStatus valueName table (.todo (.del key))
      (.del key faults ((svc.failingDatabase tablePtr tableStatus faults).deleteFromDatabase key { table }).1)
      ((svc.failingDatabase tablePtr tableStatus faults).deleteFromDatabase key { table }).2.table
      (.done ((svc.failingDatabase tablePtr tableStatus faults).deleteFromDatabase key { table }).1 [])
  | get {table : Table} {key value : Slice} {opened st : Status} {scan : ScanService} {s' : ScanState}
      (hscan : Reads valueName table { scan with fail := fun _ => none })
      (hget : (svc.database tablePtr tableStatus).GetReturns (scan.opening opened) key [] {} ((st, value), s')) :
      Work svc tablePtr tableStatus valueName table (.todo (.get key)) (.get key opened st value) table (.done st value)
  | flush {table : Table} (b : WriteBatch) {ws : List KuduWriteOperation} (hws : ws <+: b.ops.map BatchOp.kuduWrite) :
      Work svc tablePtr tableStatus valueName table (.todo (.batch b)) .nothing table (.flushing true ws)
  | refused {table : Table} (b : WriteBatch) (e : Failure) :
      Work svc tablePtr tableStatus valueName table (.todo (.batch b)) .nothing table (.done (.error e) [])
  | batched {table : Table} (ok : Bool) (fault : Option Bool) (w : KuduWriteOperation) (ws : List KuduWriteOperation) :
      Work svc tablePtr tableStatus valueName table (.flushing ok (w :: ws))
      (.batched w fault (svc.writeRow table fault w).1) (svc.writeRow table fault w).2
      (.flushing (ok && (svc.writeRow table fault w).1) ws)
  | flushed {table : Table} (ok : Bool) (e : Failure) : Work svc tablePtr tableStatus valueName table (.flushing ok [])
      .nothing table (.done (status ok e) [])
  | nothing {table : Table} : Work svc tablePtr tableStatus valueName table (.todo .nothing) .nothing table (.done .OK [])

def backend (svc : TableService) (tablePtr : KuduTable) (tableStatus : Status) (valueName : String) :
    Backend Table Serving Row where
  start := .todo
  Work := svc.Work tablePtr tableStatus valueName
  result
    | .done st value => some (st, value)
    | _ => none
  ToString := svc.ToString

end TableService

/-! ### Answers -/

namespace Row

/-- The row that is written, if the write is made. -/
def target : Row → Option Slice
  | put key _ faults _ => if faults.made 2 then some key else none
  | del key faults _ => if faults.made 1 then some key else none
  | batched w fault _ => if fault.getD true then w.row.get? 0 else none
  | get _ _ _ _ | nothing => none

/-- What a write makes of the cell of its row, `none` being no row. -/
def cell (dflt : Option Slice) (old : Option (Option Slice)) : Row → Option (Option Slice)
  | put _ value _ _ => some (some value)
  | del _ _ _ => none
  | batched w _ _ =>
    match w.type with
    | .UPSERT => some ((w.row.get? 1).elim (old.getD dflt) some)
    | .DELETE => none
  | get _ _ _ _ | nothing => old

/-- The cell of a key after the steps, from an empty table on. -/
def cellAfter (dflt : Option Slice) (k : Slice) (rows : List Row) : Option (Option Slice) :=
  rows.foldl (fun old row => if row.target = some k then row.cell dflt old else old) none

/-- What the step has to come back with after the steps `pre`. In a batch the deletion of an absent row fails. A
deletion that Kudu fails may come back as a success. -/
def Answers (dflt : Option Slice) (pre : List Row) : Row → Prop
  | put _ _ faults st => st = .OK ↔ faults.ok 2
  | del _ faults st => faults.ok 1 → st = .OK
  | get key .OK st value =>
    match cellAfter dflt key pre with
    | some cell => st = .OK ∧ value = cell.getD []
    | none => ∃ msg, st = .error ⟨.NotFound, msg⟩
  | get _ (.error e) st _ => st = .error e
  | batched w fault ok =>
    ok = true ↔ fault = none ∧ (w.type = .DELETE → ∀ k, w.row.get? 0 = some k → (cellAfter dflt k pre).isSome = true)
  | nothing => True

variable {dflt : Option Slice} {k : Slice} {pre rows : List Row} {row : Row}

theorem cellAfter_concat : cellAfter dflt k (pre ++ [row]) =
    if row.target = some k then row.cell dflt (cellAfter dflt k pre) else cellAfter dflt k pre := by
  unfold cellAfter
  rw [List.foldl_concat]

end Row

namespace TableService
open Row
variable {svc : TableService} {tablePtr : KuduTable} {tableStatus : Status} {valueName : String} {table table' : Table}
  {p p' : Serving} {row : Row} {pre : List Row} {key k : Slice} {scan : ScanService} {req : Request} {es : List Row}

/-- The table holds what the steps so far have left. -/
def HoldsRows (svc : TableService) (rows : List Row) (table : Table) : Prop :=
  ∀ k, table.get? k = cellAfter svc.defaultValue k rows

theorem get?_write_cell {w : KuduWriteOperation} (ok : Bool) : (svc.write table w).2.get? k =
    if w.row.get? 0 = some k then (Row.batched w none ok).cell svc.defaultValue (table.get? k) else table.get? k := by
  unfold write Row.cell
  dsimp only
  rcases hkey : w.row.get? 0 with _ | key
  · rfl
  · by_cases hk : key = k
    · subst hk
      rw [if_pos rfl]
      cases w.type with
      | UPSERT => exact OrdMap.get?_insert_self
      | DELETE => exact OrdMap.get?_erase_self
    · rw [if_neg fun heq => hk (Option.some.inj heq)]
      cases w.type with
      | UPSERT => exact OrdMap.get?_insert_of_ne (Ne.symm hk)
      | DELETE => exact OrdMap.get?_erase_of_ne (Ne.symm hk)

theorem get?_writeRow {w : KuduWriteOperation} {fault : Option Bool} {ok : Bool} :
    (svc.writeRow table fault w).2.get? k = if (Row.batched w fault ok).target = some k then
      (Row.batched w fault ok).cell svc.defaultValue (table.get? k) else table.get? k := by
  rcases fault with _ | made
  · exact get?_write_cell ok
  · cases made with
    | false => simp [writeRow, Row.target]
    | true => exact get?_write_cell ok

theorem write_ok {w : KuduWriteOperation} : (svc.write table w).1 = true ↔
    w.type = .DELETE → ∀ k, w.row.get? 0 = some k → (table.get? k).isSome = true := by
  unfold write
  cases w.row.get? 0 with
  | none => simp
  | some key => cases w.type <;> simp

theorem writeRow_ok {w : KuduWriteOperation} {fault : Option Bool} : (svc.writeRow table fault w).1 = true ↔
    fault = none ∧ (w.type = .DELETE → ∀ k, w.row.get? 0 = some k → (table.get? k).isSome = true) := by
  cases fault with
  | none => exact write_ok.trans (and_iff_right rfl).symm
  | some made => exact iff_of_false Bool.noConfusion fun h => by cases h.1

/-! ### One step -/

/-- A `put` whose calls may fail. -/
theorem put_failing {value : Slice} {faults : Faults} :
    ((svc.failingDatabase tablePtr tableStatus faults).putToDatabase key value { table }).2.table =
        (if faults.made 2 then table.insert key (some value) else table) ∧
      (((svc.failingDatabase tablePtr tableStatus faults).putToDatabase key value { table }).1 = .OK ↔ faults.ok 2) := by
  obtain ⟨setString, apply⟩ := faults
  unfold Database.putToDatabase failingDatabase failing Faults.made Faults.ok
  rcases h₀ : setString 0 with _ | e₀
  · rcases h₁ : setString 1 with _ | e₁
    · rcases apply with _ | ⟨e, made⟩
      · simp [h₀, h₁, List.range_succ, client, KuduTable.NewUpsert, write, OrdMap.get?_insert, status]
      · cases made <;>
          simp [h₀, h₁, List.range_succ, client, KuduTable.NewUpsert, write, OrdMap.get?_insert, status]
    · simp [h₀, h₁, List.range_succ, client, KuduTable.NewUpsert]
  · simp [h₀, List.range_succ, client, KuduTable.NewUpsert]

/-- A `del` whose calls may fail. -/
theorem del_failing {faults : Faults} (habsent : "key not found".toList <:+: (svc.ToString svc.absent).toList) :
    ((svc.failingDatabase tablePtr tableStatus faults).deleteFromDatabase key { table }).2.table =
        (if faults.made 1 then table.erase key else table) ∧
      (faults.ok 1 → ((svc.failingDatabase tablePtr tableStatus faults).deleteFromDatabase key { table }).1 = .OK) := by
  have htable := @del_client_table svc tablePtr tableStatus { table } key
  have hstatus := @del_client_status svc tablePtr tableStatus { table } key habsent
  obtain ⟨setString, apply⟩ := faults
  unfold Faults.made Faults.ok
  rcases h₀ : setString 0 with _ | e₀
  · rcases apply with _ | ⟨e, made⟩
    · have hsame : (svc.failingDatabase tablePtr tableStatus ⟨setString, none⟩).deleteFromDatabase key { table } =
          (svc.database tablePtr tableStatus).deleteFromDatabase key { table } := by
        unfold Database.deleteFromDatabase failingDatabase failing database
        simp only [h₀]
      rw [hsame, htable]
      exact ⟨by simp [h₀], fun _ => hstatus⟩
    · refine ⟨?_, by simp⟩
      unfold Database.deleteFromDatabase failingDatabase failing
      cases made <;> simp [h₀, List.range_succ, client, KuduTable.NewDelete, write, status, writeAll] <;> split_ifs <;> rfl
  · unfold Database.deleteFromDatabase failingDatabase failing
    simp [h₀, List.range_succ, client, KuduTable.NewDelete]

/-- A scan in which nothing fails. -/
theorem work_get {value : Slice} {st : Status} {s' : ScanState} (h : Reads valueName table scan)
    (hget : (svc.database tablePtr tableStatus).GetReturns scan.scanner key [] {} ((st, value), s')) :
    svc.Work tablePtr tableStatus valueName table (.todo (.get key)) (.get key .OK st value) table (.done st value) :=
  @Work.get svc tablePtr tableStatus valueName table key value .OK st scan s'
    ⟨⟨h.scans.batches, fun _ => rfl⟩, h.schema, h.accepts⟩ hget

/-- A scan that sees the same row over and over reads its value. -/
theorem readValue_same {schema : KuduSchema} {row : RowPtr} {seen : List RowPtr} (hne : seen ≠ [])
    (hsame : ∀ r ∈ seen, r = row) : readValue schema [] seen = readValue schema [] [row] := by
  obtain ⟨rows, last, rfl⟩ := List.eq_nil_or_concat seen |>.resolve_left hne
  unfold readValue
  rw [List.concat_eq_append, List.foldl_append, hsame last (by simp)]
  rfl

/-- A `get` that returns has read the cell of its row, a NULL one being read as empty, however often `NextBatch` has
failed. -/
theorem get_cell {value : Slice} {st : Status} {s' : ScanState} {σ : Type} {writer : KuduClient σ}
    (h : Reads valueName table { scan with fail := fun _ => none })
    (hget : (⟨some writer, some tablePtr, tableStatus⟩ : Database σ).GetReturns scan.scanner key [] {} ((st, value), s')) :
    st = ((table.get? key).elim (.error (scan.notFound key)) fun _ => .OK) ∧
      value = ((table.get? key).bind id).getD [] := by
  obtain ⟨fuel, hget⟩ := hget
  rw [ScanService.getFromDatabase_scanner] at hget
  obtain ⟨⟨⟨num_rows, value'⟩, s''⟩, hread, heq⟩ := Option.map_eq_some_iff.1 hget
  obtain ⟨seen, hx, hall, hseen⟩ := ScanService.readRows_seen hread
  obtain ⟨rfl, rfl⟩ := Prod.mk.inj hx
  obtain ⟨hst, hvalue⟩ := Prod.mk.inj (Prod.mk.inj heq).1
  rw [← hst, ← hvalue]
  have hscan : ({ scan with fail := fun _ => none }.scanFor key).flatten = _ := flatten_scanFor h
  replace hscan : (scan.scanFor key).flatten = (table.get? key).toList.map (cellRow key) := hscan
  dsimp only at hall hseen
  rw [hscan] at hall hseen
  rcases hcell : table.get? key with _ | cell
  · rw [hcell] at hseen
    have hnil : seen = [] := List.eq_nil_iff_forall_not_mem.2 fun row hrow => by simpa using hseen row hrow
    rw [hnil]
    exact ⟨rfl, rfl⟩
  · rw [hcell] at hseen hall
    have hsame : ∀ row ∈ seen, row = cellRow key cell := fun row hrow => by simpa using hseen row hrow
    have hne : seen ≠ [] := List.ne_nil_of_mem (hall (List.mem_singleton_self (cellRow key cell)))
    have hlen : 0 + seen.length ≠ 0 := by
      rw [Nat.zero_add]
      exact mt List.length_eq_zero_iff.1 hne
    rw [if_neg hlen, readValue_same hne hsame]
    refine ⟨rfl, ?_⟩
    unfold readValue
    rw [h.schema]
    cases cell <;> rfl

theorem HoldsRows.concat (hs : svc.HoldsRows pre table) (htable : ∀ k, table'.get? k =
    if row.target = some k then row.cell svc.defaultValue (table.get? k) else table.get? k) :
    svc.HoldsRows (pre ++ [row]) table' := by
  intro k
  rw [cellAfter_concat, htable, hs k]

theorem get?_put {value : Slice} {faults : Faults} {st : Status} :
    (if faults.made 2 then table.insert key (some value) else table).get? k =
      if (Row.put key value faults st).target = some k then
        (Row.put key value faults st).cell svc.defaultValue (table.get? k) else table.get? k := by
  show _ = if (if faults.made 2 = true then some key else none) = some k then some (some value) else _
  by_cases hmade : faults.made 2 = true
  · rw [if_pos hmade, if_pos hmade, OrdMap.get?_insert]
    simp only [Option.some_inj, eq_comm (a := k)]
  · rw [if_neg hmade, if_neg hmade]
    rfl

theorem get?_del {faults : Faults} {st : Status} : (if faults.made 1 then table.erase key else table).get? k =
    if (Row.del key faults st).target = some k then (Row.del key faults st).cell svc.defaultValue (table.get? k)
    else table.get? k := by
  show _ = if (if faults.made 1 = true then some key else none) = some k then none else _
  by_cases hmade : faults.made 1 = true
  · rw [if_pos hmade, if_pos hmade]
    split_ifs with hk
    · rw [Option.some.inj hk]
      exact OrdMap.get?_erase_self
    · exact OrdMap.get?_erase_of_ne fun heq => hk (congrArg some heq.symm)
  · rw [if_neg hmade, if_neg hmade]
    rfl

/-- One step answers rightly, and the table holds what it leaves. -/
theorem answers_work (habsent : "key not found".toList <:+: (svc.ToString svc.absent).toList)
    (hs : svc.HoldsRows pre table) (h : svc.Work tablePtr tableStatus valueName table p row table' p') :
    row.Answers svc.defaultValue pre ∧ svc.HoldsRows (pre ++ [row]) table' := by
  cases h with
  | put key value faults =>
    obtain ⟨htable, hstatus⟩ := @put_failing svc tablePtr tableStatus table key value faults
    rw [htable]
    exact ⟨hstatus, hs.concat fun k => get?_put⟩
  | del key faults =>
    obtain ⟨htable, hstatus⟩ := @del_failing svc tablePtr tableStatus table key faults habsent
    rw [htable]
    exact ⟨hstatus, hs.concat fun k => get?_del⟩
  | @get key value opened st scan s' hscan hget =>
    refine ⟨?_, hs.concat fun k => by simp [Row.target]⟩
    cases opened with
    | OK =>
      obtain ⟨rfl, rfl⟩ := get_cell hscan hget
      unfold Row.Answers
      dsimp only
      rw [← hs key]
      cases table.get? key with
      | none => exact ⟨_, rfl⟩
      | some cell => exact ⟨rfl, rfl⟩
    | error e =>
      obtain ⟨fuel, hget⟩ := hget
      exact (Prod.mk.inj (Prod.mk.inj (Option.some.inj hget)).1).1.symm
  | flush b => exact ⟨trivial, hs.concat fun k => by simp [Row.target]⟩
  | refused b e => exact ⟨trivial, hs.concat fun k => by simp [Row.target]⟩
  | batched ok fault w ws =>
    refine ⟨?_, hs.concat fun k => get?_writeRow⟩
    unfold Row.Answers
    dsimp only
    rw [writeRow_ok]
    simp only [hs _]
  | flushed ok e => exact ⟨trivial, hs.concat fun k => by simp [Row.target]⟩
  | nothing => exact ⟨trivial, hs.concat fun k => by simp [Row.target]⟩

/-! ### What a request has done -/

/-- The steps of a request so far, and how it stands. -/
inductive Did (svc : TableService) : Request → List Row → Serving → Prop
  | todo (req : Request) : Did svc req [] (.todo req)
  | put (key value : Slice) (faults : Faults) (st : Status) :
      Did svc (.put key value) [.put key value faults st] (.done st [])
  | del (key : Slice) (faults : Faults) (st : Status) : Did svc (.del key) [.del key faults st] (.done st [])
  | get (key : Slice) (opened st : Status) (value : Slice) : Did svc (.get key) [.get key opened st value] (.done st value)
  | refused (b : WriteBatch) (e : Failure) : Did svc (.batch b) [.nothing] (.done (.error e) [])
  | flushing {b : WriteBatch} {rows : List (KuduWriteOperation × Option Bool × Bool)} {ws : List KuduWriteOperation}
      (h : rows.map Prod.fst ++ ws <+: b.ops.map BatchOp.kuduWrite) :
      Did svc (.batch b) (.nothing :: rows.map fun r => .batched r.1 r.2.1 r.2.2) (.flushing (rows.all (·.2.2)) ws)
  | flushed {b : WriteBatch} {rows : List (KuduWriteOperation × Option Bool × Bool)}
      (h : rows.map Prod.fst <+: b.ops.map BatchOp.kuduWrite) (e : Failure) :
      Did svc (.batch b) (.nothing :: (rows.map fun r => .batched r.1 r.2.1 r.2.2) ++ [.nothing])
        (.done (status (rows.all (·.2.2)) e) [])
  | nothing : Did svc .nothing [.nothing] (.done .OK [])

theorem Did.work (h : svc.Did req es p) (hw : svc.Work tablePtr tableStatus valueName table p row table' p') :
    svc.Did req (es ++ [row]) p' := by
  cases hw with
  | put key value faults =>
    cases h with
    | todo => exact .put key value faults _
  | del key faults =>
    cases h with
    | todo => exact .del key faults _
  | get hscan hget =>
    cases h with
    | todo => exact .get _ _ _ _
  | flush b hws =>
    cases h with
    | todo => exact @Did.flushing svc b [] _ hws
  | refused b e =>
    cases h with
    | todo => exact .refused b e
  | batched ok fault w ws =>
    cases h with
    | @flushing b rows _ h =>
      have hdid : svc.Did (.batch b)
          (.nothing :: (rows ++ [(w, fault, (svc.writeRow table fault w).1)]).map fun r => .batched r.1 r.2.1 r.2.2)
          (.flushing ((rows ++ [(w, fault, (svc.writeRow table fault w).1)]).all (·.2.2)) ws) :=
        .flushing (by rw [List.map_append, List.append_assoc]; exact h)
      rw [List.map_append, List.all_append] at hdid
      simpa using hdid
  | flushed ok e =>
    cases h with
    | @flushing b rows _ h =>
      rw [List.append_nil] at h
      exact .flushed h e
  | nothing =>
    cases h with
    | todo => exact .nothing

theorem target_batched {w : KuduWriteOperation} {fault : Option Bool} {ok : Bool}
    (h : (Row.batched w fault ok).target = some k) : w.row.get? 0 = some k :=
  (Option.ite_none_right_eq_some.1 h).2

theorem writes_of_mem {b : WriteBatch} {rows : List (KuduWriteOperation × Option Bool × Bool)}
    (hrows : ∀ r ∈ rows, r.1 ∈ b.ops.map BatchOp.kuduWrite) (hrow : row ∈ rows.map fun r => .batched r.1 r.2.1 r.2.2)
    (hk : row.target = some k) : (Request.batch b).Writes k := by
  obtain ⟨r, hr, rfl⟩ := List.mem_map.1 hrow
  obtain ⟨op, hop, heq⟩ := List.mem_map.1 (hrows r hr)
  exact ⟨op, hop, heq ▸ target_batched hk⟩

theorem Did.writes (h : svc.Did req es p) (hrow : row ∈ es) (hk : row.target = some k) : req.Writes k := by
  cases h with
  | todo => cases hrow
  | put | del =>
    rw [List.mem_singleton.1 hrow] at hk
    exact Option.some.inj (Option.ite_none_right_eq_some.1 hk).2
  | get | refused | nothing =>
    rw [List.mem_singleton.1 hrow] at hk
    cases hk
  | @flushing b rows ws h =>
    rcases List.mem_cons.1 hrow with rfl | hrow
    · cases hk
    · exact writes_of_mem (fun r hr => h.subset (List.mem_append_left _ (List.mem_map_of_mem hr))) hrow hk
  | @flushed b rows h e =>
    rcases List.mem_append.1 hrow with hrow | hrow
    · rcases List.mem_cons.1 hrow with rfl | hrow
      · cases hk
      · exact writes_of_mem (fun r hr => h.subset (List.mem_map_of_mem hr)) hrow hk
    · rw [List.mem_singleton.1 hrow] at hk
      cases hk

/-! ### A batch by itself -/

theorem kuduWrite_batchOp (op : Operation) : op.batchOp.kuduWrite = kuduWrite op := by
  cases op <;> rfl

/-- A step when only one request is served. -/
def Alone (svc : TableService) (tablePtr : KuduTable) (tableStatus : Status) (valueName : String)
    (x : Table × Serving) (row : Row) (y : Table × Serving) : Prop :=
  svc.Work tablePtr tableStatus valueName x.1 x.2 row y.1 y.2

theorem flush_rows (ws : List KuduWriteOperation) (ok : Bool) : ∃ rows,
    Run (svc.Alone tablePtr tableStatus valueName) (table, .flushing ok ws) rows
      ((svc.writeAll table ws).2, .flushing (ok && (svc.writeAll table ws).1) []) := by
  induction ws generalizing table ok with
  | nil =>
    refine ⟨[], ?_⟩
    rw [writeAll, Bool.and_true]
    exact .nil _
  | cons w ws ih =>
    have hrow : svc.Alone tablePtr tableStatus valueName (table, .flushing ok (w :: ws))
        (.batched w none (svc.write table w).1) ((svc.write table w).2, .flushing (ok && (svc.write table w).1) ws) :=
      .batched ok none w ws
    obtain ⟨rows, hrun⟩ := @ih (svc.write table w).2 (ok && (svc.write table w).1)
    rw [Bool.and_assoc] at hrun
    exact ⟨_, .cons hrow hrun⟩

theorem setStrings_failing {cols : List Slice} {row : KuduPartialRow} {y : Nat} {s : TableState} (faults : Faults)
    (h : y + cols.length ≤ 2) : (svc.failing faults).setStrings row y cols s = ((true, setAll row y cols), s) ∨
      ∃ row', (svc.failing faults).setStrings row y cols s = ((false, row'), s) := by
  induction cols generalizing row y with
  | nil => exact .inl rfl
  | cons v vs ih =>
    rw [List.length_cons] at h
    unfold KuduClient.setStrings failing
    dsimp only
    rcases faults.SetString y with _ | e
    · have hset : svc.client.SetString row y v s = ((.OK, row.insert y v), s) := if_pos (by omega)
      rw [hset]
      exact ih (by omega)
    · exact .inr ⟨_, rfl⟩

theorem setColumns_failing {op : Operation} {row : KuduPartialRow} {s : TableState} (faults : Faults) :
    (svc.failing faults).setColumns op.batchOp row s = ((true, setAll row 0 op.batchOp.keys), s) ∨
      ∃ row', (svc.failing faults).setColumns op.batchOp row s = ((false, row'), s) := by
  have hlen : 0 + op.batchOp.keys.length ≤ 2 := by
    rw [Nat.zero_add]
    cases op with
    | put key value => exact List.length_filter_le (fun v : Slice => !v.isEmpty) [key, value]
    | del key => exact Nat.le_succ 1
  have hvalues : op.batchOp.values = [] := by
    cases op <;> rfl
  unfold KuduClient.setColumns
  rcases @setStrings_failing svc _ row 0 s faults hlen with hset | ⟨row', hset⟩
  · rw [hset, hvalues]
    exact .inl rfl
  · rw [hset]
    exact .inr ⟨row', rfl⟩

/-- The operations of a batch when some calls fail: the `Flush` of all of them, or of those before the one whose
`SetString` failed, or nothing. -/
theorem writeOps_failing {faults : Faults} {s : TableState} {ops : List Operation} (hmode : s.mode = .MANUAL_FLUSH) :
    (∃ ws, ws <+: ops.map kuduWrite ∧ (svc.failing faults).writeOps tablePtr (ops.map Operation.batchOp) s =
      (status (svc.writeAll s.table (s.buffer ++ ws)).1 svc.notAllFlushed,
        ⟨(svc.writeAll s.table (s.buffer ++ ws)).2, .MANUAL_FLUSH, []⟩)) ∨
    ∃ e s', (svc.failing faults).writeOps tablePtr (ops.map Operation.batchOp) s = (.error e, s') ∧ s'.table = s.table := by
  induction ops generalizing s with
  | nil =>
    refine .inl ⟨[], List.nil_prefix, ?_⟩
    rw [List.append_nil, ← hmode]
    rfl
  | cons op ops ih =>
    have hw : tablePtr.newWrite op.batchOp.op = some ⟨(kuduWrite op).type, .empty⟩ := by
      cases op <;> rfl
    rw [List.map_cons, List.map_cons]
    rcases @setColumns_failing svc op .empty s faults with hcols | ⟨row', hcols⟩
    · rcases happly : faults.Apply with _ | ⟨e, made⟩
      · have hbuffer : (svc.failing faults).Apply (kuduWrite op) s = (.OK, { s with buffer := s.buffer ++ [kuduWrite op] }) := by
          unfold failing client
          dsimp only
          rw [happly, hmode]
        rw [KuduClient.writeOps_cons hw hcols hbuffer]
        rcases @ih { s with buffer := s.buffer ++ [kuduWrite op] } hmode with ⟨ws, hprefix, heq⟩ | ⟨e, s', heq, htable⟩
        · rw [List.append_assoc] at heq
          exact .inl ⟨kuduWrite op :: ws, List.cons_prefix_cons.2 ⟨rfl, hprefix⟩, heq⟩
        · exact .inr ⟨e, s', heq, htable⟩
      · have hfail : ∃ s', (svc.failing faults).Apply (kuduWrite op) s = (.error e, s') ∧ s'.table = s.table := by
          unfold failing client
          dsimp only
          rw [happly, hmode]
          cases made with
          | false => exact ⟨_, rfl, rfl⟩
          | true => exact ⟨_, rfl, rfl⟩
        obtain ⟨s', hfail, htable⟩ := hfail
        exact .inr ⟨e, _, KuduClient.writeOps_refused hw hcols hfail, htable⟩
    · refine .inl ⟨[], List.nil_prefix, ?_⟩
      rw [KuduClient.writeOps_columns hw hcols, List.append_nil, ← hmode]
      rfl

/-- When no other request is served meanwhile, a batch comes to what `WriteBatchToDatabase` comes to, also when calls
of its session fail. -/
theorem flush_alone (faults : Faults) (ops : List Operation) : ∃ rows,
    Run (svc.Alone tablePtr tableStatus valueName) (table, .todo (.batch (Operation.batch ops))) rows
      (((svc.failingDatabase tablePtr tableStatus faults).writeBatchToDatabase (Operation.batch ops) { table }).2.table,
        .done ((svc.failingDatabase tablePtr tableStatus faults).writeBatchToDatabase (Operation.batch ops) { table }).1
          []) := by
  have hws : (Operation.batch ops).ops.map BatchOp.kuduWrite = ops.map kuduWrite := by
    rw [Operation.batch_ops, List.map_map]
    exact List.map_congr_left fun op _ => kuduWrite_batchOp op
  have hwrite : (svc.failingDatabase tablePtr tableStatus faults).writeBatchToDatabase (Operation.batch ops) { table } =
      (svc.failing faults).writeOps tablePtr (ops.map Operation.batchOp) { table, mode := .MANUAL_FLUSH } := by
    unfold Database.writeBatchToDatabase
    rw [Operation.batch_ops]
    rfl
  rw [hwrite]
  rcases @writeOps_failing svc tablePtr faults { table, mode := .MANUAL_FLUSH } ops rfl with
    ⟨ws, hprefix, heq⟩ | ⟨e, s', heq, htable⟩
  · rw [heq]
    have hstart : svc.Alone tablePtr tableStatus valueName (table, .todo (.batch (Operation.batch ops))) .nothing
        (table, .flushing true ws) := .flush _ (hws ▸ hprefix)
    obtain ⟨rows, hrun⟩ := @flush_rows svc tablePtr tableStatus valueName table ws true
    have hend : svc.Alone tablePtr tableStatus valueName ((svc.writeAll table ws).2,
        .flushing (true && (svc.writeAll table ws).1) []) .nothing
        ((svc.writeAll table ws).2, .done (status (svc.writeAll table ws).1 svc.notAllFlushed) []) := .flushed _ _
    exact ⟨_, .cons hstart (hrun.append (.single hend))⟩
  · rw [heq, htable]
    exact ⟨_, .single (.refused _ e)⟩

end TableService

end Kududown
