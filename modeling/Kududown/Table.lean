import Kududown.Write

/-!
# The table

What the client library documents of a table with the STRING columns 0 (the key) and 1 (the value), as an
instance of `KuduClient`: an upsert sets the cells that were set on its row and creates the row if there is
none, a delete removes it, `AUTO_FLUSH_SYNC` writes at once and `MANUAL_FLUSH` at the next `Flush`, in order.
Only the delete of an absent key fails. `TableService.put`, `del` and `batch` say what the three write
operations of `Database` come to on it.
-/

namespace Kududown

/-- The rows: the key, and the value cell, which may be NULL. -/
abbrev Table := OrdMap Slice (Option Slice)

/-- What differs between tables: the value cell that a row is created with when none was set, how the delete
of an absent key fails, how a `Flush` with a failed write fails, and the text of a failure. -/
structure TableService where
  defaultValue : Option Slice
  absent : Failure
  notAllFlushed : Failure
  ToString : Failure → String

structure TableState where
  table : Table
  mode : FlushMode := .AUTO_FLUSH_SYNC
  buffer : List KuduWriteOperation := []

namespace TableService
variable {svc : TableService}

/-- One write; false when it fails. A row without a key is none. -/
def write (svc : TableService) (table : Table) (w : KuduWriteOperation) : Bool × Table :=
  match w.row.get? 0 with
  | none => (true, table)
  | some key =>
    match w.type with
    | .UPSERT => (true, table.insert key ((w.row.get? 1).elim ((table.get? key).getD svc.defaultValue) some))
    | .DELETE => ((table.get? key).isSome, table.erase key)

/-- Buffered writes, in order; false when one has failed. -/
def writeAll (svc : TableService) (table : Table) : List KuduWriteOperation → Bool × Table
  | [] => (true, table)
  | w :: ws =>
    let (ok, table) := svc.write table w
    let (ok', table) := svc.writeAll table ws
    (ok && ok', table)

def status (ok : Bool) (e : Failure) : Status := if ok then .OK else .error e

def client (svc : TableService) : KuduClient TableState where
  NewSession s := { table := s.table }
  SetFlushMode mode s := { s with mode }
  SetString row i value s :=
    if i < 2 then ((.OK, row.insert i value), s) else ((.InvalidArgument "no such column", row), s)
  Apply w s :=
    match s.mode with
    | .AUTO_FLUSH_SYNC =>
      let (ok, table) := svc.write s.table w
      (status ok svc.absent, { s with table })
    | _ => (.OK, { s with buffer := s.buffer ++ [w] })
  Flush s :=
    let (ok, table) := svc.writeAll s.table s.buffer
    (status ok svc.notAllFlushed, { s with table, buffer := [] })
  Close s := { s with buffer := [] }
  ToString := svc.ToString

def database (svc : TableService) (tablePtr : KuduTable) (tableStatus : Status) : Database TableState :=
  ⟨some svc.client, some tablePtr, tableStatus⟩

end TableService

/-! ### The operations -/

inductive Operation
  | put (key value : Slice)
  | del (key : Slice)
deriving DecidableEq

namespace Operation

def key : Operation → Slice
  | put key _ => key
  | del key => key

/-- The value put, `none` for a deletion. -/
def value : Operation → Option Slice
  | put _ value => some value
  | del _ => none

def runOn {σ : Type} (db : Database σ) : Operation → σ → Status × σ
  | put key value => db.putToDatabase key value
  | del key => db.deleteFromDatabase key

/-- One by one, with the status of each. -/
def runAll {σ : Type} (db : Database σ) : List Operation → σ → List Status × σ
  | [], s => ([], s)
  | op :: ops, s =>
    let (st, s) := op.runOn db s
    let (sts, s) := runAll db ops s
    (st :: sts, s)

def addTo (b : WriteBatch) : Operation → WriteBatch
  | put key value => b.put key value
  | del key => b.delete key

def batch (ops : List Operation) : WriteBatch := ops.foldl addTo {}

/-- The key of the row that a batch writes: of a put, the first of key and value that is not empty. -/
def rowKey : Operation → Option Slice
  | put key value => [key, value].find? fun v => !v.isEmpty
  | del key => some key

def batchOp : Operation → BatchOp
  | put key value => { op := 'p', keys := [key, value].filter fun v => !v.isEmpty }
  | del key => { op := 'd', keys := [key] }

theorem addTo_ops (b : WriteBatch) (op : Operation) : (op.addTo b).ops = b.ops ++ [op.batchOp] := by
  cases op with
  | put key value =>
    unfold addTo batchOp WriteBatch.put BatchOp.addKey BatchOp.addValue
    cases key <;> cases value <;> rfl
  | del key => rfl

theorem batch_ops (ops : List Operation) : (batch ops).ops = ops.map batchOp := by
  have h : ∀ b : WriteBatch, (ops.foldl addTo b).ops = b.ops ++ ops.map batchOp := by
    induction ops with
    | nil => exact fun b => (List.append_nil _).symm
    | cons op ops ih =>
      intro b
      rw [List.foldl_cons, ih, addTo_ops, List.append_assoc]
      rfl
  exact h {}

end Operation

/-! ### On the table -/

theorem findFirstOf_of_infix {s chars : String} (h : chars.toList <:+: s.toList) (hne : chars.toList ≠ []) :
    findFirstOf s chars ≠ none := by
  obtain ⟨c, cs, hc⟩ := List.exists_cons_of_ne_nil hne
  have hmem : c ∈ chars.toList := by
    rw [hc]
    exact List.mem_cons_self
  intro hnone
  have := List.findIdx?_eq_none_iff.1 hnone c (h.subset hmem)
  simp [hmem] at this

namespace TableService
variable {svc : TableService} {tablePtr : KuduTable} {tableStatus : Status} {s : TableState} {key value k : Slice}
  {table : Table} {op : Operation} {ops : List Operation}

def setAll (row : KuduPartialRow) (y : Nat) : List Slice → KuduPartialRow
  | [] => row
  | v :: vs => setAll (row.insert y v) (y + 1) vs

theorem setStrings_client {cols : List Slice} {row : KuduPartialRow} {y : Nat} (h : y + cols.length ≤ 2) :
    svc.client.setStrings row y cols s = ((true, setAll row y cols), s) := by
  induction cols generalizing row y with
  | nil => rfl
  | cons v vs ih =>
    rw [List.length_cons] at h
    have hset : svc.client.SetString row y v s = ((.OK, row.insert y v), s) := if_pos (by omega)
    unfold KuduClient.setStrings
    rw [hset]
    exact ih (by omega)

theorem setColumns_client {row : KuduPartialRow} :
    svc.client.setColumns op.batchOp row s = ((true, setAll row 0 op.batchOp.keys), s) := by
  have hlen : 0 + op.batchOp.keys.length ≤ 2 := by
    rw [Nat.zero_add]
    cases op with
    | put key value => exact List.length_filter_le (fun v : Slice => !v.isEmpty) [key, value]
    | del key => exact Nat.le_succ 1
  have hvalues : op.batchOp.values = [] := by
    cases op <;> rfl
  unfold KuduClient.setColumns
  rw [setStrings_client hlen, hvalues]
  rfl

/-- The write that a batch makes of an operation. -/
def kuduWrite (op : Operation) : KuduWriteOperation :=
  ⟨if op.value.isSome then .UPSERT else .DELETE, setAll .empty 0 op.batchOp.keys⟩

theorem write_put (hkey : key ≠ []) : svc.write table (kuduWrite (.put key value)) =
    (true, table.insert key (if value = [] then (table.get? key).getD svc.defaultValue else some value)) := by
  rcases key with _ | ⟨b, key⟩
  · exact absurd rfl hkey
  · cases value <;> simp [write, kuduWrite, setAll, Operation.batchOp, Operation.value, OrdMap.get?_insert]

theorem write_del : svc.write table (kuduWrite (.del key)) = ((table.get? key).isSome, table.erase key) := by
  simp [write, kuduWrite, setAll, Operation.batchOp, Operation.value]

theorem isSome_write {w : KuduWriteOperation} : ((svc.write table w).2.get? k).isSome =
    if w.row.get? 0 = some k then decide (w.type = .UPSERT) else (table.get? k).isSome := by
  unfold write
  rcases hkey : w.row.get? 0 with _ | key
  · rfl
  · by_cases hk : key = k
    · subst hk
      cases w.type <;> simp
    · rw [if_neg fun h => hk (Option.some.inj h)]
      cases w.type with
      | UPSERT => exact congrArg _ (OrdMap.get?_insert_of_ne (Ne.symm hk))
      | DELETE => exact congrArg _ (OrdMap.get?_erase_of_ne (Ne.symm hk))

theorem kuduWrite_rowKey : (kuduWrite op).row.get? 0 = op.rowKey := by
  cases op with
  | put key value => cases key <;> cases value <;>
      simp [kuduWrite, setAll, Operation.batchOp, Operation.rowKey, OrdMap.get?_insert]
  | del key => exact OrdMap.get?_insert_self

theorem kuduWrite_type : decide ((kuduWrite op).type = .UPSERT) = op.value.isSome := by
  cases op <;> rfl

theorem write_fst : (svc.write table (kuduWrite op)).1 = true ↔
    ∀ key, op = .del key → (table.get? key).isSome = true := by
  cases op with
  | put key value =>
    refine iff_of_true ?_ fun _ h => by cases h
    unfold write
    rw [kuduWrite_rowKey]
    cases Operation.rowKey (.put key value) <;> rfl
  | del key =>
    rw [write_del]
    exact ⟨fun h _ hop => by cases hop; exact h, fun h => h key rfl⟩

theorem writeOps_client (hmode : s.mode = .MANUAL_FLUSH) :
    svc.client.writeOps tablePtr (ops.map Operation.batchOp) s =
      (status (svc.writeAll s.table (s.buffer ++ ops.map kuduWrite)).1 svc.notAllFlushed,
        ⟨(svc.writeAll s.table (s.buffer ++ ops.map kuduWrite)).2, .MANUAL_FLUSH, []⟩) := by
  induction ops generalizing s with
  | nil =>
    rw [List.map_nil, List.map_nil, List.append_nil, ← hmode]
    rfl
  | cons op ops ih =>
    have hih := @ih { s with buffer := s.buffer ++ [kuduWrite op] } hmode
    rw [List.append_assoc] at hih
    refine Eq.trans ?_ hih
    have happly : svc.client.Apply (kuduWrite op) s = (.OK, { s with buffer := s.buffer ++ [kuduWrite op] }) := by
      unfold client
      dsimp only
      rw [hmode]
    cases op with
    | put key value => exact KuduClient.writeOps_cons rfl setColumns_client happly
    | del key => exact KuduClient.writeOps_cons rfl setColumns_client happly

theorem writeBatch_client : (svc.database tablePtr tableStatus).writeBatchToDatabase (Operation.batch ops) s =
    (status (svc.writeAll s.table (ops.map kuduWrite)).1 svc.notAllFlushed,
      ⟨(svc.writeAll s.table (ops.map kuduWrite)).2, .MANUAL_FLUSH, []⟩) := by
  unfold Database.writeBatchToDatabase
  rw [Operation.batch_ops]
  exact writeOps_client rfl

theorem put_client : (svc.database tablePtr tableStatus).putToDatabase key value s =
    (.OK, { table := s.table.insert key (some value) }) := by
  simp [Database.putToDatabase, database, client, KuduTable.NewUpsert, write, OrdMap.get?_insert, status]

theorem del_client_table :
    ((svc.database tablePtr tableStatus).deleteFromDatabase key s).2 = { table := s.table.erase key } := by
  cases hk : (s.table.get? key).isSome with
  | false =>
    simp [Database.deleteFromDatabase, database, client, KuduTable.NewDelete, write, status, hk, writeAll]
    split <;> rfl
  | true => simp [Database.deleteFromDatabase, database, client, KuduTable.NewDelete, write, status, hk, writeAll]

/-- The failure of an absent key, whose text has "key not found" in it, comes out as a success. -/
theorem del_client_status (habsent : "key not found".toList <:+: (svc.ToString svc.absent).toList) :
    ((svc.database tablePtr tableStatus).deleteFromDatabase key s).1 = .OK := by
  have hfind := findFirstOf_of_infix habsent (by decide)
  cases hk : (s.table.get? key).isSome with
  | false => simp [Database.deleteFromDatabase, database, client, KuduTable.NewDelete, write, status, hk, hfind]
  | true => simp [Database.deleteFromDatabase, database, client, KuduTable.NewDelete, write, status, hk]

end TableService

end Kududown
