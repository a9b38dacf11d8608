import Kududown.Lib.OrdMap
import Kududown.Kudu

/-!
# Writing

`WriteBatch`, and the write operations of `Database`. The client library is a parameter: a `KuduClient` answers
every call from a state and changes that state, so any call may fail at any time. What the code throws away
(what `SetFlushMode` and `Close` return) is left out.
-/

namespace Kududown

/-! ### Sessions -/

/-- `KuduPartialRow`: the columns that were set. -/
abbrev KuduPartialRow := OrdMap Nat Slice

/-- `KuduWriteOperation::Type`, as far as it is used. -/
inductive WriteType
  | DELETE | UPSERT
deriving DecidableEq

structure KuduWriteOperation where
  type : WriteType
  row : KuduPartialRow

inductive FlushMode
  | AUTO_FLUSH_SYNC | AUTO_FLUSH_BACKGROUND | MANUAL_FLUSH
deriving DecidableEq

/-- The client library with one session at a time: its calls, on a state `σ`, and `Status::ToString`. -/
structure KuduClient (σ : Type) where
  NewSession : σ → σ
  SetFlushMode : FlushMode → σ → σ
  SetString : KuduPartialRow → Nat → Slice → σ → (Status × KuduPartialRow) × σ
  Apply : KuduWriteOperation → σ → Status × σ
  Flush : σ → Status × σ
  Close : σ → σ
  ToString : Failure → String

namespace KuduTable

def NewUpsert (_ : KuduTable) : KuduWriteOperation := ⟨.UPSERT, .empty⟩
def NewDelete (_ : KuduTable) : KuduWriteOperation := ⟨.DELETE, .empty⟩

/-- `switch (op->getOp())`. -/
def newWrite (table : KuduTable) : Char → Option KuduWriteOperation
  | 'p' => some table.NewUpsert
  | 'd' => some table.NewDelete
  | _ => none

end KuduTable

/-! ### Batches -/

/-- `BatchOp`, with 'd' for a 'delete' operation or 'p' for a 'put' operation. -/
structure BatchOp where
  op : Char
  keys : List Slice := []
  values : List Slice := []
deriving DecidableEq

namespace BatchOp

def addKey (o : BatchOp) (v : Slice) : BatchOp := { o with keys := o.keys ++ [v] }

/-- The value goes to `keys` too. -/
def addValue (o : BatchOp) (v : Slice) : BatchOp := { o with keys := o.keys ++ [v] }

end BatchOp

structure WriteBatch where
  ops : List BatchOp := []
deriving DecidableEq

namespace WriteBatch

def clear (_ : WriteBatch) : WriteBatch := {}

def put (b : WriteBatch) (key value : Slice) : WriteBatch :=
  let newOp : BatchOp := { op := 'p' }
  let newOp := if key.isEmpty then newOp else newOp.addKey key
  let newOp := if value.isEmpty then newOp else newOp.addValue value
  { b with ops := b.ops ++ [newOp] }

def delete (b : WriteBatch) (key : Slice) : WriteBatch :=
  let newOp : BatchOp := { op := 'd' }
  { b with ops := b.ops ++ [newOp.addValue key] }

end WriteBatch

/-! ### The database -/

/-- `s.find_first_of(chars)`: where the first of any of these characters is, `none` for `npos`. -/
def findFirstOf (s chars : String) : Option Nat := s.toList.findIdx? fun c => c ∈ chars.toList

/-- `Database`, as far as writing uses it. -/
structure Database (σ : Type) where
  kuduClientPtr : Option (KuduClient σ)
  tablePtr : Option KuduTable
  tableStatus : Status

namespace KuduClient
variable {σ : Type}

/-- `Flush` and `Close`, with what `Flush` returned. -/
def flushAndClose (client : KuduClient σ) (s : σ) : Status × σ :=
  let (st, s) := client.Flush s
  (st, client.Close s)

/-- `for (size_t y = 0; y < op->keySize(); ++y)`, from `y` on; false as soon as a `SetString` fails. -/
def setStrings (client : KuduClient σ) (row : KuduPartialRow) (y : Nat) : List Slice → σ → (Bool × KuduPartialRow) × σ
  | [], s => ((true, row), s)
  | colValue :: cols, s =>
    match client.SetString row y colValue s with
    | ((.OK, row), s) => client.setStrings row (y + 1) cols s
    | ((.error _, row), s) => ((false, row), s)

def setColumns (client : KuduClient σ) (op : BatchOp) (row : KuduPartialRow) (s : σ) : (Bool × KuduPartialRow) × σ :=
  match client.setStrings row 0 op.keys s with
  | ((true, row), s) => client.setStrings row 0 op.values s
  | ((false, row), s) => ((false, row), s)

/-- The operations of a batch from one on, and the `Flush` after them. A `SetString` that fails has its status
overwritten by that of the `Flush` it leads to. -/
def writeOps (client : KuduClient σ) (table : KuduTable) : List BatchOp → σ → Status × σ
  | [], s => client.flushAndClose s
  | op :: ops, s =>
    match table.newWrite op.op with
    | none =>
      match client.flushAndClose s with
      | (.error e, s) => (.error e, s)
      | (.OK, s) =>
        (.InvalidArgument "Unknown batch operation ''. Batch operations must be either 'p' or 'd'.", s)
    | some kuduWrite =>
      match client.setColumns op kuduWrite.row s with
      | ((false, _), s) => client.flushAndClose s
      | ((true, row), s) =>
        match client.Apply { kuduWrite with row } s with
        | (.error e, s) => (.error e, client.Close s)
        | (.OK, s) => client.writeOps table ops s

theorem writeOps_cons {client : KuduClient σ} {table : KuduTable} {op : BatchOp} {ops : List BatchOp} {s s' s'' : σ}
    {w : KuduWriteOperation} {row : KuduPartialRow} (hw : table.newWrite op.op = some w)
    (hcols : client.setColumns op w.row s = ((true, row), s'))
    (happly : client.Apply { w with row } s' = (.OK, s'')) :
    client.writeOps table (op :: ops) s = client.writeOps table ops s'' := by
  simp only [writeOps, hw, hcols, happly]

theorem writeOps_refused {client : KuduClient σ} {table : KuduTable} {op : BatchOp} {ops : List BatchOp} {s s' s'' : σ}
    {w : KuduWriteOperation} {row : KuduPartialRow} {e : Failure} (hw : table.newWrite op.op = some w)
    (hcols : client.setColumns op w.row s = ((true, row), s'))
    (happly : client.Apply { w with row } s' = (.error e, s'')) :
    client.writeOps table (op :: ops) s = (.error e, client.Close s'') := by
  simp only [writeOps, hw, hcols, happly]

theorem writeOps_columns {client : KuduClient σ} {table : KuduTable} {op : BatchOp} {ops : List BatchOp} {s s' : σ}
    {w : KuduWriteOperation} {row : KuduPartialRow} (hw : table.newWrite op.op = some w)
    (hcols : client.setColumns op w.row s = ((false, row), s')) :
    client.writeOps table (op :: ops) s = client.flushAndClose s' := by
  simp only [writeOps, hw, hcols]

end KuduClient

namespace Database
variable {σ : Type}

def putToDatabase (db : Database σ) (key value : Slice) (s : σ) : Status × σ :=
  match db.kuduClientPtr with
  | none => (.RuntimeError "Not connected. Unable to perform write operation.", s)
  | some client =>
    match db.tablePtr with
    | none => (db.tableStatus, s)
    | some table =>
      let upsert := table.NewUpsert
      match client.SetString upsert.row 0 key (client.NewSession s) with
      | ((.error e, _), s) => (.error e, s)
      | ((.OK, row), s) =>
        match client.SetString row 1 value s with
        | ((.error e, _), s) => (.error e, s)
        | ((.OK, row), s) =>
          match client.Apply { upsert with row } s with
          | (.error e, s) => (.error e, s)
          | (.OK, s) => (.OK, client.Close s)

/-- Any character of "key not found" in the text of the failure makes it a success. -/
def deleteFromDatabase (db : Database σ) (key : Slice) (s : σ) : Status × σ :=
  match db.kuduClientPtr with
  | none => (.RuntimeError "Not connected. Unable to perform delete operation.", s)
  | some client =>
    match db.tablePtr with
    | none => (db.tableStatus, s)
    | some table =>
      let del := table.NewDelete
      match client.SetString del.row 0 key (client.NewSession s) with
      | ((.error e, _), s) => (.error e, s)
      | ((.OK, row), s) =>
        match client.Apply { del with row } s with
        | (.error e, s) =>
          if findFirstOf (client.ToString e) "key not found" ≠ none then (.OK, (client.Flush s).2)
          else (.error e, (client.Flush s).2)
        | (.OK, s) => (.OK, (client.Flush s).2)

def writeBatchToDatabase (db : Database σ) (batch : WriteBatch) (s : σ) : Status × σ :=
  match db.kuduClientPtr with
  | none => (.RuntimeError "Not connected. Unable to perform write batch operation.", s)
  | some client =>
    match db.tablePtr with
    | none => (db.tableStatus, s)
    | some table => client.writeOps table batch.ops (client.SetFlushMode .MANUAL_FLUSH (client.NewSession s))

end Database

end Kududown
