import Mathlib

/-!
# The Kudu client

What the addon uses of the Kudu C++ client to read: statuses, typed cells and their getters, and scanners.
A scan is a script: what each `NextBatch` will reply, in order. `HasMoreRows` holds while replies are left.
-/

namespace Kududown

/-- `kudu::Slice` and `std::string`: bytes, compared byte-wise. -/
abbrev Slice := List (Fin 256)

def byte (n : Nat) : Fin 256 := Fin.ofNat 256 n

/-- The bytes of an ASCII text. -/
def bytes (s : String) : Slice := s.toList.map fun c => byte c.toNat

/-! ### Statuses -/

/-- The codes of a `kudu::Status` that is not OK. -/
inductive Code
  | NotFound | Corruption | NotSupported | InvalidArgument | IOError | AlreadyPresent | RuntimeError
  | NetworkError | IllegalState | NotAuthorized | Aborted | RemoteError | ServiceUnavailable | TimedOut
  | Uninitialized | ConfigurationError | Incomplete | EndOfFile
deriving DecidableEq

structure Failure where
  code : Code
  message : String
deriving DecidableEq

inductive Status
  | OK
  | error (e : Failure)
deriving DecidableEq

namespace Status

def ok : Status → Bool
  | OK => true
  | error _ => false

@[simp] theorem ok_OK : OK.ok = true := rfl
@[simp] theorem ok_error (e : Failure) : (error e).ok = false := rfl

theorem ok_iff {st : Status} : st.ok = true ↔ st = OK := by cases st <;> simp

theorem not_ok_iff {st : Status} : st.ok = false ↔ ∃ e, st = error e := by cases st <;> simp

def RuntimeError (msg : String) : Status := .error ⟨.RuntimeError, msg⟩
def InvalidArgument (msg : String) : Status := .error ⟨.InvalidArgument, msg⟩

end Status

/-! ### Rows -/

inductive DataType
  | INT8 | INT16 | INT32 | INT64 | STRING | BOOL | FLOAT | DOUBLE | BINARY | UNIXTIME_MICROS
deriving DecidableEq

/-- A row of a scan batch: what its getters come back with for each column index. A getter fails when the
column is of another type or the cell is NULL. Floating-point values are given by their bits. -/
structure RowPtr where
  GetInt8 : Nat → Except Failure Int8
  GetInt16 : Nat → Except Failure Int16
  GetInt32 : Nat → Except Failure Int32
  GetInt64 : Nat → Except Failure Int64
  GetString : Nat → Except Failure Slice
  GetBool : Nat → Except Failure Bool
  GetFloat : Nat → Except Failure UInt32
  GetDouble : Nat → Except Failure UInt64
  GetBinary : Nat → Except Failure Slice
  GetUnixTimeMicros : Nat → Except Failure Int64

/-- `KuduSchema`, as far as it is used: the type of each column. -/
structure KuduSchema where
  columns : List DataType
deriving DecidableEq

/-- `schema.Column(index).type()`. -/
def KuduSchema.type (schema : KuduSchema) (index : Nat) : DataType :=
  (schema.columns[index]?).getD .INT8

def stringRow (key value : Slice) : RowPtr where
  GetString := fun i =>
    if i = 0 then .ok key else if i = 1 then .ok value else .error ⟨.InvalidArgument, "no such column"⟩
  GetInt8 := fun _ => .error ⟨.InvalidArgument, "column is STRING"⟩
  GetInt16 := fun _ => .error ⟨.InvalidArgument, "column is STRING"⟩
  GetInt32 := fun _ => .error ⟨.InvalidArgument, "column is STRING"⟩
  GetInt64 := fun _ => .error ⟨.InvalidArgument, "column is STRING"⟩
  GetBool := fun _ => .error ⟨.InvalidArgument, "column is STRING"⟩
  GetFloat := fun _ => .error ⟨.InvalidArgument, "column is STRING"⟩
  GetDouble := fun _ => .error ⟨.InvalidArgument, "column is STRING"⟩
  GetBinary := fun _ => .error ⟨.InvalidArgument, "column is STRING"⟩
  GetUnixTimeMicros := fun _ => .error ⟨.InvalidArgument, "column is STRING"⟩

def stringSchema : KuduSchema := ⟨[.STRING, .STRING]⟩

/-! ### Scanners -/

inductive ComparisonOp
  | LESS_EQUAL | GREATER_EQUAL | EQUAL | LESS | GREATER
deriving DecidableEq

structure KuduPredicate where
  col_name : String
  op : ComparisonOp
  value : Slice
deriving DecidableEq

inductive OrderMode
  | UNORDERED | ORDERED
deriving DecidableEq

structure KuduTable where
  name : String
deriving DecidableEq

/-- What a scanner is configured with before `Open`. -/
structure ScanSpec where
  table : Option KuduTable
  batchSizeBytes : Option Nat := none
  predicates : List KuduPredicate := []
  orderMode : OrderMode := .UNORDERED
deriving DecidableEq

abbrev BatchReply := Except Failure (List RowPtr)

/-- What `Open` comes back with: the projection schema and the rest of the scan. -/
abbrev OpenReply := Except Failure (KuduSchema × List BatchReply)

structure KuduScanner where
  spec : ScanSpec
  replies : List BatchReply

namespace KuduScanner

def new (table : Option KuduTable) : KuduScanner := ⟨{ table }, []⟩

def SetBatchSizeBytes (s : KuduScanner) (n : Nat) : KuduScanner :=
  { s with spec := { s.spec with batchSizeBytes := some n } }

def HasMoreRows (s : KuduScanner) : Bool := !s.replies.isEmpty

/-- `Close()`: nothing more is handed out. -/
def Close (s : KuduScanner) : KuduScanner := { s with replies := [] }

end KuduScanner

end Kududown
