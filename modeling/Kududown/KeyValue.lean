import Kududown.Lib.Run
import Kududown.GetScan
import Kududown.BatchEquiv

/-!
# Put, get and delete as a map

`put` and `delete` write to the table and `get` scans it, by its own scanner each time. `KVStep` is one call with
what it answered; `key_value` says that every answer in a run of calls is the one that the writes before it call
for, however the scans divide their rows, and that a `get` always ends.
-/

namespace Kududown
open ScanService (TableRow)

/-- A call and its answer; a `get` answers with a value too. -/
inductive KVEvent
  | write (op : Operation) (st : Status)
  | get (key : Slice) (st : Status) (value : Slice)

namespace KVEvent

def operation : KVEvent → Option Operation
  | write op _ => some op
  | get _ _ _ => none

/-- The value of the latest put to `k` that no deletion of `k` followed. -/
def latest (k : Slice) (es : List KVEvent) : Option Slice :=
  (Operation.history k (es.filterMap operation)).getLast?.join

/-- The answer is the right one after the calls `pre`. -/
def Answers (pre : List KVEvent) : KVEvent → Prop
  | write _ st => st = .OK
  | get k st value =>
    match latest k pre with
    | some v => st = .OK ∧ value = v
    | none => ∃ msg, st = .error ⟨.NotFound, msg⟩

end KVEvent

/-! ### The scans of a table -/

/-- The getter of column 1 fails when the cell is NULL. -/
def cellRow (key : Slice) : Option Slice → RowPtr
  | some value => stringRow key value
  | none => { stringRow key [] with
      GetString := fun i => if i = 0 then .ok key else .error ⟨.NotFound, "column is NULL"⟩ }

/-- The rows of the table; `valueName` is the name of column 1. -/
def tableRows (valueName : String) (table : Table) : List TableRow :=
  table.entries.map fun e =>
    { named := fun c => if c = "key" then some e.1 else if c = valueName then e.2 else none
      cells := cellRow e.1 e.2 }

/-- A scan service that reads the table and fails in nothing. -/
structure Reads (valueName : String) (table : Table) (scan : ScanService) : Prop where
  scans : scan.Scans (tableRows valueName table)
  schema : scan.schema.type 1 = .STRING
  accepts : ∀ p, scan.addPredicate p = .OK

/-- One call, and its answer. -/
inductive KVStep (db : Database TableState) (valueName : String) : TableState → KVEvent → TableState → Prop
  | write {s : TableState} (op : Operation) : KVStep db valueName s (.write op (op.runOn db s).1) (op.runOn db s).2
  | get {s : TableState} {scan : ScanService} {key value : Slice} {st : Status} {s' : ScanState}
      (hscan : Reads valueName s.table scan) (hget : db.GetReturns scan.scanner key [] {} ((st, value), s')) :
      KVStep db valueName s (.get key st value) s

namespace TableService
open KVEvent
variable {svc : TableService} {tablePtr : KuduTable} {tableStatus : Status} {s t : TableState} {key k : Slice}
  {valueName : String} {scan : ScanService} {e : KVEvent} {es pre : List KVEvent} {table : Table}

theorem hasKey_tableRows : ((tableRows valueName table).filter (·.hasKey key)).map TableRow.cells =
    (table.get? key).toList.map (cellRow key) := by
  unfold tableRows
  rw [List.filter_map, OrdMap.filter_key (k := key) fun e => by simp [TableRow.hasKey], List.map_map, List.map_map]
  rfl

/-- The scan for a key returns its row. -/
theorem flatten_scanFor (h : Reads valueName table scan) :
    (scan.scanFor key).flatten = (table.get? key).toList.map (cellRow key) := by
  have hperm := @ScanService.Scans.rows_perm scan key _ h.scans
  rw [h.accepts, Status.ok_OK, if_pos rfl, hasKey_tableRows] at hperm
  cases hcell : table.get? key with
  | none =>
    rw [hcell] at hperm
    exact List.perm_nil.1 hperm
  | some cell =>
    rw [hcell] at hperm
    exact List.perm_singleton.1 hperm

theorem length_scanFor (h : Reads valueName table scan) : (scan.scanFor key).flatten.length < 2 ^ 31 := by
  rw [flatten_scanFor h, List.length_map]
  cases table.get? key <;> simp

/-- A `get` that finds a cell that is not NULL returns it, and one that finds no row returns NotFound. -/
theorem getReturns_table {cell : Option Slice} (h : Reads valueName s.table scan)
    (hcell : s.table.get? key = cell.map some) : ∃ s' : ScanState,
    (svc.database tablePtr tableStatus).GetReturns scan.scanner key [] {}
      ((cell.elim (.error (scan.notFound key)) fun _ => .OK, cell.getD []), s') := by
  have hget := @ScanService.getReturns_scanner scan key [] TableState svc.client tablePtr tableStatus
    (fun j _ => h.scans.fail j) (length_scanFor h)
  rw [flatten_scanFor h, hcell] at hget
  cases cell with
  | none => exact ⟨_, hget⟩
  | some v =>
    have hread : readValue scan.schema [] [cellRow key (some v)] = v := by
      unfold readValue
      rw [h.schema]
      rfl
    rw [Option.map_some, Option.toList_some, List.map_singleton, hread] at hget
    exact ⟨_, hget⟩

/-- The table holds what the calls so far have left. -/
def Holds (es : List KVEvent) (table : Table) : Prop := ∀ k, table.get? k = (latest k es).map some

theorem latest_write {op : Operation} {st : Status} :
    latest k (es ++ [.write op st]) = if op.key = k then op.value else latest k es := by
  unfold latest Operation.history
  rw [List.filterMap_append, show [KVEvent.write op st].filterMap operation = [op] from rfl, List.filter_append,
    List.map_append]
  split_ifs with hk
  · rw [List.filter_cons_of_pos (by simpa using hk), List.filter_nil, List.map_singleton, List.getLast?_concat]
    rfl
  · rw [List.filter_cons_of_neg (by simpa using hk), List.filter_nil, List.map_nil, List.append_nil]

theorem latest_get {st : Status} {value : Slice} : latest k (es ++ [.get key st value]) = latest k es := by
  unfold latest
  rw [List.filterMap_append, List.filterMap_cons_none rfl, List.filterMap_nil, List.append_nil]

/-- One call is answered rightly and keeps what the table holds. -/
theorem answers_step (habsent : "key not found".toList <:+: (svc.ToString svc.absent).toList)
    (hs : Holds pre s.table) (h : KVStep (svc.database tablePtr tableStatus) valueName s e t) :
    e.Answers pre ∧ Holds (pre ++ [e]) t.table := by
  cases h with
  | write op =>
    refine ⟨?_, fun k => ?_⟩
    · cases op with
      | put key value => exact congrArg Prod.fst (@put_client svc tablePtr tableStatus s key value)
      | del key => exact @del_client_status svc tablePtr tableStatus s key habsent
    · rw [get?_runOn, latest_write, hs k]
      split_ifs
      · cases op <;> rfl
      · rfl
  | @get scan key value st s' hscan hget =>
    refine ⟨?_, fun k => by rw [latest_get, hs k]⟩
    obtain ⟨s'', hget'⟩ := @getReturns_table svc tablePtr tableStatus s key valueName scan _ hscan (hs key)
    cases hget.unique hget'
    unfold Answers
    dsimp only
    cases latest key pre with
    | none => exact ⟨_, rfl⟩
    | some v => exact ⟨rfl, rfl⟩

theorem answers_run (habsent : "key not found".toList <:+: (svc.ToString svc.absent).toList)
    (hs : Holds pre s.table) (h : Run (KVStep (svc.database tablePtr tableStatus) valueName) s es t) :
    (∀ mid e post, es = mid ++ e :: post → e.Answers (pre ++ mid)) ∧ Holds (pre ++ es) t.table := by
  induction h generalizing pre with
  | nil s =>
    rw [List.append_nil]
    exact ⟨fun mid e post heq => absurd heq (by simp), hs⟩
  | @cons s u t e es hstep _ ih =>
    obtain ⟨hanswer, hnext⟩ := answers_step habsent hs hstep
    obtain ⟨hmid, hlast⟩ := ih hnext
    rw [List.append_assoc] at hlast
    refine ⟨fun mid e' post heq => ?_, hlast⟩
    rcases mid with _ | ⟨e'', mid⟩
    · rw [← (List.cons.inj heq).1, List.append_nil]
      exact hanswer
    · obtain ⟨rfl, hrest⟩ := List.cons.inj heq
      have h := hmid mid e' post hrest
      rwa [List.append_assoc] at h

/-- In every run on an empty table every call is answered as a map would, and a `get` after it ends. -/
theorem key_value (habsent : "key not found".toList <:+: (svc.ToString svc.absent).toList)
    (h : Run (KVStep (svc.database tablePtr tableStatus) valueName) { table := .empty } es t) :
    (∀ pre e post, es = pre ++ e :: post → e.Answers pre) ∧
      ∀ key scan, Reads valueName t.table scan →
        ∃ r, (svc.database tablePtr tableStatus).GetReturns scan.scanner key [] {} r := by
  have hempty : Holds [] OrdMap.empty := fun _ => rfl
  obtain ⟨hanswers, hholds⟩ := answers_run habsent hempty h
  refine ⟨hanswers, fun key scan hscan => ?_⟩
  obtain ⟨s', hget⟩ := @getReturns_table svc tablePtr tableStatus t key valueName scan _ hscan (hholds key)
  exact ⟨_, hget⟩

def oneScan (table : Table) : ScanService := ScanService.scanOnce (fun _ => .OK) (tableRows "value" table)

theorem oneScan_reads (table : Table) : Reads "value" table (oneScan table) :=
  ⟨ScanService.scans_once _ _, rfl, fun _ => rfl⟩

def oneRun : List KVEvent :=
  [.write (.put (bytes "a") []) .OK, .write (.del (bytes "b")) .OK, .get (bytes "a") .OK []]

theorem key_value_one : (∀ pre e post, oneRun = pre ++ e :: post → e.Answers pre) ∧
    ∀ key scan, Reads "value" (OrdMap.empty.insert (bytes "a") (some [])) scan →
      ∃ r, (oneRowService.database ⟨"t"⟩ .OK).GetReturns scan.scanner key [] {} r :=
  @key_value oneRowService ⟨"t"⟩ .OK { table := OrdMap.empty.insert (bytes "a") (some []) } "value" oneRun
    ⟨"Not found: ".toList, [], rfl⟩
    (.cons (.write (.put (bytes "a") [])) (.cons (.write (.del (bytes "b")))
      (.cons (.get (oneScan_reads _) ⟨3, rfl⟩) (.nil _))))

end TableService

end Kududown
