import Kududown.Lib.Run
import Kududown.Iterator
import Kududown.Get

/-!
# Opening

`OpenDatabase` connects and then opens the table, on a pool thread, while other workers may run. The client pointer
is set by the first step, the table pointer and `tableStatus` by the second. The operations of `Database` look at the
client pointer and then at the table pointer, and without a table they return `tableStatus`, which is OK until some
`openTable` has failed. `IteratorNext` looks at neither. `guarded_iff` says which operations are refused in the
states without a table.
-/

namespace Kududown

/-- `Options`, as far as opening uses them. -/
structure Options where
  tableName : String := ""

def Options.tableToOpen (opts : Options) : String :=
  if opts.tableName.length > 0 then opts.tableName else "impala::rtip.rtip_test"

namespace Database
variable {σ τ : Type}

/-- `Database(from)`. -/
def new : Database σ := ⟨none, none, .OK⟩

/-- `Build` leaves the client pointer alone when it fails. -/
def connect (db : Database σ) (build : Except Failure (KuduClient σ)) : Status × Database σ :=
  match build with
  | .error e => (.error e, db)
  | .ok client => (.OK, { db with kuduClientPtr := some client })

/-- `OpenTable` leaves the table pointer alone when it fails. -/
def openTable (db : Database σ) (reply : Except Failure KuduTable) : Status × Database σ :=
  match reply with
  | .error e => (.error e, { db with tableStatus := .error e })
  | .ok table => (.OK, { db with tablePtr := some table, tableStatus := .OK })

def openDatabase (db : Database σ) (opts : Option Options) (build : Except Failure (KuduClient σ))
    (OpenTable : String → Except Failure KuduTable) : Status × Database σ :=
  match opts with
  | none => (.InvalidArgument "Options cannot be empty", db)
  | some opts =>
    match db.connect build with
    | (.error e, db) => (.error e, db)
    | (.OK, db) => db.openTable (OpenTable opts.tableToOpen)

/-- The same pointers, with another client behind the first. -/
def withClient (db : Database σ) (client : KuduClient τ) : Database τ :=
  ⟨db.kuduClientPtr.map fun _ => client, db.tablePtr, db.tableStatus⟩

end Database

/-! ### Steps -/

/-- `opening` are the tables of the attempts that have connected and not yet opened theirs, `kudu` is the state of
the client. -/
structure Opening (σ : Type) where
  db : Database σ := .new
  opening : List String := []
  iterators : List Iterator := []
  kudu : σ

inductive OpenEvent
  | connect (st : Status)
  | openTable (st : Status)
  | work

/-- `OpenDatabase` in two steps, any number of it at a time, and everything else in between. A scanner without a
table does not open. -/
inductive OpenStep {σ : Type} (s : Opening σ) : OpenEvent → Opening σ → Prop
  | notConnected {e : Failure} : OpenStep s (.connect (s.db.connect (.error e)).1)
      { s with db := (s.db.connect (.error e)).2 }
  | connected (opts : Options) (client : KuduClient σ) : OpenStep s (.connect (s.db.connect (.ok client)).1)
      { s with db := (s.db.connect (.ok client)).2, opening := s.opening ++ [opts.tableToOpen] }
  | openTable {i : Nat} {table : String} (reply : Except Failure KuduTable) (hi : s.opening[i]? = some table) :
      OpenStep s (.openTable (s.db.openTable reply).1)
        { s with db := (s.db.openTable reply).2, opening := s.opening.eraseIdx i }
  | put (key value : Slice) : OpenStep s .work { s with kudu := (s.db.putToDatabase key value s.kudu).2 }
  | del (key : Slice) : OpenStep s .work { s with kudu := (s.db.deleteFromDatabase key s.kudu).2 }
  | batch (b : WriteBatch) : OpenStep s .work { s with kudu := (s.db.writeBatchToDatabase b s.kudu).2 }
  | get {ρ : Type} {scanner : ScannerClient ρ} {key : Slice} {k : ρ} {r : (Status × Slice) × ρ}
      (hget : s.db.GetReturns scanner key [] k r) : OpenStep s .work s
  | iterator (id : Nat) (options : IteratorOptions) :
      OpenStep s .work { s with iterators := s.iterators ++ [Iterator.new id options] }
  | next {r : Nat} {it : Iterator} (openScan : ScanSpec → OpenReply) (hr : s.iterators[r]? = some it)
      (hopen : ∀ spec, spec.table = none → ∃ e, openScan spec = .error e) :
      OpenStep s .work { s with iterators := s.iterators.set r (it.iteratorNext openScan s.db.tablePtr).iterator }

/-- A worker about to run. -/
inductive Entry
  | put (key value : Slice)
  | get (key : Slice)
  | del (key : Slice)
  | batch (b : WriteBatch)
  | next (it : Iterator)

namespace Opening
variable {σ : Type} {s t : Opening σ} {as : List OpenEvent} {entry : Entry}

/-- `OpenDatabase` on its own is its two steps, or the first when it cannot connect. -/
theorem openDatabase_run (opts : Options) (build : Except Failure (KuduClient σ))
    (OpenTable : String → Except Failure KuduTable) :
    ∃ as, Run OpenStep s as { s with db := (s.db.openDatabase (some opts) build OpenTable).2 } := by
  rcases build with e | client
  · exact ⟨_, .single .notConnected⟩
  · have hi : (s.opening ++ [opts.tableToOpen])[s.opening.length]? = some opts.tableToOpen :=
      List.getElem?_concat_length
    have hrun := Run.cons (OpenStep.connected (s := s) opts client)
      (.single (OpenStep.openTable (OpenTable opts.tableToOpen) hi))
    dsimp only at hrun
    rw [List.eraseIdx_append_of_length_le (Nat.le_refl _), Nat.sub_self, List.eraseIdx_cons_zero, List.append_nil] at hrun
    exact ⟨_, hrun⟩

def CanRun (s : Opening σ) : Entry → Prop
  | .next it => it ∈ s.iterators
  | _ => True

/-- The worker fails, and the same way whatever the client library would answer: it makes no call. (The calls of an
iterator that has no scanner begin with `Open`.) -/
def Refuses (s : Opening σ) : Entry → Prop
  | .put key value => ∃ e, ∀ {τ : Type} (client : KuduClient τ) (k : τ),
      (s.db.withClient client).putToDatabase key value k = (.error e, k)
  | .get key => ∃ e, ∀ {ρ : Type} (scanner : ScannerClient ρ) (k : ρ),
      s.db.GetReturns scanner key [] k ((.error e, []), k)
  | .del key => ∃ e, ∀ {τ : Type} (client : KuduClient τ) (k : τ),
      (s.db.withClient client).deleteFromDatabase key k = (.error e, k)
  | .batch b => ∃ e, ∀ {τ : Type} (client : KuduClient τ) (k : τ),
      (s.db.withClient client).writeBatchToDatabase b k = (.error e, k)
  | .next it => ∃ e r, ∀ openScan, it.iteratorNext openScan s.db.tablePtr = r ∧ r.report = .error e

/-- What holds of a database that has no table: the client pointer is set when some attempt has connected,
`tableStatus` is not OK when some `openTable` has been done, and no iterator has a scanner. -/
structure NoTable (as : List OpenEvent) (s : Opening σ) : Prop where
  connected : s.db.kuduClientPtr.isSome = true ↔ .connect .OK ∈ as
  opened : s.db.tableStatus.ok = false ↔ ∃ st, .openTable st ∈ as
  scanner : ∀ it ∈ s.iterators, it.scanner = none

/-- What a step has to do to the client pointer and to `tableStatus`. -/
theorem NoTable.snoc {a : OpenEvent} (h : s.NoTable as)
    (hconnected : t.db.kuduClientPtr.isSome = true ↔ s.db.kuduClientPtr.isSome = true ∨ a = .connect .OK)
    (hopened : t.db.tableStatus.ok = false ↔ s.db.tableStatus.ok = false ∨ ∃ st, a = .openTable st)
    (hscanner : ∀ it ∈ t.iterators, it.scanner = none) : t.NoTable (as ++ [a]) := by
  refine ⟨?_, ?_, hscanner⟩
  · rw [hconnected, h.connected, List.mem_append, List.mem_singleton]
    exact or_congr_right eq_comm
  · simp only [hopened, h.opened, List.mem_append, List.mem_singleton, exists_or]
    exact or_congr_right (exists_congr fun _ => eq_comm)

/-- A step that leaves both alone. -/
theorem NoTable.work (h : s.NoTable as) (hdb : t.db = s.db) (hit : ∀ it ∈ t.iterators, it.scanner = none) :
    t.NoTable (as ++ [.work]) := by
  refine h.snoc ?_ ?_ hit
  · simp [hdb]
  · simp [hdb]

theorem iteratorNext_failed {it : Iterator} {openScan : ScanSpec → OpenReply} {e : Failure} (h : it.scanner = none)
    (hopen : openScan { table := none, batchSizeBytes := some it.highWaterMark } = .error e) :
    it.iteratorNext openScan none = ⟨.openFailed, { it with iteratorStatus := .error e }, []⟩ := by
  unfold Iterator.iteratorNext Iterator.createScanner
  dsimp only
  rw [h]
  dsimp only [KuduScanner.new, KuduScanner.SetBatchSizeBytes]
  rw [hopen]

theorem NoTable.step {a : OpenEvent} (h : s.db.tablePtr = none → s.NoTable as) (hstep : OpenStep s a t)
    (ht : t.db.tablePtr = none) : t.NoTable (as ++ [a]) := by
  cases hstep with
  | @notConnected e =>
    have hs := h ht
    refine hs.snoc ?_ ?_ hs.scanner
    · simp [Database.connect]
    · simp [Database.connect]
  | connected opts client =>
    have hs := h ht
    refine hs.snoc ?_ ?_ hs.scanner
    · simp [Database.connect]
    · simp [Database.connect]
  | @openTable i table reply hi =>
    rcases reply with e | table'
    · have hs := h ht
      refine hs.snoc ?_ ?_ hs.scanner
      · simp [Database.openTable]
      · simp [Database.openTable]
    · cases ht
  | put key value => exact (h ht).work rfl (h ht).scanner
  | del key => exact (h ht).work rfl (h ht).scanner
  | batch b => exact (h ht).work rfl (h ht).scanner
  | get hget => exact (h ht).work rfl (h ht).scanner
  | iterator id options =>
    refine (h ht).work rfl fun it hit => ?_
    rcases List.mem_append.1 hit with hit | hit
    · exact (h ht).scanner it hit
    · rw [List.mem_singleton.1 hit]
      rfl
  | @next r it openScan hr hopen =>
    refine (h ht).work rfl fun it' hit => ?_
    have hnone := (h ht).scanner
    rcases List.mem_or_eq_of_mem_set hit with hit | hit
    · exact hnone it' hit
    · obtain ⟨e, he⟩ := hopen { table := none, batchSizeBytes := some it.highWaterMark } rfl
      have htable : s.db.tablePtr = none := ht
      rw [hit, htable, iteratorNext_failed (hnone it (List.mem_of_getElem? hr)) he]
      exact hnone it (List.mem_of_getElem? hr)

theorem NoTable.run {pre : List OpenEvent} (h : s.db.tablePtr = none → s.NoTable pre) (hr : Run OpenStep s as t) :
    t.db.tablePtr = none → t.NoTable (pre ++ as) := by
  induction hr generalizing pre with
  | nil s =>
    rw [List.append_nil]
    exact h
  | @cons s u t a as hstep _ ih =>
    have hu : u.db.tablePtr = none → u.NoTable (pre ++ [a]) := NoTable.step h hstep
    have ht := ih hu
    rwa [List.append_assoc] at ht

theorem NoTable.init {k : σ} : NoTable [] { kudu := k } :=
  ⟨by simp [Database.new], by simp [Database.new], fun it hit => by cases hit⟩

/-! ### What is refused -/

end Opening

namespace Database
variable {σ τ ρ : Type} {db : Database σ} {msg : String}

/-- What the two guards return when there is no table. -/
def noTableStatus (db : Database σ) (msg : String) : Status :=
  match db.kuduClientPtr with
  | none => .RuntimeError msg
  | some _ => db.tableStatus

theorem noTableStatus_ok :
    (db.noTableStatus msg).ok = false ↔ db.kuduClientPtr = none ∨ db.tableStatus.ok = false := by
  unfold noTableStatus
  cases db.kuduClientPtr <;> simp [Status.RuntimeError]

section NoTable
variable (htable : db.tablePtr = none) (client : KuduClient τ) (k : τ)
include htable

theorem put_noTable (key value : Slice) : (db.withClient client).putToDatabase key value k =
    (db.noTableStatus "Not connected. Unable to perform write operation.", k) := by
  unfold putToDatabase withClient noTableStatus
  rw [htable]
  cases db.kuduClientPtr <;> rfl

theorem delete_noTable (key : Slice) : (db.withClient client).deleteFromDatabase key k =
    (db.noTableStatus "Not connected. Unable to perform delete operation.", k) := by
  unfold deleteFromDatabase withClient noTableStatus
  rw [htable]
  cases db.kuduClientPtr <;> rfl

theorem writeBatch_noTable (b : WriteBatch) : (db.withClient client).writeBatchToDatabase b k =
    (db.noTableStatus "Not connected. Unable to perform write batch operation.", k) := by
  unfold writeBatchToDatabase withClient noTableStatus
  rw [htable]
  cases db.kuduClientPtr <;> rfl

end NoTable

theorem get_noTable (htable : db.tablePtr = none) (scanner : ScannerClient ρ) (k : ρ) (key : Slice) :
    db.GetReturns scanner key [] k
      ((db.noTableStatus "Not connected. Unable to perform read operation.", []), k) := by
  refine ⟨0, ?_⟩
  unfold getFromDatabase noTableStatus
  rw [htable]
  cases db.kuduClientPtr <;> rfl

/-- A client that does nothing. -/
def idle : KuduClient Unit where
  NewSession := id
  SetFlushMode _ := id
  SetString row _ _ s := ((.OK, row), s)
  Apply _ s := (.OK, s)
  Flush s := (.OK, s)
  Close := id
  ToString e := e.message

def idleScanner : ScannerClient Unit where
  AddConjunctPredicate _ s := (.OK, s)
  Open s := (.OK, s)
  GetProjectionSchema _ := ⟨[]⟩
  HasMoreRows _ := false
  NextBatch _ s := ((.OK, []), s)
  Close := id
  ToDebugString _ := ""

/-- A worker that returns `st` and makes no call is refused just if `st` is not OK. -/
theorem refused_iff {f : {τ : Type} → KuduClient τ → τ → Status × τ} {st : Status}
    (hf : ∀ {τ : Type} (client : KuduClient τ) (k : τ), f client k = (st, k)) :
    (∃ e, ∀ {τ : Type} (client : KuduClient τ) (k : τ), f client k = (.error e, k)) ↔ st.ok = false := by
  rw [Status.not_ok_iff]
  refine exists_congr fun e => ⟨fun h => ?_, fun h τ client k => by rw [hf, h]⟩
  have hidle := h idle ()
  rw [hf] at hidle
  exact congrArg Prod.fst hidle

end Database

namespace Opening
variable {σ : Type} {s t : Opening σ} {as : List OpenEvent} {entry : Entry} {k : σ}

/-- Without a table an operation of `Database` is refused just if there is no client or `tableStatus` is not OK. -/
theorem refuses_database (htable : t.db.tablePtr = none) (hentry : ∀ it, entry ≠ .next it) :
    t.Refuses entry ↔ t.db.kuduClientPtr = none ∨ t.db.tableStatus.ok = false := by
  cases entry with
  | put key value =>
    rw [← Database.noTableStatus_ok]
    exact Database.refused_iff fun client k => Database.put_noTable htable client k key value
  | get key =>
    rw [← Database.noTableStatus_ok, Status.not_ok_iff]
    refine exists_congr fun e => ⟨fun h => ?_, fun h ρ scanner k => ?_⟩
    · have hget := (h Database.idleScanner ()).unique (Database.get_noTable htable Database.idleScanner () key)
      exact (congrArg (fun r => r.1.1) hget).symm
    · rw [← h]
      exact Database.get_noTable htable scanner k key
  | del key =>
    rw [← Database.noTableStatus_ok]
    exact Database.refused_iff fun client k => Database.delete_noTable htable client k key
  | batch b =>
    rw [← Database.noTableStatus_ok]
    exact Database.refused_iff fun client k => Database.writeBatch_noTable htable client k b
  | next it => exact absurd rfl (hentry it)

/-- `IteratorNext` asks the client library for a scanner of no table. -/
theorem not_refuses_next {it : Iterator} (htable : t.db.tablePtr = none) (hscanner : it.scanner = none) :
    ¬ t.Refuses (.next it) := by
  rintro ⟨e, r, h⟩
  rw [htable] at h
  have h1 := (h fun _ => .error ⟨.IOError, ""⟩).1
  have h2 := (h fun _ => .error ⟨.TimedOut, ""⟩).1
  rw [iteratorNext_failed hscanner rfl] at h1 h2
  rw [← h1] at h2
  cases congrArg (fun r : NextResult => r.iterator.iteratorStatus) h2

/-- In the states without a table `next` is never refused, and the other operations are just if no attempt has
connected yet or some attempt has failed to open its table. -/
theorem refuses_iff (h : Run OpenStep { kudu := k } as t) (htable : t.db.tablePtr = none) (hrun : t.CanRun entry) :
    t.Refuses entry ↔ (∀ it, entry ≠ .next it) ∧ (.connect .OK ∉ as ∨ ∃ st, .openTable st ∈ as) := by
  have hinit : (Opening.mk (σ := σ) .new [] [] k).db.tablePtr = none → NoTable [] { kudu := k } := fun _ => .init
  have ht : t.NoTable as := NoTable.run hinit h htable
  by_cases hentry : ∀ it, entry ≠ .next it
  · rw [and_iff_right hentry, refuses_database htable hentry, ht.opened, ← ht.connected, Option.not_isSome_iff_eq_none]
  · obtain ⟨it, rfl⟩ : ∃ it, entry = .next it := by simpa using hentry
    exact iff_of_false (not_refuses_next htable (ht.scanner it hrun)) fun hc => hc.1 it rfl

theorem refuses_iff_put : ({ db := ⟨some Database.idle, none, .OK⟩, opening := ["t"], kudu := () } : Opening Unit).Refuses
      (.put (bytes "a") (bytes "1")) ↔
    (∀ it, Entry.put (bytes "a") (bytes "1") ≠ .next it) ∧
      (.connect .OK ∉ [OpenEvent.connect .OK] ∨ ∃ st, .openTable st ∈ [OpenEvent.connect .OK]) :=
  refuses_iff (.single (.connected ⟨"t"⟩ Database.idle)) rfl trivial

/-- A `put` between the two steps of opening is acknowledged, and `next` opens a scanner without a table. -/
theorem open_window : ∃ t : Opening Unit, Run OpenStep { kudu := () } [.work, .connect .OK] t ∧
    t.db.tablePtr = none ∧ ¬ t.Refuses (.put (bytes "a") (bytes "1")) ∧
    ∃ it, t.CanRun (.next it) ∧ ¬ t.Refuses (.next it) := by
  refine ⟨_, .cons (.iterator 0 {}) (.single (.connected ⟨"t"⟩ Database.idle)), rfl, ?_, Iterator.new 0 {},
    List.mem_singleton_self _, not_refuses_next rfl rfl⟩
  rintro ⟨e, h⟩
  cases congrArg Prod.fst (h Database.idle ())

end Opening

end Kududown
