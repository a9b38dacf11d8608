import Kududown.IteratorDelivery
import Kududown.KeyValue

/-!
# Snapshots

The scanner of an iterator is opened by its first `IteratorNext`, so it is the table of that moment that is
delivered: the writes between `db.iterator()` and the first `next()` are seen, those after it are not.
-/

namespace Kududown
open Iterator

inductive Write
  | single (op : Operation)
  | batch (ops : List Operation)

def Write.runOn (db : Database TableState) (s : TableState) : Write → TableState
  | single op => (op.runOn db s).2
  | batch ops => (db.writeBatchToDatabase (Operation.batch ops) s).2

/-- The table when call `n` of `next()` is executed, `s` being the one when `db.iterator()` returned and `writes n`
the writes between the call before, or `db.iterator()`, and call `n`. -/
def tableBefore (db : Database TableState) (s : TableState) (writes : Nat → List Write) : Nat → TableState
  | 0 => (writes 0).foldl (Write.runOn db) s
  | n + 1 => (writes (n + 1)).foldl (Write.runOn db) (tableBefore db s writes n)

def cellReply (Q : List (List (Slice × Option Slice))) : OpenReply :=
  .ok (stringSchema, (Q.map (List.map fun e => cellRow e.1 e.2)).map .ok)

/-- `Open` succeeds and the scan, if it has no predicates, is one of all rows of the table, in any order and any
division into batches. -/
def OpensOn (table : Table) (openScan : ScanSpec → OpenReply) : Prop :=
  ∀ spec, spec.predicates = [] → ∃ Q : List (List (Slice × Option Slice)),
    Q.flatten.Perm table.entries ∧ openScan spec = cellReply Q

/-- Calling `next()` until it returns false yields the rows of the table. -/
def DeliversTable (opens : Nat → ScanSpec → OpenReply) (tablePtr : Option KuduTable) (it : Iterator)
    (table : Table) : Prop :=
  ∃ rows, Delivers opens tablePtr it rows ∧ (rows.map fun row => (row.1, some row.2)).Perm table.entries

variable {svc : TableService} {t : KuduTable} {tableStatus : Status} {s : TableState} {writes : Nat → List Write}
  {opens : Nat → ScanSpec → OpenReply} {tablePtr : Option KuduTable} {it : Iterator} {id : Nat}
  {options : IteratorOptions} {Q : List (List (Slice × Option Slice))} {table : Table}

/-- Rows without a NULL cell are read. -/
theorem readable_cellRows (h : ∀ e ∈ Q.flatten, e.2 ≠ none) :
    Readable stringSchema (Q.map (List.map fun e => cellRow e.1 e.2))
      (Q.map (List.map fun e => (e.1, e.2.getD []))) := by
  unfold Readable
  rw [List.map_map, List.map_map]
  refine List.map_congr_left fun b hb => ?_
  rw [Function.comp_apply, Function.comp_apply, List.map_map, List.map_map]
  refine List.map_congr_left fun e he => ?_
  obtain ⟨v, hv⟩ := Option.ne_none_iff_exists'.1 (h e (List.mem_flatten.2 ⟨b, hb, he⟩))
  obtain ⟨key, cell⟩ := e
  dsimp only at hv
  rw [hv]
  rfl

theorem map_some_getD (h : ∀ e ∈ Q.flatten, e.2 ≠ none) :
    ((Q.map (List.map fun e => (e.1, e.2.getD []))).flatten.map fun row : Slice × Slice => (row.1, some row.2)) =
      Q.flatten := by
  rw [← List.map_flatten, List.map_map]
  refine (List.map_congr_left fun e he => ?_).trans (List.map_id _)
  obtain ⟨v, hv⟩ := Option.ne_none_iff_exists'.1 (h e he)
  rw [Function.comp_apply, hv]
  exact Prod.ext rfl hv.symm

theorem entries_perm_iff {table' : Table} : table.entries.Perm table'.entries ↔ table = table' :=
  ⟨fun h => OrdMap.ext_mem fun _ => h.mem_iff, fun h => h ▸ .refl _⟩

theorem eq_empty_iff : table = .empty ↔ table.entries = [] := by
  rw [← entries_perm_iff, OrdMap.entries_empty, List.perm_nil]

theorem flatten_cellRows : (Q.map (List.map fun e => cellRow e.1 e.2)).flatten = [] ↔ Q.flatten = [] := by
  rw [← List.map_flatten, List.map_eq_nil_iff]

/-- With a watermark of 0 the iterator ends only if the scan has no row. -/
theorem delivers_zero (hmark : (Iterator.new id options).highWaterMark = 0)
    (hlimit : (Iterator.new id options).limit < 0)
    (ho : opens 0 ((Iterator.new id options).scanSpec tablePtr) = cellReply Q) {rows : List (Slice × Slice)} :
    Delivers opens tablePtr (Iterator.new id options) rows ↔ Q.flatten = [] ∧ rows = [] := by
  have hcall := (fresh_new id options).call_zero hmark hlimit ho
  simp only [flatten_cellRows] at hcall
  by_cases hQ : Q.flatten = []
  · have hout : HandsOut opens tablePtr (Iterator.new id options) [] := by
      refine ⟨fun n hn => absurd hn (Nat.not_lt_zero n), fun n _ => ⟨?_, (hcall n).2.1⟩⟩
      rw [(hcall n).1, decide_eq_true hQ]
      rfl
    rw [hout.delivers_iff, and_iff_right hQ]
    exact eq_comm
  · refine iff_of_false ?_ fun h => hQ h.1
    rintro ⟨chunks, hout, -⟩
    have hstop := (hout.stops _ (Nat.le_refl _)).1
    rw [(hcall _).1, decide_eq_false hQ] at hstop
    cases hstop

theorem delivers_pos (hmark : 1 ≤ (Iterator.new id options).highWaterMark)
    (hlimit : (Iterator.new id options).limit < 0)
    (ho : opens 0 ((Iterator.new id options).scanSpec tablePtr) = cellReply Q) (hcells : ∀ e ∈ Q.flatten, e.2 ≠ none)
    {rows : List (Slice × Slice)} : Delivers opens tablePtr (Iterator.new id options) rows ↔
      (Q.map (List.map fun e => (e.1, e.2.getD []))).flatten = rows := by
  have hout := (fresh_new id options).handsOut hmark ho (readable_cellRows hcells)
  rw [full_of_neg hlimit] at hout
  rw [hout.delivers_iff]
  exact Eq.congr_left (scanDelivery_allOk_items hmark 0 _)

/-- What is delivered is the scan, if the iterator comes to its end. -/
theorem deliversTable_iff (hlimit : (Iterator.new id options).limit < 0)
    (ho : opens 0 ((Iterator.new id options).scanSpec tablePtr) = cellReply Q) (hcells : ∀ e ∈ Q.flatten, e.2 ≠ none) :
    DeliversTable opens tablePtr (Iterator.new id options) table ↔
      Q.flatten.Perm table.entries ∧ (1 ≤ (Iterator.new id options).highWaterMark ∨ table = .empty) := by
  unfold DeliversTable
  rw [eq_empty_iff]
  rcases Nat.eq_zero_or_pos (Iterator.new id options).highWaterMark with hmark | hmark
  · simp only [delivers_zero hmark hlimit ho, hmark]
    constructor
    · rintro ⟨rows, ⟨hQ, rfl⟩, hperm⟩
      have hnil := List.nil_perm.1 hperm
      rw [hQ, hnil]
      exact ⟨.refl _, .inr rfl⟩
    · rintro ⟨hperm, hpos | hnil⟩
      · exact absurd hpos (Nat.not_lt_zero 0)
      · rw [hnil] at hperm ⊢
        exact ⟨[], ⟨List.perm_nil.1 hperm, rfl⟩, .refl _⟩
  · simp only [delivers_pos hmark hlimit ho hcells, exists_eq_left', map_some_getD hcells]
    exact (and_iff_left (.inl hmark)).symm

/-- The table of the moment `db.iterator()` returned is delivered just if the writes before the first `next()` have
left it as it was, and the watermark is not 0 or the table is empty. -/
theorem snapshot_iff (hlimit : (Iterator.new id options).limit < 0)
    (hopen : ∀ n, OpensOn (tableBefore (svc.database t tableStatus) s writes n).table (opens n))
    (hcells : ∀ e ∈ (tableBefore (svc.database t tableStatus) s writes 0).table.entries, e.2 ≠ none) :
    DeliversTable opens (some t) (Iterator.new id options) s.table ↔
      (tableBefore (svc.database t tableStatus) s writes 0).table = s.table ∧
        (1 ≤ (Iterator.new id options).highWaterMark ∨ s.table = .empty) := by
  obtain ⟨Q, hperm, ho⟩ := hopen 0 ((Iterator.new id options).scanSpec (some t)) rfl
  rw [deliversTable_iff hlimit ho fun e he => hcells e (hperm.mem_iff.1 he)]
  exact and_congr_left' (Iff.trans ⟨hperm.symm.trans, hperm.trans⟩ entries_perm_iff)

/-- A row is deleted, and then put again, before the first `next()`. -/
def deletedAndPut : Nat → List Write
  | 0 => [.single (.del (bytes "a")), .batch [.put (bytes "a") (bytes "1")]]
  | _ => []

def scansAll (db : Database TableState) (s : TableState) (writes : Nat → List Write) (n : Nat) : ScanSpec → OpenReply :=
  fun _ => cellReply [(tableBefore db s writes n).table.entries]

theorem opensOn_scansAll (db : Database TableState) (s : TableState) (writes : Nat → List Write) (n : Nat) :
    OpensOn (tableBefore db s writes n).table (scansAll db s writes n) :=
  fun _ _ => ⟨[(tableBefore db s writes n).table.entries], by rw [List.flatten_singleton], rfl⟩

open TableService in
theorem snapshot_iff_put : DeliversTable (scansAll (oneRowService.database ⟨"t"⟩ .OK) oneRowTable deletedAndPut) (some ⟨"t"⟩)
      (Iterator.new 0 {}) oneRowTable.table ↔
    (tableBefore (oneRowService.database ⟨"t"⟩ .OK) oneRowTable deletedAndPut 0).table = oneRowTable.table ∧
      (1 ≤ (Iterator.new 0 {}).highWaterMark ∨ oneRowTable.table = .empty) :=
  snapshot_iff (by decide) (opensOn_scansAll _ _ _) (by decide)

/-- A row is deleted before the first `next()`. -/
def deletedFirst : Nat → List Write
  | 0 => [.single (.del (bytes "a"))]
  | _ => []

open TableService in
/-- The row that the table held when `db.iterator()` returned is not delivered. -/
theorem snapshot_missed :
    (∀ n, OpensOn (tableBefore (oneRowService.database ⟨"t"⟩ .OK) oneRowTable deletedFirst n).table
      (scansAll (oneRowService.database ⟨"t"⟩ .OK) oneRowTable deletedFirst n)) ∧
    ¬ DeliversTable (scansAll (oneRowService.database ⟨"t"⟩ .OK) oneRowTable deletedFirst) (some ⟨"t"⟩)
      (Iterator.new 0 {}) oneRowTable.table := by
  refine ⟨opensOn_scansAll _ _ _, ?_⟩
  rintro ⟨rows, ⟨chunks, hout, rfl⟩, hperm⟩
  rcases chunks with _ | ⟨c, cs⟩
  · exact absurd hperm.length_eq (by decide)
  · exact absurd (hout.rows 0 (Nat.succ_pos _)).1 (by decide)

end Kududown
