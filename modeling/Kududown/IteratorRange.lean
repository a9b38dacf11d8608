import Kududown.Lib.OrdMap
import Kududown.IteratorDelivery

/-!
# Ranges

`lt`, `lte`, `gt` and `gte` are parsed and kept by the iterator, but no predicate made from them reaches the
scanner, which also stays unordered. So the rows delivered are all rows of the table, in the order of the
scan; `range_honoured_iff` says when that is what the options ask for.
-/

namespace Kududown
open Iterator

/-- A table with the STRING columns `key` and `value`. -/
abbrev StringTable := OrdMap Slice Slice

def KuduPredicate.holds (p : KuduPredicate) (row : Slice × Slice) : Bool :=
  let cell := if p.col_name = "key" then row.1 else row.2
  match p.op with
  | .LESS_EQUAL => cell ≤ p.value
  | .GREATER_EQUAL => p.value ≤ cell
  | .EQUAL => cell = p.value
  | .LESS => cell < p.value
  | .GREATER => p.value < cell

/-- `P` is a division into batches of the rows that a scan of the table configured by `spec` may return. -/
structure ScanOf (table : StringTable) (spec : ScanSpec) (P : List (List (Slice × Slice))) : Prop where
  perm : P.flatten.Perm (table.entries.filter fun row => spec.predicates.all (·.holds row))
  ordered : spec.orderMode = .ORDERED → P.flatten.Pairwise (·.1 < ·.1)

def scanReply (P : List (List (Slice × Slice))) : OpenReply :=
  .ok (stringSchema, (P.map (List.map fun row => stringRow row.1 row.2)).map .ok)

theorem readable_stringRows (P : List (List (Slice × Slice))) :
    Readable stringSchema (P.map (List.map fun row => stringRow row.1 row.2)) P := by
  unfold Readable
  rw [List.map_map]
  refine List.map_congr_left fun b _ => ?_
  rw [Function.comp_apply, List.map_map]
  rfl

/-- The key lies within the bounds that the options give. -/
def IteratorOptions.inRange (options : IteratorOptions) (key : Slice) : Bool :=
  (boundOption options.lt).all (key < ·) && (boundOption options.lte).all (key ≤ ·) &&
    (boundOption options.gt).all (· < key) && (boundOption options.gte).all (· ≤ key)

variable {opens : Nat → ScanSpec → OpenReply} {tablePtr : Option KuduTable} {P : List (List (Slice × Slice))}
  {id : Nat} {options : IteratorOptions} {table : StringTable}

/-- Whatever the bounds are, the scan is one of the whole table. -/
theorem ScanOf.perm_entries {it : Iterator} (h : ScanOf table (it.scanSpec tablePtr) P) :
    P.flatten.Perm table.entries := by
  have hall : table.entries.filter (fun row => (it.scanSpec tablePtr).predicates.all (·.holds row)) =
      table.entries := List.filter_eq_self.2 fun _ _ => rfl
  exact hall ▸ h.perm

/-- The rows the options ask for are delivered, in ascending key order, just if every row of the table is
among them and the scan returns the rows in that order. -/
theorem range_honoured_iff (hlimit : (Iterator.new id options).limit < 0)
    (hmark : 1 ≤ (Iterator.new id options).highWaterMark)
    (hscan : ScanOf table ((Iterator.new id options).scanSpec tablePtr) P)
    (hopen : opens 0 ((Iterator.new id options).scanSpec tablePtr) = scanReply P) :
    Delivers opens tablePtr (Iterator.new id options) (table.entries.filter fun row => options.inRange row.1) ↔
      (∀ row ∈ table.entries, options.inRange row.1 = true) ∧ P.flatten.Pairwise (·.1 < ·.1) := by
  have hperm : P.flatten.Perm table.entries := hscan.perm_entries
  rw [((fresh_new id options).handsOut hmark hopen (readable_stringRows P)).delivers_iff, full_of_neg hlimit]
  rw [show (scanDelivery _ _ _ _ _).chunks.flatten = _ from scanDelivery_allOk_items hmark 0 P]
  constructor
  · intro heq
    have hlen : (table.entries.filter fun row => options.inRange row.1).length = table.entries.length := by
      rw [← heq]; exact hperm.length_eq
    have hall := List.length_filter_eq_length_iff.1 hlen
    refine ⟨hall, ?_⟩
    rw [List.filter_eq_self.2 hall] at heq
    exact (OrdMap.eq_entries_of_perm hperm).1 heq
  · rintro ⟨hall, hsorted⟩
    rw [List.filter_eq_self.2 hall]
    exact (OrdMap.eq_entries_of_perm hperm).2 hsorted

/-- The keys `a` and `b`, with the values `1` and `2`. -/
def abTable : StringTable :=
  (OrdMap.empty.insert (bytes "b") (bytes "2")).insert (bytes "a") (bytes "1")

theorem range_honoured_iff_lt : Delivers (fun _ _ => scanReply [abTable.entries]) (some ⟨"t"⟩)
      (Iterator.new 0 { lt := some (.string (bytes "c")) })
      (abTable.entries.filter fun row => IteratorOptions.inRange { lt := some (.string (bytes "c")) } row.1) ↔
    (∀ row ∈ abTable.entries, IteratorOptions.inRange { lt := some (.string (bytes "c")) } row.1 = true) ∧
      [abTable.entries].flatten.Pairwise (·.1 < ·.1) :=
  @range_honoured_iff (fun _ _ => scanReply [abTable.entries]) (some ⟨"t"⟩) [abTable.entries] 0
    { lt := some (.string (bytes "c")) } abTable (by decide) (by decide)
    ⟨by decide, fun h => by cases h⟩ rfl

/-- With `lt: "b"` the row at `b` is delivered all the same. -/
theorem range_ignored :
    ScanOf abTable ((Iterator.new 0 { lt := some (.string (bytes "b")) }).scanSpec (some ⟨"t"⟩)) [abTable.entries] ∧
    ¬ Delivers (fun _ _ => scanReply [abTable.entries]) (some ⟨"t"⟩)
      (Iterator.new 0 { lt := some (.string (bytes "b")) })
      (abTable.entries.filter fun row => IteratorOptions.inRange { lt := some (.string (bytes "b")) } row.1) :=
  ⟨⟨by decide, fun h => by cases h⟩, fun h => absurd h.first_le (by decide)⟩

end Kududown
