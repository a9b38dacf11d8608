import Kududown.Table

/-!
# A batch and its operations one by one

`put` sets both columns of its row. A batch leaves out an empty part, so putting the empty value keeps the cell
that the row has, and the part that is left moves up: with an empty key the value becomes the key. `del` takes
the failure of an absent key for a success; in a batch it is a failed write, and the last `Flush` fails.
-/

namespace Kududown

namespace Operation
variable {k : Slice} {op : Operation} {ops : List Operation} {table : Table} {start : Option (Option Slice)}
  {l : List (Option Slice)} {dflt : Option Slice}

/-- What the operations on `k` put there in turn, `none` for a deletion. -/
def history (k : Slice) (ops : List Operation) : List (Option Slice) :=
  (ops.filter fun op => op.key = k).map value

theorem history_cons : history k (op :: ops) = if op.key = k then op.value :: history k ops else history k ops := by
  unfold history
  split_ifs with hk
  · rw [List.filter_cons_of_pos (by simpa using hk), List.map_cons]
  · rw [List.filter_cons_of_neg (by simpa using hk)]

/-! ### One cell -/

/-- `none` is no row. A batch that puts the empty value keeps the cell, or creates the row with the default. -/
def batchCell (dflt : Option Slice) (cell : Option (Option Slice)) : Option Slice → Option (Option Slice)
  | none => none
  | some v => some (if v = [] then cell.getD dflt else some v)

def directCell (_ : Option (Option Slice)) : Option Slice → Option (Option Slice)
  | none => none
  | some v => some (some v)

/-- The cell that the puts of the empty value at the end of a history find: the one put by the last operation
before them, or the table's if there is none, or the default if there is no row. -/
def cellBefore (dflt : Option Slice) (start : Option (Option Slice)) (history : List (Option Slice)) :
    Option Slice :=
  match (history.rdropWhile fun v => v = some []).getLast? with
  | none => start.getD dflt
  | some none => dflt
  | some (some v) => some v

theorem foldl_directCell (x : Option Slice) : (l ++ [x]).foldl directCell start = x.map some := by
  rw [List.foldl_concat]
  cases x <;> rfl

theorem cellBefore_concat_nil : cellBefore dflt start (l ++ [some []]) = cellBefore dflt start l := by
  unfold cellBefore
  rw [List.rdropWhile_concat_pos _ _ _ (by simp)]

theorem foldl_batchCell : (l.foldl (batchCell dflt) start).getD dflt = cellBefore dflt start l := by
  induction l using List.reverseRecOn with
  | nil => rfl
  | append_singleton l x ih =>
    rw [List.foldl_concat]
    by_cases hx : x = some []
    · subst hx
      rw [cellBefore_concat_nil, ← ih]
      rfl
    · unfold cellBefore
      rw [List.rdropWhile_concat_neg _ _ _ (by simpa using hx), List.getLast?_concat]
      cases x with
      | none => rfl
      | some v =>
        have hv : v ≠ [] := fun hv => hx (hv ▸ rfl)
        simp [batchCell, hv]

/-- A batch and the single operations leave the same cell unless the last operation puts the empty value on a
cell that is not empty. -/
theorem foldl_batchCell_eq_iff : l.foldl (batchCell dflt) start = l.foldl directCell start ↔
    (l.getLast? = some (some []) → cellBefore dflt start l = some []) := by
  induction l using List.reverseRecOn with
  | nil => exact iff_of_true rfl fun h => by cases h
  | append_singleton l x _ =>
    rw [foldl_directCell, List.foldl_concat, List.getLast?_concat]
    by_cases hx : x = some []
    · subst hx
      rw [cellBefore_concat_nil, ← foldl_batchCell]
      simp [batchCell]
    · refine iff_of_true ?_ fun h => absurd (Option.some.inj h) hx
      cases x with
      | none => rfl
      | some v =>
        have hv : v ≠ [] := fun hv => hx (hv ▸ rfl)
        simp [batchCell, hv]

end Operation

/-! ### The table -/

namespace TableService
open Operation
variable {svc : TableService} {tablePtr : KuduTable} {tableStatus : Status} {s : TableState} {k : Slice}
  {table : Table} {op : Operation} {ops : List Operation}

theorem get?_write (hkey : op.key ≠ []) : (svc.write table (kuduWrite op)).2.get? k =
    if op.key = k then batchCell svc.defaultValue (table.get? k) op.value else table.get? k := by
  by_cases hk : op.key = k
  · rw [if_pos hk]
    subst hk
    cases op with
    | put key value =>
      replace hkey : key ≠ [] := hkey
      rw [write_put hkey]
      exact OrdMap.get?_insert_self
    | del key =>
      rw [write_del]
      exact OrdMap.get?_erase_self
  · rw [if_neg hk]
    cases op with
    | put key value =>
      replace hkey : key ≠ [] := hkey
      rw [write_put hkey]
      exact OrdMap.get?_insert_of_ne (Ne.symm hk)
    | del key =>
      rw [write_del]
      exact OrdMap.get?_erase_of_ne (Ne.symm hk)

theorem get?_writeAll (hkeys : ∀ op ∈ ops, op.key ≠ []) : (svc.writeAll table (ops.map kuduWrite)).2.get? k =
    (history k ops).foldl (batchCell svc.defaultValue) (table.get? k) := by
  induction ops generalizing table with
  | nil => rfl
  | cons op ops ih =>
    have hih := @ih (svc.write table (kuduWrite op)).2 fun op h => hkeys op (List.mem_cons_of_mem _ h)
    refine hih.trans ?_
    rw [get?_write (hkeys op List.mem_cons_self), history_cons]
    split_ifs <;> rfl

theorem get?_runOn : (op.runOn (svc.database tablePtr tableStatus) s).2.table.get? k =
    if op.key = k then directCell (s.table.get? k) op.value else s.table.get? k := by
  have hput : ∀ key value, ((put key value).runOn (svc.database tablePtr tableStatus) s).2.table =
      s.table.insert key (some value) := fun key value =>
    congrArg (fun r => r.2.table) (@put_client svc tablePtr tableStatus s key value)
  have hdel : ∀ key, ((del key).runOn (svc.database tablePtr tableStatus) s).2.table = s.table.erase key :=
    fun key => congrArg TableState.table (@del_client_table svc tablePtr tableStatus s key)
  by_cases hk : op.key = k
  · rw [if_pos hk]
    subst hk
    cases op with
    | put key value =>
      rw [hput]
      exact OrdMap.get?_insert_self
    | del key =>
      rw [hdel]
      exact OrdMap.get?_erase_self
  · rw [if_neg hk]
    cases op with
    | put key value =>
      rw [hput]
      exact OrdMap.get?_insert_of_ne (Ne.symm hk)
    | del key =>
      rw [hdel]
      exact OrdMap.get?_erase_of_ne (Ne.symm hk)

theorem get?_runAll : (runAll (svc.database tablePtr tableStatus) ops s).2.table.get? k =
    (history k ops).foldl directCell (s.table.get? k) := by
  induction ops generalizing s with
  | nil => rfl
  | cons op ops ih =>
    refine (@ih (op.runOn (svc.database tablePtr tableStatus) s).2).trans ?_
    rw [get?_runOn, history_cons]
    split_ifs <;> rfl

/-- A batch leaves the same table as its operations one by one just if, for every key that its last operation
puts the empty value at, these last puts of the empty value find an empty cell. -/
theorem batch_same_table_iff (hkeys : ∀ op ∈ ops, op.key ≠ []) :
    ((svc.database tablePtr tableStatus).writeBatchToDatabase (batch ops) s).2.table =
        (runAll (svc.database tablePtr tableStatus) ops s).2.table ↔
      ∀ k, (history k ops).getLast? = some (some []) →
        cellBefore svc.defaultValue (s.table.get? k) (history k ops) = some [] := by
  have hcell : ∀ k, ((svc.database tablePtr tableStatus).writeBatchToDatabase (batch ops) s).2.table.get? k =
      (history k ops).foldl (batchCell svc.defaultValue) (s.table.get? k) := by
    intro k
    rw [writeBatch_client]
    exact get?_writeAll hkeys
  constructor
  · intro h k
    refine foldl_batchCell_eq_iff.1 ?_
    rw [← hcell, h, get?_runAll]
  · intro h
    refine OrdMap.ext_get? fun k => ?_
    rw [hcell, get?_runAll]
    exact foldl_batchCell_eq_iff.2 (h k)

def oneRowService : TableService where
  defaultValue := none
  absent := ⟨.NotFound, "key not found"⟩
  notAllFlushed := ⟨.IOError, "Some errors occurred"⟩
  ToString e := (if e.code = .NotFound then "Not found: " else "IO error: ") ++ e.message

def oneRowTable : TableState := { table := OrdMap.empty.insert (bytes "a") (some (bytes "1")) }

/-- The cell of `a` is empty. -/
def emptyCellTable : TableState := { table := OrdMap.empty.insert (bytes "a") (some []) }

/-- The empty value is put on an empty cell, while another row comes and goes. -/
theorem batch_same_table_iff_empty :
    ((oneRowService.database ⟨"t"⟩ .OK).writeBatchToDatabase
        (batch [.put (bytes "b") (bytes "2"), .put (bytes "a") [], .del (bytes "b")]) emptyCellTable).2.table =
      (runAll (oneRowService.database ⟨"t"⟩ .OK)
        [.put (bytes "b") (bytes "2"), .put (bytes "a") [], .del (bytes "b")] emptyCellTable).2.table := by
  refine (@batch_same_table_iff oneRowService ⟨"t"⟩ .OK emptyCellTable
    [.put (bytes "b") (bytes "2"), .put (bytes "a") [], .del (bytes "b")] ?_).2 fun k hlast => ?_
  · intro op h
    fin_cases h <;> exact List.cons_ne_nil _ _
  · by_cases ha : k = bytes "a"
    · subst ha
      rfl
    · -- no other key has the empty value put last
      by_cases hb : k = bytes "b"
      · subst hb
        exact absurd hlast (by decide)
      · simp [history, Operation.key, Ne.symm ha, Ne.symm hb] at hlast

/-- The batch leaves `1` at `a`, the put by itself leaves the empty value. -/
theorem batch_keeps_value :
    ((oneRowService.database ⟨"t"⟩ .OK).writeBatchToDatabase (batch [.put (bytes "a") []]) oneRowTable).2.table ≠
      (runAll (oneRowService.database ⟨"t"⟩ .OK) [.put (bytes "a") []] oneRowTable).2.table := by
  intro h
  have hbatch : ((oneRowService.database ⟨"t"⟩ .OK).writeBatchToDatabase (batch [.put (bytes "a") []])
      oneRowTable).2.table.get? (bytes "a") = some (some (bytes "1")) := rfl
  have hput : (runAll (oneRowService.database ⟨"t"⟩ .OK) [.put (bytes "a") []] oneRowTable).2.table.get?
      (bytes "a") = some (some []) := rfl
  rw [h, hput] at hbatch
  cases hbatch

/-! ### The status -/

/-- Is there a row with key `k` when the operations `pre` of a batch are done? -/
def presentAfter (table : Table) (pre : List Operation) (k : Slice) : Bool :=
  match (pre.filter fun op => op.rowKey = some k).getLast? with
  | none => (table.get? k).isSome
  | some op => op.value.isSome

theorem presentAfter_cons {pre : List Operation} :
    presentAfter table (op :: pre) k = presentAfter (svc.write table (kuduWrite op)).2 pre k := by
  unfold presentAfter
  rw [isSome_write, kuduWrite_rowKey, kuduWrite_type]
  by_cases hk : op.rowKey = some k
  · rw [if_pos hk, List.filter_cons_of_pos (by simpa using hk), List.getLast?_cons]
    cases (pre.filter fun op => op.rowKey = some k).getLast? <;> rfl
  · rw [if_neg hk, List.filter_cons_of_neg (by simpa using hk)]

theorem writeAll_fst : (svc.writeAll table (ops.map kuduWrite)).1 = true ↔
    ∀ pre k post, ops = pre ++ .del k :: post → presentAfter table pre k = true := by
  induction ops generalizing table with
  | nil => exact iff_of_true rfl fun pre k post h => absurd h (by simp)
  | cons op ops ih =>
    have hcons : (svc.writeAll table ((op :: ops).map kuduWrite)).1 = ((svc.write table (kuduWrite op)).1 &&
      (svc.writeAll (svc.write table (kuduWrite op)).2 (ops.map kuduWrite)).1) := rfl
    rw [hcons, Bool.and_eq_true, ih, write_fst]
    constructor
    · rintro ⟨hop, hops⟩ pre k post heq
      rcases pre with _ | ⟨op', pre⟩
      · exact hop k (List.cons.inj heq).1
      · obtain ⟨rfl, hrest⟩ := List.cons.inj heq
        rw [presentAfter_cons]
        exact hops pre k post hrest
    · intro h
      refine ⟨fun k hop => h [] k ops (hop ▸ rfl), fun pre k post heq => ?_⟩
      rw [← presentAfter_cons]
      exact h (op :: pre) k post (heq ▸ rfl)

theorem runAll_ok (habsent : "key not found".toList <:+: (svc.ToString svc.absent).toList) :
    ∀ st ∈ (runAll (svc.database tablePtr tableStatus) ops s).1, st.ok = true := by
  induction ops generalizing s with
  | nil => exact fun st h => by cases h
  | cons op ops ih =>
    intro st hst
    rcases List.mem_cons.1 hst with rfl | hst
    · cases op with
      | put key value => exact Status.ok_iff.2 (congrArg Prod.fst put_client)
      | del key => exact Status.ok_iff.2 (del_client_status habsent)
    · exact ih st hst

/-- A batch succeeds as its operations one by one do just if every deletion in it meets a row. -/
theorem batch_ok_iff (habsent : "key not found".toList <:+: (svc.ToString svc.absent).toList) :
    (((svc.database tablePtr tableStatus).writeBatchToDatabase (batch ops) s).1.ok = true ↔
        ∀ st ∈ (runAll (svc.database tablePtr tableStatus) ops s).1, st.ok = true) ↔
      ∀ pre k post, ops = pre ++ .del k :: post → presentAfter s.table pre k = true := by
  rw [iff_true_right (runAll_ok habsent), writeBatch_client, ← @writeAll_fst svc]
  unfold status
  split_ifs with h
  · exact iff_of_true rfl h
  · exact iff_of_false (by simp) h

/-- Both keys are there when they are deleted, and then one of them is not. -/
theorem batch_ok_iff_dels :
    (((oneRowService.database ⟨"t"⟩ .OK).writeBatchToDatabase
        (batch [.put (bytes "b") (bytes "2"), .del (bytes "b"), .del (bytes "a")]) oneRowTable).1.ok = true ↔
      ∀ st ∈ (runAll (oneRowService.database ⟨"t"⟩ .OK)
        [.put (bytes "b") (bytes "2"), .del (bytes "b"), .del (bytes "a")] oneRowTable).1, st.ok = true) ∧
    ¬ (((oneRowService.database ⟨"t"⟩ .OK).writeBatchToDatabase
        (batch [.put (bytes "b") (bytes "2"), .del (bytes "b"), .del (bytes "b")]) oneRowTable).1.ok = true ↔
      ∀ st ∈ (runAll (oneRowService.database ⟨"t"⟩ .OK)
        [.put (bytes "b") (bytes "2"), .del (bytes "b"), .del (bytes "b")] oneRowTable).1, st.ok = true) := by
  have habsent : "key not found".toList <:+: (oneRowService.ToString oneRowService.absent).toList :=
    ⟨"Not found: ".toList, [], rfl⟩
  refine ⟨(@batch_ok_iff oneRowService ⟨"t"⟩ .OK oneRowTable _ habsent).2 fun pre k post heq => ?_, fun h => ?_⟩
  · rcases pre with _ | ⟨op, _ | ⟨op', _ | ⟨op'', pre⟩⟩⟩
    · cases heq
    · cases heq
      rfl
    · cases heq
      rfl
    · simp at heq
  · have hpresent := (@batch_ok_iff oneRowService ⟨"t"⟩ .OK oneRowTable _ habsent).1 h
      [.put (bytes "b") (bytes "2"), .del (bytes "b")] (bytes "b") [] rfl
    cases hpresent

/-- Deleting the absent key `b`: the batch fails, the deletion by itself does not. -/
theorem batch_del_fails :
    ((oneRowService.database ⟨"t"⟩ .OK).writeBatchToDatabase (batch [.del (bytes "b")]) oneRowTable).1 =
        .error ⟨.IOError, "Some errors occurred"⟩ ∧
      (runAll (oneRowService.database ⟨"t"⟩ .OK) [.del (bytes "b")] oneRowTable).1 = [.OK] :=
  ⟨rfl, rfl⟩

end TableService

end Kududown
