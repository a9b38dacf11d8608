import Kududown.Get
import Kududown.IteratorRange
import Kududown.BatchEquiv

/-!
# `get` and its scan

`ScanService.scanner` is a scanner that holds some batches for the predicates it has been given; `NextBatch` hands
them out one by one, and when it fails it leaves both the batches and the caller's batch alone. Since
`GetFromDatabase` does not look at what `NextBatch` returns it asks again, and `get_sound_iff` says that it is right
about the scan just if nothing fails. `get_right_iff` says for which tables it returns the right value: it goes on
without its predicate when that is rejected, lets every row overwrite the value, and drops the status of the
conversion.
-/

namespace Kududown

/-- `addPredicate` is what a predicate is answered with, `batches` what a scan holds for the predicates it has been
given, and `fail n` the failure of the `n`-th `NextBatch`, if it fails. -/
structure ScanService where
  schema : KuduSchema
  addPredicate : KuduPredicate → Status
  batches : List KuduPredicate → List (List RowPtr)
  fail : Nat → Option Failure := fun _ => none
  ToDebugString : Slice → String

/-- The scanner: its predicates, the batches to come, and what `NextBatch` has come back with so far. -/
structure ScanState where
  predicates : List KuduPredicate := []
  batches : List (List RowPtr) := []
  replies : List Status := []

namespace ScanService

def scanner (svc : ScanService) : ScannerClient ScanState where
  AddConjunctPredicate p s :=
    match svc.addPredicate p with
    | .OK => (.OK, { s with predicates := s.predicates ++ [p] })
    | .error e => (.error e, s)
  Open s := (.OK, { s with batches := svc.batches s.predicates })
  GetProjectionSchema _ := svc.schema
  HasMoreRows s := !s.batches.isEmpty
  NextBatch batch s :=
    match svc.fail s.replies.length with
    | some e => ((.error e, batch), { s with replies := s.replies ++ [.error e] })
    | none => ((.OK, s.batches.headD []), { s with batches := s.batches.tail, replies := s.replies ++ [.OK] })
  Close s := { s with batches := [] }
  ToDebugString := svc.ToDebugString

def keyEqual (key : Slice) : KuduPredicate := { col_name := "key", op := .EQUAL, value := key }

def accepted (svc : ScanService) (key : Slice) : List KuduPredicate :=
  if (svc.addPredicate (keyEqual key)).ok then [keyEqual key] else []

/-- The batches of the scan for `key`. -/
def scanFor (svc : ScanService) (key : Slice) : List (List RowPtr) := svc.batches (svc.accepted key)

def notFound (svc : ScanService) (key : Slice) : Failure :=
  ⟨.NotFound, "NotFound: " ++ svc.ToDebugString key ++ " was not found"⟩

variable {svc : ScanService} {s s' : ScanState} {fuel num_rows : Nat} {batch : List RowPtr} {key value : Slice}
  {x : Nat × Slice}

/-! ### The loop -/

@[simp] theorem hasMoreRows : svc.scanner.HasMoreRows s = !s.batches.isEmpty := rfl

theorem nextBatch_ok {b : List RowPtr} {bs : List (List RowPtr)} (hb : s.batches = b :: bs)
    (h : svc.fail s.replies.length = none) : svc.scanner.NextBatch batch s =
      ((.OK, b), { s with batches := bs, replies := s.replies ++ [.OK] }) := by
  unfold scanner
  simp only [h, hb]
  rfl

theorem nextBatch_error {e : Failure} (h : svc.fail s.replies.length = some e) :
    svc.scanner.NextBatch batch s = ((.error e, batch), { s with replies := s.replies ++ [.error e] }) := by
  unfold scanner
  simp only [h]

/-- When nothing fails the loop reads all rows of the scan. -/
theorem readRows_scanner {bs : List (List RowPtr)} (hb : s.batches = bs)
    (hfail : ∀ j < bs.length, svc.fail (s.replies.length + j) = none)
    (hrows : num_rows + bs.flatten.length < 2 ^ 31) :
    svc.scanner.readRows (bs.length + 1) batch num_rows value s =
      some ((num_rows + bs.flatten.length, readValue svc.schema value bs.flatten),
        { s with batches := [], replies := s.replies ++ List.replicate bs.length .OK }) := by
  induction bs generalizing batch num_rows value s with
  | nil =>
    obtain ⟨predicates, batches, replies⟩ := s
    cases hb
    simp [ScannerClient.readRows, readValue]
  | cons b bs ih =>
    have hmore : svc.scanner.HasMoreRows s = true := by
      rw [hasMoreRows, hb]
      rfl
    rw [List.flatten_cons, List.length_append, ← Nat.add_assoc] at hrows
    unfold ScannerClient.readRows
    rw [if_pos hmore, nextBatch_ok hb (hfail 0 (Nat.succ_pos _))]
    dsimp only
    rw [if_pos (by omega)]
    refine (@ih { s with batches := bs, replies := s.replies ++ [.OK] } _ _ _ rfl (fun j hj => ?_) hrows).trans ?_
    · have hj' := hfail (j + 1) (Nat.succ_lt_succ hj)
      rwa [List.length_append, List.length_singleton, Nat.add_assoc, Nat.add_comm 1 j]
    · simp [readValue, scanner, List.replicate_succ, Nat.add_assoc]

/-- When nothing fails and the loop ends, `num_rows` has not overflowed. -/
theorem readRows_rows {bs : List (List RowPtr)} (hb : s.batches = bs)
    (hfail : ∀ j < bs.length, svc.fail (s.replies.length + j) = none) (hlt : num_rows < 2 ^ 31)
    (h : svc.scanner.readRows fuel batch num_rows value s = some (x, s')) :
    num_rows + bs.flatten.length < 2 ^ 31 := by
  induction bs generalizing fuel batch num_rows value s with
  | nil => simpa using hlt
  | cons b bs ih =>
    have hmore : svc.scanner.HasMoreRows s = true := by
      rw [hasMoreRows, hb]
      rfl
    rcases fuel with _ | fuel
    · cases h
    unfold ScannerClient.readRows at h
    rw [if_pos hmore, nextBatch_ok hb (hfail 0 (Nat.succ_pos _))] at h
    dsimp only at h
    split_ifs at h with hsum
    rw [List.flatten_cons, List.length_append, ← Nat.add_assoc]
    refine @ih { s with batches := bs, replies := s.replies ++ [.OK] } _ _ _ _ rfl (fun j hj => ?_) hsum h
    have hj' := hfail (j + 1) (Nat.succ_lt_succ hj)
    rwa [List.length_append, List.length_singleton, Nat.add_assoc, Nat.add_comm 1 j]

/-- Whatever fails, a loop that ends has seen every row of the scan, and no other ones: after a failure it reads the
batch before again. -/
theorem readRows_seen (h : svc.scanner.readRows fuel batch num_rows value s = some (x, s')) :
    ∃ seen, x = (num_rows + seen.length, readValue svc.schema value seen) ∧ s.batches.flatten ⊆ seen ∧
      ∀ row ∈ seen, row ∈ batch ∨ row ∈ s.batches.flatten := by
  induction fuel generalizing batch num_rows value s with
  | zero => cases h
  | succ fuel ih =>
    unfold ScannerClient.readRows at h
    split_ifs at h with hmore
    · cases hf : svc.fail s.replies.length with
      | some e =>
        rw [nextBatch_error hf] at h
        dsimp only at h
        split_ifs at h
        obtain ⟨seen, rfl, hall, hseen⟩ := ih h
        refine ⟨batch ++ seen, ?_, fun row hrow => List.mem_append_right _ (hall hrow), fun row hrow => ?_⟩
        · rw [List.length_append, Nat.add_assoc]
          unfold readValue
          rw [List.foldl_append]
          rfl
        · rcases List.mem_append.1 hrow with hrow | hrow
          · exact .inl hrow
          · exact hseen row hrow
      | none =>
        obtain ⟨b, bs, hb⟩ : ∃ b bs, s.batches = b :: bs := by
          refine List.exists_cons_of_ne_nil fun hnil => ?_
          simp [hnil] at hmore
        rw [nextBatch_ok hb hf] at h
        dsimp only at h
        split_ifs at h
        obtain ⟨seen, rfl, hall, hseen⟩ := ih h
        rw [hb, List.flatten_cons]
        refine ⟨b ++ seen, ?_, fun row hrow => ?_, fun row hrow => ?_⟩
        · rw [List.length_append, Nat.add_assoc]
          unfold readValue
          rw [List.foldl_append]
          rfl
        · rcases List.mem_append.1 hrow with hrow | hrow
          · exact List.mem_append_left _ hrow
          · exact List.mem_append_right _ (hall hrow)
        · rcases List.mem_append.1 hrow with hrow | hrow
          · exact .inr (List.mem_append_left _ hrow)
          · rcases hseen row hrow with hrow | hrow
            · exact .inr (List.mem_append_left _ hrow)
            · exact .inr (List.mem_append_right _ hrow)
    · obtain rfl := (Prod.mk.inj (Option.some.inj h)).1
      have hnil : s.batches = [] := by simpa using hmore
      rw [hnil]
      exact ⟨[], rfl, List.Subset.refl _, fun row hrow => by cases hrow⟩

/-- `l` is what the calls of `NextBatch` of a loop that ended came back with: it failed wherever it was to, and
succeeded as often as there were batches. -/
structure Replies (svc : ScanService) (s : ScanState) (l : List Status) : Prop where
  ok : l.countP Status.ok = s.batches.length
  error : ∀ (j : Nat) (e : Failure), j < l.length → svc.fail (s.replies.length + j) = some e → l[j]? = some (.error e)

/-- The reply of one call, before those of the calls to come. -/
theorem Replies.cons {st : Status} {l : List Status} (h : Replies svc s' l) (hs : s'.replies = s.replies ++ [st])
    (hlen : s.batches.length = s'.batches.length + st.ok.toNat)
    (hst : ∀ e, svc.fail s.replies.length = some e → st = .error e) : Replies svc s (st :: l) := by
  refine ⟨?_, fun j e hj he => ?_⟩
  · rw [List.countP_cons, h.ok, hlen]
    cases st <;> rfl
  · rcases j with _ | j
    · rw [hst e he]
      rfl
    · refine h.error j e (Nat.lt_of_succ_lt_succ hj) ?_
      rw [hs, List.length_append, List.length_singleton, Nat.add_assoc, Nat.add_comm 1 j]
      exact he

theorem readRows_replies (h : svc.scanner.readRows fuel batch num_rows value s = some (x, s')) :
    ∃ l, s'.replies = s.replies ++ l ∧ Replies svc s l := by
  induction fuel generalizing batch num_rows value s with
  | zero => cases h
  | succ fuel ih =>
    unfold ScannerClient.readRows at h
    split_ifs at h with hmore
    · cases hf : svc.fail s.replies.length with
      | some e =>
        rw [nextBatch_error hf] at h
        dsimp only at h
        split_ifs at h
        obtain ⟨l, heq, hl⟩ := ih h
        refine ⟨.error e :: l, by rw [heq, List.append_assoc, List.singleton_append], hl.cons rfl rfl fun e' he' => ?_⟩
        rw [hf] at he'
        cases he'
        rfl
      | none =>
        obtain ⟨b, bs, hb⟩ : ∃ b bs, s.batches = b :: bs := by
          refine List.exists_cons_of_ne_nil fun hnil => ?_
          simp [hnil] at hmore
        rw [nextBatch_ok hb hf] at h
        dsimp only at h
        split_ifs at h
        obtain ⟨l, heq, hl⟩ := ih h
        refine ⟨.OK :: l, by rw [heq, List.append_assoc, List.singleton_append], hl.cons rfl ?_ fun e' he' => ?_⟩
        · rw [hb]
          rfl
        · rw [hf] at he'
          cases he'
    · obtain rfl := (Prod.mk.inj (Option.some.inj h)).2
      refine ⟨[], (List.append_nil _).symm, ?_, fun j e hj => absurd hj (Nat.not_lt_zero j)⟩
      have hnil : s.batches = [] := by simpa using hmore
      rw [hnil]
      rfl

/-! ### `get` -/

variable {σ : Type} {writer : KuduClient σ} {tablePtr : KuduTable} {tableStatus : Status}

theorem getFromDatabase_scanner :
    (⟨some writer, some tablePtr, tableStatus⟩ : Database σ).getFromDatabase svc.scanner fuel key value {} =
      (svc.scanner.readRows fuel [] 0 value ⟨svc.accepted key, svc.scanFor key, []⟩).map fun x =>
        ((if x.1.1 = 0 then .error (svc.notFound key) else .OK, x.1.2), x.2) := by
  have hadd : (svc.scanner.AddConjunctPredicate (keyEqual key) {}).2 = { predicates := svc.accepted key } := by
    unfold scanner accepted
    dsimp only
    cases svc.addPredicate (keyEqual key) <;> rfl
  have hopen : svc.scanner.Open { predicates := svc.accepted key } =
      (.OK, ⟨svc.accepted key, svc.scanFor key, []⟩) := rfl
  unfold Database.getFromDatabase ScannerClient.get
  dsimp only
  rw [show { col_name := "key", op := .EQUAL, value := key } = keyEqual key from rfl, hadd, hopen]
  dsimp only
  cases svc.scanner.readRows fuel [] 0 value ⟨svc.accepted key, svc.scanFor key, []⟩ with
  | none => rfl
  | some x =>
    rw [Option.map_some]
    dsimp only
    split_ifs <;> rfl

/-- When nothing fails `get` has seen all rows of its scan, unless they are too many to be counted. -/
theorem getReturns_scanner (hfail : ∀ j < (svc.scanFor key).length, svc.fail j = none)
    (hrows : (svc.scanFor key).flatten.length < 2 ^ 31) :
    (⟨some writer, some tablePtr, tableStatus⟩ : Database σ).GetReturns svc.scanner key value {}
      ((if (svc.scanFor key).flatten.length = 0 then .error (svc.notFound key) else .OK,
          readValue svc.schema value (svc.scanFor key).flatten),
        ⟨svc.accepted key, [], List.replicate (svc.scanFor key).length .OK⟩) := by
  refine ⟨(svc.scanFor key).length + 1, ?_⟩
  have hread := @readRows_scanner svc ⟨svc.accepted key, svc.scanFor key, []⟩ 0 [] value _ rfl
    (fun j hj => by
      rw [List.length_nil, Nat.zero_add]
      exact hfail j hj) (by rwa [Nat.zero_add])
  rw [getFromDatabase_scanner, hread]
  simp

theorem length_of_getReturns {r : (Status × Slice) × ScanState} (hfail : ∀ j < (svc.scanFor key).length, svc.fail j = none)
    (h : (⟨some writer, some tablePtr, tableStatus⟩ : Database σ).GetReturns svc.scanner key value {} r) :
    (svc.scanFor key).flatten.length < 2 ^ 31 := by
  obtain ⟨fuel, hget⟩ := h
  rw [getFromDatabase_scanner] at hget
  obtain ⟨⟨x, s'⟩, hread, -⟩ := Option.map_eq_some_iff.1 hget
  have hlt := readRows_rows rfl (fun j hj => by rw [List.length_nil, Nat.zero_add]; exact hfail j hj) (by omega) hread
  rwa [Nat.zero_add] at hlt

/-- `get` ends, calls `NextBatch` no more once it has failed and returns that failure; it returns NotFound or OK
only if it did not fail, and NotFound only if there was no row. -/
def GetSound (svc : ScanService) (db : Database σ) (key value : Slice) : Prop :=
  ∃ (st : Status) (v : Slice) (s : ScanState), db.GetReturns svc.scanner key value {} ((st, v), s) ∧
    (∀ (j : Nat) (e : Failure), s.replies[j]? = some (.error e) → j + 1 = s.replies.length ∧ st = .error e) ∧
    (∀ e, st = .error e → e.code = .NotFound →
      (∀ r ∈ s.replies, r = .OK) ∧ ∀ b ∈ svc.scanFor key, b = []) ∧
    (st = .OK → ∀ r ∈ s.replies, r = .OK)

/-- `get` is sound just if no `NextBatch` of its scan fails and its rows can be counted in an `int`. -/
theorem get_sound_iff : svc.GetSound ⟨some writer, some tablePtr, tableStatus⟩ key value ↔
    (∀ j < (svc.scanFor key).length, svc.fail j = none) ∧ (svc.scanFor key).flatten.length < 2 ^ 31 := by
  constructor
  · rintro ⟨st, v, s, hreturns, hstop, -, -⟩
    refine (and_iff_left_of_imp fun hfail => length_of_getReturns hfail hreturns).2 fun j hj => ?_
    obtain ⟨fuel, hget⟩ := hreturns
    rw [getFromDatabase_scanner] at hget
    obtain ⟨⟨x, s'⟩, hread, heq⟩ := Option.map_eq_some_iff.1 hget
    cases heq
    obtain ⟨l, hl, hok, herr⟩ := readRows_replies hread
    rw [List.nil_append] at hl
    dsimp only at hok herr hstop hl
    rw [hl] at hstop
    refine Option.eq_none_iff_forall_ne_some.2 fun e he => ?_
    have hle : (svc.scanFor key).length ≤ l.length := hok ▸ List.countP_le_length
    have hj' := herr j e (by omega) (by rwa [List.length_nil, Nat.zero_add])
    have hlast := (hstop j e hj').1
    -- the failed call was not the last: the successful ones number more than those before it
    have hcount : l.countP Status.ok < l.length := by
      refine lt_of_le_of_ne List.countP_le_length fun heq => ?_
      have := List.countP_eq_length.1 heq _ (List.mem_of_getElem? hj')
      cases this
    omega
  · rintro ⟨hfail, hrows⟩
    have hreplies : ∀ r ∈ List.replicate (svc.scanFor key).length Status.OK, r = .OK := fun r hr =>
      List.eq_of_mem_replicate hr
    refine ⟨_, _, _, getReturns_scanner hfail hrows, fun j e hj => ?_, fun e he _ => ⟨hreplies, fun b hb => ?_⟩,
      fun _ => hreplies⟩
    · cases hreplies _ (List.mem_of_getElem? hj)
    · split_ifs at he with hempty
      rw [List.length_eq_zero_iff, List.flatten_eq_nil_iff] at hempty
      exact hempty b hb

/-- The scan of one row, whose first `NextBatch` times out. -/
def flaky : ScanService where
  schema := stringSchema
  addPredicate _ := .OK
  batches _ := [[stringRow (bytes "a") (bytes "1")]]
  fail n := if n = 0 then some ⟨.TimedOut, "scan"⟩ else none
  ToDebugString _ := ""

/-- `NextBatch` is called again after its failure, and OK returned. -/
theorem get_unsound : ¬ flaky.GetSound (TableService.oneRowService.database ⟨"t"⟩ .OK) (bytes "a") [] := by
  rintro ⟨st, v, s, hget, hstop, -⟩
  have hreturns : (TableService.oneRowService.database ⟨"t"⟩ .OK).GetReturns flaky.scanner (bytes "a") [] {}
      ((.OK, bytes "1"), { predicates := [keyEqual (bytes "a")], replies := [.error ⟨.TimedOut, "scan"⟩, .OK] }) :=
    ⟨3, rfl⟩
  cases hget.unique hreturns
  cases (hstop 0 ⟨.TimedOut, "scan"⟩ rfl).1

/-! ### The value -/

/-- A row of a table: what it has in its STRING columns, by their names, and what a scan makes of it. -/
structure TableRow where
  named : String → Option Slice
  cells : RowPtr

def TableRow.hasKey (row : TableRow) (key : Slice) : Bool := row.named "key" = some key

/-- A NULL cell, or one of another type, satisfies no predicate. -/
def TableRow.satisfies (row : TableRow) (p : KuduPredicate) : Bool :=
  (row.named p.col_name).any fun cell => p.holds (cell, cell)

/-- The scans of a table: nothing fails once the predicates have been answered, and the rows that satisfy the
accepted ones come in any order and any division into batches. -/
structure Scans (svc : ScanService) (rows : List TableRow) : Prop where
  batches : ∀ ps, (svc.batches ps).flatten.Perm ((rows.filter fun row => ps.all row.satisfies).map TableRow.cells)
  fail : ∀ n, svc.fail n = none

/-- Column 1 of a row as text. -/
def valueOf (svc : ScanService) (row : TableRow) : Status × Slice := getSliceAsString row.cells (svc.schema.type 1) 1 []

/-- What `get` returns is right: OK with `v` only if one row has the key and its column 1 converts to `v`. -/
structure GetRight (svc : ScanService) (rows : List TableRow) (key : Slice) (st : Status) (v : Slice) : Prop where
  value : st = .OK → ∃ row, rows.filter (·.hasKey key) = [row] ∧ svc.valueOf row = (.OK, v)
  rejected : (svc.addPredicate (keyEqual key)).ok = false → st.ok = false
  several : 2 ≤ (rows.filter (·.hasKey key)).length → st.ok = false
  conversion : ∀ row ∈ rows, row.hasKey key = true → (svc.valueOf row).1.ok = false → st.ok = false

/-- Does the scan for `key` return no row, or, with its predicate, a single one whose column 1 converts? -/
def GetFits (svc : ScanService) (rows : List TableRow) (key : Slice) : Prop :=
  if (svc.addPredicate (keyEqual key)).ok then
    rows.filter (·.hasKey key) = [] ∨ ∃ row, rows.filter (·.hasKey key) = [row] ∧ (svc.valueOf row).1 = .OK
  else rows = []

variable {rows : List TableRow}

theorem satisfies_keyEqual (row : TableRow) : row.satisfies (keyEqual key) = row.hasKey key := by
  unfold TableRow.satisfies TableRow.hasKey keyEqual KuduPredicate.holds
  dsimp only
  cases row.named "key" <;> simp

theorem Scans.rows_perm (h : svc.Scans rows) : (svc.scanFor key).flatten.Perm
    ((if (svc.addPredicate (keyEqual key)).ok then rows.filter (·.hasKey key) else rows).map TableRow.cells) := by
  have hperm := h.batches (svc.accepted key)
  unfold accepted at hperm
  unfold scanFor accepted
  split_ifs at hperm ⊢
  · simpa [satisfies_keyEqual] using hperm
  · simpa using hperm

theorem Scans.length_of_fits (h : svc.Scans rows) (hfits : svc.GetFits rows key) :
    (svc.scanFor key).flatten.length < 2 ^ 31 := by
  rw [(@Scans.rows_perm svc key rows h).length_eq, List.length_map]
  unfold GetFits at hfits
  split_ifs at hfits ⊢
  · rcases hfits with hnil | ⟨row, hone, -⟩
    · rw [hnil]
      decide
    · rw [hone, List.length_singleton]
      decide
  · rw [hfits]
    decide

theorem GetRight.of_error {st : Status} {v : Slice} (h : st.ok = false) : svc.GetRight rows key st v :=
  ⟨fun hok => (by rw [hok] at h; cases h), fun _ => h, fun _ => h, fun _ _ _ _ => h⟩

/-- What `get` answers once it has read the rows of its scan. -/
theorem getRight_scan (h : svc.Scans rows) (hrows : (svc.scanFor key).flatten.length < 2 ^ 31) :
    (∃ (st : Status) (v : Slice) (s : ScanState),
    (⟨some writer, some tablePtr, tableStatus⟩ : Database σ).GetReturns svc.scanner key value {} ((st, v), s) ∧
      svc.GetRight rows key st v) ↔
    svc.GetRight rows key (if (svc.scanFor key).flatten.length = 0 then .error (svc.notFound key) else .OK)
      (readValue svc.schema value (svc.scanFor key).flatten) := by
  have hreturns := @getReturns_scanner svc key value σ writer tablePtr tableStatus (fun j _ => h.fail j) hrows
  constructor
  · rintro ⟨st, v, s, hget, hr⟩
    cases hget.unique hreturns
    exact hr
  · intro hr
    exact ⟨_, _, _, hreturns, hr⟩

/-- One row has the key: its column 1 has to convert. -/
theorem getRight_one {row : TableRow} (hadd : (svc.addPredicate (keyEqual key)).ok = true)
    (hrows : rows.filter (·.hasKey key) = [row]) :
    svc.GetRight rows key .OK (svc.valueOf row).2 ↔ (svc.valueOf row).1 = .OK := by
  constructor
  · intro hr
    have hmem : row ∈ rows ∧ row.hasKey key = true := List.mem_filter.1 (hrows ▸ List.mem_singleton_self row)
    -- a failed conversion would have to be reported
    refine Status.ok_iff.1 (eq_true_of_ne_false fun hno => ?_)
    cases hr.conversion row hmem.1 hmem.2 hno
  · intro hok
    refine ⟨fun _ => ⟨row, hrows, Prod.ext hok rfl⟩, fun hno => ?_, fun hlt => ?_, fun r hr hkey hno => ?_⟩
    · rw [hadd] at hno
      cases hno
    · rw [hrows] at hlt
      exact absurd hlt (by simp)
    · have hmem : r ∈ rows.filter (·.hasKey key) := List.mem_filter.2 ⟨hr, hkey⟩
      rw [hrows, List.mem_singleton] at hmem
      rw [hmem, hok] at hno
      cases hno

theorem getRight_accepted (h : svc.Scans rows) (hadd : (svc.addPredicate (keyEqual key)).ok = true) :
    svc.GetRight rows key (if (svc.scanFor key).flatten.length = 0 then .error (svc.notFound key) else .OK)
        (readValue svc.schema value (svc.scanFor key).flatten) ↔
      rows.filter (·.hasKey key) = [] ∨ ∃ row, rows.filter (·.hasKey key) = [row] ∧ (svc.valueOf row).1 = .OK := by
  have hperm := @Scans.rows_perm svc key rows h
  rw [if_pos hadd] at hperm
  rcases hrows : rows.filter (·.hasKey key) with _ | ⟨row, _ | ⟨row', rest⟩⟩
  · rw [hrows] at hperm
    rw [hperm.length_eq]
    exact iff_of_true (.of_error rfl) (.inl hrows)
  · rw [hrows, List.map_singleton] at hperm
    rw [List.perm_singleton.1 hperm]
    refine (getRight_one hadd hrows).trans ?_
    rw [hrows]
    simp
  · rw [hrows] at hperm
    have hlen := hperm.length_eq
    rw [List.length_map, List.length_cons, List.length_cons] at hlen
    rw [if_neg (by omega)]
    refine iff_of_false (fun hr => ?_) (by rw [hrows]; simp)
    cases hr.several (by rw [hrows]; simp)

theorem getRight_rejected (h : svc.Scans rows) (hadd : (svc.addPredicate (keyEqual key)).ok = false) :
    svc.GetRight rows key (if (svc.scanFor key).flatten.length = 0 then .error (svc.notFound key) else .OK)
        (readValue svc.schema value (svc.scanFor key).flatten) ↔ rows = [] := by
  have hlen := (@Scans.rows_perm svc key rows h).length_eq
  rw [hadd, if_neg Bool.noConfusion, List.length_map] at hlen
  rw [hlen]
  by_cases hrows : rows = []
  · rw [if_pos (List.length_eq_zero_iff.2 hrows)]
    exact iff_of_true (.of_error rfl) hrows
  · rw [if_neg (mt List.length_eq_zero_iff.1 hrows)]
    refine iff_of_false (fun hr => ?_) hrows
    cases hr.rejected hadd

/-- `get` returns the right value just if its scan returns no row, or, its predicate accepted, a single one whose
column 1 converts. -/
theorem get_right_iff (h : svc.Scans rows) : (∃ (st : Status) (v : Slice) (s : ScanState),
    (⟨some writer, some tablePtr, tableStatus⟩ : Database σ).GetReturns svc.scanner key value {} ((st, v), s) ∧
      svc.GetRight rows key st v) ↔ svc.GetFits rows key := by
  by_cases hlen : (svc.scanFor key).flatten.length < 2 ^ 31
  swap
  · refine iff_of_false ?_ fun hfits => hlen (h.length_of_fits hfits)
    rintro ⟨st, v, s, hget, -⟩
    exact hlen (length_of_getReturns (fun j _ => h.fail j) hget)
  rw [getRight_scan h hlen]
  unfold GetFits
  cases hadd : (svc.addPredicate (keyEqual key)).ok with
  | true =>
    rw [if_pos rfl]
    exact getRight_accepted h hadd
  | false =>
    rw [if_neg (c := false = true) Bool.noConfusion]
    exact getRight_rejected h hadd

/-- A scan of `rows` in one batch. -/
def scanOnce (addPredicate : KuduPredicate → Status) (rows : List TableRow) : ScanService where
  schema := stringSchema
  addPredicate := addPredicate
  batches ps := [(rows.filter fun row => ps.all row.satisfies).map TableRow.cells]
  ToDebugString _ := ""

theorem scans_once (addPredicate : KuduPredicate → Status) (rows : List TableRow) :
    (scanOnce addPredicate rows).Scans rows :=
  ⟨fun _ => by rw [scanOnce, List.flatten_singleton], fun _ => rfl⟩

def stringTableRow (column : String) (key value : Slice) : TableRow where
  named c := if c = column then some key else if c = "value" then some value else none
  cells := stringRow key value

theorem get_right_iff_one : (∃ (st : Status) (v : Slice) (s : ScanState),
    (TableService.oneRowService.database ⟨"t"⟩ .OK).GetReturns
      (scanOnce (fun _ => .OK) [stringTableRow "key" (bytes "a") (bytes "1")]).scanner (bytes "a") [] {} ((st, v), s) ∧
      (scanOnce (fun _ => .OK) [stringTableRow "key" (bytes "a") (bytes "1")]).GetRight
        [stringTableRow "key" (bytes "a") (bytes "1")] (bytes "a") st v) ↔
    (scanOnce (fun _ => .OK) [stringTableRow "key" (bytes "a") (bytes "1")]).GetFits
      [stringTableRow "key" (bytes "a") (bytes "1")] (bytes "a") :=
  get_right_iff (scans_once _ _)

def noKeyColumn : ScanService :=
  scanOnce (fun _ => .error ⟨.NotFound, "column not found"⟩) [stringTableRow "id" (bytes "a") (bytes "1")]

/-- In a table without a column `key` the value of its one row is returned for any key. -/
theorem get_wrong_value : noKeyColumn.Scans [stringTableRow "id" (bytes "a") (bytes "1")] ∧
    ¬ ∃ (st : Status) (v : Slice) (s : ScanState),
      (TableService.oneRowService.database ⟨"t"⟩ .OK).GetReturns noKeyColumn.scanner (bytes "b") [] {} ((st, v), s) ∧
        noKeyColumn.GetRight [stringTableRow "id" (bytes "a") (bytes "1")] (bytes "b") st v := by
  refine ⟨scans_once _ _, ?_⟩
  rintro ⟨st, v, s, hget, hr⟩
  have hreturns : (TableService.oneRowService.database ⟨"t"⟩ .OK).GetReturns noKeyColumn.scanner (bytes "b") [] {}
      ((.OK, bytes "1"), { replies := [.OK] }) := ⟨2, rfl⟩
  cases hget.unique hreturns
  cases hr.rejected rfl

end ScanService

end Kududown
