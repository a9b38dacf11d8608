import Kududown.Apart

/-!
# What an iterator fetches

`Iterator.fetches` is what a call of `IteratorNext` takes off the scanner. `Got` is the account of any number of calls
without a limit: the rows that they hand out are the rows that they fetch, each once and in order, but for those that
are still to be read (`Got.scans`). When a call fails, the rows that it has read are dropped.
-/

namespace Kududown

/-- The rows of what was fetched. -/
def fetchedRows (fetched : List BatchReply) : List RowPtr :=
  fetched.flatMap fun
    | .ok rows => rows
    | .error _ => []

/-- The replies up to the first batch with rows, or the first failure. -/
def taken : List BatchReply → List BatchReply
  | .ok [] :: replies => .ok [] :: taken replies
  | reply :: _ => [reply]
  | [] => []

theorem fetchedRows_append (fetched fetched' : List BatchReply) :
    fetchedRows (fetched ++ fetched') = fetchedRows fetched ++ fetchedRows fetched' := List.flatMap_append

/-- The rows that a worker reports. -/
def Report.rows : Report → List (Slice × Slice)
  | .ok rows _ => rows
  | .error _ => []

def reportedRows (reports : List Report) : List (Slice × Slice) := reports.flatMap Report.rows

theorem reportedRows_append (reports reports' : List Report) :
    reportedRows (reports ++ reports') = reportedRows reports ++ reportedRows reports' := List.flatMap_append

theorem reportedRows_concat (reports : List Report) (report : Report) :
    reportedRows (reports ++ [report]) = reportedRows reports ++ report.rows := by
  rw [reportedRows_append]
  exact congrArg _ (List.append_nil _)

theorem reportedRows_errors (errors : List Failure) : reportedRows (errors.map .error) = [] := by
  refine List.flatMap_eq_nil_iff.2 fun report hreport => ?_
  obtain ⟨e, -, rfl⟩ := List.mem_map.1 hreport
  rfl

/-- The rows as they are read. -/
def okRows (rows : List (Slice × Slice)) : List (Except Failure (Slice × Slice)) := rows.map .ok

theorem okRows_append (rows rows' : List (Slice × Slice)) : okRows (rows ++ rows') = okRows rows ++ okRows rows' :=
  List.map_append

namespace Iterator

/-- What `IteratorNext` takes off the scanner. -/
def fetches (openScan : ScanSpec → OpenReply) (tablePtr : Option KuduTable) (it : Iterator) : List BatchReply :=
  let it := (it.createScanner openScan tablePtr).2
  match it.scanner with
  | none => []
  | some scanner =>
    if it.iteratorStatus.ok = false then []
    else if it.limit > 0 ∧ (it.totalRowCount : Int) ≥ it.limit then []
    else if it.currentRowCount ≥ it.batchRowCount then taken scanner.replies
    else []

/-- What it takes off when it is called with these scans one after the other. -/
def fetched (it : Iterator) : List Scan → List BatchReply
  | [] => []
  | (openScan, tablePtr) :: scans =>
    it.fetches openScan tablePtr ++ (it.iteratorNext openScan tablePtr).iterator.fetched scans

/-- The iterator after these scans. -/
def scanned (it : Iterator) : List Scan → Iterator
  | [] => it
  | (openScan, tablePtr) :: scans => (it.iteratorNext openScan tablePtr).iterator.scanned scans

variable {it : Iterator} {scanner : KuduScanner} {replies got : List BatchReply} {reports : List Report}
  {openScan : ScanSpec → OpenReply} {tablePtr : Option KuduTable} {e : Failure} {res : NextResult}

/-- The refill loop, started at an empty batch: what it took is the new batch. -/
theorem nextBatches_taken (hn : it.batchRowCount = 0) :
    (it.nextBatches scanner replies).2.schema = it.schema ∧
      ((it.nextBatches scanner replies).1 = true → (∀ e, .error e ∉ taken replies) ∧
        fetchedRows (taken replies) =
          (it.nextBatches scanner replies).2.batch.take (it.nextBatches scanner replies).2.batchRowCount) ∧
      ((it.nextBatches scanner replies).1 = false → fetchedRows (taken replies) = []) := by
  induction replies generalizing it with
  | nil =>
    refine ⟨rfl, fun _ => ⟨fun e => List.not_mem_nil, ?_⟩, fun h => (by cases h)⟩
    show [] = it.batch.take it.batchRowCount
    rw [hn, List.take_zero]
  | cons reply replies ih =>
    rcases reply with e | rows
    · exact ⟨rfl, fun h => (by cases h), fun _ => rfl⟩
    · unfold nextBatches
      dsimp only
      split_ifs with hrows
      · obtain rfl := List.length_eq_zero_iff.1 hrows
        obtain ⟨hschema, hall, hfail⟩ := @ih { it with
          iteratorStatus := .OK, nexting := true, batch := [], batchRowCount := 0,
          totalRowCount := it.totalRowCount + 0 } rfl
        refine ⟨hschema, fun h => ⟨fun e he => ?_, (hall h).2⟩, hfail⟩
        exact (hall h).1 e ((List.mem_cons.1 he).resolve_left fun heq => (by cases heq))
      · obtain ⟨row, rows, rfl⟩ := List.exists_cons_of_ne_nil (mt List.length_eq_zero_iff.2 hrows)
        refine ⟨rfl, fun _ => ⟨fun e he => (by cases List.mem_singleton.1 he), ?_⟩, fun h => (by cases h)⟩
        simp [taken, fetchedRows]

/-! ### The account -/

/-- `got` is what the calls so far have fetched, and `reports` what they have reported. -/
inductive Got (got : List BatchReply) (reports : List Report) (it : Iterator) : Prop
  | unopened {errors : List Failure} (hfresh : it.Fresh) (hgot : got = []) (hreports : reports = errors.map .error)
  | reading {scanner : KuduScanner} (hscanner : it.scanner = some scanner) (hok : it.iteratorStatus = .OK)
      (hrows : it.batchRowCount ≤ it.batch.length) (herr : ∀ e, .error e ∉ got)
      (hgot : okRows (reportedRows reports) ++ it.unread.map (rowPair it.schema) =
        (fetchedRows got).map (rowPair it.schema))
      (hend : .ok [] false ∈ reports → scanner.replies = [] ∧ it.unread = [])
  | failed {scanner : KuduScanner} {e : Failure} (hscanner : it.scanner = some scanner)
      (he : it.iteratorStatus = .error e)
      (hgot : okRows (reportedRows reports) <+: (fetchedRows got).map (rowPair it.schema)) (hend : .ok [] false ∉ reports)

theorem report_rows (h : res.exit = .rows) : res.report = .ok res.result true := by
  unfold NextResult.report NextResult.ret
  rw [h]
  rfl

theorem report_error (h : res.exit ≠ .rows) (he : res.iterator.iteratorStatus = .error e) : res.report = .error e := by
  unfold NextResult.report NextResult.ret NextResult.status
  rw [decide_eq_false h, he]
  rfl

theorem not_ended_concat {report : Report} (hend : .ok [] false ∉ reports) (hreport : report ≠ .ok [] false) :
    .ok [] false ∉ reports ++ [report] := by
  rw [List.mem_append, List.mem_singleton]
  rintro (hmem | heq)
  · exact hend hmem
  · exact hreport heq.symm

/-- A call that fails. -/
theorem got_error {it' : Iterator} (hscanner : it'.scanner = some scanner) (he : it'.iteratorStatus = .error e)
    (hgot : okRows (reportedRows reports) <+: (fetchedRows got).map (rowPair it'.schema))
    (hend : .ok [] false ∉ reports) : Got got (reports ++ [.error e]) it' := by
  refine .failed hscanner he ?_ (not_ended_concat hend Report.noConfusion)
  rw [reportedRows_concat]
  show okRows (reportedRows reports ++ []) <+: _
  rw [List.append_nil]
  exact hgot

/-- A call that reads of the rows that there are. -/
theorem got_readRows (hscanner : it.scanner = some scanner) (hok : it.iteratorStatus = .OK)
    (hrows : it.batchRowCount ≤ it.batch.length) (herr : ∀ e, .error e ∉ got)
    (hgot : okRows (reportedRows reports) ++ it.unread.map (rowPair it.schema) = (fetchedRows got).map (rowPair it.schema))
    (hend : .ok [] false ∉ reports) :
    Got got (reports ++ [(it.readRows 0 [] it.unread).report]) (it.readRows 0 [] it.unread).iterator := by
  cases hfill : fill pairSize it.highWaterMark 0 (it.unread.map (rowPair it.schema)) with
  | error e =>
    obtain ⟨x, n, res, hx, heq⟩ := @readRows_of_fill_error it 0 [] it.unread e hok hfill
    rw [heq, @report_error e _ (by rcases hx with rfl | rfl <;> exact Exit.noConfusion) rfl]
    refine got_error hscanner rfl ?_ hend
    exact ⟨_, hgot⟩
  | ok p =>
    obtain ⟨c, rest⟩ := p
    have hunread : it.unread.map (rowPair it.schema) = okRows c ++ rest := (fill_eq_ok hfill).1
    have hrest : rest = (it.unread.drop c.length).map (rowPair it.schema) := by
      rw [List.map_drop, hunread]
      exact (List.drop_left' (List.length_map _)).symm
    have hleft : ({ it with nexting := true, currentRowCount := it.currentRowCount + c.length } : Iterator).unread =
        it.unread.drop c.length := by
      unfold unread
      rw [List.drop_drop]
    rw [readRows_of_fill_ok hok hfill, List.nil_append, @report_rows ⟨_, _, c⟩ rfl]
    refine @Got.reading _ _ _ scanner hscanner hok hrows herr ?_ fun hmem => ?_
    · rw [hleft, reportedRows_concat, okRows_append, List.append_assoc]
      show _ ++ (okRows c ++ _) = _
      rw [← hrest, ← hunread]
      exact hgot
    · exact absurd hmem (not_ended_concat hend fun heq => (by cases heq))

theorem fetches_of_scanner (hscanner : it.scanner = some scanner) (hok : it.iteratorStatus = .OK) (hlimit : it.limit < 0) :
    it.fetches openScan tablePtr = if it.currentRowCount ≥ it.batchRowCount then taken scanner.replies else [] := by
  unfold fetches createScanner
  simp only [hscanner, hok]
  rw [if_neg (by exact Bool.noConfusion), if_neg fun h => by omega]

theorem next_of_scanner (hscanner : it.scanner = some scanner) : it.iteratorNext openScan tablePtr = it.nextFrom scanner := by
  unfold iteratorNext createScanner
  simp only [hscanner]

/-- A call that fetches. -/
theorem got_fetch {p : Bool × Iterator} {reports : List Report} (hp : nextBatches { it with
      batchRowCount := 0, currentRowCount := 0 } scanner scanner.replies = p) (hok : it.iteratorStatus = .OK)
    (herr : ∀ e, .error e ∉ got)
    (hgot : okRows (reportedRows reports) = (fetchedRows got).map (rowPair it.schema))
    (hend : .ok [] false ∈ reports → scanner.replies = []) :
    Got (got ++ taken scanner.replies) (reports ++ [(processBatch p).report]) (processBatch p).iterator := by
  have hfetched := @nextBatches_fetched { it with batchRowCount := 0, currentRowCount := 0 } scanner scanner.replies
    it.highWaterMark hok rfl rfl
  obtain ⟨hschema, htaken, hnone⟩ := @nextBatches_taken { it with batchRowCount := 0, currentRowCount := 0 } scanner
    scanner.replies rfl
  have hempty : scanner.replies = [] → p.1 = true ∧ p.2.batchRowCount = 0 := by
    intro hreplies
    rw [← hp, hreplies]
    exact ⟨rfl, rfl⟩
  rw [hp] at hfetched hschema htaken hnone
  obtain ⟨b, it'⟩ := p
  replace hschema : it'.schema = it.schema := hschema
  unfold processBatch
  cases hfetched with
  | @nothing _ s hok' hn hs hr =>
    obtain ⟨herr', hrows⟩ := htaken rfl
    replace hrows : fetchedRows (taken scanner.replies) = it'.batch.take it'.batchRowCount := hrows
    rw [hn, List.take_zero] at hrows
    dsimp only
    rw [if_pos hn]
    have hunread : ({ it' with nexting := false } : Iterator).unread = [] := unread_eq_nil (by rw [hn]; exact Nat.zero_le _)
    have hreport : (⟨.nothingLeft, { it' with nexting := false }, []⟩ : NextResult).report = .ok [] false := by
      unfold NextResult.report NextResult.ret NextResult.status
      rw [hok']
      rfl
    rw [hreport]
    refine @Got.reading _ _ _ s hs hok' (by rw [hn]; exact Nat.zero_le _) (fun e he => ?_) ?_ fun _ => ⟨hr, hunread⟩
    · exact (List.mem_append.1 he).elim (herr e) (herr' e)
    · rw [hunread, fetchedRows_append, hrows, reportedRows_concat]
      show okRows (reportedRows reports ++ []) ++ [] = (fetchedRows got ++ []).map (rowPair it'.schema)
      rw [List.append_nil, List.append_nil, List.append_nil, hschema, hgot]
  | @failed _ s e he hn hs =>
    have hreport : (⟨.nextBatchFailed, it', []⟩ : NextResult).report = .error e := report_error Exit.noConfusion he
    dsimp only
    rw [hreport]
    refine got_error hs he ?_ fun hmem => absurd (hempty (hend hmem)).1 Bool.noConfusion
    rw [fetchedRows_append, hnone rfl, List.append_nil, hschema, hgot]
  | @rows _ s hok' hne hn hc ht hsame hs =>
    obtain ⟨herr', hrows⟩ := htaken rfl
    have hunread : it'.unread = it'.batch := by
      unfold unread
      rw [hn, hc, List.take_length, List.drop_zero]
    have hpos : it'.batchRowCount ≠ 0 := hn ▸ mt List.length_eq_zero_iff.1 hne
    dsimp only
    rw [if_neg hpos]
    refine got_readRows hs hok' hn.le (fun e he => (List.mem_append.1 he).elim (herr e) (herr' e)) ?_
      fun hmem => hpos (hempty (hend hmem)).2
    replace hrows : fetchedRows (taken scanner.replies) = it'.batch.take it'.batchRowCount := hrows
    rw [fetchedRows_append, hrows, hn, List.take_length, hunread, List.map_append, hschema, hgot]

/-- The next call with an open scanner in which nothing has failed. -/
theorem got_reading (hscanner : it.scanner = some scanner) (hok : it.iteratorStatus = .OK) (hlimit : it.limit < 0)
    (hrows : it.batchRowCount ≤ it.batch.length) (herr : ∀ e, .error e ∉ got)
    (hgot : okRows (reportedRows reports) ++ it.unread.map (rowPair it.schema) = (fetchedRows got).map (rowPair it.schema))
    (hend : .ok [] false ∈ reports → scanner.replies = [] ∧ it.unread = []) :
    Got (got ++ it.fetches openScan tablePtr) (reports ++ [(it.iteratorNext openScan tablePtr).report])
      (it.iteratorNext openScan tablePtr).iterator := by
  have hfull : ¬ (it.limit > 0 ∧ (it.totalRowCount : Int) ≥ it.limit) := fun h => by omega
  rw [fetches_of_scanner hscanner hok hlimit, next_of_scanner hscanner]
  by_cases hread : it.currentRowCount ≥ it.batchRowCount
  · rw [unread_eq_nil hread, List.map_nil, List.append_nil] at hgot
    rw [if_pos hread, nextFrom_fetch hok hfull hread]
    exact got_fetch rfl hok herr hgot fun hmem => (hend hmem).1
  · have hne := unread_ne_nil hrows (Nat.lt_of_not_le hread)
    have hnext : it.nextFrom scanner = it.readRows 0 [] it.unread := by
      unfold nextFrom
      rw [if_neg (by rw [hok]; exact Bool.noConfusion), if_neg hfull, if_neg hread]
    rw [if_neg hread, List.append_nil, hnext]
    exact got_readRows hscanner hok hrows herr hgot fun hmem => hne (hend hmem).2

/-- One more call. -/
theorem Got.next (h : Got got reports it) (hlimit : it.limit < 0) :
    Got (got ++ it.fetches openScan tablePtr) (reports ++ [(it.iteratorNext openScan tablePtr).report])
      (it.iteratorNext openScan tablePtr).iterator := by
  cases h with
  | @unopened errors hfresh hgot hreports =>
    subst hgot hreports
    rcases hopen : openScan (it.scanSpec tablePtr) with e | ⟨schema, replies⟩
    · have hfetches : it.fetches openScan tablePtr = [] := by
        unfold scanSpec at hopen
        unfold fetches createScanner
        simp only [hfresh.scanner, hopen]
      rw [hfresh.next_error hopen, hfetches, @report_error e _ Exit.noConfusion rfl]
      refine @Got.unopened _ _ _ (errors ++ [e]) ?_ rfl (by rw [List.map_append]; rfl)
      exact ⟨hfresh.scanner, hfresh.batchRowCount, hfresh.currentRowCount, hfresh.totalRowCount⟩
    · have hfetches : it.fetches openScan tablePtr = (it.opened tablePtr schema replies).fetches openScan tablePtr := by
        unfold scanSpec at hopen
        unfold opened fetches createScanner
        simp only [hfresh.scanner, hopen]
      rw [hfresh.next_opened hopen, hfetches]
      have hunread : (it.opened tablePtr schema replies).unread = [] := unread_eq_nil (by simp [opened, hfresh.batchRowCount])
      refine got_reading rfl rfl hlimit hfresh.batchRowCount.le (fun e => List.not_mem_nil) ?_ fun hmem => ?_
      · rw [hunread, reportedRows_errors]
        rfl
      · obtain ⟨e, -, heq⟩ := List.mem_map.1 hmem
        cases heq
  | reading hscanner hok hrows herr hgot hend => exact got_reading hscanner hok hlimit hrows herr hgot hend
  | @failed scanner e hscanner he hgot hend =>
    have hnext : it.iteratorNext openScan tablePtr = ⟨.statusNotOk, { it with nexting := false }, []⟩ := by
      rw [next_of_scanner hscanner]
      unfold nextFrom
      rw [if_pos (by rw [he]; rfl)]
    have hfetches : it.fetches openScan tablePtr = [] := by
      unfold fetches createScanner
      simp only [hscanner, he]
      rfl
    rw [hnext, hfetches, List.append_nil, @report_error e _ Exit.noConfusion he]
    exact got_error hscanner he hgot hend

/-- Any number of calls. -/
theorem Got.scans (h : Got got reports it) (hlimit : it.limit < 0) (scans : List Scan) :
    Got (got ++ it.fetched scans) (reports ++ it.replay scans) (it.scanned scans) := by
  induction scans generalizing got reports it with
  | nil =>
    rw [fetched, replay, List.append_nil, List.append_nil]
    exact h
  | cons scan scans ih =>
    obtain ⟨openScan, tablePtr⟩ := scan
    have hframe := @iteratorNext_frame it openScan tablePtr
    have hrest := ih (h.next hlimit) (hframe.limit ▸ hlimit)
    rw [List.append_assoc, List.append_assoc] at hrest
    exact hrest

theorem Got.unscanned (h : Got got reports it) (hscanner : it.scanner = none) : got = [] := by
  cases h with
  | unopened _ hgot => exact hgot
  | reading hs => cases hscanner.symm.trans hs
  | failed hs => cases hscanner.symm.trans hs

/-- What is reported is fetched, in this order. -/
theorem Got.handed (h : Got got reports it) : okRows (reportedRows reports) <+: (fetchedRows got).map (rowPair it.schema) := by
  cases h with
  | unopened _ _ hreports =>
    rw [hreports, reportedRows_errors]
    exact List.nil_prefix
  | reading _ _ _ _ hgot => exact ⟨_, hgot⟩
  | failed _ _ hgot => exact hgot

/-- Once the end has been reported the scanner has nothing left, and everything that was fetched is reported. -/
theorem Got.ended (h : Got got reports it) (hend : .ok [] false ∈ reports) :
    (∃ scanner, it.scanner = some scanner ∧ scanner.replies = []) ∧ (∀ e, .error e ∉ got) ∧
      okRows (reportedRows reports) = (fetchedRows got).map (rowPair it.schema) := by
  cases h with
  | unopened _ _ hreports =>
    rw [hreports] at hend
    obtain ⟨e, -, heq⟩ := List.mem_map.1 hend
    cases heq
  | reading hscanner _ _ herr hgot hended =>
    obtain ⟨hreplies, hunread⟩ := hended hend
    rw [hunread, List.map_nil, List.append_nil] at hgot
    exact ⟨⟨_, hscanner, hreplies⟩, herr, hgot⟩
  | failed _ _ _ hnot => exact absurd hend hnot

end Iterator

end Kududown
