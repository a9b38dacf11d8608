import Kududown.Table

/-!
# A batch, call by call

`session outcome` is a client whose `n`-th call, counting `SetString`, `Apply` and `Flush`, comes back with
`outcome n`; what `Flush` finds buffered reaches the table, what `Close` finds is discarded. `plan` lists the calls
that a batch makes as long as none fails, and `follow` runs such a list, so a batch is settled by the first call
of its plan that fails: `batch_atomic_iff` says when nothing of it has reached the table then, and
`batch_reports_iff` when its status can be relied on.
-/

namespace Kududown

inductive KuduCall
  | SetString (i : Nat) (value : Slice)
  | Apply (w : KuduWriteOperation)
  | Flush

/-- The calls made so far with what they came back with, the buffered writes, and those that have reached the
table. -/
structure SessionState where
  mode : FlushMode := .AUTO_FLUSH_SYNC
  calls : List (KuduCall × Status) := []
  buffer : List KuduWriteOperation := []
  table : List KuduWriteOperation := []

namespace SessionState

def called (s : SessionState) (c : KuduCall) (st : Status) : SessionState :=
  { s with calls := s.calls ++ [(c, st)] }

def accept (s : SessionState) (w : KuduWriteOperation) : SessionState :=
  match s.mode with
  | .AUTO_FLUSH_SYNC => { s with table := s.table ++ [w] }
  | _ => { s with buffer := s.buffer ++ [w] }

end SessionState

def session (outcome : Nat → Status) : KuduClient SessionState where
  NewSession s := { s with mode := .AUTO_FLUSH_SYNC, buffer := [] }
  SetFlushMode mode s := { s with mode }
  SetString row i value s :=
    let st := outcome s.calls.length
    ((st, if st.ok then row.insert i value else row), s.called (.SetString i value) st)
  Apply w s :=
    let st := outcome s.calls.length
    let s := s.called (.Apply w) st
    (st, if st.ok then s.accept w else s)
  Flush s :=
    let st := outcome s.calls.length
    (st, { s.called .Flush st with table := s.table ++ s.buffer, buffer := [] })
  Close s := { s with buffer := [] }
  ToString e := e.message

/-! ### The plan of a batch -/

/-- A call to come; `Unknown` is the `Flush` at an operation that is neither 'p' nor 'd'. -/
inductive Planned
  | SetString (i : Nat) (value : Slice)
  | Apply (w : KuduWriteOperation)
  | Unknown
  | Flush

namespace Planned

def call : Planned → KuduCall
  | SetString i value => .SetString i value
  | Apply w => .Apply w
  | Unknown => .Flush
  | Flush => .Flush

/-- Does the batch stop at this call, if it comes back with `st`, before its last `Flush`? -/
def fails (st : Status) : Planned → Bool
  | SetString _ _ => !st.ok
  | Apply _ => !st.ok
  | Unknown => true
  | Flush => false

def applied : Planned → Option KuduWriteOperation
  | Apply w => some w
  | _ => none

def isOperation : Planned → Bool
  | SetString _ _ | Apply _ => true
  | Unknown | Flush => false

end Planned

def setStringPlan (y : Nat) : List Slice → List Planned
  | [] => []
  | v :: vs => .SetString y v :: setStringPlan (y + 1) vs

def opPlan (w : KuduWriteOperation) (op : BatchOp) : List Planned :=
  setStringPlan 0 op.keys ++ setStringPlan 0 op.values ++
    [.Apply { w with row := TableService.setAll (TableService.setAll w.row 0 op.keys) 0 op.values }]

def plan (table : KuduTable) : List BatchOp → List Planned
  | [] => [.Flush]
  | op :: ops =>
    match table.newWrite op.op with
    | none => [.Unknown]
    | some w => opPlan w op ++ plan table ops

/-- Make the planned calls until one fails. -/
def follow (outcome : Nat → Status) : List Planned → SessionState → Status × SessionState
  | [], s => (.OK, s)
  | .SetString i value :: ps, s =>
    match outcome s.calls.length with
    | .OK => follow outcome ps (s.called (.SetString i value) .OK)
    | .error e => (session outcome).flushAndClose (s.called (.SetString i value) (.error e))
  | .Apply w :: ps, s =>
    match outcome s.calls.length with
    | .OK => follow outcome ps ((s.called (.Apply w) .OK).accept w)
    | .error e => (.error e, (session outcome).Close (s.called (.Apply w) (.error e)))
  | .Unknown :: _, s =>
    match (session outcome).flushAndClose s with
    | (.error e, s) => (.error e, s)
    | (.OK, s) => (.InvalidArgument "Unknown batch operation ''. Batch operations must be either 'p' or 'd'.", s)
  | .Flush :: _, s => (session outcome).flushAndClose s

/-- `p` is the first call of the plan that fails; the calls `pre` come before it. -/
structure StopsAt (outcome : Nat → Status) (ps pre : List Planned) (p : Planned) : Prop where
  isPrefix : pre ++ [p] <+: ps
  fails : p.fails (outcome pre.length) = true
  before : ∀ (j : Nat) (q : Planned), pre[j]? = some q → q.fails (outcome j) = false

variable {outcome : Nat → Status} {table : KuduTable} {tableStatus : Status} {ops : List BatchOp} {batch : WriteBatch}
  {ps pre qs : List Planned} {p : Planned} {s : SessionState} {row : KuduPartialRow} {y n : Nat} {cols : List Slice}

theorem SetString_ok {i : Nat} {value : Slice} (h : outcome s.calls.length = .OK) :
    (session outcome).SetString row i value s = ((.OK, row.insert i value), s.called (.SetString i value) .OK) := by
  unfold session
  simp [h]

theorem SetString_error {i : Nat} {value : Slice} {e : Failure} (h : outcome s.calls.length = .error e) :
    (session outcome).SetString row i value s = ((.error e, row), s.called (.SetString i value) (.error e)) := by
  unfold session
  simp [h]

theorem flushAndClose_session : (session outcome).flushAndClose s = (outcome s.calls.length,
    { s.called .Flush (outcome s.calls.length) with table := s.table ++ s.buffer, buffer := [] }) := rfl

theorem setStrings_row (h : ((session outcome).setStrings row y cols s).1.1 = true) :
    ((session outcome).setStrings row y cols s).1.2 = TableService.setAll row y cols := by
  induction cols generalizing row y s with
  | nil => rfl
  | cons v vs ih =>
    unfold KuduClient.setStrings at h ⊢
    cases hst : outcome s.calls.length with
    | OK =>
      rw [SetString_ok hst] at h ⊢
      exact ih h
    | error e =>
      rw [SetString_error hst] at h
      cases h

theorem follow_setStrings (row : KuduPartialRow) : follow outcome (setStringPlan y cols ++ ps) s =
    if ((session outcome).setStrings row y cols s).1.1 then
      follow outcome ps ((session outcome).setStrings row y cols s).2
    else (session outcome).flushAndClose ((session outcome).setStrings row y cols s).2 := by
  induction cols generalizing row y s with
  | nil => rfl
  | cons v vs ih =>
    unfold KuduClient.setStrings setStringPlan
    rw [List.cons_append, follow]
    cases hst : outcome s.calls.length with
    | OK =>
      rw [SetString_ok hst]
      exact ih _
    | error e =>
      rw [SetString_error hst]
      rfl

/-- `WriteBatchToDatabase` follows the plan of its batch. -/
theorem writeOps_follow : (session outcome).writeOps table ops s = follow outcome (plan table ops) s := by
  induction ops generalizing s with
  | nil => rfl
  | cons op ops ih =>
    unfold KuduClient.writeOps plan
    cases table.newWrite op.op with
    | none =>
      dsimp only
      rw [follow]
      rcases (session outcome).flushAndClose s with ⟨_ | e, s⟩ <;> rfl
    | some w =>
      unfold opPlan KuduClient.setColumns
      dsimp only
      rw [List.append_assoc, List.append_assoc, follow_setStrings w.row]
      have hkeys := @setStrings_row outcome s w.row 0 op.keys
      generalize (session outcome).setStrings w.row 0 op.keys s = r at hkeys ⊢
      obtain ⟨⟨b, row⟩, s⟩ := r
      cases b with
      | false => rfl
      | true =>
        rw [← hkeys rfl]
        dsimp only
        rw [if_pos rfl, follow_setStrings row]
        have hvalues := @setStrings_row outcome s row 0 op.values
        generalize (session outcome).setStrings row 0 op.values s = r at hvalues ⊢
        obtain ⟨⟨b, row'⟩, s⟩ := r
        cases b with
        | false => rfl
        | true =>
          rw [← hvalues rfl]
          dsimp only
          rw [if_pos rfl, List.singleton_append, follow]
          unfold session
          dsimp only
          cases outcome s.calls.length with
          | OK => exact ih
          | error e => rfl

/-! ### Up to the first failure -/

/-- The state after some planned calls, none of which failed. -/
def SessionState.after (s : SessionState) (ps : List Planned) : SessionState :=
  { s with
    calls := s.calls ++ ps.map fun p => (p.call, .OK)
    buffer := s.buffer ++ ps.filterMap Planned.applied }

@[simp] theorem SessionState.length_calls_after : (s.after ps).calls.length = s.calls.length + ps.length := by
  simp [SessionState.after]

theorem plan_shape (table : KuduTable) (ops : List BatchOp) : ∃ body last, plan table ops = body ++ [last] ∧
    (∀ p ∈ body, p.isOperation = true) ∧ last.isOperation = false := by
  have hstrings : ∀ (cols : List Slice) (y : Nat), ∀ p ∈ setStringPlan y cols, p.isOperation = true := by
    intro cols
    induction cols with
    | nil => exact fun y p hp => by cases hp
    | cons v vs ih =>
      intro y p hp
      rcases List.mem_cons.1 hp with rfl | hp
      · rfl
      · exact ih (y + 1) p hp
  induction ops with
  | nil => exact ⟨[], .Flush, rfl, fun p hp => (by cases hp), rfl⟩
  | cons op ops ih =>
    obtain ⟨body, last, heq, hbody, hlast⟩ := ih
    unfold plan
    cases table.newWrite op.op with
    | none => exact ⟨[], .Unknown, rfl, fun p hp => (by cases hp), rfl⟩
    | some w =>
      refine ⟨opPlan w op ++ body, last, by rw [heq, List.append_assoc], fun p hp => ?_, hlast⟩
      rcases List.mem_append.1 hp with hp | hp
      · unfold opPlan at hp
        rcases List.mem_append.1 hp with hp | hp
        · exact (List.mem_append.1 hp).elim (hstrings _ _ p) (hstrings _ _ p)
        · rw [List.mem_singleton.1 hp]
          rfl
      · exact hbody p hp

theorem follow_append (hm : s.mode = .MANUAL_FLUSH) (hop : ∀ p ∈ ps, p.isOperation = true)
    (hok : ∀ (j : Nat) (q : Planned), ps[j]? = some q → q.fails (outcome (s.calls.length + j)) = false) :
    follow outcome (ps ++ qs) s = follow outcome qs (s.after ps) := by
  induction ps generalizing s with
  | nil =>
    unfold SessionState.after
    rw [List.map_nil, List.filterMap_nil, List.append_nil, List.append_nil]
    rfl
  | cons p ps ih =>
    have hhead := hok 0 p rfl
    -- the state after the first call, from which the rest is followed
    have hrest : ∀ s' : SessionState, s' = s.after [p] →
        follow outcome (ps ++ qs) s' = follow outcome qs (s.after (p :: ps)) := by
      rintro s' rfl
      have hafter : (s.after [p]).after ps = s.after (p :: ps) := by
        simp [SessionState.after, List.filterMap_cons]
        cases p.applied <;> simp
      rw [← hafter]
      refine ih hm (fun q hq => hop q (List.mem_cons_of_mem _ hq)) fun j q hj => ?_
      have hlen : (s.after [p]).calls.length + j = s.calls.length + (j + 1) := by
        simp
        omega
      rw [hlen]
      exact hok (j + 1) q hj
    cases p with
    | SetString i value =>
      have hst : outcome s.calls.length = .OK := by simpa [Planned.fails, Status.ok_iff] using hhead
      rw [List.cons_append, follow, hst]
      exact hrest _ (by simp [SessionState.after, SessionState.called, Planned.call, Planned.applied])
    | Apply w =>
      have hst : outcome s.calls.length = .OK := by simpa [Planned.fails, Status.ok_iff] using hhead
      rw [List.cons_append, follow, hst]
      exact hrest _ (by
        simp [SessionState.after, SessionState.called, SessionState.accept, Planned.call, Planned.applied, hm])
    | Unknown => exact absurd (hop _ List.mem_cons_self) (by simp [Planned.isOperation])
    | Flush => exact absurd (hop _ List.mem_cons_self) (by simp [Planned.isOperation])

theorem StopsAt.isOperation (h : StopsAt outcome (plan table ops) pre p) : ∀ q ∈ pre, q.isOperation = true := by
  obtain ⟨body, last, heq, hbody, -⟩ := plan_shape table ops
  obtain ⟨post, hpost⟩ := h.isPrefix
  have hpre : pre <+: body ++ [last] := ⟨[p] ++ post, by rw [← heq, ← hpost, List.append_assoc]⟩
  have hle : pre.length ≤ body.length := by
    have hlen := congrArg List.length (hpost.trans heq)
    simp only [List.length_append, List.length_singleton] at hlen
    omega
  have hpre' : pre <+: body := List.prefix_of_prefix_length_le hpre (List.prefix_append _ _) hle
  exact fun q hq => hbody q (hpre'.subset hq)

/-- A batch that stops does so in the state that the calls before it led to. -/
theorem StopsAt.follow (h : StopsAt outcome (plan table ops) pre p) (hm : s.mode = .MANUAL_FLUSH) (hc : s.calls = []) :
    ∃ post, follow outcome (plan table ops) s = Kududown.follow outcome (p :: post) (s.after pre) := by
  obtain ⟨post, hpost⟩ := h.isPrefix
  refine ⟨post, ?_⟩
  rw [← hpost, List.append_assoc, List.singleton_append]
  refine follow_append hm h.isOperation fun j q hj => ?_
  rw [hc, List.length_nil, Nat.zero_add]
  exact h.before j q hj

theorem stopsAt_or (outcome : Nat → Status) (ps : List Planned) : (∃ pre p, StopsAt outcome ps pre p) ∨
    ∀ (j : Nat) (q : Planned), ps[j]? = some q → q.fails (outcome j) = false := by
  induction ps using List.reverseRecOn with
  | nil => exact .inr fun j q h => by cases h
  | append_singleton ps p ih =>
    rcases ih with ⟨pre, q, h⟩ | hok
    · exact .inl ⟨pre, q, h.isPrefix.trans (List.prefix_append _ _), h.fails, h.before⟩
    · cases hp : p.fails (outcome ps.length) with
      | true => exact .inl ⟨ps, p, List.prefix_refl _, hp, hok⟩
      | false =>
        refine .inr fun j q hj => ?_
        rcases Nat.lt_trichotomy j ps.length with hlt | rfl | hgt
        · exact hok j q (by rwa [List.getElem?_append_left hlt] at hj)
        · rw [List.getElem?_concat_length] at hj
          cases hj
          exact hp
        · rw [List.getElem?_eq_none (by simp; omega)] at hj
          cases hj

/-! ### What a batch comes to -/

def scripted (outcome : Nat → Status) (tablePtr : KuduTable) (tableStatus : Status) : Database SessionState :=
  ⟨some (session outcome), some tablePtr, tableStatus⟩

variable {written : List KuduWriteOperation}

/-- The state in which a batch starts on its operations. -/
def SessionState.started (written : List KuduWriteOperation) : SessionState := { mode := .MANUAL_FLUSH, table := written }

@[simp] theorem SessionState.calls_started : (SessionState.started written).calls = [] := rfl

theorem writeBatch_follow : (scripted outcome table tableStatus).writeBatchToDatabase batch { table := written } =
    follow outcome (plan table batch.ops) (.started written) :=
  writeOps_follow

theorem StopsAt.writeBatch (h : StopsAt outcome (plan table batch.ops) pre p) : ∃ post,
    (scripted outcome table tableStatus).writeBatchToDatabase batch { table := written } =
      Kududown.follow outcome (p :: post) ((SessionState.started written).after pre) := by
  rw [writeBatch_follow]
  exact h.follow rfl rfl

theorem StopsAt.fails_after (h : StopsAt outcome ps pre p) :
    p.fails (outcome ((SessionState.started written).after pre).calls.length) = true := by
  rw [SessionState.length_calls_after, SessionState.calls_started, List.length_nil, Nat.zero_add]
  exact h.fails

theorem follow_stop (hfail : p.fails (outcome s.calls.length) = true) :
    (follow outcome (p :: ps) s).2.table = if p.applied.isSome then s.table else s.table ++ s.buffer := by
  cases p with
  | SetString i value =>
    rw [follow]
    split
    · next hst => simp [Planned.fails, hst] at hfail
    · rfl
  | Apply w =>
    rw [follow]
    split
    · next hst => simp [Planned.fails, hst] at hfail
    · rfl
  | Unknown =>
    rw [follow, flushAndClose_session]
    cases outcome s.calls.length <;> rfl
  | Flush => cases hfail

/-- Nothing of a batch that stops has reached the table just if it stops at an `Apply`, or before the first
`Apply`: at any other place the `Flush` writes the operations before. -/
theorem batch_atomic_iff :
    (∀ pre p, StopsAt outcome (plan table batch.ops) pre p →
      ((scripted outcome table tableStatus).writeBatchToDatabase batch { table := written }).2.table = written) ↔
    ∀ pre p, StopsAt outcome (plan table batch.ops) pre p → (∃ w, p = .Apply w) ∨ ∀ w, .Apply w ∉ pre := by
  refine forall_congr' fun pre => forall_congr' fun p => forall_congr' fun h => ?_
  obtain ⟨post, hbatch⟩ := h.writeBatch
  rw [hbatch, follow_stop h.fails_after]
  have happlied : p.applied.isSome = true ↔ ∃ w, p = .Apply w := by
    cases p <;> simp [Planned.applied]
  have hbuffer : pre.filterMap Planned.applied = [] ↔ ∀ w, .Apply w ∉ pre := by
    rw [List.filterMap_eq_nil_iff]
    refine ⟨fun h w hw => (by cases h _ hw), fun h q hq => ?_⟩
    cases q with
    | Apply w => exact absurd hq (h w)
    | SetString | Unknown | Flush => rfl
  rw [← happlied, ← hbuffer]
  split_ifs with hp
  · exact iff_of_true rfl (.inl hp)
  · show written ++ ([] ++ pre.filterMap Planned.applied) = written ↔ _
    rw [List.nil_append, List.append_right_eq_self, or_iff_right hp]

def failsAt (n j : Nat) : Status := if j = n then .error ⟨.InvalidArgument, "not STRING"⟩ else .OK

def delPut : WriteBatch := Operation.batch [.del (bytes "a"), .put (bytes "b") (bytes "1")]

/-- When column 1 is not STRING, the deletion before the put that fails is written all the same. -/
theorem batch_half_written : ¬ ∀ pre p, StopsAt (failsAt 3) (plan ⟨"t"⟩ delPut.ops) pre p →
    ((scripted (failsAt 3) ⟨"t"⟩ .OK).writeBatchToDatabase delPut {}).2.table = [] := by
  intro h
  have hstop : StopsAt (failsAt 3) (plan ⟨"t"⟩ delPut.ops) ((plan ⟨"t"⟩ delPut.ops).take 3) (.SetString 1 (bytes "1")) := by
    refine ⟨⟨[.Apply _, .Flush], rfl⟩, rfl, fun j q hj => ?_⟩
    rcases j with _ | _ | _ | j <;> cases hj <;> rfl
  exact absurd (congrArg List.length (h _ _ hstop)) (Nat.succ_ne_zero 0)

/-- OK is returned only if every operation of the batch has had its columns set and has been applied and the
last `Flush` was OK; after a failure of any of these calls something else is. -/
structure Reports (table : KuduTable) (batch : WriteBatch) (r : Status × SessionState) : Prop where
  done : r.1.ok = true → .Unknown ∉ plan table batch.ops ∧
    r.2.calls = (plan table batch.ops).map fun p => (p.call, .OK)
  failed : ∀ c ∈ r.2.calls, c.2.ok = false → r.1.ok = false

theorem Reports.of_error {r : Status × SessionState} (h : r.1.ok = false) : Reports table batch r :=
  ⟨fun hok => absurd hok (by rw [h]; decide), fun _ _ _ => h⟩

theorem follow_stop_status (hfail : p.fails (outcome s.calls.length) = true)
    (hflush : ∀ i value, p = .SetString i value → (outcome (s.calls.length + 1)).ok = false) :
    (follow outcome (p :: ps) s).1.ok = false := by
  cases p with
  | SetString i value =>
    rw [follow]
    split
    · next hst => simp [Planned.fails, hst] at hfail
    · have hlen : ∀ st, (s.called (.SetString i value) st).calls.length = s.calls.length + 1 := fun st => by
        simp [SessionState.called]
      rw [flushAndClose_session, hlen]
      exact hflush i value rfl
  | Apply w =>
    rw [follow]
    split
    · next hst => simp [Planned.fails, hst] at hfail
    · rfl
  | Unknown =>
    rw [follow]
    split <;> rfl
  | Flush => cases hfail

/-- A batch that can be relied on does not take the status of the `Flush` for that of the `SetString`. -/
theorem Reports.flush_fails {i : Nat} {value : Slice} (h : StopsAt outcome (plan table batch.ops) pre (.SetString i value))
    (hr : Reports table batch ((scripted outcome table tableStatus).writeBatchToDatabase batch { table := written })) :
    (outcome (pre.length + 1)).ok = false := by
  obtain ⟨post, hbatch⟩ := h.writeBatch
  obtain ⟨e, he⟩ : ∃ e, outcome pre.length = .error e := Status.not_ok_iff.1 (by simpa [Planned.fails] using h.fails)
  have hlen : ((SessionState.started written).after pre).calls.length = pre.length := by simp
  rw [hbatch, follow, hlen, he] at hr
  dsimp only at hr
  -- the failed `SetString` is among the calls made, and the status is that of the `Flush`
  have hst := hr.failed (.SetString i value, .error e)
  rw [flushAndClose_session] at hst
  simpa [SessionState.called, SessionState.after] using hst

theorem Reports.of_stop (h : StopsAt outcome (plan table batch.ops) pre p)
    (hflush : ∀ i value, p = .SetString i value → (outcome (pre.length + 1)).ok = false) :
    Reports table batch ((scripted outcome table tableStatus).writeBatchToDatabase batch { table := written }) := by
  obtain ⟨post, hbatch⟩ := h.writeBatch
  rw [hbatch]
  refine .of_error (follow_stop_status h.fails_after fun i value hp => ?_)
  rw [SessionState.length_calls_after, SessionState.calls_started, List.length_nil, Nat.zero_add]
  exact hflush i value hp

/-- A plan without a failure ends with the last `Flush`. -/
theorem plan_of_ok (hok : ∀ (j : Nat) (q : Planned), (plan table ops)[j]? = some q → q.fails (outcome j) = false) :
    ∃ body, plan table ops = body ++ [.Flush] ∧ ∀ p ∈ body, p.isOperation = true := by
  obtain ⟨body, last, heq, hbody, hlast⟩ := plan_shape table ops
  have hfails := hok body.length last (by rw [heq, List.getElem?_concat_length])
  cases last with
  | Flush => exact ⟨body, heq, hbody⟩
  | Unknown => cases hfails
  | SetString | Apply => cases hlast

/-- Without a failure the status is that of the last `Flush`. -/
theorem Reports.of_ok
    (hok : ∀ (j : Nat) (q : Planned), (plan table batch.ops)[j]? = some q → q.fails (outcome j) = false) :
    Reports table batch ((scripted outcome table tableStatus).writeBatchToDatabase batch { table := written }) := by
  obtain ⟨body, heq, hbody⟩ := plan_of_ok hok
  have hpre : ∀ (j : Nat) (q : Planned), body[j]? = some q →
      q.fails (outcome ((SessionState.started written).calls.length + j)) = false := by
    intro j q hj
    rw [SessionState.calls_started, List.length_nil, Nat.zero_add]
    exact hok j q (by rw [heq, List.getElem?_append_left (List.getElem?_eq_some_iff.1 hj).1]; exact hj)
  have hlen : ((SessionState.started written).after body).calls.length = body.length := by simp
  rw [writeBatch_follow, heq, follow_append rfl hbody hpre, follow, flushAndClose_session, hlen]
  cases outcome body.length with
  | error e => exact .of_error rfl
  | OK =>
    have hcalls : (((SessionState.started written).after body).called .Flush .OK).calls =
        (plan table batch.ops).map fun p => (p.call, .OK) := by
      rw [heq, List.map_append]
      rfl
    refine ⟨fun _ => ⟨fun hmem => ?_, hcalls⟩, fun c hc hno => ?_⟩
    · rw [heq] at hmem
      rcases List.mem_append.1 hmem with hmem | hmem
      · exact absurd (hbody _ hmem) Bool.noConfusion
      · cases List.mem_singleton.1 hmem
    · replace hc : c ∈ (((SessionState.started written).after body).called .Flush .OK).calls := hc
      rw [hcalls] at hc
      obtain ⟨q, -, rfl⟩ := List.mem_map.1 hc
      cases hno

/-- The status of a batch can be relied on just if the `Flush` after a `SetString` that failed fails, too. -/
theorem batch_reports_iff :
    Reports table batch ((scripted outcome table tableStatus).writeBatchToDatabase batch { table := written }) ↔
      ∀ pre i value, StopsAt outcome (plan table batch.ops) pre (.SetString i value) →
        (outcome (pre.length + 1)).ok = false := by
  constructor
  · intro hr pre i value h
    exact hr.flush_fails h
  · intro hflush
    rcases stopsAt_or outcome (plan table batch.ops) with ⟨pre, p, h⟩ | hok
    · refine .of_stop h fun i value hp => ?_
      subst hp
      exact hflush pre i value h
    · exact .of_ok hok

def onePut : WriteBatch := Operation.batch [.put (bytes "a") (bytes "1")]

/-- The put whose value cannot be set is reported as done. -/
theorem batch_reports_success :
    ¬ Reports ⟨"t"⟩ onePut ((scripted (failsAt 1) ⟨"t"⟩ .OK).writeBatchToDatabase onePut {}) := by
  intro h
  have hmem : (.SetString 1 (bytes "1"), failsAt 1 1) ∈
      ((scripted (failsAt 1) ⟨"t"⟩ .OK).writeBatchToDatabase onePut {}).2.calls :=
    List.mem_cons_of_mem _ List.mem_cons_self
  cases h.failed _ hmem rfl

end Kududown
