import Kududown.Lib.Run
import Kududown.Iterator

/-!
# The JS iterator

`NextWorker::HandleOKCallback` puts the rows of a reply into an array back to front, and `Iterator.prototype._next`
takes them out with `pop()`, one row a call, asking the binding for the next reply when there are none left.
`Ahead` is what is still to be handed out: the rows in the array and those of the replies to come. A reply with more
than `2 ^ 30` rows has indices that do not fit in an `int`, and its first rows are lost (`handleOKCallback_overflow`).
-/

namespace Kududown

inductive JSValue
  | buffer (data : Slice)
  | string (utf8 : Slice)
deriving DecidableEq

/-- The elements of an array, `none` being `undefined`. -/
abbrev JSArray := List (Option JSValue)

namespace JSArray

/-- `Nan::New<v8::Array>(length)`; a negative length counts as 0. -/
def new (length : Int) : JSArray := List.replicate length.toNat none

/-- `Set(index, value)`. A negative index is a property like any other and no element. -/
def set (a : JSArray) (index : Int) (value : JSValue) : JSArray :=
  if index < 0 then a
  else if index < a.length then List.set a index.toNat (some value)
  else a ++ List.replicate (index.toNat - a.length) none ++ [some value]

def pop (a : JSArray) : Option JSValue × JSArray := (a.getLast?.join, a.dropLast)

end JSArray

/-! ### The array of a reply -/

def returnKey (it : Iterator) (key : Slice) : JSValue := if it.keyAsBuffer then .buffer key else .string key

def returnValue (it : Iterator) (value : Slice) : JSValue := if it.valueAsBuffer then .buffer value else .string value

/-- `for (idx = 0; idx < result.size(); ++idx)`, from `idx` on. -/
def setRows (it : Iterator) (arraySize : Nat) (idx : Nat) (returnArray : JSArray) : List (Slice × Slice) → JSArray
  | [] => returnArray
  | (key, value) :: rows =>
    let returnArray := returnArray.set (toInt32 (arraySize - idx * 2 - 1 : Nat)) (returnKey it key)
    let returnArray := returnArray.set (toInt32 (arraySize - idx * 2 - 2 : Nat)) (returnValue it value)
    setRows it arraySize (idx + 1) returnArray rows

/-- `NextWorker::HandleOKCallback`: the array it calls back with. -/
def handleOKCallback (it : Iterator) (result : List (Slice × Slice)) : JSArray :=
  let arraySize := result.length * 2
  setRows it arraySize 0 (.new (toInt32 arraySize)) result

/-- The last row first, and of each row the value first. -/
def layout (it : Iterator) (rows : List (Slice × Slice)) : JSArray :=
  rows.reverse.flatMap fun row => [some (returnValue it row.2), some (returnKey it row.1)]

section
variable {it : Iterator} {rows : List (Slice × Slice)} {row : Slice × Slice} {a : JSArray} {m n idx : Nat}

theorem layout_cons : layout it (row :: rows) =
    layout it rows ++ [some (returnValue it row.2), some (returnKey it row.1)] := by
  unfold layout
  rw [List.reverse_cons, List.flatMap_append, List.flatMap_singleton]

theorem toInt32_of_lt {x : Nat} (h : x < 2 ^ 31) : toInt32 x = x := by
  unfold toInt32
  rw [Int.bmod_eq_of_le] <;> omega

theorem set_replicate {value : JSValue} (h : m ≤ n + 1) :
    JSArray.set (List.replicate m none) n value = List.replicate n none ++ [some value] := by
  unfold JSArray.set
  rw [if_neg (by omega), List.length_replicate, Int.toNat_natCast]
  split_ifs with hlt
  · obtain rfl : m = n + 1 := by omega
    rw [List.replicate_succ', List.set_append_right _ _ (by simp)]
    simp
  · rw [List.replicate_append_replicate]
    congr 2
    omega

theorem set_append {value : JSValue} {b : JSArray} (h : n < a.length) :
    JSArray.set (a ++ b) n value = JSArray.set a n value ++ b := by
  have hlt : ((n : Int) < (a ++ b).length) ∧ (n : Int) < a.length := by
    rw [List.length_append]
    omega
  unfold JSArray.set
  rw [if_neg (by omega), if_pos hlt.1, if_neg (by omega), if_pos hlt.2, Int.toNat_natCast, List.set_append_left _ _ h]

/-- The round of the loop that puts `row` there, when there is room for it and the rows after it. -/
theorem setRows_cons {arraySize : Nat} {b : JSArray} (hsize : arraySize = idx * 2 + (rows.length + 1) * 2)
    (hlt : arraySize ≤ 2 ^ 31) (ha : a.set (rows.length * 2 + 1 : Nat) (returnKey it row.1) =
      List.replicate (rows.length * 2 + 1) none ++ some (returnKey it row.1) :: b) :
    setRows it arraySize idx a (row :: rows) = setRows it arraySize (idx + 1)
      (List.replicate (rows.length * 2) none ++ some (returnValue it row.2) :: some (returnKey it row.1) :: b) rows := by
  have hkey : toInt32 (arraySize - idx * 2 - 1 : Nat) = (rows.length * 2 + 1 : Nat) := by
    rw [toInt32_of_lt (by omega)]
    omega
  have hvalue : toInt32 (arraySize - idx * 2 - 2 : Nat) = (rows.length * 2 : Nat) := by
    rw [toInt32_of_lt (by omega)]
    omega
  obtain ⟨key, value⟩ := row
  rw [setRows, hkey, hvalue, ha, set_append (by simp), set_replicate (Nat.le_refl _), List.append_assoc]
  rfl

theorem setRows_eq {arraySize : Nat} {b : JSArray} (hsize : arraySize = idx * 2 + rows.length * 2)
    (hlt : arraySize ≤ 2 ^ 31) :
    setRows it arraySize idx (List.replicate (rows.length * 2) none ++ b) rows = layout it rows ++ b := by
  induction rows generalizing idx b with
  | nil => rfl
  | cons row rows ih =>
    rw [List.length_cons] at hsize ⊢
    have hset : JSArray.set (List.replicate ((rows.length + 1) * 2) none ++ b) (rows.length * 2 + 1 : Nat)
        (returnKey it row.1) = List.replicate (rows.length * 2 + 1) none ++ some (returnKey it row.1) :: b := by
      rw [set_append (by rw [List.length_replicate]; omega), set_replicate (by omega), List.append_assoc]
      rfl
    rw [setRows_cons hsize hlt hset, ih (by omega), layout_cons, List.append_assoc]
    rfl

theorem handleOKCallback_eq (h : rows.length ≤ 2 ^ 30) : handleOKCallback it rows = layout it rows := by
  rcases rows with _ | ⟨row, rows⟩
  · rfl
  · rw [List.length_cons] at h
    have hnew : (toInt32 ((rows.length + 1) * 2 : Nat)).toNat ≤ (rows.length + 1) * 2 := by
      unfold toInt32
      rw [Int.bmod_def]
      split_ifs <;> omega
    unfold handleOKCallback JSArray.new
    dsimp only
    rw [List.length_cons, setRows_cons (b := []) (by omega) (by omega) (set_replicate (by omega)), setRows_eq (by omega)
      (by omega), layout_cons]

theorem setRows_shift : setRows it (n + 2) (idx + 1) a rows = setRows it n idx a rows := by
  induction rows generalizing idx a with
  | nil => rfl
  | cons row rows ih => rw [setRows, setRows, ih, show n + 2 - (idx + 1) * 2 = n - idx * 2 by omega]

theorem toInt32_neg {x : Nat} (h : 2 ^ 31 ≤ x) (h' : x < 2 ^ 32) : toInt32 x < 0 := by
  unfold toInt32
  rw [Int.bmod_def]
  split_ifs <;> omega

theorem set_neg {index : Int} {value : JSValue} (h : index < 0) : a.set index value = a := if_pos h

theorem new_neg {length : Int} (h : length < 0) : JSArray.new length = [] := by
  unfold JSArray.new
  rw [Int.toNat_of_nonpos (Int.le_of_lt h)]
  rfl

/-- One row too many: the indices of the first row are negative. -/
theorem handleOKCallback_overflow (h : rows.length = 2 ^ 30) :
    handleOKCallback it (row :: rows) = handleOKCallback it rows := by
  obtain ⟨key, value⟩ := row
  unfold handleOKCallback
  dsimp only
  rw [List.length_cons, h, new_neg (toInt32_neg (by omega) (by omega)), new_neg (toInt32_neg (by omega) (by omega)),
    setRows, set_neg (toInt32_neg (by omega) (by omega)), set_neg (toInt32_neg (by omega) (by omega)), Nat.succ_mul,
    setRows_shift]

end

/-! ### The iterator -/

/-- What a callback is run with. -/
inductive CallbackArgs
  | error (e : Failure)
  | nothing
  | entry (key value : Option JSValue)
deriving DecidableEq

/-- What the callback of the last call waits for: `fastFuture`, which runs it later, or the binding. -/
inductive Waiting
  | idle
  | future (call : Nat) (args : CallbackArgs)
  | binding (call : Nat)
deriving DecidableEq

/-- `replies` are the answers of the binding to come, `log` are the callbacks that were run. -/
structure JsIterator where
  native : Iterator
  replies : List Report
  cache : Option JSArray := none
  finished : Bool := false
  waiting : Waiting := .idle
  calls : Nat := 0
  bindingCalls : Nat := 0
  log : List (Nat × CallbackArgs) := []

inductive JsAction
  | next
  | future
  | reply
deriving DecidableEq

namespace JsIterator

/-- `Iterator.prototype._next` with the callback of call `call`. -/
def next (s : JsIterator) (call : Nat) : JsIterator :=
  let cache := s.cache.getD []
  if cache.length ≠ 0 then
    let (key, cache) := cache.pop
    let (value, cache) := cache.pop
    { s with cache := some cache, waiting := .future call (.entry key value) }
  else if s.finished then { s with waiting := .future call .nothing }
  else { s with waiting := .binding call, bindingCalls := s.bindingCalls + 1 }

/-- One step. A call is made when the callback of the one before has been run. -/
def step (s : JsIterator) : JsAction → Option JsIterator
  | .next => if s.waiting = .idle then some ({ s with calls := s.calls + 1 }.next s.calls) else none
  | .future =>
    match s.waiting with
    | .future call args => some { s with waiting := .idle, log := s.log ++ [(call, args)] }
    | _ => none
  | .reply =>
    match s.waiting, s.replies with
    | .binding call, .error e :: replies =>
      some { s with waiting := .idle, replies, log := s.log ++ [(call, .error e)] }
    | .binding call, .ok result ok :: replies =>
      some ({ s with cache := some (handleOKCallback s.native result), finished := !ok, replies }.next call)
    | _, _ => none

end JsIterator

/-- Replies that are unfinished except the last. -/
def script (unfinished : List (List (Slice × Slice))) (last : List (Slice × Slice)) : List Report :=
  unfinished.map (.ok · true) ++ [.ok last false]

def Report.result : Report → List (Slice × Slice)
  | .ok result _ => result
  | .error _ => []

/-- What call `n` is to deliver: row `n`, or the end. -/
def entryAt (it : Iterator) (rows : List (Slice × Slice)) (n : Nat) : CallbackArgs :=
  match rows[n]? with
  | some row => .entry (some (returnKey it row.1)) (some (returnValue it row.2))
  | none => .nothing

namespace JsIterator
variable {s t : JsIterator} {it : Iterator} {unfinished : List (List (Slice × Slice))}
  {last c : List (Slice × Slice)} {taken asked call : Nat} {action : JsAction} {actions : List JsAction}

/-! ### What is ahead -/

/-- The iterator when `taken` rows have been taken out and the binding has been asked often enough for `asked`
replies, given or to come. -/
structure Ahead (it : Iterator) (unfinished : List (List (Slice × Slice))) (last : List (Slice × Slice))
    (taken asked : Nat) (s : JsIterator) : Prop where
  native : s.native = it
  rows : ∃ c, s.cache.getD [] = layout it c ∧
    (unfinished.flatten ++ last).drop taken = c ++ s.replies.flatMap Report.result
  replies : if s.finished then s.replies = [] else ∃ us, us <:+ unfinished ∧ s.replies = script us last
  asked : s.bindingCalls + s.replies.length = asked
  log : s.log = (List.range s.log.length).map fun n => (n, entryAt it (unfinished.flatten ++ last) n)

def Inv (it : Iterator) (unfinished : List (List (Slice × Slice))) (last : List (Slice × Slice))
    (s : JsIterator) : Prop :=
  match s.waiting with
  | .idle => s.Ahead it unfinished last s.log.length (unfinished.length + 1) ∧ s.calls = s.log.length
  | .future call args => s.Ahead it unfinished last (s.log.length + 1) (unfinished.length + 1) ∧
      s.calls = s.log.length + 1 ∧ call = s.log.length ∧ args = entryAt it (unfinished.flatten ++ last) call
  | .binding call => s.Ahead it unfinished last s.log.length (unfinished.length + 2) ∧
      s.calls = s.log.length + 1 ∧ call = s.log.length ∧ s.cache.getD [] = [] ∧ s.finished = false

theorem next_entry {row : Slice × Slice} (h : s.cache.getD [] = layout it (row :: c)) :
    s.next call = { s with
      cache := some (layout it c)
      waiting := .future call (.entry (some (returnKey it row.1)) (some (returnValue it row.2))) } := by
  have hpop : (layout it (row :: c)).pop = (some (returnKey it row.1),
      layout it c ++ [some (returnValue it row.2)]) := by
    rw [layout_cons]
    simp [JSArray.pop]
  have hpop' : (layout it c ++ [some (returnValue it row.2)] : JSArray).pop =
      (some (returnValue it row.2), layout it c) := by
    simp [JSArray.pop]
  unfold next
  dsimp only
  rw [h, if_pos (by rw [layout_cons]; simp), hpop]
  dsimp only
  rw [hpop']

/-- `_next` takes a row out of the cache, or finds the end, or asks the binding. -/
theorem Ahead.next (h : s.Ahead it unfinished last s.log.length (unfinished.length + 1))
    (hcalls : s.calls = s.log.length + 1) : (s.next s.log.length).Inv it unfinished last := by
  obtain ⟨c, hcache, hdrop⟩ := h.rows
  rcases c with _ | ⟨row, c⟩
  · have hempty : ¬ (s.cache.getD []).length ≠ 0 := by
      rw [hcache]
      exact fun h => h rfl
    unfold JsIterator.next
    dsimp only
    rw [if_neg hempty]
    have hreplies := h.replies
    split_ifs at hreplies ⊢ with hfinished
    · rw [hreplies, List.flatMap_nil, List.append_nil] at hdrop
      have hentry : entryAt it (unfinished.flatten ++ last) s.log.length = .nothing := by
        unfold entryAt
        rw [← List.head?_drop, hdrop]
        rfl
      refine ⟨⟨h.native, ⟨[], hcache, ?_⟩, ?_, h.asked, h.log⟩, hcalls, rfl, hentry.symm⟩
      · rw [← List.tail_drop, hdrop, hreplies]
        rfl
      · rw [if_pos hfinished]
        exact hreplies
    · refine ⟨⟨h.native, ⟨[], hcache, hdrop⟩, ?_, ?_, h.log⟩, hcalls, rfl, hcache, eq_false_of_ne_true hfinished⟩
      · rw [if_neg hfinished]
        exact hreplies
      · have hasked := h.asked
        show s.bindingCalls + 1 + s.replies.length = unfinished.length + 2
        omega
  · rw [next_entry hcache]
    have hentry : entryAt it (unfinished.flatten ++ last) s.log.length =
        .entry (some (returnKey it row.1)) (some (returnValue it row.2)) := by
      unfold entryAt
      rw [← List.head?_drop, hdrop]
      rfl
    refine ⟨⟨h.native, ⟨c, rfl, ?_⟩, h.replies, h.asked, h.log⟩, hcalls, rfl, hentry.symm⟩
    rw [← List.tail_drop, hdrop]
    rfl

theorem log_concat {rows : List (Slice × Slice)} {args : CallbackArgs}
    (h : s.log = (List.range s.log.length).map fun n => (n, entryAt it rows n)) (hargs : args = entryAt it rows s.log.length) :
    s.log ++ [(s.log.length, args)] =
      (List.range (s.log ++ [(s.log.length, args)]).length).map fun n => (n, entryAt it rows n) := by
  rw [List.length_append, List.length_singleton, List.range_succ, List.map_append, ← h, hargs]
  rfl

theorem Ahead.empty (h : s.Ahead it unfinished last taken asked) (hempty : s.cache.getD [] = []) :
    (unfinished.flatten ++ last).drop taken = s.replies.flatMap Report.result := by
  obtain ⟨c, hcache, hdrop⟩ := h.rows
  rcases c with _ | ⟨row, c⟩
  · rw [hdrop, List.nil_append]
  · rw [hempty, layout_cons] at hcache
    exact absurd hcache.symm (by simp)

/-- A reply has come, the cache being empty. -/
theorem Ahead.reply {rows : List (Slice × Slice)} {ok : Bool} {replies : List Report}
    (h : s.Ahead it unfinished last taken (asked + 1)) (hempty : s.cache.getD [] = [])
    (hreplies : s.replies = .ok rows ok :: replies) (hlen : rows.length ≤ 2 ^ 30)
    (hrest : if !ok then replies = [] else ∃ us, us <:+ unfinished ∧ replies = script us last) :
    Ahead it unfinished last taken asked
      { s with cache := some (handleOKCallback s.native rows), finished := !ok, replies } := by
  have hdrop := h.empty hempty
  have hasked := h.asked
  rw [hreplies] at hdrop hasked
  refine ⟨h.native, ⟨rows, ?_, hdrop⟩, hrest, Nat.succ.inj hasked, h.log⟩
  rw [handleOKCallback_eq hlen, h.native]
  rfl

theorem Inv.next (h : s.Inv it unfinished last) (hstep : s.step .next = some t) : t.Inv it unfinished last := by
  unfold JsIterator.step at hstep
  dsimp only at hstep
  split_ifs at hstep with hidle
  cases hstep
  unfold Inv at h
  rw [hidle] at h
  obtain ⟨hahead, hcalls⟩ := h
  have hahead' : Ahead it unfinished last s.log.length (unfinished.length + 1) { s with calls := s.calls + 1 } :=
    ⟨hahead.native, hahead.rows, hahead.replies, hahead.asked, hahead.log⟩
  rw [hcalls] at hahead' ⊢
  exact hahead'.next rfl

theorem Inv.future (h : s.Inv it unfinished last) (hstep : s.step .future = some t) : t.Inv it unfinished last := by
  unfold JsIterator.step at hstep
  dsimp only at hstep
  split at hstep
  · next call args hwaiting =>
    cases hstep
    unfold Inv at h
    rw [hwaiting] at h
    obtain ⟨hahead, hcalls, rfl, hargs⟩ := h
    refine ⟨⟨hahead.native, ?_, hahead.replies, hahead.asked, log_concat hahead.log hargs⟩, ?_⟩
    · rw [List.length_append]
      exact hahead.rows
    · rw [List.length_append]
      exact hcalls
  · cases hstep

theorem Inv.reply (hlast : last.length ≤ 2 ^ 30) (hrows : ∀ rows ∈ unfinished, rows.length ≤ 2 ^ 30)
    (h : s.Inv it unfinished last) (hstep : s.step .reply = some t) : t.Inv it unfinished last := by
  unfold JsIterator.step at hstep
  dsimp only at hstep
  cases hwaiting : s.waiting with
  | idle =>
    rw [hwaiting] at hstep
    cases hstep
  | future call args =>
    rw [hwaiting] at hstep
    cases hstep
  | binding call =>
    unfold Inv at h
    rw [hwaiting] at h hstep
    obtain ⟨hahead, hcalls, rfl, hempty, hfinished⟩ := h
    have hreplies := hahead.replies
    rw [hfinished, if_neg Bool.noConfusion] at hreplies
    -- the finished reply, or one before it
    obtain ⟨us, hsuffix, hscript⟩ := hreplies
    rcases us with _ | ⟨rows, us⟩
    · have hhead : s.replies = .ok last false :: [] := hscript
      rw [hhead] at hstep
      cases hstep
      rw [← hwaiting]
      exact (hahead.reply hempty hhead hlast rfl).next hcalls
    · have hhead : s.replies = .ok rows true :: script us last := hscript
      rw [hhead] at hstep
      cases hstep
      rw [← hwaiting]
      have hmem : rows ∈ unfinished := hsuffix.subset List.mem_cons_self
      have hrest : us <:+ unfinished := (List.suffix_cons rows us).trans hsuffix
      exact (hahead.reply hempty hhead (hrows rows hmem) ⟨us, hrest, rfl⟩).next hcalls

/-- One step keeps what is ahead, as long as no reply is too long for its array. -/
theorem Inv.step (hlast : last.length ≤ 2 ^ 30) (hrows : ∀ rows ∈ unfinished, rows.length ≤ 2 ^ 30)
    (h : s.Inv it unfinished last) (hstep : s.step action = some t) : t.Inv it unfinished last := by
  cases action with
  | next => exact h.next hstep
  | future => exact h.future hstep
  | reply => exact h.reply hlast hrows hstep

/-! ### Every call -/

def start (it : Iterator) (replies : List Report) : JsIterator := { native := it, replies }

theorem inv_start : (start it (script unfinished last)).Inv it unfinished last := by
  refine ⟨⟨rfl, ⟨[], rfl, ?_⟩, ⟨unfinished, List.suffix_refl _, rfl⟩, ?_, rfl⟩, rfl⟩
  · unfold start script
    rw [List.flatMap_append, List.flatMap_map, List.flatMap_singleton]
    simp [Report.result, List.flatMap_def]
  · unfold start script
    simp

/-- How many steps there can be before the callback is run. -/
def stepsLeft (s : JsIterator) : Nat :=
  match s.waiting with
  | .idle => 0
  | .future _ _ => 1
  | .binding _ => s.replies.length + 1

theorem stepsLeft_next : (s.next call).stepsLeft ≤ s.replies.length + 1 := by
  unfold next stepsLeft
  dsimp only
  split_ifs <;> simp

theorem stepsLeft_step (h : Steps step (fun _ action => action ≠ .next) s action t) : t.stepsLeft < s.stepsLeft := by
  obtain ⟨hstep, hne⟩ := h
  unfold step at hstep
  cases action with
  | next => exact absurd rfl hne
  | future =>
    dsimp only at hstep
    split at hstep
    · next hwaiting =>
      cases hstep
      unfold stepsLeft
      rw [hwaiting]
      exact Nat.zero_lt_one
    · cases hstep
  | reply =>
    dsimp only at hstep
    split at hstep
    · next hwaiting hreplies =>
      cases hstep
      show 0 < s.stepsLeft
      unfold stepsLeft
      rw [hwaiting]
      exact Nat.succ_pos _
    · next result ok replies hwaiting hreplies =>
      cases hstep
      refine Nat.lt_of_le_of_lt stepsLeft_next ?_
      unfold stepsLeft
      rw [hwaiting, hreplies]
      exact Nat.lt_succ_self _
    · cases hstep

/-- The binding has a reply left when it is asked. -/
theorem Inv.replies_ne_nil (h : s.Inv it unfinished last) (hwaiting : s.waiting = .binding call) : s.replies ≠ [] := by
  unfold Inv at h
  rw [hwaiting] at h
  obtain ⟨hahead, -, -, -, hfinished⟩ := h
  have hreplies := hahead.replies
  rw [hfinished, if_neg Bool.noConfusion] at hreplies
  obtain ⟨us, -, hscript⟩ := hreplies
  rw [hscript, script]
  exact List.append_ne_nil_of_right_ne_nil _ (List.cons_ne_nil _ _)

theorem Inv.progress (h : s.Inv it unfinished last) (hwaiting : s.waiting ≠ .idle) :
    ∃ action t, action ≠ .next ∧ s.step action = some t := by
  cases hw : s.waiting with
  | idle => exact absurd hw hwaiting
  | future call args =>
    have hsome : (s.step .future).isSome = true := by
      unfold JsIterator.step
      dsimp only
      rw [hw]
      rfl
    obtain ⟨t, ht⟩ := Option.isSome_iff_exists.1 hsome
    exact ⟨.future, t, JsAction.noConfusion, ht⟩
  | binding call =>
    obtain ⟨reply, replies, hreplies⟩ := List.exists_cons_of_ne_nil (h.replies_ne_nil hw)
    have hsome : (s.step .reply).isSome = true := by
      unfold JsIterator.step
      dsimp only
      rw [hw, hreplies]
      cases reply <;> rfl
    obtain ⟨t, ht⟩ := Option.isSome_iff_exists.1 hsome
    exact ⟨.reply, t, JsAction.noConfusion, ht⟩

theorem Inv.log (h : s.Inv it unfinished last) :
    s.log = (List.range s.log.length).map (fun n => (n, entryAt it (unfinished.flatten ++ last) n)) ∧
      s.calls = s.log.length + if s.waiting = .idle then 0 else 1 := by
  unfold Inv at h
  cases hwaiting : s.waiting with
  | idle =>
    rw [hwaiting] at h
    exact ⟨h.1.log, h.2⟩
  | future call args =>
    rw [hwaiting] at h
    exact ⟨h.1.log, h.2.1⟩
  | binding call =>
    rw [hwaiting] at h
    exact ⟨h.1.log, h.2.1⟩

theorem Inv.bindingCalls_le (h : s.Inv it unfinished last) : s.bindingCalls ≤ unfinished.length + 1 := by
  cases hwaiting : s.waiting with
  | idle =>
    unfold Inv at h
    rw [hwaiting] at h
    have := h.1.asked
    omega
  | future call args =>
    unfold Inv at h
    rw [hwaiting] at h
    have := h.1.asked
    omega
  | binding call =>
    have hpos := List.length_pos_of_ne_nil (h.replies_ne_nil hwaiting)
    unfold Inv at h
    rw [hwaiting] at h
    have := h.1.asked
    omega

theorem next_finished (h : s.finished = true) :
    (s.next call).finished = true ∧ (s.next call).bindingCalls = s.bindingCalls ∧
      ∀ c, (s.next call).waiting ≠ .binding c := by
  unfold next
  dsimp only
  split_ifs
  · exact ⟨h, rfl, fun c => Waiting.noConfusion⟩
  · exact ⟨h, rfl, fun c => Waiting.noConfusion⟩

/-- Once the finished reply has come the binding is left alone. -/
theorem step_finished (h : s.finished = true ∧ s.bindingCalls = asked ∧ ∀ c, s.waiting ≠ .binding c)
    (hstep : s.step action = some t) : t.finished = true ∧ t.bindingCalls = asked ∧ ∀ c, t.waiting ≠ .binding c := by
  obtain ⟨hfinished, hasked, hwaiting⟩ := h
  unfold step at hstep
  cases action with
  | next =>
    dsimp only at hstep
    split_ifs at hstep
    cases hstep
    obtain ⟨h1, h2, h3⟩ := @next_finished { s with calls := s.calls + 1 } s.calls hfinished
    exact ⟨h1, h2.trans hasked, h3⟩
  | future =>
    dsimp only at hstep
    split at hstep
    · cases hstep
      exact ⟨hfinished, hasked, fun c => Waiting.noConfusion⟩
    · cases hstep
  | reply =>
    dsimp only at hstep
    split at hstep
    · next hw _ => exact absurd hw (hwaiting _)
    · next hw _ => exact absurd hw (hwaiting _)
    · cases hstep

/-- The state of an iterator whose calls are answered rightly. -/
structure Correct (it : Iterator) (unfinished : List (List (Slice × Slice))) (last : List (Slice × Slice))
    (t : JsIterator) : Prop where
  log : t.log = (List.range t.log.length).map fun n => (n, entryAt it (unfinished.flatten ++ last) n)
  once : t.calls = t.log.length + if t.waiting = .idle then 0 else 1
  progress : t.waiting ≠ .idle → ∃ action u, action ≠ .next ∧ t.step action = some u
  bounded : ∀ actions u, Run (Steps step fun _ action => action ≠ .next) t actions u →
    actions.length ≤ t.replies.length + 1
  asked : t.bindingCalls ≤ unfinished.length + 1
  finished : t.finished = true → ∀ actions u, Run (Steps step fun _ _ => True) t actions u →
    u.bindingCalls = t.bindingCalls

/-- In every run each call runs its callback once, call `n` with row `n` of the replies, or with nothing when there
is none, and no call asks the binding once the finished reply has come. -/
theorem correct (hlast : last.length ≤ 2 ^ 30) (hrows : ∀ rows ∈ unfinished, rows.length ≤ 2 ^ 30)
    (h : Run (Steps step fun _ _ => True) (start it (script unfinished last)) actions t) :
    t.Correct it unfinished last := by
  have hinv : t.Inv it unfinished last := h.inv (fun _ _ _ hs ha => hs.step hlast hrows ha.1) inv_start
  refine ⟨hinv.log.1, hinv.log.2, hinv.progress, fun actions u hu => ?_, hinv.bindingCalls_le,
    fun hfinished actions u hu => ?_⟩
  · have hdec : ∀ s a u, Steps step (fun _ action => action ≠ .next) s a u → u.stepsLeft < s.stepsLeft :=
      fun _ _ _ => stepsLeft_step
    have hlen := hu.length_le hdec
    have hle : t.stepsLeft ≤ t.replies.length + 1 := by
      unfold stepsLeft
      cases t.waiting <;> simp
    omega
  · have hwaiting : ∀ c, t.waiting ≠ .binding c := by
      intro c hc
      unfold Inv at hinv
      rw [hc] at hinv
      rw [hinv.2.2.2.2] at hfinished
      cases hfinished
    exact (hu.inv (I := fun s => s.finished = true ∧ s.bindingCalls = t.bindingCalls ∧ ∀ c, s.waiting ≠ .binding c)
      (fun _ _ _ hs ha => step_finished hs ha.1) ⟨hfinished, rfl, hwaiting⟩).2.1

/-- The run of two calls on a reply with a row and an empty last one. -/
theorem correct_two : ∃ t, exec step (start (Iterator.new 0 {}) (script [[(bytes "a", bytes "1")]] []))
      [.next, .reply, .future, .next, .reply, .future] = some t ∧
    t.Correct (Iterator.new 0 {}) [[(bytes "a", bytes "1")]] [] := by
  obtain ⟨t, hexec⟩ : ∃ t, exec step (start (Iterator.new 0 {}) (script [[(bytes "a", bytes "1")]] []))
      [.next, .reply, .future, .next, .reply, .future] = some t := ⟨_, rfl⟩
  exact ⟨t, hexec, correct (by decide) (by decide) (.of_exec hexec)⟩

/-- The first call, when its reply has come. -/
def answered (it : Iterator) (rows : List (Slice × Slice)) : JsIterator where
  native := it
  replies := []
  cache := some (handleOKCallback it rows)
  finished := true
  waiting := .binding 0
  calls := 1
  bindingCalls := 1

theorem first_reply {row : Slice × Slice} (h : handleOKCallback it last = layout it (row :: c)) :
    ∃ t, exec step (start it (script [] last)) [.next, .reply, .future] = some t ∧ t.log = [(0, entryAt it [row] 0)] := by
  have hexec : exec step (start it (script [] last)) [.next, .reply, .future] =
      exec step ((answered it last).next 0) [.future] := rfl
  have hcache : (answered it last).cache.getD [] = layout it (row :: c) := h
  rw [hexec, next_entry hcache]
  exact ⟨_, rfl, rfl⟩

/-- A call after all rows have been delivered asks the binding again, and of a reply with one row too many the first
row is lost. -/
theorem asks_again_and_loses :
    (∃ t u, exec step (start (Iterator.new 0 {}) (script [[(bytes "a", bytes "1")]] [])) [.next, .reply, .future] = some t ∧
      t.log = [(0, entryAt (Iterator.new 0 {}) [(bytes "a", bytes "1")] 0)] ∧ t.step .next = some u ∧
      u.bindingCalls = t.bindingCalls + 1) ∧
    ∃ t, exec step (start (Iterator.new 0 {}) (script []
        ((bytes "a", bytes "1") :: (bytes "b", bytes "2") :: List.replicate (2 ^ 30 - 1) (bytes "c", bytes "3"))))
      [.next, .reply, .future] = some t ∧ t.log = [(0, entryAt (Iterator.new 0 {}) [(bytes "b", bytes "2")] 0)] := by
  have hlength : ((bytes "b", bytes "2") :: List.replicate (2 ^ 30 - 1) (bytes "c", bytes "3")).length = 2 ^ 30 := by
    rw [List.length_cons, List.length_replicate, Nat.sub_add_cancel (by omega)]
  exact ⟨⟨_, _, rfl, rfl, rfl, rfl⟩,
    first_reply ((handleOKCallback_overflow hlength).trans (handleOKCallback_eq (Nat.le_of_eq hlength)))⟩

end JsIterator

end Kududown
