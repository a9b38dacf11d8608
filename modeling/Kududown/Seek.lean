import Kududown.JsIterator

/-!
# Seeking

`Iterator.prototype.seek` throws away the cached rows before it calls the binding, whose `Seek` always throws, and
sets `finished` only after that call. The rows that an idle iterator may still deliver are the prefixes of
`JsIterator.rest` (`deliverable_iff`), so a call that gets past the argument checks loses the cached rows, and no
others (`seek_kept_iff`).
-/

namespace Kududown

/-- `Iterator::Seek`. -/
def Iterator.seek (_ : Iterator) (_ : BoundValue) : Except String Unit :=
  .error "Iterator::Seek - is not supported."

/-- A row as the callback gets it. -/
abbrev JSRow := Option JSValue × Option JSValue

/-- The rows of an array, from its last element backwards, two elements a row. -/
def poppedRows : List (Option JSValue) → List JSRow
  | key :: value :: a => (key, value) :: poppedRows a
  | [key] => [(key, none)]
  | [] => []

def JSArray.rows (a : JSArray) : List JSRow := poppedRows a.reverse

def CallbackArgs.row : CallbackArgs → Option JSRow
  | .entry key value => some (key, value)
  | .nothing | .error _ => none

/-- The rows that the callbacks were run with. -/
def deliveredRows (log : List (Nat × CallbackArgs)) : List JSRow := log.filterMap fun entry => entry.2.row

/-- The rows that the replies of the binding bring, as long as it is asked for them. -/
def laterRows (it : Iterator) : List Report → List JSRow
  | [] => []
  | .error _ :: replies => laterRows it replies
  | .ok result ok :: replies => (handleOKCallback it result).rows ++ if ok then laterRows it replies else []

namespace JsIterator

/-- The argument checks of `seek`; `ended` is `_ended`. -/
def refusesSeek (s : JsIterator) (ended : Bool) (target : BoundValue) : Option String :=
  if ended then some "cannot call seek() after end()"
  else if s.waiting ≠ .idle then some "cannot call seek() before next() has completed"
  else match target with
    | .other => some "seek() requires a string or buffer key"
    | .string key | .buffer key => if key.length = 0 then some "cannot seek() to an empty key" else none

/-- `Iterator.prototype.seek`. -/
def seek (s : JsIterator) (ended : Bool) (target : BoundValue) : Except String Unit × JsIterator :=
  match s.refusesSeek ended target with
  | some message => (.error message, s)
  | none =>
    let s := { s with cache := none }
    match s.native.seek target with
    | .error message => (.error message, s)
    | .ok () => (.ok (), { s with finished := false })

/-- The rows that can come out of the next calls in some run. -/
def Deliverable (s : JsIterator) (rows : List JSRow) : Prop :=
  ∃ actions t l, Run (Steps step fun _ _ => True) s actions t ∧ t.log = s.log ++ l ∧ deliveredRows l = rows

/-- If `seek` throws, what comes out of the calls after it is what would have come out without it. -/
def SeekKept (s : JsIterator) (ended : Bool) (target : BoundValue) : Prop :=
  ∀ message t, s.seek ended target = (.error message, t) → ∀ rows, t.Deliverable rows ↔ s.Deliverable rows

/-- The rows that an idle iterator has yet to deliver. -/
def rest (s : JsIterator) : List JSRow :=
  (s.cache.getD []).rows ++ if s.finished then [] else laterRows s.native s.replies

/-- The row on its way to the callback. -/
def held (s : JsIterator) : List JSRow :=
  match s.waiting with
  | .future _ args => args.row.toList
  | .idle | .binding _ => []

/-- `total` is what was delivered, what is being delivered and what is to come. -/
structure Splits (total : List JSRow) (s : JsIterator) : Prop where
  rows : deliveredRows s.log ++ (s.held ++ s.rest) = total
  asked : ∀ call, s.waiting = .binding call → s.cache.getD [] = [] ∧ s.finished = false

variable {s t : JsIterator} {call : Nat} {action : JsAction} {actions : List JsAction} {row : JSRow}
  {rows total : List JSRow} {l : List (Nat × CallbackArgs)}

/-! ### What is still to come -/

theorem pop_reverse {a : List (Option JSValue)} : JSArray.pop a.reverse = (a.head?.join, a.tail.reverse) := by
  unfold JSArray.pop
  rw [List.getLast?_reverse, List.dropLast_reverse]

theorem rows_pop {a : JSArray} (h : a ≠ []) : a.rows = (a.pop.1, a.pop.2.pop.1) :: a.pop.2.pop.2.rows := by
  obtain ⟨b, rfl⟩ : ∃ b : List (Option JSValue), a = b.reverse := ⟨a.reverse, a.reverse_reverse.symm⟩
  unfold JSArray.rows
  rw [pop_reverse, pop_reverse, List.reverse_reverse, List.reverse_reverse]
  rcases b with _ | ⟨key, _ | ⟨value, b⟩⟩
  · exact absurd rfl h
  · rfl
  · rfl

theorem rows_eq_nil {a : JSArray} : a.rows = [] ↔ a = [] := by
  refine ⟨fun h => ?_, fun h => h ▸ rfl⟩
  by_contra hne
  rw [rows_pop hne] at h
  cases h

theorem deliveredRows_append {l' : List (Nat × CallbackArgs)} :
    deliveredRows (l ++ l') = deliveredRows l ++ deliveredRows l' := List.filterMap_append

theorem next_log : (s.next call).log = s.log := by
  unfold next
  dsimp only
  split_ifs <;> rfl

/-- `_next` takes a row out of what is to come, or leaves it as it is. -/
theorem next_rest : (s.next call).held ++ (s.next call).rest = s.rest := by
  unfold next
  dsimp only
  split_ifs with hcache hfinished
  · have hne : s.cache.getD [] ≠ [] := fun h => hcache (by rw [h]; rfl)
    unfold rest
    rw [rows_pop hne]
    rfl
  · rfl
  · rfl

theorem next_asked (c : Nat) (h : (s.next call).waiting = .binding c) :
    (s.next call).cache.getD [] = [] ∧ (s.next call).finished = false := by
  unfold next at h ⊢
  dsimp only at h ⊢
  split_ifs at h ⊢ with hcache hfinished
  exact ⟨List.length_eq_zero_iff.1 (not_not.1 hcache), eq_false_of_ne_true hfinished⟩

theorem Splits.next (h : deliveredRows s.log ++ s.rest = total) : (s.next call).Splits total := by
  refine ⟨?_, next_asked⟩
  rw [next_log, next_rest]
  exact h

theorem Splits.step (h : s.Splits total) (hstep : s.step action = some t) : t.Splits total := by
  have hrows := h.rows
  unfold JsIterator.step at hstep
  cases action with
  | next =>
    dsimp only at hstep
    split_ifs at hstep with hidle
    cases hstep
    refine Splits.next ?_
    unfold held at hrows
    rw [hidle] at hrows
    exact hrows
  | future =>
    dsimp only at hstep
    split at hstep
    · next call args hwaiting =>
      cases hstep
      refine ⟨?_, fun c hc => (by cases hc)⟩
      rw [← hrows, deliveredRows_append, List.append_assoc]
      unfold held
      rw [hwaiting]
      cases args <;> rfl
    · cases hstep
  | reply =>
    dsimp only at hstep
    split at hstep
    · next call e replies hwaiting hreplies =>
      cases hstep
      refine ⟨?_, fun c hc => (by cases hc)⟩
      rw [← hrows, deliveredRows_append, List.append_assoc]
      unfold held rest
      rw [hwaiting, hreplies]
      rfl
    · next call result ok replies hwaiting hreplies =>
      cases hstep
      obtain ⟨hcache, hfinished⟩ := h.asked call hwaiting
      refine Splits.next ?_
      rw [← hrows]
      unfold held rest
      rw [hwaiting, hreplies, hcache, hfinished]
      cases ok <;> rfl
    · cases hstep

theorem splits_of_idle (hidle : s.waiting = .idle) : s.Splits (deliveredRows s.log ++ s.rest) := by
  refine ⟨?_, fun call hcall => ?_⟩
  · unfold held
    rw [hidle]
    rfl
  · rw [hidle] at hcall
    cases hcall

theorem Splits.run (h : s.Splits total) (hrun : Run (Steps JsIterator.step fun _ _ => True) s actions t) :
    t.Splits total := hrun.inv (fun _ _ _ hs ha => hs.step ha.1) h

/-! ### Every row to come can be had -/

/-- Some run ends with the row delivered and the iterator idle. -/
def Brings (s : JsIterator) (row : JSRow) : Prop :=
  ∃ actions t l, Run (Steps step fun _ _ => True) s actions t ∧ t.waiting = .idle ∧ t.log = s.log ++ l ∧
    deliveredRows l = [row]

theorem Brings.of_step (h : t.Brings row) (hstep : s.step action = some t) (hlog : t.log = s.log ++ l)
    (hl : deliveredRows l = []) : s.Brings row := by
  obtain ⟨actions, u, l', hrun, hidle, hlog', hl'⟩ := h
  refine ⟨action :: actions, u, l ++ l', .cons ⟨hstep, trivial⟩ hrun, hidle, ?_, ?_⟩
  · rw [hlog', hlog, List.append_assoc]
  · rw [deliveredRows_append, hl, hl']
    rfl

theorem brings_of_future {args : CallbackArgs} (hwaiting : s.waiting = .future call args) (hrow : args.row = some row) :
    s.Brings row := by
  refine ⟨[.future], { s with waiting := .idle, log := s.log ++ [(call, args)] }, [(call, args)], ?_, rfl, rfl, ?_⟩
  · refine .single ⟨?_, trivial⟩
    unfold step
    dsimp only
    rw [hwaiting]
  · simp [deliveredRows, hrow]

/-- With rows in the cache, the call that has just looked into it brings the first. -/
theorem next_brings (hcache : s.cache.getD [] ≠ []) (hrest : s.rest = row :: rows) : (s.next call).Brings row := by
  have hlen : (s.cache.getD []).length ≠ 0 := fun h => hcache (List.length_eq_zero_iff.1 h)
  have hnext : (s.next call).waiting =
      .future call (.entry (s.cache.getD []).pop.1 (s.cache.getD []).pop.2.pop.1) := by
    unfold next
    dsimp only
    rw [if_pos hlen]
  unfold rest at hrest
  rw [rows_pop hcache] at hrest
  obtain ⟨rfl, -⟩ := List.cons.inj hrest
  exact brings_of_future hnext rfl

theorem next_of_empty (hcache : s.cache.getD [] = []) (hfinished : s.finished = false) :
    s.next call = { s with waiting := .binding call, bindingCalls := s.bindingCalls + 1 } := by
  unfold next
  dsimp only
  rw [hfinished, if_neg (by rw [hcache]; exact fun h => h rfl), if_neg Bool.noConfusion]

theorem next_brings_later (hcache : s.cache.getD [] = []) (hfinished : s.finished = false)
    (h : Brings { s with waiting := .binding call, bindingCalls := s.bindingCalls + 1 } row) :
    (s.next call).Brings row := by
  rw [next_of_empty hcache hfinished]
  exact h

theorem Brings.next (h : ({ s with calls := s.calls + 1 }.next s.calls).Brings row) (hidle : s.waiting = .idle) :
    s.Brings row := by
  refine @Brings.of_step _ _ .next _ [] h ?_ ?_ rfl
  · unfold step
    dsimp only
    rw [if_pos hidle]
  · rw [next_log, List.append_nil]

/-- A call that waits for the binding gets its row from the first reply that has one; the failures before it go to
the callback, and another call is made. -/
theorem brings_of_binding {replies : List Report} (hreplies : s.replies = replies) (hwaiting : s.waiting = .binding call)
    (hcache : s.cache.getD [] = []) (hfinished : s.finished = false)
    (hrows : laterRows s.native replies = row :: rows) : s.Brings row := by
  induction replies generalizing s call with
  | nil => cases hrows
  | cons reply replies ih =>
    cases reply with
    | error e =>
      have hreply : s.step .reply =
          some { s with waiting := .idle, replies, log := s.log ++ [(call, .error e)] } := by
        unfold step
        dsimp only
        rw [hwaiting, hreplies]
      refine Brings.of_step ?_ hreply rfl rfl
      exact Brings.next (next_brings_later hcache hfinished (ih rfl rfl hcache hfinished hrows)) rfl
    | ok result ok =>
      have hreply : s.step .reply = some ({ s with
          cache := some (handleOKCallback s.native result), finished := !ok, replies }.next call) := by
        unfold step
        dsimp only
        rw [hwaiting, hreplies]
      refine @Brings.of_step _ _ _ _ [] ?_ hreply ?_ rfl
      · by_cases hempty : handleOKCallback s.native result = []
        · unfold laterRows at hrows
          rw [hempty] at hrows ⊢
          cases ok with
          | false => cases hrows
          | true => exact next_brings_later rfl rfl (ih rfl rfl rfl rfl hrows)
        · refine @next_brings _ _ _ rows hempty ?_
          rw [← hrows]
          cases ok <;> rfl
      · rw [next_log, List.append_nil]

theorem brings_of_idle (hidle : s.waiting = .idle) (hrest : s.rest = row :: rows) : s.Brings row := by
  refine Brings.next ?_ hidle
  by_cases hcache : s.cache.getD [] = []
  · unfold rest at hrest
    rw [hcache] at hrest
    by_cases hfinished : s.finished = true
    · rw [if_pos hfinished] at hrest
      cases hrest
    · rw [if_neg hfinished] at hrest
      have hopen := eq_false_of_ne_true hfinished
      exact next_brings_later hcache hopen (brings_of_binding rfl rfl hcache hopen hrest)
  · exact next_brings hcache hrest

/-- What an idle iterator may deliver are the prefixes of the rows to come. -/
theorem deliverable_iff (hidle : s.waiting = .idle) : s.Deliverable rows ↔ rows <+: s.rest := by
  constructor
  · rintro ⟨actions, t, l, hrun, hlog, rfl⟩
    have hsplits := ((splits_of_idle hidle).run hrun).rows
    rw [hlog, deliveredRows_append, List.append_assoc] at hsplits
    exact ⟨_, List.append_cancel_left hsplits⟩
  · intro hprefix
    induction rows generalizing s with
    | nil => exact ⟨[], s, [], .nil s, (List.append_nil _).symm, rfl⟩
    | cons row rows ih =>
      obtain ⟨later, hlater⟩ := hprefix
      obtain ⟨actions, t, l, hrun, hidle', hlog, hl⟩ := brings_of_idle hidle hlater.symm
      have hsplits := ((splits_of_idle hidle).run hrun).rows
      have hheld : t.held = [] := by
        unfold held
        rw [hidle']
      rw [hlog, deliveredRows_append, hl, hheld, List.append_assoc, ← hlater] at hsplits
      have hrest := List.append_cancel_left hsplits
      obtain ⟨actions', u, l', hrun', hlog', hl'⟩ := ih hidle' ⟨later, (List.cons.inj hrest).2.symm⟩
      refine ⟨actions ++ actions', u, l ++ l', hrun.append hrun', ?_, ?_⟩
      · rw [hlog', hlog, List.append_assoc]
      · rw [deliveredRows_append, hl, hl']
        rfl

/-! ### A seek -/

theorem seek_of_refused {ended : Bool} {target : BoundValue} {message : String}
    (h : s.refusesSeek ended target = some message) : s.seek ended target = (.error message, s) := by
  unfold seek
  rw [h]

theorem seek_of_accepted {ended : Bool} {target : BoundValue} (h : s.refusesSeek ended target = none) :
    s.seek ended target = (.error "Iterator::Seek - is not supported.", { s with cache := none }) := by
  unfold seek
  rw [h]
  rfl

theorem idle_of_accepted {ended : Bool} {target : BoundValue} (h : s.refusesSeek ended target = none) :
    s.waiting = .idle := by
  unfold refusesSeek at h
  split_ifs at h with hended hwaiting
  exact not_not.1 hwaiting

/-- A seek leaves the iterator as it was just if the argument checks refuse it or no row is cached. -/
theorem seek_kept_iff (s : JsIterator) (ended : Bool) (target : BoundValue) :
    s.SeekKept ended target ↔ (s.refusesSeek ended target).isSome ∨ s.cache.getD [] = [] := by
  cases hrefuses : s.refusesSeek ended target with
  | some message =>
    refine ⟨fun _ => .inl rfl, fun _ message' t hseek rows => ?_⟩
    rw [seek_of_refused hrefuses] at hseek
    cases hseek
    rfl
  | none =>
    have hidle := idle_of_accepted hrefuses
    have hcleared : ({ s with cache := none } : JsIterator).waiting = .idle := hidle
    constructor
    · intro h
      refine .inr (rows_eq_nil.1 ?_)
      have hall := (h _ _ (seek_of_accepted hrefuses) s.rest).2 ((deliverable_iff hidle).2 (List.prefix_refl _))
      have hlen := ((deliverable_iff hcleared).1 hall).length_le
      have hcut : s.rest = (s.cache.getD []).rows ++ rest { s with cache := none } := rfl
      rw [hcut, List.length_append] at hlen
      exact List.length_eq_zero_iff.1 (by omega)
    · rintro (hsome | hcache)
      · cases hsome
      · intro message t hseek rows
        rw [seek_of_accepted hrefuses] at hseek
        cases hseek
        rw [deliverable_iff hcleared, deliverable_iff hidle]
        unfold rest
        rw [hcache]
        rfl

/-- An iterator with one row cached and none to come. -/
def oneCached : JsIterator where
  native := Iterator.new 0 {}
  replies := []
  cache := some (layout (Iterator.new 0 {}) [(bytes "a", bytes "1")])
  finished := true

/-- The row is lost. -/
theorem seek_loses : ¬ oneCached.SeekKept false (.string (bytes "b")) := by
  intro h
  have hone : oneCached.Deliverable [(some (.buffer (bytes "a")), some (.buffer (bytes "1")))] := by
    refine (deliverable_iff rfl).2 ?_
    decide
  have hnone := (h _ _ (seek_of_accepted rfl) _).2 hone
  have hprefix := (deliverable_iff rfl).1 hnone
  exact absurd hprefix (by decide)

end JsIterator

end Kududown
