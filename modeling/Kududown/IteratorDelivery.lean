import Kududown.IteratorRun

/-!
# What an iterator delivers

Every row once and in order when nothing fails, a prefix of the rows and then the error when something does,
and with a limit the rows up to the end of the chunk in which the number of fetched rows reaches it.
-/

namespace Kududown
open Iterator

variable {opens : Nat → ScanSpec → OpenReply} {tablePtr : Option KuduTable} {it : Iterator}
  {schema : KuduSchema} {replies : List BatchReply} {B : List (List RowPtr)} {P : List (List (Slice × Slice))}
  {id m : Nat} {options : IteratorOptions}

/-- Batches `B` whose rows all convert, to `P`. -/
def Readable (schema : KuduSchema) (B : List (List RowPtr)) (P : List (List (Slice × Slice))) : Prop :=
  B.map (List.map (rowPair schema)) = P.map (List.map .ok)

theorem Readable.scanPairs (h : Readable schema B P) : scanPairs schema (B.map .ok) = allOk P := by
  have hmap := congrArg (List.map (Except.ok (ε := Failure))) h
  unfold Kududown.scanPairs allOk
  rw [List.map_map] at hmap ⊢
  rw [List.map_map] at hmap
  exact hmap

theorem full_of_neg (h : it.limit < 0) : it.full = fun _ => false := by
  funext n
  exact decide_eq_false fun ⟨h1, _⟩ => by omega

theorem Iterator.Fresh.handsOut (h : it.Fresh) (hm : 0 < it.highWaterMark)
    (ho : opens 0 (it.scanSpec tablePtr) = .ok (schema, B.map .ok)) (hread : Readable schema B P) :
    HandsOut opens tablePtr it (scanDelivery pairSize it.highWaterMark it.full 0 (allOk (ε := Failure) P)).chunks := by
  have hcall := h.call hm (fun j hj => absurd hj (Nat.not_lt_zero j)) ho
  rw [hread.scanPairs, scanDelivery_allOk_error] at hcall
  refine ⟨fun n hn => ?_, fun n hn => ?_⟩
  · have hp := hcall n
    rw [List.drop_eq_getElem_cons hn, Nat.zero_add] at hp
    exact ⟨hp.rows_inv.1, hp.rows_inv.2.1⟩
  · have hp := hcall n
    rw [List.drop_eq_nil_of_le hn, Nat.zero_add] at hp
    exact ⟨hp.stopped_inv.1, hp.stopped_inv.2.1 rfl⟩

/-- Without a limit, and when nothing fails, the calls hand out the rows of the scan once each and in order.
No chunk is empty or crosses a batch border, and all of it but its last row is below the watermark. -/
theorem rows_exactly_once (hlimit : (Iterator.new id options).limit < 0)
    (hmark : 1 ≤ (Iterator.new id options).highWaterMark)
    (hopen : opens 0 ((Iterator.new id options).scanSpec tablePtr) = .ok (schema, B.map .ok))
    (hread : Readable schema B P) :
    ∃ chunks, HandsOut opens tablePtr (Iterator.new id options) chunks ∧ chunks.flatten = P.flatten ∧
      ∀ c ∈ chunks, c ≠ [] ∧ (∃ b ∈ P, c <:+: b) ∧
        weight pairSize c.dropLast < (Iterator.new id options).highWaterMark := by
  refine ⟨_, (fresh_new id options).handsOut hmark hopen hread, ?_, fun c hc => chunk_of_allOk hmark hc⟩
  rw [full_of_neg hlimit]
  exact scanDelivery_allOk_items hmark 0 P

theorem rows_exactly_once_two :
    ∃ chunks, HandsOut (fun _ _ => .ok (stringSchema,
        [.ok [stringRow (bytes "a") (bytes "1")], .ok [], .ok [stringRow (bytes "b") (bytes "2")]]))
        (some ⟨"t"⟩) (Iterator.new 0 {}) chunks ∧
      chunks.flatten = [(bytes "a", bytes "1"), (bytes "b", bytes "2")] ∧
      ∀ c ∈ chunks, c ≠ [] ∧ (∃ b ∈ [[(bytes "a", bytes "1")], [], [(bytes "b", bytes "2")]], c <:+: b) ∧
        weight pairSize c.dropLast < (Iterator.new 0 {}).highWaterMark :=
  @rows_exactly_once (fun _ _ => .ok (stringSchema,
      [.ok [stringRow (bytes "a") (bytes "1")], .ok [], .ok [stringRow (bytes "b") (bytes "2")]]))
    (some ⟨"t"⟩) stringSchema
    [[stringRow (bytes "a") (bytes "1")], [], [stringRow (bytes "b") (bytes "2")]]
    [[(bytes "a", bytes "1")], [], [(bytes "b", bytes "2")]] 0 {}
    (by decide) (by decide) rfl rfl

/-! ### Failures -/

/-- What call `n` and those before it say about a scan with these `replies`. -/
structure ScanReport (opens : Nat → ScanSpec → OpenReply) (tablePtr : Option KuduTable) (it : Iterator)
    (schema : KuduSchema) (replies : List BatchReply) (n : Nat) : Prop where
  isPrefix : (it.delivered opens tablePtr n).map .ok <+: scanItems (scanPairs schema replies)
  complete : (it.call opens tablePtr n).ret = false → (it.call opens tablePtr n).status = .OK →
    (it.delivered opens tablePtr n).map .ok = scanItems (scanPairs schema replies)
  failed : ∀ e, Strikes pairSize it.highWaterMark e (it.delivered opens tablePtr n) (scanPairs schema replies) →
    ∀ j ≥ n, (it.call opens tablePtr j).ret = false ∧ (it.call opens tablePtr j).status = .error e
  struck : ∀ e, (it.call opens tablePtr n).ret = false → (it.call opens tablePtr n).status = .error e →
    Strikes pairSize it.highWaterMark e (it.delivered opens tablePtr n) (scanPairs schema replies)

theorem Status.ofError_eq_ok {err : Option Failure} : Status.ofError err = .OK ↔ err = none := by
  cases err <;> simp [Status.ofError]

theorem Status.ofError_eq_error {err : Option Failure} {e : Failure} : Status.ofError err = .error e ↔ err = some e := by
  cases err <;> simp [Status.ofError]

theorem ScanReport.of_popped {d : Delivery Failure (Slice × Slice)} (hmark : 0 < it.highWaterMark)
    (hcall : ∀ k, Popped ⟨d.chunks.drop k, d.error⟩ (it.call opens tablePtr (m + k)))
    (hdelivered : ∀ k, it.delivered opens tablePtr (m + k) = (d.chunks.take k).flatten)
    (hd : scanDelivery pairSize it.highWaterMark (fun _ => false) 0 (scanPairs schema replies) = d) (k : Nat) :
    ScanReport opens tablePtr it schema replies (m + k) := by
  have hof : d.Of (scanItems (scanPairs schema replies)) := hd ▸ scanDelivery_of hmark 0 _
  -- a call that returns false has no chunk left, and reports how the delivery ends
  have hstop : (it.call opens tablePtr (m + k)).ret = false →
      (it.call opens tablePtr (m + k)).status = .ofError d.error ∧ it.delivered opens tablePtr (m + k) = d.items := by
    intro hret
    have hp := hcall k
    rcases hdrop : d.chunks.drop k with _ | ⟨c, cs⟩
    · rw [hdrop] at hp
      refine ⟨hp.stopped_inv.2.2.1, ?_⟩
      rw [hdelivered, List.take_of_length_le (List.drop_eq_nil_iff.1 hdrop)]
      rfl
    · rw [hdrop] at hp
      rw [hp.rows_inv.1] at hret
      cases hret
  refine ⟨?_, fun hret hok => ?_, fun e hs j hj => ?_, fun e hret he => ?_⟩
  · rw [hdelivered]
    have hpre : (d.chunks.take k).flatten <+: d.items := List.IsPrefix.flatten (List.take_prefix k d.chunks)
    exact (List.IsPrefix.map _ hpre).trans hof.isPrefix
  · obtain ⟨hst, hall⟩ := hstop hret
    rw [hall]
    exact hof.all (Status.ofError_eq_ok.1 (hst.symm.trans hok))
  · rw [hdelivered, ← hd] at hs
    obtain ⟨hdrop, herr⟩ := hs.struck hmark rfl
    rw [hd] at hdrop herr
    obtain ⟨i, rfl⟩ := Nat.exists_eq_add_of_le hj
    have hp := hcall (k + i)
    rw [← List.drop_drop, hdrop, List.drop_nil, herr, ← Nat.add_assoc] at hp
    exact ⟨hp.stopped_inv.1, hp.stopped_inv.2.2.1⟩
  · obtain ⟨hst, hall⟩ := hstop hret
    have herr := Status.ofError_eq_error.1 (hst.symm.trans he)
    rw [hall, ← hd]
    exact strikes_of_error hmark (hd ▸ herr)

/-- A failed scan is never reported as a complete one. A call that cannot open the scanner returns false with
the error of the `Open`. From the call that opens it on, `m`, no call returns false with an OK status before all
rows of the scan are handed out, and just from the call on that meets the first failure of a fetch or of a row
every call returns false with that failure. -/
theorem failure_reported (hlimit : (Iterator.new id options).limit < 0)
    (hmark : 1 ≤ (Iterator.new id options).highWaterMark)
    (hfail : ∀ j < m, ∃ e, opens j ((Iterator.new id options).scanSpec tablePtr) = .error e) :
    (∀ n < m, ∀ e, opens n ((Iterator.new id options).scanSpec tablePtr) = .error e →
      (Iterator.new id options).delivered opens tablePtr n = [] ∧
      ((Iterator.new id options).call opens tablePtr n).ret = false ∧
      ((Iterator.new id options).call opens tablePtr n).status = .error e) ∧
    ∀ schema replies, opens m ((Iterator.new id options).scanSpec tablePtr) = .ok (schema, replies) →
      ∀ n ≥ m, ScanReport opens tablePtr (Iterator.new id options) schema replies n := by
  have hfresh := fresh_new id options
  generalize Iterator.new id options = it at *
  refine ⟨fun n hn e he => ⟨hfresh.delivered_unopened hfail hn.le, ?_⟩, fun schema replies ho n hn => ?_⟩
  · rw [hfresh.call_openFailed hfail hn he]
    exact ⟨rfl, rfl⟩
  · obtain ⟨k, rfl⟩ := Nat.exists_eq_add_of_le hn
    refine .of_popped hmark (hfresh.call hmark hfail ho) (hfresh.delivered hmark hfail ho) ?_ k
    rw [full_of_neg hlimit]

/-- The first call cannot open the scanner, and the second batch of the scan fails. -/
def retried : Nat → ScanSpec → OpenReply
  | 0, _ => .error ⟨.NetworkError, "no tablet server"⟩
  | _, _ => .ok (stringSchema, [.ok [stringRow (bytes "a") (bytes "1")], .error ⟨.TimedOut, "scan"⟩])

theorem failure_reported_retried : ScanReport retried (some ⟨"t"⟩) (Iterator.new 0 {}) stringSchema
    [.ok [stringRow (bytes "a") (bytes "1")], .error ⟨.TimedOut, "scan"⟩] 2 :=
  (@failure_reported retried (some ⟨"t"⟩) 0 1 {} (by decide) (by decide)
    (fun j hj => ⟨⟨.NetworkError, "no tablet server"⟩, by rw [Nat.lt_one_iff.1 hj]; rfl⟩)).2 _ _ rfl 2 (by decide)

/-! ### The limit -/

theorem full_of_pos {L : Nat} (h0 : 0 < L) (h : it.limit = L) : it.full = fun n => decide (L ≤ n) := by
  funext n
  unfold full
  congr 1
  rw [h]
  simp [h0]

theorem full_of_zero (h : it.limit = 0) : it.full = fun _ => false := by
  funext n
  exact decide_eq_false fun ⟨h1, _⟩ => by omega

/-- The limit `L` is exact just if it is 0 and there is no row, or the `L`-th row ends the first chunk of its
batch (or there are fewer rows). -/
theorem limit_exact_iff {L : Nat} (hlimit : (Iterator.new id options).limit = L)
    (hmark : 1 ≤ (Iterator.new id options).highWaterMark)
    (hopen : opens 0 ((Iterator.new id options).scanSpec tablePtr) = .ok (schema, B.map .ok))
    (hread : Readable schema B P) :
    Delivers opens tablePtr (Iterator.new id options) (P.flatten.take L) ↔
      if L = 0 then P.flatten = [] else LimitFits pairSize (Iterator.new id options).highWaterMark L P := by
  rw [((fresh_new id options).handsOut hmark hopen hread).delivers_iff]
  split_ifs with h0
  · subst h0
    rw [full_of_zero hlimit, List.take_zero]
    exact Eq.congr_left (scanDelivery_allOk_items hmark 0 P)
  · rw [full_of_pos (Nat.pos_of_ne_zero h0) hlimit]
    exact scanDelivery_limit_iff hmark (Nat.pos_of_ne_zero h0) P

def twoRows : Nat → ScanSpec → OpenReply := fun _ _ =>
  .ok (stringSchema, [.ok [stringRow (bytes "a") (bytes "1"), stringRow (bytes "b") (bytes "2")]])

theorem limit_exact_iff_one : Delivers twoRows (some ⟨"t"⟩) (Iterator.new 0 { limit := some 1, highWaterMark := some 2 })
      [(bytes "a", bytes "1")] ↔
    LimitFits pairSize 2 1 [[(bytes "a", bytes "1"), (bytes "b", bytes "2")]] :=
  @limit_exact_iff twoRows (some ⟨"t"⟩) stringSchema
    [[stringRow (bytes "a") (bytes "1"), stringRow (bytes "b") (bytes "2")]]
    [[(bytes "a", bytes "1"), (bytes "b", bytes "2")]] 0 { limit := some 1, highWaterMark := some 2 } 1
    (by decide) (by decide) rfl rfl

/-- With the limit 1 both rows of the batch are delivered by the first call. -/
theorem limit_exceeded : ¬ Delivers twoRows (some ⟨"t"⟩) (Iterator.new 0 { limit := some 1 })
    [(bytes "a", bytes "1")] :=
  fun h => absurd h.first_le (by decide)

end Kududown
