import Kududown.Open

/-!
# The status of a delete

Kudu reports the delete of a key that is not there as a failure, and `DeleteFromDatabase` means to answer OK to
that failure only: it looks for "key not found" in the text of the status. But `find_first_of` looks for any one
character of the phrase, so a failure is reported only when its text has none of them (`delete_reported_iff`).
-/

namespace Kududown

/-- What `deleteFromDatabase` looks for in the text of a failure. -/
def keyNotFound : String := "key not found"

/-- `result` is what is to be answered when `Apply` has returned `st`. -/
structure DeleteReported (text : Failure → String) (st result : Status) : Prop where
  ok : result = .OK → st = .OK ∨ ∃ e, st = .error e ∧ keyNotFound.toList <:+: (text e).toList
  error : ∀ e, st = .error e → ¬ keyNotFound.toList <:+: (text e).toList → result = .error e

/-! ### The search -/

theorem findFirstOf_eq_none {s chars : String} : findFirstOf s chars = none ↔ ∀ c ∈ s.toList, c ∉ chars.toList := by
  unfold findFirstOf
  rw [List.findIdx?_eq_none_iff]
  simp only [decide_eq_false_iff_not]

namespace Database
variable {σ : Type} {db : Database σ} {client : KuduClient σ} {table : KuduTable} {row : KuduPartialRow} {key : Slice}
  {s s' s'' : σ} {st : Status}

/-- What becomes of the status of `Apply`. -/
def deleteResult (text : Failure → String) : Status → Status
  | .OK => .OK
  | .error e => if findFirstOf (text e) keyNotFound ≠ none then .OK else .error e

theorem deleteFromDatabase_fst (hclient : db.kuduClientPtr = some client) (htable : db.tablePtr = some table)
    (hset : client.SetString table.NewDelete.row 0 key (client.NewSession s) = ((.OK, row), s'))
    (happly : client.Apply { table.NewDelete with row } s' = (st, s'')) :
    (db.deleteFromDatabase key s).1 = deleteResult client.ToString st := by
  simp only [deleteFromDatabase, hclient, htable, hset, happly]
  cases st with
  | OK => rfl
  | error e =>
    unfold deleteResult keyNotFound
    dsimp only
    split_ifs <;> rfl

/-! ### What is reported -/

theorem deleteResult_OK (text : Failure → String) : DeleteReported text .OK (deleteResult text .OK) :=
  ⟨fun _ => .inl rfl, fun _ h => (by cases h)⟩

theorem deleteResult_of_none {text : Failure → String} {e : Failure} (h : findFirstOf (text e) keyNotFound = none) :
    DeleteReported text (.error e) (deleteResult text (.error e)) := by
  have hresult : deleteResult text (.error e) = .error e := if_neg (not_not.2 h)
  rw [hresult]
  exact ⟨fun h => (by cases h), fun e' he _ => he⟩

theorem deleteResult_of_some {text : Failure → String} {e : Failure} (h : findFirstOf (text e) keyNotFound ≠ none) :
    DeleteReported text (.error e) (deleteResult text (.error e)) ↔ keyNotFound.toList <:+: (text e).toList := by
  have hresult : deleteResult text (.error e) = .OK := if_pos h
  rw [hresult]
  constructor
  · intro hr
    rcases hr.ok rfl with hok | ⟨e', he, hphrase⟩
    · cases hok
    · cases he
      exact hphrase
  · intro hphrase
    refine ⟨fun _ => .inr ⟨e, rfl, hphrase⟩, fun e' he hno => ?_⟩
    cases he
    exact absurd hphrase hno

/-- A failure of `Apply` is answered rightly just if its text has the phrase, or none of its characters. -/
theorem delete_reported_iff (hclient : db.kuduClientPtr = some client) (htable : db.tablePtr = some table)
    (hset : client.SetString table.NewDelete.row 0 key (client.NewSession s) = ((.OK, row), s'))
    (happly : client.Apply { table.NewDelete with row } s' = (st, s'')) :
    DeleteReported client.ToString st (db.deleteFromDatabase key s).1 ↔
      ∀ e, st = .error e → keyNotFound.toList <:+: (client.ToString e).toList ∨
        ∀ c ∈ (client.ToString e).toList, c ∉ keyNotFound.toList := by
  rw [deleteFromDatabase_fst hclient htable hset happly]
  cases st with
  | OK => exact ⟨fun _ e he => (by cases he), fun _ => deleteResult_OK _⟩
  | error e =>
    by_cases hfind : findFirstOf (client.ToString e) keyNotFound = none
    · refine ⟨fun _ e' he => ?_, fun _ => deleteResult_of_none hfind⟩
      cases he
      exact .inr (findFirstOf_eq_none.1 hfind)
    · rw [deleteResult_of_some hfind]
      constructor
      · intro hphrase e' he
        cases he
        exact .inl hphrase
      · intro h
        rcases h e rfl with hphrase | hnone
        · exact hphrase
        · exact absurd (findFirstOf_eq_none.2 hnone) hfind

/-- A client whose `Apply` times out. -/
def timingOut : KuduClient Unit :=
  { idle with
    Apply := fun _ s => (.error ⟨.TimedOut, "Failed to write batch"⟩, s)
    ToString := fun _ => "Timed out: Failed to write batch" }

theorem delete_reported_iff_timingOut :
    DeleteReported timingOut.ToString (.error ⟨.TimedOut, "Failed to write batch"⟩)
        (deleteFromDatabase ⟨some timingOut, some ⟨"t"⟩, .OK⟩ (bytes "a") ()).1 ↔
      ∀ e, Status.error ⟨.TimedOut, "Failed to write batch"⟩ = .error e →
        keyNotFound.toList <:+: (timingOut.ToString e).toList ∨
        ∀ c ∈ (timingOut.ToString e).toList, c ∉ keyNotFound.toList :=
  delete_reported_iff rfl rfl rfl rfl

/-- The delete that timed out comes out as done. -/
theorem delete_misreported :
    (deleteFromDatabase ⟨some timingOut, some ⟨"t"⟩, .OK⟩ (bytes "a") ()).1 = .OK ∧
    ¬ DeleteReported timingOut.ToString (.error ⟨.TimedOut, "Failed to write batch"⟩)
        (deleteFromDatabase ⟨some timingOut, some ⟨"t"⟩, .OK⟩ (bytes "a") ()).1 := by
  have hresult : (deleteFromDatabase ⟨some timingOut, some ⟨"t"⟩, .OK⟩ (bytes "a") ()).1 = .OK := by
    rw [deleteFromDatabase_fst rfl rfl rfl rfl]
    have hfind : findFirstOf (timingOut.ToString ⟨.TimedOut, "Failed to write batch"⟩) keyNotFound ≠ none := by decide
    show deleteResult timingOut.ToString (.error ⟨.TimedOut, "Failed to write batch"⟩) = .OK
    unfold deleteResult
    dsimp only
    rw [if_pos hfind]
  refine ⟨hresult, fun h => ?_⟩
  rcases h.ok hresult with hok | ⟨e, he, hphrase⟩
  · cases hok
  · cases he
    have hk : 'k' ∈ (timingOut.ToString ⟨.TimedOut, "Failed to write batch"⟩).toList :=
      hphrase.subset (by decide)
    exact absurd hk (by decide)

end Database

end Kududown
