import Kududown.Write
import Kududown.SliceAsString

/-!
# Reading one key

`Database::GetFromDatabase`. The scanner is a parameter: a `ScannerClient` answers every call from a state and
changes that state. `NextBatch` is given the caller's batch and says what is in it afterwards, so it can fail and
leave it alone. The scan loop need not end, so `getFromDatabase` has fuel; `GetReturns` says that some amount of it is
enough.
-/

namespace Kududown

structure ScannerClient (ρ : Type) where
  AddConjunctPredicate : KuduPredicate → ρ → Status × ρ
  Open : ρ → Status × ρ
  GetProjectionSchema : ρ → KuduSchema
  HasMoreRows : ρ → Bool
  NextBatch : List RowPtr → ρ → (Status × List RowPtr) × ρ
  Close : ρ → ρ
  ToDebugString : Slice → String

variable {ρ σ : Type}

/-- `for (it = batch.begin(); it != batch.end(); ++it)`: the status of `getSliceAsString` is dropped and `value`
is overwritten by every row, by the empty string when the conversion fails. -/
def readValue (schema : KuduSchema) (value : Slice) (batch : List RowPtr) : Slice :=
  batch.foldl (fun _ row => (getSliceAsString row (schema.type 1) 1 []).2) value

/-- `while (scanner.HasMoreRows())`, with the batch, `num_rows` and `value`; what `NextBatch` returns is not
looked at. `num_rows` is an `int`: when the sum does not fit the behaviour is undefined, and the loop has no
result. -/
def ScannerClient.readRows (client : ScannerClient ρ) : Nat → List RowPtr → Nat → Slice → ρ → Option ((Nat × Slice) × ρ)
  | 0, _, _, _, _ => none
  | fuel + 1, batch, num_rows, value, s =>
    if client.HasMoreRows s then
      let ((_, batch), s) := client.NextBatch batch s
      if num_rows + batch.length < 2 ^ 31 then
        client.readRows fuel batch (num_rows + batch.length) (readValue (client.GetProjectionSchema s) value batch) s
      else none
    else some ((num_rows, value), s)

/-- A predicate that cannot be added is left out. -/
def ScannerClient.get (client : ScannerClient ρ) (fuel : Nat) (key value : Slice) (s : ρ) :
    Option ((Status × Slice) × ρ) :=
  let (_, s) := client.AddConjunctPredicate { col_name := "key", op := .EQUAL, value := key } s
  match client.Open s with
  | (.error e, s) => some ((.error e, value), client.Close s)
  | (.OK, s) =>
    match client.readRows fuel [] 0 value s with
    | none => none
    | some ((num_rows, value), s) =>
      if num_rows = 0 then
        some ((.error ⟨.NotFound, "NotFound: " ++ client.ToDebugString key ++ " was not found"⟩, value), s)
      else some ((.OK, value), s)

/-- `value` is the string that the result goes to. -/
def Database.getFromDatabase (db : Database σ) (client : ScannerClient ρ) (fuel : Nat) (key value : Slice) (s : ρ) :
    Option ((Status × Slice) × ρ) :=
  match db.kuduClientPtr with
  | none => some ((.RuntimeError "Not connected. Unable to perform read operation.", value), s)
  | some _ =>
    match db.tablePtr with
    | none => some ((db.tableStatus, value), s)
    | some _ => client.get fuel key value s

/-- `GetFromDatabase` returns, with this status, value and state. -/
def Database.GetReturns (db : Database σ) (client : ScannerClient ρ) (key value : Slice) (s : ρ)
    (r : (Status × Slice) × ρ) : Prop :=
  ∃ fuel, db.getFromDatabase client fuel key value s = some r

variable {client : ScannerClient ρ} {db : Database σ} {fuel fuel' num_rows : Nat} {batch : List RowPtr}
  {key value : Slice} {s : ρ} {r r' : (Status × Slice) × ρ}

/-! ### Fuel -/

theorem readRows_mono {x : (Nat × Slice) × ρ} (hf : fuel ≤ fuel')
    (h : client.readRows fuel batch num_rows value s = some x) :
    client.readRows fuel' batch num_rows value s = some x := by
  induction fuel generalizing fuel' batch num_rows value s with
  | zero => cases h
  | succ fuel ih =>
    obtain ⟨fuel', rfl⟩ := Nat.exists_eq_add_of_le' (Nat.le_trans (Nat.succ_le_succ (Nat.zero_le fuel)) hf)
    unfold ScannerClient.readRows at h ⊢
    split_ifs at h ⊢
    · dsimp only at h ⊢
      split_ifs at h ⊢
      exact ih (Nat.le_of_succ_le_succ hf) h
    · exact h

theorem get_mono (hf : fuel ≤ fuel') (h : client.get fuel key value s = some r) :
    client.get fuel' key value s = some r := by
  unfold ScannerClient.get at h ⊢
  dsimp only at h ⊢
  split at h
  · exact h
  · split at h
    · cases h
    · next x hx =>
      rw [readRows_mono hf hx]
      exact h

theorem getFromDatabase_mono (hf : fuel ≤ fuel') (h : db.getFromDatabase client fuel key value s = some r) :
    db.getFromDatabase client fuel' key value s = some r := by
  unfold Database.getFromDatabase at h ⊢
  cases hclient : db.kuduClientPtr with
  | none => simpa only [hclient] using h
  | some _ =>
    cases htable : db.tablePtr with
    | none => simpa only [hclient, htable] using h
    | some _ =>
      simp only [hclient, htable] at h
      exact get_mono hf h

theorem Database.GetReturns.unique (h : db.GetReturns client key value s r) (h' : db.GetReturns client key value s r') :
    r = r' := by
  obtain ⟨fuel, h⟩ := h
  obtain ⟨fuel', h'⟩ := h'
  have hmax := getFromDatabase_mono (Nat.le_max_left fuel fuel') h
  rw [getFromDatabase_mono (Nat.le_max_right fuel fuel') h'] at hmax
  exact (Option.some.inj hmax).symm

end Kududown
