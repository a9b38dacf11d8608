import Kududown.Messages

/-!
# Messages are decoded as they were encoded

What the codecs of `Messages` encode is decoded again (`messages_round_trip`), by a `ResolvingDecoder` in the order of
the writer, and the object that is decoded into does not matter. The exception is a comparison operator less than the
first: its codec is the only one that encodes what it does not decode (`negative_operator_lost`). What is decoded from
anything can be encoded (`decoded_messages_encode`).
-/

namespace Kududown.rtip
open Reader

/-! ### Enumerations in bound -/

section
variable (lower : Bool)

def KuduOperation.InBound (v : KuduOperation) : Prop := v.operationType ≤ KuduOperationType.DELETE.ctorIdx

def KuduColumnDef.Encoding.InBound : Encoding → Prop
  | null => True
  | KuduColumnEncoding v => v ≤ KuduColumnEncoding.PREFIX_ENCODING.ctorIdx

def KuduColumnDef.InBound (v : KuduColumnDef) : Prop := v.dataType ≤ KuduDataType.BINARY.ctorIdx ∧ v.encoding.InBound

/-- Without `lower` the operator may be negative. -/
def KuduComparisonPredicate.InBound (v : KuduComparisonPredicate) : Prop :=
  (lower = true → 0 ≤ v.op.toInt) ∧ v.op.toInt ≤ KuduComparisonOperator.IS_NOT_NULL.ctorIdx

def KuduPredicate.Predicate.InBound : Predicate → Prop
  | null | KuduInListPredicate _ => True
  | KuduComparisonPredicate v => v.InBound lower

def KuduPredicate.InBound (v : KuduPredicate) : Prop :=
  (0 ≤ v.type.toInt ∧ v.type.toInt ≤ KuduPredicateType.IS_NOT_NULL.ctorIdx) ∧ v.column.InBound ∧
    v.predicate.InBound lower

def KuduScan.InBound (v : KuduScan) : Prop := v.op.InBound ∧ ∀ p ∈ v.predicateList, p.InBound lower

def KuduDataValue.InBound (v : KuduDataValue) : Prop := v.dataType ≤ KuduDataType.BINARY.ctorIdx

def KuduRow.InBound (v : KuduRow) : Prop := ∀ value ∈ v.values, value.InBound

def KuduInsert.InBound (v : KuduInsert) : Prop := v.op.InBound ∧ (∀ c ∈ v.columns, c.InBound) ∧ v.row.InBound

def KuduScanResult.InBound (v : KuduScanResult) : Prop := ∀ row ∈ v.rows, row.InBound

def KuduMessage.InBound (v : KuduMessage) : Prop := v.schemaType ≤ KuduSchemaType.KuduScanResult.ctorIdx

end

/-! ### What can be encoded -/

section
variable {orders : FieldOrders} {type : String}

theorem encodeEnum_writes {last v : EnumObject} : Writes (encodeEnum type last v) ↔ v ≤ last := by
  unfold encodeEnum
  split_ifs with h
  · exact iff_of_false nofun (Nat.not_le.2 h)
  · exact iff_of_true writes_ok (Nat.not_lt.1 h)

theorem encodeEnum_ok {last v : EnumObject} (h : v ≤ last) : encodeEnum type last v = .ok [.enum v] :=
  if_neg (Nat.not_lt.2 h)

theorem encodeEnumClass_writes {lower : Bool} {last : Nat} {v : EnumClassObject} :
    Writes (encodeEnumClass type lower last v) ↔ (lower = true → 0 ≤ v.toInt) ∧ v.toInt ≤ last := by
  unfold encodeEnumClass
  split_ifs with h
  · refine iff_of_false nofun fun hin => ?_
    rcases h with ⟨hlower, hlt⟩ | hgt
    · exact absurd (hin.1 hlower) (Int.not_le.2 hlt)
    · exact absurd hin.2 (Int.not_le.2 hgt)
  · obtain ⟨hlower, hgt⟩ := not_or.1 h
    exact iff_of_true writes_ok ⟨fun hl => Int.not_lt.1 fun hlt => hlower ⟨hl, hlt⟩, Int.not_lt.1 hgt⟩

theorem encodeRecord_writes {name : RecordName} {fields : List (Except String (List Item))} (hc : Covers orders)
    (hsize : fields.length = name.size) : Writes (encodeRecord orders name fields) ↔ ∀ x ∈ fields, Writes x := by
  unfold encodeRecord
  rcases orders with _ | order
  · exact writes_writeAll
  · dsimp only
    rw [writes_map, writes_writeAll]
    refine ⟨fun h x hx => ?_, fun h x hx => ?_⟩
    · obtain ⟨i, hi, rfl⟩ := List.mem_iff_getElem.1 hx
      exact h _ (List.mem_filterMap.2 ⟨i, hc order rfl name i (hsize ▸ hi), List.getElem?_eq_getElem hi⟩)
    · obtain ⟨i, -, hi⟩ := List.mem_filterMap.1 hx
      exact h x (List.mem_of_getElem? hi)

theorem encodeArray_writes {α : Type} {encode : α → Except String (List Item)} {as : List α} :
    Writes (encodeArray (as.map encode)) ↔ ∀ a ∈ as, Writes (encode a) := by
  unfold encodeArray
  rw [writes_map, writes_writeAll, List.forall_mem_map]

theorem KuduOperation.writes (hc : Covers orders) {v : KuduOperation} : Writes (v.encode orders) ↔ v.InBound := by
  rw [encode, encodeRecord_writes hc rfl]
  simp [encodeEnum_writes, writes_ok, InBound]

theorem KuduColumnDef.Encoding.writes {v : Encoding} : Writes v.encode ↔ v.InBound := by
  cases v with
  | null => exact iff_of_true writes_ok trivial
  | KuduColumnEncoding v => exact writes_map.trans encodeEnum_writes

theorem KuduColumnDef.writes (hc : Covers orders) {v : KuduColumnDef} : Writes (v.encode orders) ↔ v.InBound := by
  rw [encode, encodeRecord_writes hc rfl]
  simp [encodeEnum_writes, Encoding.writes, writes_ok, InBound]

theorem KuduComparisonPredicate.writes (hc : Covers orders) {v : KuduComparisonPredicate} :
    Writes (v.encode orders) ↔ v.InBound false := by
  rw [encode, encodeRecord_writes hc rfl]
  simp [encodeEnumClass_writes, writes_ok, InBound]

theorem KuduInListPredicate.writes (hc : Covers orders) {v : KuduInListPredicate} : Writes (v.encode orders) := by
  rw [encode, encodeRecord_writes hc rfl, List.forall_mem_singleton, encodeArray_writes]
  exact fun _ _ => writes_ok

theorem KuduPredicate.Predicate.writes (hc : Covers orders) {v : Predicate} :
    Writes (v.encode orders) ↔ v.InBound false := by
  cases v with
  | null => exact iff_of_true writes_ok trivial
  | KuduComparisonPredicate v => exact writes_map.trans (KuduComparisonPredicate.writes hc)
  | KuduInListPredicate v => exact iff_of_true (writes_map.2 (KuduInListPredicate.writes hc)) trivial

theorem KuduPredicate.writes (hc : Covers orders) {v : KuduPredicate} : Writes (v.encode orders) ↔ v.InBound false := by
  rw [encode, encodeRecord_writes hc rfl]
  simp [encodeEnumClass_writes, KuduColumnDef.writes hc, Predicate.writes hc, InBound]

theorem KuduScan.writes (hc : Covers orders) {v : KuduScan} : Writes (v.encode orders) ↔ v.InBound false := by
  rw [encode, encodeRecord_writes hc rfl]
  simp [KuduOperation.writes hc, encodeArray_writes, KuduPredicate.writes hc, writes_ok, InBound]

theorem KuduDataValue.Value.writes {v : Value} : Writes v.encode := by
  cases v <;> exact writes_ok

theorem KuduDataValue.writes (hc : Covers orders) {v : KuduDataValue} : Writes (v.encode orders) ↔ v.InBound := by
  rw [encode, encodeRecord_writes hc rfl]
  simp [encodeEnum_writes, Value.writes, InBound]

theorem KuduRow.writes (hc : Covers orders) {v : KuduRow} : Writes (v.encode orders) ↔ v.InBound := by
  rw [encode, encodeRecord_writes hc rfl]
  simp [encodeArray_writes, KuduDataValue.writes hc, InBound]

theorem KuduInsert.writes (hc : Covers orders) {v : KuduInsert} : Writes (v.encode orders) ↔ v.InBound := by
  rw [encode, encodeRecord_writes hc rfl]
  simp [KuduOperation.writes hc, encodeArray_writes, KuduColumnDef.writes hc, KuduRow.writes hc, writes_ok, InBound]

theorem KuduScanResult.writes (hc : Covers orders) {v : KuduScanResult} : Writes (v.encode orders) ↔ v.InBound := by
  rw [encode, encodeRecord_writes hc rfl]
  simp [encodeArray_writes, KuduRow.writes hc, writes_ok, InBound]

theorem KuduMessage.writes (hc : Covers orders) {v : KuduMessage} : Writes (v.encode orders) ↔ v.InBound := by
  rw [encode, encodeRecord_writes hc rfl]
  simp [encodeEnum_writes, writes_ok, InBound]

end

/-! ### What is decoded -/

variable {δ ρ : Type} {dec : AvroDecoder δ} {carries : δ → List Item → Prop} {orders : FieldOrders} {items : List Item}

/-- The decoder is a `ResolvingDecoder` just if the fields are in an order of the writer. -/
structure Resolves (dec : AvroDecoder δ) (carries : δ → List Item → Prop) (orders : FieldOrders) : Prop where
  gives : dec.Gives carries
  asks : dec.fieldOrder.isSome = orders.isSome
  covers : Covers orders

theorem Resolves.enum {type : String} {last v : EnumObject} (h : Resolves dec carries orders)
    (henc : encodeEnum type last v = .ok items) : Reads carries (decodeEnum dec type last) items v := by
  unfold encodeEnum at henc
  split_ifs at henc with hlast
  cases henc
  have hread : Reads carries (decodeEnum dec type last) ([.enum v] ++ []) v := by
    refine (h.gives.enum v).bind ?_
    rw [if_neg hlast]
    exact .pure
  exact hread

theorem Resolves.enumClass {type : String} {lower : Bool} {last : Nat} {v : EnumClassObject}
    (h : Resolves dec carries orders) (henc : encodeEnumClass type lower last v = .ok items) (hv : 0 ≤ v.toInt) :
    Reads carries (decodeEnumClass dec type last) items v := by
  unfold encodeEnumClass at henc
  split_ifs at henc with hlast
  cases henc
  have hlt := v.toInt_lt
  obtain ⟨-, hle⟩ := not_or.1 hlast
  have hindex : (v.toInt % 2 ^ 64).toNat = v.toInt.toNat := by omega
  have hobject : Int32.ofNat v.toInt.toNat = v := by
    refine Int32.toInt.inj ?_
    rw [Int32.toInt_ofNat_of_lt (by omega)]
    omega
  have hindexLe : v.toInt.toNat ≤ last := by omega
  have henum : encodeEnum type last v.toInt.toNat = .ok [.enum v.toInt.toNat] := encodeEnum_ok hindexLe
  have hread := (h.enum henum).map Int32.ofNat
  rw [hobject] at hread
  rwa [hindex]

theorem Resolves.array {α : Type} {encode : α → Except String (List Item)} {decode : Reader δ String α} {as : List α}
    (h : Resolves dec carries orders) (henc : encodeArray (as.map encode) = .ok items)
    (helem : ∀ a ∈ as, ∀ items, encode a = .ok items → Reads carries decode items a) :
    Reads carries (dec.decodeArray decode) items as := by
  unfold encodeArray at henc
  rcases hall : writeAll (as.map encode) with e | elements
  · rw [hall] at henc
    cases henc
  · rw [hall] at henc
    cases henc
    obtain ⟨rfl, hencoded⟩ := writeAll_map hall
    rw [List.length_map]
    exact h.gives.array decode _ as fun a ha => helem a ha _ (hencoded a ha)

/-- Every field is decoded, so nothing is left of the object that is decoded into. -/
theorem Resolves.record {F : Fields ρ} {name : RecordName} {fields : List (Except String (List Item))}
    {decodeField : Nat → ρ → Reader δ String ρ} {v : ρ} (h : Resolves dec carries orders) (hF : F.size = name.size)
    (hfields : fields.length = name.size) (henc : encodeRecord orders name fields = .ok items)
    (hfield : ∀ i items, fields[i]? = some (.ok items) →
      ∀ w, Reads carries (decodeField i w) items (F.copy i v w))
    (hother : ∀ i w, fields[i]? = none → decodeField i w = .pure w ∧ F.copy i v w = w) (w : ρ) :
    Reads carries (decodeRecord dec name decodeField w) items v := by
  have hread {order : List Nat} {items : List Item} (hall : writeAll (order.filterMap (fields[·]?)) = .ok items)
      (hcovers : ∀ i < F.size, i ∈ order) : Reads carries (readFields decodeField order w) items v := by
    obtain ⟨rfl, hwritten⟩ := writeAll_order hall
    rw [← Fields.copyAll_eq (v := v) (w := w) hcovers]
    refine .fields (fun i hi w => ?_) w
    rcases hfi : fields[i]? with _ | x
    · obtain ⟨hpure, hcopy⟩ := hother i w hfi
      rw [hpure, hcopy, itemsOf, hfi]
      exact .pure
    · exact hfield i _ (hfi.trans (congrArg some (hwritten i hi x hfi))) w
  have hasks := h.asks
  unfold decodeRecord
  unfold encodeRecord at henc
  rcases orders with _ | order
  · rcases hd : dec.fieldOrder with _ | fieldOrder
    · dsimp only at henc ⊢
      rw [← filterMap_range fields, hfields] at henc
      exact hread henc fun i hi => List.mem_range.2 (hF ▸ hi)
    · rw [hd] at hasks
      cases hasks
  · rcases hd : dec.fieldOrder with _ | fieldOrder
    · rw [hd] at hasks
      cases hasks
    · dsimp only at henc ⊢
      rcases hall : writeAll ((order name).filterMap (fields[·]?)) with e | items'
      · rw [hall] at henc
        cases henc
      · rw [hall] at henc
        cases henc
        have hcovers : ∀ i < F.size, i ∈ order name := fun i hi => h.covers order rfl name i (hF ▸ hi)
        exact (h.gives.fieldOrder fieldOrder hd (order name)).bind (hread hall hcovers)

/-! ### Each record -/

theorem map_ok {x : Except String (List Item)} {f : List Item → List Item} (h : x.map f = .ok items) :
    ∃ is, x = .ok is ∧ items = f is := by
  cases x with
  | error e => cases h
  | ok is => exact ⟨is, rfl, (Except.ok.inj h).symm⟩

def KuduOperation.numbered : Fields KuduOperation where
  size := 2
  copy i v w :=
    match i with
    | 0 => { w with id := v.id }
    | 1 => { w with operationType := v.operationType }
    | _ => w
  copy_copy := by rintro (_ | _ | _) v w <;> rfl
  copy_comm := by rintro (_ | _ | _) (_ | _ | _) v w <;> rfl
  all _ _ := rfl

theorem KuduOperation.reads {v : KuduOperation} (h : Resolves dec carries orders) (henc : v.encode orders = .ok items)
    (w : KuduOperation) : Reads carries (w.decode dec) items v := by
  refine h.record (F := numbered) rfl rfl henc ?_ ?_ w
  · rintro (_ | _ | i) items hi w
    · cases hi
      exact (h.gives.string _).map _
    · exact (h.enum (Option.some.inj hi)).map _
    · cases hi
  · rintro (_ | _ | i) w ⟨⟩
    exact ⟨rfl, rfl⟩

theorem KuduColumnDef.Encoding.reads {v : Encoding} (h : Resolves dec carries orders) (henc : v.encode = .ok items) :
    Reads carries (Encoding.decode dec) items v := by
  cases v with
  | null =>
    cases henc
    exact (h.gives.unionIndex 0).bind (h.gives.null.map _)
  | KuduColumnEncoding v =>
    obtain ⟨items, hv, rfl⟩ := map_ok henc
    exact (h.gives.unionIndex 1).bind ((h.enum hv).map _)

def KuduColumnDef.numbered : Fields KuduColumnDef where
  size := 5
  copy i v w :=
    match i with
    | 0 => { w with columnName := v.columnName }
    | 1 => { w with dataType := v.dataType }
    | 2 => { w with allowNull := v.allowNull }
    | 3 => { w with encoding := v.encoding }
    | 4 => { w with isPrimaryKey := v.isPrimaryKey }
    | _ => w
  copy_copy := by rintro (_ | _ | _ | _ | _ | _) v w <;> rfl
  copy_comm := by rintro (_ | _ | _ | _ | _ | _) (_ | _ | _ | _ | _ | _) v w <;> rfl
  all _ _ := rfl

theorem KuduColumnDef.reads {v : KuduColumnDef} (h : Resolves dec carries orders) (henc : v.encode orders = .ok items)
    (w : KuduColumnDef) : Reads carries (w.decode dec) items v := by
  refine h.record (F := numbered) rfl rfl henc ?_ ?_ w
  · rintro (_ | _ | _ | _ | _ | i) items hi w
    · cases hi
      exact (h.gives.string _).map _
    · exact (h.enum (Option.some.inj hi)).map _
    · cases hi
      exact (h.gives.bool _).map _
    · exact (KuduColumnDef.Encoding.reads h (Option.some.inj hi)).map _
    · cases hi
      exact (h.gives.bool _).map _
    · cases hi
  · rintro (_ | _ | _ | _ | _ | i) w ⟨⟩
    exact ⟨rfl, rfl⟩

def KuduComparisonPredicate.numbered : Fields KuduComparisonPredicate where
  size := 2
  copy i v w :=
    match i with
    | 0 => { w with op := v.op }
    | 1 => { w with dataValue := v.dataValue }
    | _ => w
  copy_copy := by rintro (_ | _ | _) v w <;> rfl
  copy_comm := by rintro (_ | _ | _) (_ | _ | _) v w <;> rfl
  all _ _ := rfl

theorem KuduComparisonPredicate.reads {v : KuduComparisonPredicate} (h : Resolves dec carries orders)
    (hin : v.InBound true) (henc : v.encode orders = .ok items) (w : KuduComparisonPredicate) :
    Reads carries (w.decode dec) items v := by
  refine h.record (F := numbered) rfl rfl henc ?_ ?_ w
  · rintro (_ | _ | i) items hi w
    · exact (h.enumClass (Option.some.inj hi) (hin.1 rfl)).map _
    · cases hi
      exact (h.gives.string _).map _
    · cases hi
  · rintro (_ | _ | i) w ⟨⟩
    exact ⟨rfl, rfl⟩

def KuduInListPredicate.numbered : Fields KuduInListPredicate where
  size := 1
  copy i v w :=
    match i with
    | 0 => { w with valueList := v.valueList }
    | _ => w
  copy_copy := by rintro (_ | _) v w <;> rfl
  copy_comm := by rintro (_ | _) (_ | _) v w <;> rfl
  all _ _ := rfl

theorem KuduInListPredicate.reads {v : KuduInListPredicate} (h : Resolves dec carries orders)
    (henc : v.encode orders = .ok items) (w : KuduInListPredicate) : Reads carries (w.decode dec) items v := by
  refine h.record (F := numbered) rfl rfl henc ?_ ?_ w
  · rintro (_ | i) items hi w
    · refine (h.array (Option.some.inj hi) fun s _ items hs => ?_).map _
      cases hs
      exact h.gives.string s
    · cases hi
  · rintro (_ | i) w ⟨⟩
    exact ⟨rfl, rfl⟩

theorem KuduPredicate.Predicate.reads {v : Predicate} (h : Resolves dec carries orders) (hin : v.InBound true)
    (henc : v.encode orders = .ok items) : Reads carries (Predicate.decode dec) items v := by
  cases v with
  | null =>
    cases henc
    exact (h.gives.unionIndex 0).bind (h.gives.null.map _)
  | KuduComparisonPredicate v =>
    obtain ⟨items, hv, rfl⟩ := map_ok henc
    exact (h.gives.unionIndex 1).bind ((KuduComparisonPredicate.reads h hin hv {}).map _)
  | KuduInListPredicate v =>
    obtain ⟨items, hv, rfl⟩ := map_ok henc
    exact (h.gives.unionIndex 2).bind ((KuduInListPredicate.reads h hv {}).map _)

def KuduPredicate.numbered : Fields KuduPredicate where
  size := 3
  copy i v w :=
    match i with
    | 0 => { w with type := v.type }
    | 1 => { w with column := v.column }
    | 2 => { w with predicate := v.predicate }
    | _ => w
  copy_copy := by rintro (_ | _ | _ | _) v w <;> rfl
  copy_comm := by rintro (_ | _ | _ | _) (_ | _ | _ | _) v w <;> rfl
  all _ _ := rfl

theorem KuduPredicate.reads {v : KuduPredicate} (h : Resolves dec carries orders) (hin : v.InBound true)
    (henc : v.encode orders = .ok items) (w : KuduPredicate) : Reads carries (w.decode dec) items v := by
  refine h.record (F := numbered) rfl rfl henc ?_ ?_ w
  · rintro (_ | _ | _ | i) items hi w
    · exact (h.enumClass (Option.some.inj hi) hin.1.1).map _
    · exact (KuduColumnDef.reads h (Option.some.inj hi) _).map _
    · exact (KuduPredicate.Predicate.reads h hin.2.2 (Option.some.inj hi)).map _
    · cases hi
  · rintro (_ | _ | _ | i) w ⟨⟩
    exact ⟨rfl, rfl⟩

def KuduScan.numbered : Fields KuduScan where
  size := 3
  copy i v w :=
    match i with
    | 0 => { w with op := v.op }
    | 1 => { w with tableName := v.tableName }
    | 2 => { w with predicateList := v.predicateList }
    | _ => w
  copy_copy := by rintro (_ | _ | _ | _) v w <;> rfl
  copy_comm := by rintro (_ | _ | _ | _) (_ | _ | _ | _) v w <;> rfl
  all _ _ := rfl

theorem KuduScan.reads {v : KuduScan} (h : Resolves dec carries orders) (hin : v.InBound true)
    (henc : v.encode orders = .ok items) (w : KuduScan) : Reads carries (w.decode dec) items v := by
  refine h.record (F := numbered) rfl rfl henc ?_ ?_ w
  · rintro (_ | _ | _ | i) items hi w
    · exact (KuduOperation.reads h (Option.some.inj hi) _).map _
    · cases hi
      exact (h.gives.string _).map _
    · exact (h.array (Option.some.inj hi) fun p hp items hv => KuduPredicate.reads h (hin.2 p hp) hv {}).map _
    · cases hi
  · rintro (_ | _ | _ | i) w ⟨⟩
    exact ⟨rfl, rfl⟩

theorem KuduDataValue.Value.reads {v : Value} (h : Resolves dec carries orders) (henc : v.encode = .ok items) :
    Reads carries (Value.decode dec) items v := by
  cases v with
  | null =>
    cases henc
    exact (h.gives.unionIndex 0).bind (h.gives.null.map _)
  | string v =>
    cases henc
    exact (h.gives.unionIndex 1).bind ((h.gives.string v).map _)
  | bytes v =>
    cases henc
    exact (h.gives.unionIndex 2).bind ((h.gives.bytes v).map _)

def KuduDataValue.numbered : Fields KuduDataValue where
  size := 2
  copy i v w :=
    match i with
    | 0 => { w with dataType := v.dataType }
    | 1 => { w with value := v.value }
    | _ => w
  copy_copy := by rintro (_ | _ | _) v w <;> rfl
  copy_comm := by rintro (_ | _ | _) (_ | _ | _) v w <;> rfl
  all _ _ := rfl

theorem KuduDataValue.reads {v : KuduDataValue} (h : Resolves dec carries orders) (henc : v.encode orders = .ok items)
    (w : KuduDataValue) : Reads carries (w.decode dec) items v := by
  refine h.record (F := numbered) rfl rfl henc ?_ ?_ w
  · rintro (_ | _ | i) items hi w
    · exact (h.enum (Option.some.inj hi)).map _
    · exact (KuduDataValue.Value.reads h (Option.some.inj hi)).map _
    · cases hi
  · rintro (_ | _ | i) w ⟨⟩
    exact ⟨rfl, rfl⟩

def KuduRow.numbered : Fields KuduRow where
  size := 1
  copy i v w :=
    match i with
    | 0 => { w with values := v.values }
    | _ => w
  copy_copy := by rintro (_ | _) v w <;> rfl
  copy_comm := by rintro (_ | _) (_ | _) v w <;> rfl
  all _ _ := rfl

theorem KuduRow.reads {v : KuduRow} (h : Resolves dec carries orders) (henc : v.encode orders = .ok items)
    (w : KuduRow) : Reads carries (w.decode dec) items v := by
  refine h.record (F := numbered) rfl rfl henc ?_ ?_ w
  · rintro (_ | i) items hi w
    · exact (h.array (Option.some.inj hi) fun v _ items hv => KuduDataValue.reads h hv {}).map _
    · cases hi
  · rintro (_ | i) w ⟨⟩
    exact ⟨rfl, rfl⟩

def KuduInsert.numbered : Fields KuduInsert where
  size := 4
  copy i v w :=
    match i with
    | 0 => { w with op := v.op }
    | 1 => { w with tableName := v.tableName }
    | 2 => { w with columns := v.columns }
    | 3 => { w with row := v.row }
    | _ => w
  copy_copy := by rintro (_ | _ | _ | _ | _) v w <;> rfl
  copy_comm := by rintro (_ | _ | _ | _ | _) (_ | _ | _ | _ | _) v w <;> rfl
  all _ _ := rfl

theorem KuduInsert.reads {v : KuduInsert} (h : Resolves dec carries orders) (henc : v.encode orders = .ok items)
    (w : KuduInsert) : Reads carries (w.decode dec) items v := by
  refine h.record (F := numbered) rfl rfl henc ?_ ?_ w
  · rintro (_ | _ | _ | _ | i) items hi w
    · exact (KuduOperation.reads h (Option.some.inj hi) _).map _
    · cases hi
      exact (h.gives.string _).map _
    · exact (h.array (Option.some.inj hi) fun v _ items hv => KuduColumnDef.reads h hv {}).map _
    · exact (KuduRow.reads h (Option.some.inj hi) _).map _
    · cases hi
  · rintro (_ | _ | _ | _ | i) w ⟨⟩
    exact ⟨rfl, rfl⟩

def KuduScanResult.numbered : Fields KuduScanResult where
  size := 2
  copy i v w :=
    match i with
    | 0 => { w with scanId := v.scanId }
    | 1 => { w with rows := v.rows }
    | _ => w
  copy_copy := by rintro (_ | _ | _) v w <;> rfl
  copy_comm := by rintro (_ | _ | _) (_ | _ | _) v w <;> rfl
  all _ _ := rfl

theorem KuduScanResult.reads {v : KuduScanResult} (h : Resolves dec carries orders)
    (henc : v.encode orders = .ok items) (w : KuduScanResult) : Reads carries (w.decode dec) items v := by
  refine h.record (F := numbered) rfl rfl henc ?_ ?_ w
  · rintro (_ | _ | i) items hi w
    · cases hi
      exact (h.gives.string _).map _
    · exact (h.array (Option.some.inj hi) fun v _ items hv => KuduRow.reads h hv {}).map _
    · cases hi
  · rintro (_ | _ | i) w ⟨⟩
    exact ⟨rfl, rfl⟩

def KuduMessage.numbered : Fields KuduMessage where
  size := 2
  copy i v w :=
    match i with
    | 0 => { w with schemaType := v.schemaType }
    | 1 => { w with obj := v.obj }
    | _ => w
  copy_copy := by rintro (_ | _ | _) v w <;> rfl
  copy_comm := by rintro (_ | _ | _) (_ | _ | _) v w <;> rfl
  all _ _ := rfl

theorem KuduMessage.reads {v : KuduMessage} (h : Resolves dec carries orders) (henc : v.encode orders = .ok items)
    (w : KuduMessage) : Reads carries (w.decode dec) items v := by
  refine h.record (F := numbered) rfl rfl henc ?_ ?_ w
  · rintro (_ | _ | i) items hi w
    · exact (h.enum (Option.some.inj hi)).map _
    · cases hi
      exact (h.gives.bytes _).map _
    · cases hi
  · rintro (_ | _ | i) w ⟨⟩
    exact ⟨rfl, rfl⟩

/-- A message is encoded just if the codecs find no enumeration out of bound. Whatever object is decoded into, what
was encoded is decoded, and no further, for a scan if no operator of it is negative. -/
theorem messages_round_trip (h : Resolves dec carries orders) :
    (∀ v : KuduScan, (Writes (v.encode orders) ↔ v.InBound false) ∧
      (v.InBound true → ∀ (w : KuduScan) items, v.encode orders = .ok items → Reads carries (w.decode dec) items v)) ∧
    (∀ v : KuduInsert, (Writes (v.encode orders) ↔ v.InBound) ∧
      ∀ (w : KuduInsert) items, v.encode orders = .ok items → Reads carries (w.decode dec) items v) ∧
    (∀ v : KuduScanResult, (Writes (v.encode orders) ↔ v.InBound) ∧
      ∀ (w : KuduScanResult) items, v.encode orders = .ok items → Reads carries (w.decode dec) items v) ∧
    ∀ v : KuduMessage, (Writes (v.encode orders) ↔ v.InBound) ∧
      ∀ (w : KuduMessage) items, v.encode orders = .ok items → Reads carries (w.decode dec) items v :=
  ⟨fun _ => ⟨KuduScan.writes h.covers, fun hin w _ hv => KuduScan.reads h hin hv w⟩,
    fun _ => ⟨KuduInsert.writes h.covers, fun w _ hv => KuduInsert.reads h hv w⟩,
    fun _ => ⟨KuduScanResult.writes h.covers, fun w _ hv => KuduScanResult.reads h hv w⟩,
    fun _ => ⟨KuduMessage.writes h.covers, fun w _ hv => KuduMessage.reads h hv w⟩⟩

/-- A negative operator is encoded as an index that no decoding accepts. -/
theorem negative_operator_lost (h : dec.Gives carries) (hplain : dec.fieldOrder = none) {v : KuduComparisonPredicate}
    (hv : v.op.toInt < 0) : ∃ items, v.encode none = .ok items ∧
      ∀ (w : KuduComparisonPredicate) d rest, carries d (items ++ rest) → ∃ e, w.decode dec d = .error e := by
  have hlow := v.op.le_toInt
  have hwrites : Writes (v.encode none) :=
    (KuduComparisonPredicate.writes fun _ h => by cases h).2 ⟨nofun, by omega⟩
  obtain ⟨items, hitems⟩ := hwrites
  refine ⟨items, hitems, fun w d rest hd => ?_⟩
  obtain ⟨is, js, his, -, rfl⟩ := writeAll_cons_ok.1 hitems
  have hpassed : ¬ (false = true ∧ v.op.toInt < 0 ∨ v.op.toInt > KuduComparisonOperator.IS_NOT_NULL.ctorIdx) := by
    rintro (⟨h, -⟩ | h)
    · cases h
    · omega
  unfold encodeEnumClass at his
  rw [if_neg hpassed] at his
  cases his
  rw [List.append_assoc] at hd
  obtain ⟨d', hread, -⟩ := h.enum _ d _ hd
  have hlast : (v.op.toInt % 2 ^ 64).toNat > KuduComparisonOperator.IS_NOT_NULL.ctorIdx := by
    have hindex : KuduComparisonOperator.IS_NOT_NULL.ctorIdx = 6 := rfl
    omega
  have hfail : decodeEnum dec "KuduComparisonOperator" KuduComparisonOperator.IS_NOT_NULL.ctorIdx d = .error _ :=
    (bind_of_ok hread).trans (congrFun (if_pos hlast) d')
  have hfield : KuduComparisonPredicate.decodeField dec 0 w d = .error _ := map_of_error (map_of_error hfail)
  unfold KuduComparisonPredicate.decode decodeRecord
  rw [hplain]
  exact ⟨_, bind_of_error hfield⟩

/-! ### What is decoded can be encoded -/

theorem yields_enum {type : String} {last : EnumObject} : Yields (decodeEnum dec type last) (· ≤ last) := by
  refine Yields.all.bind fun index _ => ?_
  split_ifs with hlast
  · exact .fail _
  · exact .pure (Nat.not_lt.1 hlast)

theorem yields_enumClass {type : String} {last : Nat} (hlast : last < 2 ^ 31) :
    Yields (decodeEnumClass dec type last) fun v => 0 ≤ v.toInt ∧ v.toInt ≤ last := by
  refine yields_enum.map fun index (hindex : index ≤ last) => ?_
  rw [Int32.toInt_ofNat_of_lt (Nat.lt_of_le_of_lt hindex hlast)]
  exact ⟨Int.natCast_nonneg _, Int.ofNat_le.2 hindex⟩

theorem yields_record {P : ρ → Prop} {name : RecordName} {decodeField : Nat → ρ → Reader δ String ρ} {w : ρ} (hw : P w)
    (h : ∀ i w, P w → Yields (decodeField i w) P) : Yields (decodeRecord dec name decodeField w) P := by
  unfold decodeRecord
  split
  · exact Yields.all.bind fun order _ => .fields h hw order
  · exact .fields h hw _

theorem KuduOperation.yields {w : KuduOperation} (hw : w.InBound) : Yields (w.decode dec) InBound := by
  refine yields_record hw fun i w hw => ?_
  rcases i with _ | _ | i
  · exact Yields.all.map fun _ _ => hw
  · exact yields_enum.map fun _ h => h
  · exact .pure hw

theorem KuduColumnDef.Encoding.yields : Yields (Encoding.decode dec) InBound := by
  refine Yields.all.bind fun n _ => ?_
  rcases n with _ | _ | n
  · exact Yields.all.map fun _ _ => trivial
  · exact yields_enum.map fun _ h => h
  · exact .fail _

theorem KuduColumnDef.yields {w : KuduColumnDef} (hw : w.InBound) : Yields (w.decode dec) InBound := by
  refine yields_record hw fun i w hw => ?_
  rcases i with _ | _ | _ | _ | _ | i
  · exact Yields.all.map fun _ _ => hw
  · exact yields_enum.map fun _ h => ⟨h, hw.2⟩
  · exact Yields.all.map fun _ _ => hw
  · exact KuduColumnDef.Encoding.yields.map fun _ h => ⟨hw.1, h⟩
  · exact Yields.all.map fun _ _ => hw
  · exact .pure hw

theorem KuduComparisonPredicate.yields {w : KuduComparisonPredicate} (hw : w.InBound true) :
    Yields (w.decode dec) (InBound true) := by
  refine yields_record hw fun i w hw => ?_
  rcases i with _ | _ | i
  · exact (yields_enumClass (by decide)).map fun _ h => ⟨fun _ => h.1, h.2⟩
  · exact Yields.all.map fun _ _ => hw
  · exact .pure hw

theorem KuduPredicate.Predicate.yields : Yields (Predicate.decode dec) (InBound true) := by
  refine Yields.all.bind fun n _ => ?_
  rcases n with _ | _ | _ | n
  · exact Yields.all.map fun _ _ => trivial
  · exact (KuduComparisonPredicate.yields ⟨fun _ => by decide, by decide⟩).map fun _ h => h
  · exact Yields.all.map fun _ _ => trivial
  · exact .fail _

theorem KuduPredicate.yields {w : KuduPredicate} (hw : w.InBound true) : Yields (w.decode dec) (InBound true) := by
  refine yields_record hw fun i w hw => ?_
  rcases i with _ | _ | _ | i
  · exact (yields_enumClass (by decide)).map fun _ h => ⟨h, hw.2⟩
  · exact (KuduColumnDef.yields hw.2.1).map fun _ h => ⟨hw.1, h, hw.2.2⟩
  · exact KuduPredicate.Predicate.yields.map fun _ h => ⟨hw.1, hw.2.1, h⟩
  · exact .pure hw

theorem KuduColumnDef.inBound_default : ({} : KuduColumnDef).InBound := ⟨Nat.zero_le _, trivial⟩

theorem KuduPredicate.inBound_default : ({} : KuduPredicate).InBound true :=
  ⟨⟨by decide, by decide⟩, KuduColumnDef.inBound_default, trivial⟩

theorem KuduScan.yields {w : KuduScan} (helem : dec.Elementwise) (hw : w.InBound true) :
    Yields (w.decode dec) (InBound true) := by
  refine yields_record hw fun i w hw => ?_
  rcases i with _ | _ | _ | i
  · exact (KuduOperation.yields hw.1).map fun _ h => ⟨h, hw.2⟩
  · exact Yields.all.map fun _ _ => hw
  · exact (helem _ _ (KuduPredicate.yields KuduPredicate.inBound_default)).map fun _ h => ⟨hw.1, h⟩
  · exact .pure hw

theorem KuduDataValue.yields {w : KuduDataValue} (hw : w.InBound) : Yields (w.decode dec) InBound := by
  refine yields_record hw fun i w hw => ?_
  rcases i with _ | _ | i
  · exact yields_enum.map fun _ h => h
  · exact Yields.all.map fun _ _ => hw
  · exact .pure hw

theorem KuduRow.yields {w : KuduRow} (helem : dec.Elementwise) (hw : w.InBound) : Yields (w.decode dec) InBound := by
  refine yields_record hw fun i w hw => ?_
  rcases i with _ | i
  · exact (helem _ _ (KuduDataValue.yields (Nat.zero_le _))).map fun _ h => h
  · exact .pure hw

theorem KuduRow.inBound_default : ({} : KuduRow).InBound := fun _ h => by cases h

theorem KuduInsert.yields {w : KuduInsert} (helem : dec.Elementwise) (hw : w.InBound) :
    Yields (w.decode dec) InBound := by
  refine yields_record hw fun i w hw => ?_
  rcases i with _ | _ | _ | _ | i
  · exact (KuduOperation.yields hw.1).map fun _ h => ⟨h, hw.2⟩
  · exact Yields.all.map fun _ _ => hw
  · exact (helem _ _ (KuduColumnDef.yields KuduColumnDef.inBound_default)).map fun _ h => ⟨hw.1, h, hw.2.2⟩
  · exact (KuduRow.yields helem hw.2.2).map fun _ h => ⟨hw.1, hw.2.1, h⟩
  · exact .pure hw

theorem KuduScanResult.yields {w : KuduScanResult} (helem : dec.Elementwise) (hw : w.InBound) :
    Yields (w.decode dec) InBound := by
  refine yields_record hw fun i w hw => ?_
  rcases i with _ | _ | i
  · exact Yields.all.map fun _ _ => hw
  · exact (helem _ _ (KuduRow.yields helem KuduRow.inBound_default)).map fun _ h => h
  · exact .pure hw

theorem KuduMessage.yields {w : KuduMessage} (hw : w.InBound) : Yields (w.decode dec) InBound := by
  refine yields_record hw fun i w hw => ?_
  rcases i with _ | _ | i
  · exact yields_enum.map fun _ h => h
  · exact Yields.all.map fun _ _ => hw
  · exact .pure hw

theorem KuduPredicate.InBound.relax {v : KuduPredicate} (h : v.InBound true) : v.InBound false := by
  refine ⟨h.1, h.2.1, ?_⟩
  obtain ⟨-, -, hpredicate⟩ := h
  cases hv : v.predicate with
  | null | KuduInListPredicate => trivial
  | KuduComparisonPredicate p =>
    rw [hv] at hpredicate
    exact ⟨nofun, hpredicate.2⟩

theorem KuduScan.InBound.relax {v : KuduScan} (h : v.InBound true) : v.InBound false :=
  ⟨h.1, fun p hp => (h.2 p hp).relax⟩

/-- Whatever a decoder gives, a message that it is decoded to has no enumeration out of bound, if the object that it is
decoded into had none, and can be encoded. -/
theorem decoded_messages_encode (helem : dec.Elementwise) :
    (∀ w : KuduScan, w.InBound true → Yields (w.decode dec) fun v => v.InBound true ∧ Writes (v.encode none)) ∧
    (∀ w : KuduInsert, w.InBound → Yields (w.decode dec) fun v => v.InBound ∧ Writes (v.encode none)) ∧
    (∀ w : KuduScanResult, w.InBound → Yields (w.decode dec) fun v => v.InBound ∧ Writes (v.encode none)) ∧
    ∀ w : KuduMessage, w.InBound → Yields (w.decode dec) fun v => v.InBound ∧ Writes (v.encode none) := by
  have hc : Covers none := fun _ h => by cases h
  refine ⟨fun w hw d v d' hr => ?_, fun w hw d v d' hr => ?_, fun w hw d v d' hr => ?_, fun w hw d v d' hr => ?_⟩
  · have hv := KuduScan.yields helem hw d v d' hr
    exact ⟨hv, (KuduScan.writes hc).2 hv.relax⟩
  · have hv := KuduInsert.yields helem hw d v d' hr
    exact ⟨hv, (KuduInsert.writes hc).2 hv⟩
  · have hv := KuduScanResult.yields helem hw d v d' hr
    exact ⟨hv, (KuduScanResult.writes hc).2 hv⟩
  · have hv := KuduMessage.yields hw d v d' hr
    exact ⟨hv, (KuduMessage.writes hc).2 hv⟩

/-! ### A source that is a list of items -/

def readElements {α : Type} (r : Reader (List Item) String α) : Nat → Reader (List Item) String (List α)
  | 0 => .pure []
  | n + 1 => r.bind fun a => (readElements r n).map (a :: ·)

def listDecoder (resolving : Bool) : AvroDecoder (List Item) where
  decodeEnum d := match d with
    | .enum index :: d => .ok (index, d)
    | _ => .error "Expected: Enum"
  decodeUnionIndex d := match d with
    | .unionIndex index :: d => .ok (index, d)
    | _ => .error "Expected: Union"
  decodeNull d := match d with
    | .null :: d => .ok ((), d)
    | _ => .error "Expected: Null"
  decodeString d := match d with
    | .string s :: d => .ok (s, d)
    | _ => .error "Expected: String"
  decodeBytes d := match d with
    | .bytes b :: d => .ok (b, d)
    | _ => .error "Expected: Bytes"
  decodeBool d := match d with
    | .bool b :: d => .ok (b, d)
    | _ => .error "Expected: Bool"
  decodeArray r d := match d with
    | .array size :: d => readElements r size d
    | _ => .error "Expected: Array"
  fieldOrder := if resolving then
      some fun d => match d with
        | .fieldOrder order :: d => .ok (order, d)
        | _ => .error "Expected: field order"
    else none

theorem listDecoder_gives (resolving : Bool) : (listDecoder resolving).Gives fun d items => d = items where
  enum _ _ rest h := ⟨rest, by rw [h]; rfl, rfl⟩
  unionIndex _ _ rest h := ⟨rest, by rw [h]; rfl, rfl⟩
  null _ rest h := ⟨rest, by rw [h]; rfl, rfl⟩
  string _ _ rest h := ⟨rest, by rw [h]; rfl, rfl⟩
  bytes _ _ rest h := ⟨rest, by rw [h]; rfl, rfl⟩
  bool _ _ rest h := ⟨rest, by rw [h]; rfl, rfl⟩
  array r items as hr := by
    have helements : ∀ as, (∀ a ∈ as, Reads (fun d items => d = items) r (items a) a) →
        Reads (fun d items => d = items) (readElements r as.length) (as.flatMap items) as := by
      intro as hr
      induction as with
      | nil => exact .pure
      | cons a as ih =>
        rw [List.flatMap_cons]
        exact (hr a List.mem_cons_self).bind ((ih fun b hb => hr b (List.mem_cons_of_mem _ hb)).map _)
    intro d rest hd
    obtain ⟨d', hread, hd'⟩ := helements as hr _ rest rfl
    exact ⟨d', by rw [hd]; exact hread, hd'⟩
  fieldOrder r hr order d rest hd := by
    cases resolving with
    | false => cases hr
    | true =>
      cases hr
      exact ⟨rest, by rw [hd]; rfl, rfl⟩

/-- The fields from the last to the first. -/
def reversed (name : RecordName) : List Nat := (List.range name.size).reverse

theorem reversed_resolves : Resolves (listDecoder true) (fun d items => d = items) (some reversed) where
  gives := listDecoder_gives true
  asks := rfl
  covers order horder name i hi := by
    cases horder
    exact List.mem_reverse.2 (List.mem_range.2 hi)

def scanOne : KuduScan where
  op := { id := bytes "scan", operationType := KuduOperationType.SCAN.ctorIdx }
  tableName := bytes "leveldb"
  predicateList := [{ type := .ofNat KuduPredicateType.IN_LIST.ctorIdx
                      column := { columnName := bytes "key", dataType := KuduDataType.BINARY.ctorIdx }
                      predicate := .KuduInListPredicate { valueList := [bytes "a", []] } },
                    { type := .ofNat KuduPredicateType.COMPARISON.ctorIdx
                      predicate := .KuduComparisonPredicate { op := .ofNat KuduComparisonOperator.LESS.ctorIdx } }]

def insertOne : KuduInsert where
  op := { id := bytes "insert", operationType := KuduOperationType.INSERT.ctorIdx }
  columns := [{ columnName := bytes "key", encoding := .KuduColumnEncoding KuduColumnEncoding.RLE.ctorIdx }]
  row := { values := [{ dataType := KuduDataType.STRING.ctorIdx, value := .string (bytes "a") }] }

def messageOne : KuduMessage := { schemaType := KuduSchemaType.KuduInsert.ctorIdx, obj := bytes "obj" }

theorem scanOne_inBound : scanOne.InBound true := by
  refine ⟨Nat.zero_le _, fun p hp => ?_⟩
  fin_cases hp
  · exact ⟨⟨by decide, by decide⟩, ⟨Nat.le_of_ble_eq_true rfl, trivial⟩, trivial⟩
  · exact ⟨⟨by decide, by decide⟩, KuduColumnDef.inBound_default, ⟨fun _ => by decide, by decide⟩⟩

theorem insertOne_inBound : insertOne.InBound := by
  refine ⟨Nat.le_of_ble_eq_true rfl, fun c hc => ?_, fun value hvalue => ?_⟩
  · fin_cases hc
    exact ⟨Nat.zero_le _, Nat.le_of_ble_eq_true rfl⟩
  · fin_cases hvalue
    exact Nat.le_of_ble_eq_true rfl

/-- From a writer that has all fields the other way round, into objects that were used before. -/
theorem messages_round_trip_reversed :
    (∃ items, scanOne.encode (some reversed) = .ok items ∧ Reads (fun d items => d = items)
      (KuduScan.decode (listDecoder true) { tableName := bytes "old" }) items scanOne) ∧
    (∃ items, insertOne.encode (some reversed) = .ok items ∧ Reads (fun d items => d = items)
      (KuduInsert.decode (listDecoder true) { columns := [{}] }) items insertOne) ∧
    ∃ items, messageOne.encode (some reversed) = .ok items ∧ Reads (fun d items => d = items)
      (KuduMessage.decode (listDecoder true) { schemaType := 7 }) items messageOne := by
  obtain ⟨hscan, hinsert, -, hmessage⟩ := messages_round_trip reversed_resolves
  refine ⟨?_, ?_, ?_⟩
  · obtain ⟨items, hitems⟩ := (hscan scanOne).1.2 scanOne_inBound.relax
    exact ⟨items, hitems, (hscan scanOne).2 scanOne_inBound _ _ hitems⟩
  · obtain ⟨items, hitems⟩ := (hinsert insertOne).1.2 insertOne_inBound
    exact ⟨items, hitems, (hinsert insertOne).2 _ _ hitems⟩
  · obtain ⟨items, hitems⟩ := (hmessage messageOne).1.2 (by decide : (1 : Nat) ≤ 2)
    exact ⟨items, hitems, (hmessage messageOne).2 _ _ hitems⟩

theorem listDecoder_elementwise (resolving : Bool) : (listDecoder resolving).Elementwise := by
  intro α r P hr
  have helements : ∀ n, Yields (readElements r n) fun as => ∀ a ∈ as, P a := by
    intro n
    induction n with
    | zero => exact .pure fun a ha => (by cases ha)
    | succ n ih => exact hr.bind fun a ha => ih.map fun as has => List.forall_mem_cons.2 ⟨ha, has⟩
  intro d as d' hread
  rcases d with _ | ⟨item, d⟩
  · cases hread
  · cases item with
    | array size => exact helements size _ _ _ hread
    | enum | unionIndex | null | string | bytes | bool | fieldOrder => cases hread

theorem decoded_messages_encode_list :
    (Yields (KuduScan.decode (listDecoder true) scanOne) fun v => v.InBound true ∧ Writes (v.encode none)) ∧
    (Yields (KuduInsert.decode (listDecoder true) insertOne) fun v => v.InBound ∧ Writes (v.encode none)) ∧
    Yields (KuduMessage.decode (listDecoder false) messageOne) fun v => v.InBound ∧ Writes (v.encode none) :=
  ⟨(decoded_messages_encode (listDecoder_elementwise true)).1 _ scanOne_inBound,
    (decoded_messages_encode (listDecoder_elementwise true)).2.1 _ insertOne_inBound,
    (decoded_messages_encode (listDecoder_elementwise false)).2.2.2 messageOne (by decide : (1 : Nat) ≤ 2)⟩

end Kududown.rtip
