import Kududown.Kudu
import Kududown.Lib.Reader

/-!
# Messages

The codecs of the messages in `src/avro`. An `Encoder` is called with one `Item` after the other; a `Decoder` is a
parameter, and gives the items back. A `ResolvingDecoder` says at the beginning of a record in which order the writer
has its fields, which are read in that order; another decoder gives them in the order of the schema.
-/

namespace Kududown.rtip
open Reader

/-! ### Items -/

/-- `array` is followed by its elements; `fieldOrder` is what a `ResolvingDecoder` says. -/
inductive Item
  | enum (index : Nat)
  | unionIndex (index : Nat)
  | null
  | string (s : Slice)
  | bytes (b : Slice)
  | bool (b : Bool)
  | array (size : Nat)
  | fieldOrder (order : List Nat)
deriving DecidableEq

/-- `avro::Decoder`, with `fieldOrder` if it is a `ResolvingDecoder`. `decodeArray` decodes a `std::vector`, given how
its elements are decoded. -/
structure AvroDecoder (δ : Type) where
  decodeEnum : Reader δ String Nat
  decodeUnionIndex : Reader δ String Nat
  decodeNull : Reader δ String Unit
  decodeString : Reader δ String Slice
  decodeBytes : Reader δ String Slice
  decodeBool : Reader δ String Bool
  decodeArray : {α : Type} → Reader δ String α → Reader δ String (List α)
  fieldOrder : Option (Reader δ String (List Nat))

/-- The decoder gives the items that a source carries. -/
structure AvroDecoder.Gives {δ : Type} (dec : AvroDecoder δ) (carries : δ → List Item → Prop) : Prop where
  enum : ∀ index, Reads carries dec.decodeEnum [.enum index] index
  unionIndex : ∀ index, Reads carries dec.decodeUnionIndex [.unionIndex index] index
  null : Reads carries dec.decodeNull [.null] ()
  string : ∀ s, Reads carries dec.decodeString [.string s] s
  bytes : ∀ b, Reads carries dec.decodeBytes [.bytes b] b
  bool : ∀ b, Reads carries dec.decodeBool [.bool b] b
  array : ∀ {α : Type} (r : Reader δ String α) (items : α → List Item) (as : List α),
    (∀ a ∈ as, Reads carries r (items a) a) →
      Reads carries (dec.decodeArray r) (.array as.length :: as.flatMap items) as
  fieldOrder : ∀ r, dec.fieldOrder = some r → ∀ order, Reads carries r [.fieldOrder order] order

/-- The elements of an array are decoded as elements. -/
def AvroDecoder.Elementwise {δ : Type} (dec : AvroDecoder δ) : Prop :=
  ∀ {α : Type} (r : Reader δ String α) (P : α → Prop), Yields r P → Yields (dec.decodeArray r) fun as => ∀ a ∈ as, P a

/-! ### Enumerations -/

inductive KuduOperationType
  | SCAN | INSERT | DELETE

inductive KuduPredicateType
  | COMPARISON | IN_LIST | IS_NULL | IS_NOT_NULL

inductive KuduDataType
  | BOOLEAN | INT8 | INT16 | INT32 | INT64 | UNIXTIME64 | FLOAT32 | FLOAT64 | DECIMAL | STRING | BINARY

inductive KuduColumnEncoding
  | AUTO_ENCODING | PLAIN_ENCODING | RLE | DICT_ENCODING | BIT_SHUFFLE | PREFIX_ENCODING

inductive KuduComparisonOperator
  | EQUAL | GREATER | GREATER_EQUAL | LESS | LESS_EQUAL | IS_NULL | IS_NOT_NULL

inductive KuduSchemaType
  | KuduScan | KuduInsert | KuduScanResult

/-- An object of an enumeration is a number, and may be none of the enumerators; `last` is the last of them. That of
a plain `enum` is unsigned, so the test for less than the first enumerator that some codecs make never succeeds. -/
abbrev EnumObject := Nat

/-- An object of an `enum class` is an `int`. -/
abbrev EnumClassObject := Int32

def encodeEnum (type : String) (last v : EnumObject) : Except String (List Item) :=
  if v > last then
    .error ("enum value " ++ toString v ++ " is out of bound for rtip::" ++ type ++ " and cannot be encoded")
  else .ok [.enum v]

/-- The codecs of the two `enum class`es differ: `lower` is whether `v` is tested for less than the first enumerator.
The casts are to `unsigned int` in the text and to `unsigned long int` in what is encoded. -/
def encodeEnumClass (type : String) (lower : Bool) (last : Nat) (v : EnumClassObject) : Except String (List Item) :=
  if lower ∧ v.toInt < 0 ∨ v.toInt > last then
    .error ("enum value " ++ toString (v.toInt % 2 ^ 32) ++ " is out of bound for rtip::" ++ type ++
      " and cannot be encoded")
  else .ok [.enum (v.toInt % 2 ^ 64).toNat]

/-! ### Records -/

/-- The records, each with the number of its fields. -/
inductive RecordName
  | KuduOperation | KuduColumnDef | KuduComparisonPredicate | KuduInListPredicate | KuduPredicate | KuduScan
  | KuduDataValue | KuduRow | KuduInsert | KuduScanResult | KuduMessage

def RecordName.size : RecordName → Nat
  | .KuduOperation | .KuduComparisonPredicate | .KuduDataValue | .KuduScanResult | .KuduMessage => 2
  | .KuduColumnDef => 5
  | .KuduInListPredicate | .KuduRow => 1
  | .KuduPredicate | .KuduScan => 3
  | .KuduInsert => 4

/-- The order of the fields in the schema of the writer, where a `ResolvingDecoder` will ask for it. -/
abbrev FieldOrders := Option (RecordName → List Nat)

/-- Every field of the schema of the reader is in the schema of the writer. -/
def Covers (orders : FieldOrders) : Prop := ∀ order, orders = some order → ∀ name i, i < name.size → i ∈ order name

/-- The fields of a record, one after the other; with another order, what a writer of that order writes and a
`ResolvingDecoder` gives. -/
def encodeRecord (orders : FieldOrders) (name : RecordName) (fields : List (Except String (List Item))) :
    Except String (List Item) :=
  match orders with
  | none => writeAll fields
  | some order => (writeAll ((order name).filterMap (fields[·]?))).map (.fieldOrder (order name) :: ·)

def encodeArray (elements : List (Except String (List Item))) : Except String (List Item) :=
  (writeAll elements).map (.array elements.length :: ·)

section
variable {δ : Type} (dec : AvroDecoder δ)

def decodeEnum (type : String) (last : EnumObject) : Reader δ String EnumObject :=
  dec.decodeEnum.bind fun index =>
    if index > last then
      fail ("enum value " ++ toString index ++ " is out of bound for rtip::" ++ type ++ " and cannot be decoded")
    else .pure index

def decodeEnumClass (type : String) (last : Nat) : Reader δ String EnumClassObject :=
  (decodeEnum dec type last).map Int32.ofNat

/-- `switch (*it)` along `fieldOrder`, or all fields in turn. -/
def decodeRecord {ρ : Type} (name : RecordName) (decodeField : Nat → ρ → Reader δ String ρ) (v : ρ) :
    Reader δ String ρ :=
  match dec.fieldOrder with
  | some fieldOrder => fieldOrder.bind fun order => readFields decodeField order v
  | none => readFields decodeField (List.range name.size) v

/-! ### The messages -/

structure KuduOperation where
  id : Slice := []
  operationType : EnumObject := 0

def KuduOperation.encode (orders : FieldOrders) (v : KuduOperation) : Except String (List Item) :=
  encodeRecord orders .KuduOperation
    [.ok [.string v.id], encodeEnum "KuduOperationType" KuduOperationType.DELETE.ctorIdx v.operationType]

def KuduOperation.decodeField (i : Nat) (v : KuduOperation) : Reader δ String KuduOperation :=
  match i with
  | 0 => dec.decodeString.map fun id => { v with id }
  | 1 => (decodeEnum dec "KuduOperationType" KuduOperationType.DELETE.ctorIdx).map fun operationType =>
      { v with operationType }
  | _ => .pure v

def KuduOperation.decode (v : KuduOperation) : Reader δ String KuduOperation :=
  decodeRecord dec .KuduOperation (decodeField dec) v

/-- `encoding_t`. -/
inductive KuduColumnDef.Encoding
  | null
  | KuduColumnEncoding (v : EnumObject)

def KuduColumnDef.Encoding.encode : Encoding → Except String (List Item)
  | null => .ok [.unionIndex 0, .null]
  | KuduColumnEncoding v => (encodeEnum "KuduColumnEncoding" KuduColumnEncoding.PREFIX_ENCODING.ctorIdx v).map
      (.unionIndex 1 :: ·)

def KuduColumnDef.Encoding.decode : Reader δ String Encoding :=
  dec.decodeUnionIndex.bind fun n =>
    match n with
    | 0 => dec.decodeNull.map fun _ => null
    | 1 => (decodeEnum dec "KuduColumnEncoding" KuduColumnEncoding.PREFIX_ENCODING.ctorIdx).map .KuduColumnEncoding
    | _ => fail "Union index too big"

structure KuduColumnDef where
  columnName : Slice := []
  dataType : EnumObject := 0
  allowNull : Bool := false
  encoding : KuduColumnDef.Encoding := .null
  isPrimaryKey : Bool := false

def KuduColumnDef.encode (orders : FieldOrders) (v : KuduColumnDef) : Except String (List Item) :=
  encodeRecord orders .KuduColumnDef
    [.ok [.string v.columnName], encodeEnum "KuduDataType" KuduDataType.BINARY.ctorIdx v.dataType,
      .ok [.bool v.allowNull], v.encoding.encode, .ok [.bool v.isPrimaryKey]]

def KuduColumnDef.decodeField (i : Nat) (v : KuduColumnDef) : Reader δ String KuduColumnDef :=
  match i with
  | 0 => dec.decodeString.map fun columnName => { v with columnName }
  | 1 => (decodeEnum dec "KuduDataType" KuduDataType.BINARY.ctorIdx).map fun dataType => { v with dataType }
  | 2 => dec.decodeBool.map fun allowNull => { v with allowNull }
  | 3 => (Encoding.decode dec).map fun encoding => { v with encoding }
  | 4 => dec.decodeBool.map fun isPrimaryKey => { v with isPrimaryKey }
  | _ => .pure v

def KuduColumnDef.decode (v : KuduColumnDef) : Reader δ String KuduColumnDef :=
  decodeRecord dec .KuduColumnDef (decodeField dec) v

structure KuduComparisonPredicate where
  op : EnumClassObject := 0
  dataValue : Slice := []

def KuduComparisonPredicate.encode (orders : FieldOrders) (v : KuduComparisonPredicate) : Except String (List Item) :=
  encodeRecord orders .KuduComparisonPredicate
    [encodeEnumClass "KuduComparisonOperator" false KuduComparisonOperator.IS_NOT_NULL.ctorIdx v.op,
      .ok [.string v.dataValue]]

def KuduComparisonPredicate.decodeField (i : Nat) (v : KuduComparisonPredicate) :
    Reader δ String KuduComparisonPredicate :=
  match i with
  | 0 => (decodeEnumClass dec "KuduComparisonOperator" KuduComparisonOperator.IS_NOT_NULL.ctorIdx).map fun op =>
      { v with op }
  | 1 => dec.decodeString.map fun dataValue => { v with dataValue }
  | _ => .pure v

def KuduComparisonPredicate.decode (v : KuduComparisonPredicate) : Reader δ String KuduComparisonPredicate :=
  decodeRecord dec .KuduComparisonPredicate (decodeField dec) v

structure KuduInListPredicate where
  valueList : List Slice := []

def KuduInListPredicate.encode (orders : FieldOrders) (v : KuduInListPredicate) : Except String (List Item) :=
  encodeRecord orders .KuduInListPredicate [encodeArray (v.valueList.map fun s => .ok [.string s])]

def KuduInListPredicate.decodeField (i : Nat) (v : KuduInListPredicate) : Reader δ String KuduInListPredicate :=
  match i with
  | 0 => (dec.decodeArray dec.decodeString).map fun valueList => { v with valueList }
  | _ => .pure v

def KuduInListPredicate.decode (v : KuduInListPredicate) : Reader δ String KuduInListPredicate :=
  decodeRecord dec .KuduInListPredicate (decodeField dec) v

/-- `predicate_t`. -/
inductive KuduPredicate.Predicate
  | null
  | KuduComparisonPredicate (v : KuduComparisonPredicate)
  | KuduInListPredicate (v : KuduInListPredicate)

def KuduPredicate.Predicate.encode (orders : FieldOrders) : Predicate → Except String (List Item)
  | null => .ok [.unionIndex 0, .null]
  | KuduComparisonPredicate v => (v.encode orders).map (.unionIndex 1 :: ·)
  | KuduInListPredicate v => (v.encode orders).map (.unionIndex 2 :: ·)

def KuduPredicate.Predicate.decode : Reader δ String Predicate :=
  dec.decodeUnionIndex.bind fun n =>
    match n with
    | 0 => dec.decodeNull.map fun _ => null
    | 1 => (KuduComparisonPredicate.decode dec {}).map .KuduComparisonPredicate
    | 2 => (KuduInListPredicate.decode dec {}).map .KuduInListPredicate
    | _ => fail "Union index too big"

structure KuduPredicate where
  type : EnumClassObject := 0
  column : KuduColumnDef := {}
  predicate : KuduPredicate.Predicate := .null

def KuduPredicate.encode (orders : FieldOrders) (v : KuduPredicate) : Except String (List Item) :=
  encodeRecord orders .KuduPredicate
    [encodeEnumClass "KuduPredicateType" true KuduPredicateType.IS_NOT_NULL.ctorIdx v.type, v.column.encode orders,
      v.predicate.encode orders]

def KuduPredicate.decodeField (i : Nat) (v : KuduPredicate) : Reader δ String KuduPredicate :=
  match i with
  | 0 => (decodeEnumClass dec "KuduPredicateType" KuduPredicateType.IS_NOT_NULL.ctorIdx).map fun type => { v with type }
  | 1 => (v.column.decode dec).map fun column => { v with column }
  | 2 => (Predicate.decode dec).map fun predicate => { v with predicate }
  | _ => .pure v

def KuduPredicate.decode (v : KuduPredicate) : Reader δ String KuduPredicate :=
  decodeRecord dec .KuduPredicate (decodeField dec) v

structure KuduScan where
  op : KuduOperation := {}
  tableName : Slice := []
  predicateList : List KuduPredicate := []

def KuduScan.encode (orders : FieldOrders) (v : KuduScan) : Except String (List Item) :=
  encodeRecord orders .KuduScan
    [v.op.encode orders, .ok [.string v.tableName], encodeArray (v.predicateList.map (·.encode orders))]

def KuduScan.decodeField (i : Nat) (v : KuduScan) : Reader δ String KuduScan :=
  match i with
  | 0 => (v.op.decode dec).map fun op => { v with op }
  | 1 => dec.decodeString.map fun tableName => { v with tableName }
  | 2 => (dec.decodeArray (KuduPredicate.decode dec {})).map fun predicateList => { v with predicateList }
  | _ => .pure v

def KuduScan.decode (v : KuduScan) : Reader δ String KuduScan :=
  decodeRecord dec .KuduScan (decodeField dec) v

/-- `value_t`. -/
inductive KuduDataValue.Value
  | null
  | string (v : Slice)
  | bytes (v : Slice)

def KuduDataValue.Value.encode : Value → Except String (List Item)
  | null => .ok [.unionIndex 0, .null]
  | string v => .ok [.unionIndex 1, .string v]
  | bytes v => .ok [.unionIndex 2, .bytes v]

def KuduDataValue.Value.decode : Reader δ String Value :=
  dec.decodeUnionIndex.bind fun n =>
    match n with
    | 0 => dec.decodeNull.map fun _ => null
    | 1 => dec.decodeString.map string
    | 2 => dec.decodeBytes.map bytes
    | _ => fail "Union index too big"

structure KuduDataValue where
  dataType : EnumObject := 0
  value : KuduDataValue.Value := .null

def KuduDataValue.encode (orders : FieldOrders) (v : KuduDataValue) : Except String (List Item) :=
  encodeRecord orders .KuduDataValue
    [encodeEnum "KuduDataType" KuduDataType.BINARY.ctorIdx v.dataType, v.value.encode]

def KuduDataValue.decodeField (i : Nat) (v : KuduDataValue) : Reader δ String KuduDataValue :=
  match i with
  | 0 => (decodeEnum dec "KuduDataType" KuduDataType.BINARY.ctorIdx).map fun dataType => { v with dataType }
  | 1 => (Value.decode dec).map fun value => { v with value }
  | _ => .pure v

def KuduDataValue.decode (v : KuduDataValue) : Reader δ String KuduDataValue :=
  decodeRecord dec .KuduDataValue (decodeField dec) v

structure KuduRow where
  values : List KuduDataValue := []

def KuduRow.encode (orders : FieldOrders) (v : KuduRow) : Except String (List Item) :=
  encodeRecord orders .KuduRow [encodeArray (v.values.map (·.encode orders))]

def KuduRow.decodeField (i : Nat) (v : KuduRow) : Reader δ String KuduRow :=
  match i with
  | 0 => (dec.decodeArray (KuduDataValue.decode dec {})).map fun values => { v with values }
  | _ => .pure v

def KuduRow.decode (v : KuduRow) : Reader δ String KuduRow :=
  decodeRecord dec .KuduRow (decodeField dec) v

structure KuduInsert where
  op : KuduOperation := {}
  tableName : Slice := []
  columns : List KuduColumnDef := []
  row : KuduRow := {}

def KuduInsert.encode (orders : FieldOrders) (v : KuduInsert) : Except String (List Item) :=
  encodeRecord orders .KuduInsert
    [v.op.encode orders, .ok [.string v.tableName], encodeArray (v.columns.map (·.encode orders)), v.row.encode orders]

def KuduInsert.decodeField (i : Nat) (v : KuduInsert) : Reader δ String KuduInsert :=
  match i with
  | 0 => (v.op.decode dec).map fun op => { v with op }
  | 1 => dec.decodeString.map fun tableName => { v with tableName }
  | 2 => (dec.decodeArray (KuduColumnDef.decode dec {})).map fun columns => { v with columns }
  | 3 => (v.row.decode dec).map fun row => { v with row }
  | _ => .pure v

def KuduInsert.decode (v : KuduInsert) : Reader δ String KuduInsert :=
  decodeRecord dec .KuduInsert (decodeField dec) v

structure KuduScanResult where
  scanId : Slice := []
  rows : List KuduRow := []

def KuduScanResult.encode (orders : FieldOrders) (v : KuduScanResult) : Except String (List Item) :=
  encodeRecord orders .KuduScanResult [.ok [.string v.scanId], encodeArray (v.rows.map (·.encode orders))]

def KuduScanResult.decodeField (i : Nat) (v : KuduScanResult) : Reader δ String KuduScanResult :=
  match i with
  | 0 => dec.decodeString.map fun scanId => { v with scanId }
  | 1 => (dec.decodeArray (KuduRow.decode dec {})).map fun rows => { v with rows }
  | _ => .pure v

def KuduScanResult.decode (v : KuduScanResult) : Reader δ String KuduScanResult :=
  decodeRecord dec .KuduScanResult (decodeField dec) v

structure KuduMessage where
  schemaType : EnumObject := 0
  obj : Slice := []

def KuduMessage.encode (orders : FieldOrders) (v : KuduMessage) : Except String (List Item) :=
  encodeRecord orders .KuduMessage
    [encodeEnum "KuduSchemaType" KuduSchemaType.KuduScanResult.ctorIdx v.schemaType, .ok [.bytes v.obj]]

def KuduMessage.decodeField (i : Nat) (v : KuduMessage) : Reader δ String KuduMessage :=
  match i with
  | 0 => (decodeEnum dec "KuduSchemaType" KuduSchemaType.KuduScanResult.ctorIdx).map fun schemaType => { v with schemaType }
  | 1 => dec.decodeBytes.map fun obj => { v with obj }
  | _ => .pure v

def KuduMessage.decode (v : KuduMessage) : Reader δ String KuduMessage :=
  decodeRecord dec .KuduMessage (decodeField dec) v

end

end Kududown.rtip
