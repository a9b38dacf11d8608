import Kududown.Kudu

/-!
# Cells as text

`Database::getSliceAsString` renders one column of a row. Each branch of its switch asks the getter of the
column's type and formats what it gets; when the getter fails the output is left alone and the failure is
returned. The `sprintf` conversions it uses are `decimal` (`%hd`, `%d`, `%ld`), `firstByte` (`%.1s`) and
`general` (`%g`).
-/

namespace Kududown

def digits (n : Nat) : Slice := (Nat.toDigits 10 n).map fun c => byte c.toNat

/-- `%d` of an integer. -/
def decimal (i : Int) : Slice := if i < 0 then bytes "-" ++ digits i.natAbs else digits i.natAbs

/-- `%.1s` of a pointer to a `signed char`: that byte, unless it is the terminator. -/
def firstByte (i : Int8) : Slice := if i = 0 then [] else [byte i.toUInt8.toNat]

/-! ### `%g` -/

def roundHalfEven (num den : Nat) : Nat :=
  let r := num % den
  if 2 * r < den ∨ 2 * r = den ∧ num / den % 2 = 0 then num / den else num / den + 1

/-- Six significant digits of `num / den` and the decimal exponent of the first of them. -/
def sixDigits (num den : Nat) : Nat × Int :=
  let x : Int := if den ≤ num then Nat.log 10 (num / den) else -Nat.clog 10 ((den + num - 1) / num)
  let m := if x ≤ 5 then roundHalfEven (num * 10 ^ (5 - x).toNat) den
    else roundHalfEven num (den * 10 ^ (x - 5).toNat)
  -- rounding may carry into a seventh digit
  if m = 10 ^ 6 then (10 ^ 5, x + 1) else (m, x)

def dropZeros (s : Slice) : Slice := (s.reverse.dropWhile (· = byte 48)).reverse

def withFraction (whole fraction : Slice) : Slice :=
  if dropZeros fraction = [] then whole else whole ++ bytes "." ++ dropZeros fraction

/-- `%g` of the positive number `num / den`. -/
def general (num den : Nat) : Slice :=
  let (m, x) := sixDigits num den
  let ds := digits m
  if x < -4 ∨ 6 ≤ x then
    let e := digits x.natAbs
    withFraction (ds.take 1) (ds.drop 1) ++ bytes (if x < 0 then "e-" else "e+") ++
      (if e.length < 2 then bytes "0" ++ e else e)
  else if 0 ≤ x then withFraction (ds.take (x.toNat + 1)) (ds.drop (x.toNat + 1))
  else withFraction (bytes "0") (List.replicate (x.natAbs - 1) (byte 48) ++ ds)

/-- `%g` of a binary floating-point number with `p` mantissa and `w` exponent bits. -/
def formatG (p w bits : Nat) : Slice :=
  let sign := if bits / 2 ^ (p + w) % 2 = 1 then bytes "-" else []
  let exp := bits / 2 ^ p % 2 ^ w
  let frac := bits % 2 ^ p
  let m := if exp = 0 then frac else frac + 2 ^ p
  let e : Int := (max exp 1 : Nat) - (2 ^ (w - 1) - 1 + p : Nat)
  sign ++
    if exp = 2 ^ w - 1 then bytes (if frac = 0 then "inf" else "nan")
    else if m = 0 then bytes "0"
    else if 0 ≤ e then general (m * 2 ^ e.toNat) 1
    else general m (2 ^ e.natAbs)

/-! ### The switch -/

def sliceOf {α : Type} (st : Except Failure α) (format : α → Slice) (output : Slice) : Status × Slice :=
  match st with
  | .error e => (.error e, output)
  | .ok a => (.OK, format a)

/-- `Database::getSliceAsString`. -/
def getSliceAsString (row : RowPtr) (type : DataType) (index : Nat) (output : Slice) : Status × Slice :=
  match type with
  | .BINARY => sliceOf (row.GetBinary index) id output
  | .BOOL => sliceOf (row.GetBool index) (fun b => bytes (if b = true then "true" else "false")) output
  | .DOUBLE => sliceOf (row.GetDouble index) (fun d => formatG 52 11 d.toNat) output
  | .FLOAT => sliceOf (row.GetFloat index) (fun f => formatG 23 8 f.toNat) output
  | .INT16 => sliceOf (row.GetInt16 index) (fun i => decimal i.toInt) output
  | .INT32 => sliceOf (row.GetInt32 index) (fun i => decimal i.toInt) output
  | .INT64 => sliceOf (row.GetInt64 index) (fun i => decimal i.toInt) output
  | .INT8 => sliceOf (row.GetInt8 index) firstByte output
  | .STRING => sliceOf (row.GetString index) id output
  | .UNIXTIME_MICROS => sliceOf (row.GetUnixTimeMicros index) (fun t => decimal t.toInt) output

variable {α : Type} {row : RowPtr} {type : DataType} {index : Nat} {output : Slice}

/-! ### Integer cells -/

/-- The number that a text of decimal digits stands for. -/
def digitsValue (s : Slice) : Option Nat :=
  if s ≠ [] ∧ ∀ b ∈ s, 48 ≤ b.val ∧ b.val ≤ 57 then some (s.foldl (fun v b => 10 * v + (b.val - 48)) 0) else none

/-- A text of decimal digits, or one after a minus sign. -/
def parseDecimal : Slice → Option Int
  | [] => none
  | b :: s =>
    if b = byte 45 then (digitsValue s).map fun n : Nat => -(n : Int)
    else (digitsValue (b :: s)).map fun n : Nat => (n : Int)

/-- The decimal numeral of `n`: it has no zero in front. -/
structure Numeral (s : Slice) (n : Int) : Prop where
  parse : parseDecimal s = some n
  zero : ∀ t, s = byte 48 :: t → t = []
  minus : ∀ t, s ≠ byte 45 :: byte 48 :: t

/-- What the getter of an integer column comes back with. -/
def integerCell (row : RowPtr) (index : Nat) : DataType → Option (Except Failure Int)
  | .INT8 => some ((row.GetInt8 index).map Int8.toInt)
  | .INT16 => some ((row.GetInt16 index).map Int16.toInt)
  | .INT32 => some ((row.GetInt32 index).map Int32.toInt)
  | .INT64 => some ((row.GetInt64 index).map Int64.toInt)
  | .UNIXTIME_MICROS => some ((row.GetUnixTimeMicros index).map Int64.toInt)
  | .STRING | .BOOL | .FLOAT | .DOUBLE | .BINARY => none

/-- The cell has come out as its numeral, or its failure has and the output is the old one. -/
structure Rendered (cell : Except Failure Int) (output : Slice) (r : Status × Slice) : Prop where
  ok : ∀ n, cell = .ok n → r.1 = .OK ∧ Numeral r.2 n
  error : ∀ e, cell = .error e → r = (.error e, output)

theorem toNat_digitChar {n : Nat} (h : n < 10) : (byte n.digitChar.toNat).val = 48 + n := by
  rw [Nat.toNat_digitChar_of_lt_ten h, byte, Fin.val_ofNat]
  omega

theorem digits_eq (n : Nat) :
    digits n = if n < 10 then [byte n.digitChar.toNat] else digits (n / 10) ++ [byte (n % 10).digitChar.toNat] := by
  unfold digits
  rw [Nat.toDigits_eq_if (by omega)]
  split_ifs
  · rfl
  · rw [List.map_append]
    rfl

theorem digits_isDigit (n : Nat) : digits n ≠ [] ∧ ∀ b ∈ digits n, 48 ≤ b.val ∧ b.val ≤ 57 := by
  induction n using Nat.strong_induction_on with
  | _ n ih =>
    rw [digits_eq]
    split_ifs with hn
    · simp only [List.mem_singleton, forall_eq, toNat_digitChar hn]
      exact ⟨List.cons_ne_nil _ _, by omega⟩
    · refine ⟨List.append_ne_nil_of_right_ne_nil _ (List.cons_ne_nil _ _), fun b hb => ?_⟩
      rcases List.mem_append.1 hb with hb | hb
      · exact (ih (n / 10) (by omega)).2 b hb
      · rw [List.mem_singleton.1 hb, toNat_digitChar (Nat.mod_lt _ (by omega))]
        omega

theorem foldl_digits (n : Nat) : (digits n).foldl (fun v b => 10 * v + (b.val - 48)) 0 = n := by
  induction n using Nat.strong_induction_on with
  | _ n ih =>
    rw [digits_eq]
    split_ifs with hn
    · simp only [List.foldl_cons, List.foldl_nil, toNat_digitChar hn]
      omega
    · rw [List.foldl_append, ih (n / 10) (by omega)]
      simp only [List.foldl_cons, List.foldl_nil, toNat_digitChar (Nat.mod_lt n (by omega : 0 < 10))]
      omega

theorem digitsValue_digits (n : Nat) : digitsValue (digits n) = some n := by
  unfold digitsValue
  rw [if_pos (digits_isDigit n), foldl_digits]

/-- Only the numeral of 0 begins with a zero. -/
theorem digits_zero {n : Nat} {t : Slice} (h : digits n = byte 48 :: t) : n = 0 ∧ t = [] := by
  induction n using Nat.strong_induction_on generalizing t with
  | _ n ih =>
    rw [digits_eq] at h
    split_ifs at h with hn
    · obtain ⟨hhead, htail⟩ := List.cons.inj h
      have hval := congrArg Fin.val hhead
      rw [toNat_digitChar hn] at hval
      refine ⟨?_, htail.symm⟩
      change 48 + n = 48 at hval
      omega
    · obtain ⟨b, s, hbs⟩ := List.exists_cons_of_ne_nil (digits_isDigit (n / 10)).1
      rw [hbs, List.cons_append] at h
      obtain ⟨rfl, -⟩ := List.cons.inj h
      have hzero := (ih (n / 10) (by omega) hbs).1
      omega

theorem numeral_decimal (n : Int) : Numeral (decimal n) n := by
  have hdigits := digits_isDigit n.natAbs
  have hvalue := digitsValue_digits n.natAbs
  unfold decimal
  split_ifs with hn
  · refine ⟨?_, fun t ht => ?_, fun t ht => ?_⟩
    · show (digitsValue (digits n.natAbs)).map (fun m : Nat => -(m : Int)) = some n
      rw [hvalue, Option.map_some]
      congr 1
      omega
    · cases (List.cons.inj ht).1
    · have hzero := (digits_zero (List.cons.inj ht).2).1
      omega
  · obtain ⟨b, s, hbs⟩ := List.exists_cons_of_ne_nil hdigits.1
    have hb : b ≠ byte 45 := by
      rintro rfl
      have := (hdigits.2 _ (hbs ▸ List.mem_cons_self)).1
      change 48 ≤ 45 at this
      omega
    refine ⟨?_, fun t ht => (digits_zero ht).2, fun t ht => ?_⟩
    · have habs : (n.natAbs : Int) = n := by omega
      rw [hbs] at hvalue ⊢
      unfold parseDecimal
      dsimp only
      rw [if_neg hb, hvalue, Option.map_some, habs]
    · rw [hbs] at ht
      exact hb (List.cons.inj ht).1

theorem rendered_sliceOf {st : Except Failure α} {toInt : α → Int} :
    Rendered (st.map toInt) output (sliceOf st (fun a => decimal (toInt a)) output) := by
  cases st with
  | error e => exact ⟨fun n h => (by cases h), fun e' h => (by cases h; rfl)⟩
  | ok a =>
    refine ⟨fun n h => ?_, fun e h => (by cases h)⟩
    cases h
    exact ⟨rfl, numeral_decimal _⟩

/-- `%.1s` of a pointer to `n` prints the byte `n`, which is never the numeral of `n`. -/
theorem not_numeral_firstByte (n : Int8) : ¬ Numeral (firstByte n) n.toInt := by
  rintro ⟨hparse, -, -⟩
  unfold firstByte at hparse
  split_ifs at hparse with hn
  · cases hparse
  · unfold parseDecimal digitsValue at hparse
    dsimp only at hparse
    split_ifs at hparse with hminus hnil hdigit
    · exact hnil.1 rfl
    · cases hparse
    · have hbyte : (byte n.toUInt8.toNat).val = n.toUInt8.toNat := by
        rw [byte, Fin.val_ofNat]
        exact Nat.mod_eq_of_lt n.toUInt8.toNat_lt
      have hval := hdigit.2 _ List.mem_cons_self
      rw [hbyte] at hval
      have hint : n.toInt = n.toUInt8.toNat := by
        rw [Int8.toInt, BitVec.toInt_eq_toNat_of_lt]
        · rfl
        · show 2 * n.toUInt8.toNat < 2 ^ 8
          omega
      simp [hbyte, hint] at hparse
      omega
    · cases hparse

/-- Every branch but that of INT8 prints a numeral. -/
theorem integer_rendered {cell : Except Failure Int} (h : integerCell row index type = some cell) (htype : type ≠ .INT8) :
    Rendered cell output (getSliceAsString row type index output) := by
  cases type with
  | INT8 => exact absurd rfl htype
  | INT16 | INT32 | INT64 | UNIXTIME_MICROS =>
    cases h
    exact rendered_sliceOf
  | STRING | BOOL | FLOAT | DOUBLE | BINARY => cases h

/-- The integer cells come out as numerals, except those of INT8 columns. -/
theorem integer_rendered_iff (row : RowPtr) (type : DataType) (index : Nat) (output : Slice) (cell : Except Failure Int)
    (h : integerCell row index type = some cell) :
    Rendered cell output (getSliceAsString row type index output) ↔ type ≠ .INT8 ∨ ∃ e, cell = .error e := by
  by_cases htype : type = .INT8
  · subst htype
    cases h
    rw [getSliceAsString]
    cases row.GetInt8 index with
    | error e => exact ⟨fun _ => .inr ⟨e, rfl⟩, fun _ => ⟨fun n h => (by cases h), fun e' h => (by cases h; rfl)⟩⟩
    | ok n =>
      constructor
      · intro hr
        exact absurd (hr.ok n.toInt rfl).2 (not_numeral_firstByte n)
      · rintro (hne | ⟨e, he⟩)
        · exact absurd rfl hne
        · cases he
  · exact ⟨fun _ => .inl htype, fun _ => integer_rendered h htype⟩

/-- A row whose integer cells all hold `n`. -/
def integerRow (n : Int8) : RowPtr :=
  { stringRow [] [] with
    GetInt8 := fun _ => .ok n
    GetInt32 := fun _ => .ok (Int32.ofInt n.toInt) }

theorem integer_rendered_iff_int32 :
    integerCell (integerRow (-5)) 0 .INT32 = some (.ok (-5)) ∧
    (Rendered (.ok (-5)) [] (getSliceAsString (integerRow (-5)) .INT32 0 []) ↔
      DataType.INT32 ≠ .INT8 ∨ ∃ e : Failure, (Except.ok (-5) : Except Failure Int) = .error e) :=
  ⟨rfl, integer_rendered_iff (integerRow (-5)) .INT32 0 [] (.ok (-5)) rfl⟩

/-- The cell 5 of an INT8 column comes out as the byte 5, not as the digit. -/
theorem int8_not_rendered :
    integerCell (integerRow 5) 0 .INT8 = some (.ok 5) ∧
    getSliceAsString (integerRow 5) .INT8 0 [] = (.OK, [byte 5]) ∧
    ¬ Rendered (.ok 5) [] (getSliceAsString (integerRow 5) .INT8 0 []) :=
  ⟨rfl, rfl, fun h => not_numeral_firstByte 5 (h.ok 5 rfl).2⟩

end Kududown
