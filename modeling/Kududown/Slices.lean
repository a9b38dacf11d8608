import Kududown.Table

/-!
# Slices of JavaScript values

`LD_STRING_OR_BUFFER_TO_SLICE` makes a `kudu::Slice` of a value: of a Buffer a view of its bytes, of `null` and
`undefined` an empty slice, of anything else a copy of its text in a new array. `DisposeStringOrBufferFromSlice` deletes
the array again, unless it is empty. `Memory.Owned` is the account of the arrays: every slice that is still to be
disposed of has its bytes, and no two of them share an array. A worker sees the Buffers and the chained batches as they
are when it executes.
-/

namespace Kududown

/-- `v8::Value`, as far as the binding looks at it. Texts are what `ToString` makes, in UTF-8; a Buffer and a function
are given by their numbers. -/
inductive Value
  | null
  | undefined
  | primitive (text : Slice) (truth : Bool)
  | string (text : Slice)
  | buffer (b : Nat)
  | array (elements : List Value) (text : Slice)
  | object (props : String → Option Value) (text : Slice)
  | function (f : Nat) (text : Slice)

namespace Value

/-- `ToString`. -/
def text : Value → Slice
  | null => bytes "null"
  | undefined => bytes "undefined"
  | primitive text _ | string text | array _ text | object _ text | function _ text => text
  | buffer _ => []

/-- `IsNull() || IsUndefined()`. -/
def isNullish : Value → Bool
  | null | undefined => true
  | _ => false

/-- `node::Buffer::HasInstance`. -/
def isBuffer : Value → Bool
  | buffer _ => true
  | _ => false

def isObject : Value → Bool
  | buffer _ | array _ _ | object _ _ | function _ _ => true
  | _ => false

/-- `IsFunction`, with the function. -/
def asFunction : Value → Option Nat
  | function f _ => some f
  | _ => none

/-- `BooleanValue`. -/
def truth : Value → Bool
  | null | undefined => false
  | primitive _ truth => truth
  | string text => !text.isEmpty
  | _ => true

def has : Value → String → Bool
  | object props _, name => (props name).isSome
  | _, _ => false

/-- `Get(name)`. -/
def get : Value → String → Value
  | object props _, name => (props name).getD undefined
  | _, _ => undefined

/-- `StrictEquals` with a text. -/
def isString (v : Value) (s : String) : Bool :=
  match v with
  | string text => text = bytes s
  | _ => false

end Value

/-! ### Chained batches -/

theorem Operation.batch_eq_empty {ops : List Operation} : Operation.batch ops = {} ↔ ops = [] := by
  constructor
  · intro h
    have hops : ops.map Operation.batchOp = [] := Operation.batch_ops ops ▸ congrArg WriteBatch.ops h
    exact List.map_eq_nil_iff.1 hops
  · rintro rfl
    rfl

/-- `Batch`. -/
structure Batch where
  batch : WriteBatch := {}
  hasData : Bool := false
  hasData_iff : hasData = true ↔ batch.ops ≠ [] := by simp

namespace Batch

def put (b : Batch) (key value : Slice) : Batch where
  batch := b.batch.put key value
  hasData := if !b.hasData then true else b.hasData
  hasData_iff := by cases b.hasData <;> simp [WriteBatch.put]

def del (b : Batch) (key : Slice) : Batch where
  batch := b.batch.delete key
  hasData := if !b.hasData then true else b.hasData
  hasData_iff := by cases b.hasData <;> simp [WriteBatch.delete]

def clear (b : Batch) : Batch where
  batch := b.batch.clear
  hasData := false
  hasData_iff := by simp [WriteBatch.clear]

/-- `put` and `del`, and `clear`. -/
def change (b : Batch) : Option Operation → Batch
  | some (.put key value) => b.put key value
  | some (.del key) => b.del key
  | none => b.clear

theorem batch_eq_empty {b : Batch} (h : ¬ b.hasData = true) : b.batch = {} := by
  have hnil := not_not.1 (b.hasData_iff.not.1 h)
  rcases b with ⟨⟨ops⟩, hasData, hasData_iff⟩
  cases hnil
  rfl

/-- What has been put and deleted since the last `clear`. -/
def collected (changes : List (Option Operation)) : List Operation :=
  changes.foldl (fun ops change => change.elim [] fun op => ops ++ [op]) []

theorem collected_concat (changes : List (Option Operation)) (change : Option Operation) :
    collected (changes ++ [change]) = change.elim [] fun op => collected changes ++ [op] := by
  unfold collected
  rw [List.foldl_concat]

theorem change_batch {b : Batch} {ops : List Operation} (h : b.batch = Operation.batch ops)
    (change : Option Operation) : (b.change change).batch = Operation.batch (change.elim [] fun op => ops ++ [op]) := by
  cases change with
  | none => rfl
  | some op =>
    have hconcat : Operation.batch (ops ++ [op]) = op.addTo (Operation.batch ops) := by
      unfold Operation.batch
      rw [List.foldl_concat]
    rw [Option.elim_some, hconcat, ← h]
    cases op <;> rfl

end Batch

/-! ### Memory -/

/-- What a `char*` points to: nothing, the bytes of a Buffer, or what `new char[]` gave. -/
inductive CharPtr
  | null
  | buffer (b : Nat)
  | array (p : Nat)
deriving DecidableEq

/-- `kudu::Slice` as it is: a pointer and a size. -/
structure RawSlice where
  data : CharPtr
  size : Nat
deriving DecidableEq

/-- The bytes of the Buffers, the chained batches, and the arrays in the order in which they were made, `none` once
deleted. -/
structure Memory where
  buffers : Nat → Slice
  batches : Nat → Batch := fun _ => {}
  arrays : List (Option Slice) := []

namespace Memory

def newArray (m : Memory) (text : Slice) : CharPtr × Memory :=
  (.array m.arrays.length, { m with arrays := m.arrays ++ [some text] })

/-- `delete[]`. It is undefined for the bytes of a Buffer and for an array that is deleted already. -/
def deleteArray (m : Memory) : CharPtr → Option Memory
  | .null => some m
  | .buffer _ => none
  | .array p => if (m.arrays[p]?.join).isSome then some { m with arrays := m.arrays.set p none } else none

/-- The bytes of a slice, if they are there. -/
def load (m : Memory) (slice : RawSlice) : Option Slice :=
  match slice.data with
  | .null => if slice.size = 0 then some [] else none
  | .buffer b => if slice.size ≤ (m.buffers b).length then some ((m.buffers b).take slice.size) else none
  | .array p => (m.arrays[p]?.join).bind fun text => if slice.size ≤ text.length then some (text.take slice.size) else none

/-- JS writes to a Buffer; its length stays. -/
def fill (m : Memory) (b : Nat) (data : Slice) : Memory :=
  if data.length = (m.buffers b).length then { m with buffers := fun c => if c = b then data else m.buffers c } else m

def changeBatch (m : Memory) (i : Nat) (change : Option Operation) : Memory :=
  { m with batches := fun j => if j = i then (m.batches i).change change else m.batches j }

end Memory

/-- `LD_STRING_OR_BUFFER_TO_SLICE`. -/
def stringOrBufferToSlice (m : Memory) : Value → RawSlice × Memory
  | .null | .undefined => (⟨.null, 0⟩, m)
  | .buffer b => (⟨.buffer b, (m.buffers b).length⟩, m)
  | v => (⟨(m.newArray v.text).1, v.text.length⟩, (m.newArray v.text).2)

/-- `DisposeStringOrBufferFromSlice`. -/
def disposeStringOrBufferFromSlice (m : Memory) (handle : Value) (slice : RawSlice) : Option Memory :=
  if slice.size ≠ 0 ∧ handle.isBuffer = false then m.deleteArray slice.data else some m

/-- `DisposeStringOrBufferFromSlice` on one slice after the other. -/
def disposeAll (m : Memory) : List (Value × RawSlice) → Option Memory
  | [] => some m
  | (handle, slice) :: held => (disposeStringOrBufferFromSlice m handle slice).bind fun m => disposeAll m held

/-- Only the arrays differ. -/
structure Memory.Shares (m m' : Memory) : Prop where
  buffers : m'.buffers = m.buffers
  batches : m'.batches = m.batches

theorem Memory.Shares.trans {m m' m'' : Memory} (h : m.Shares m') (h' : m'.Shares m'') : m.Shares m'' :=
  ⟨h'.buffers.trans h.buffers, h'.batches.trans h.batches⟩

/-! ### Who owns what -/

/-- The bytes that a slice of the value has. -/
def Value.bytesIn (m : Memory) : Value → Slice
  | .null | .undefined => []
  | .buffer b => m.buffers b
  | v => v.text

/-- The slice was made of the value, and its bytes are there. -/
inductive SliceOf (m : Memory) : Value → RawSlice → Prop
  | empty {v : Value} (hv : v.isNullish = true) : SliceOf m v ⟨.null, 0⟩
  | view (b : Nat) : SliceOf m (.buffer b) ⟨.buffer b, (m.buffers b).length⟩
  | copy {v : Value} {p : Nat} (hv : v.isNullish = false) (hv' : v.isBuffer = false)
      (hp : m.arrays[p]? = some (some v.text)) : SliceOf m v ⟨.array p, v.text.length⟩

/-- The array that has to be deleted with the slice. -/
def RawSlice.owned (slice : RawSlice) : Option Nat :=
  match slice.data with
  | .array p => if slice.size ≠ 0 then some p else none
  | _ => none

/-- The arrays that the slices own. -/
def arraysOf (held : List (Value × RawSlice)) : List Nat := held.filterMap fun h => h.2.owned

/-- `held` are the slices, with their values, that no one has disposed of. They have their bytes, each array with bytes
in it belongs to one of them, and to one only. -/
structure Memory.Owned (m : Memory) (held : List (Value × RawSlice)) : Prop where
  sliceOf : ∀ h ∈ held, SliceOf m h.1 h.2
  nodup : (arraysOf held).Nodup
  live : ∀ p text, m.arrays[p]? = some (some text) → text ≠ [] → p ∈ arraysOf held

variable {m m' : Memory} {v : Value} {slice : RawSlice} {held held' : List (Value × RawSlice)} {p b : Nat}
  {text data : Slice}

theorem bytesIn_congr (h : m'.buffers = m.buffers) : v.bytesIn m' = v.bytesIn m := by
  cases v with
  | buffer b => exact congrFun h b
  | null | undefined | primitive | string | array | object | function => rfl

theorem load_array (hp : m.arrays[p]? = some (some text)) : m.load ⟨.array p, text.length⟩ = some text := by
  simp [Memory.load, hp]

theorem bytesIn_copy (hv : v.isNullish = false) (hv' : v.isBuffer = false) : v.bytesIn m = v.text := by
  cases v with
  | null => cases hv
  | undefined => cases hv
  | buffer b => cases hv'
  | primitive | string | array | object | function => rfl

theorem SliceOf.load (h : SliceOf m v slice) : m.load slice = some (v.bytesIn m) := by
  cases h with
  | empty hv => cases v <;> first | rfl | cases hv
  | view b => simp [Memory.load, Value.bytesIn]
  | copy hv hv' hp =>
    have hload := load_array hp
    rw [hload, bytesIn_copy hv hv']

/-- What a slice needs is its own array, and the length of the Buffers. -/
theorem SliceOf.congr (h : SliceOf m v slice) (harray : ∀ p, slice.data = .array p → m'.arrays[p]? = m.arrays[p]?)
    (hbuffer : ∀ b, (m'.buffers b).length = (m.buffers b).length) : SliceOf m' v slice := by
  cases h with
  | empty hv => exact .empty hv
  | view b =>
    rw [← hbuffer]
    exact .view b
  | copy hv hv' hp => exact .copy hv hv' ((harray _ rfl).trans hp)

theorem SliceOf.lt (h : SliceOf m v slice) (hp : slice.data = .array p) : p < m.arrays.length := by
  cases h with
  | empty | view => cases hp
  | copy hv hv' hget =>
    cases hp
    exact (List.getElem?_eq_some_iff.1 hget).1

/-- An owned array has bytes, and the handle is no Buffer. -/
theorem SliceOf.of_owned (h : SliceOf m v slice) (hp : slice.owned = some p) :
    slice.data = .array p ∧ v.text ≠ [] ∧ slice.size ≠ 0 ∧ v.isBuffer = false ∧ m.arrays[p]? = some (some v.text) := by
  cases h with
  | empty | view => cases hp
  | copy hv hv' hget =>
    unfold RawSlice.owned at hp
    dsimp only at hp
    split_ifs at hp with hsize
    cases hp
    exact ⟨rfl, fun hnil => hsize (by rw [hnil]; rfl), hsize, hv', hget⟩

theorem SliceOf.owned_of_ne_nil (h : SliceOf m v slice) (hdata : slice.data = .array p)
    (hp : m.arrays[p]? = some (some text)) (hne : text ≠ []) : slice.owned = some p := by
  cases h with
  | empty | view => cases hdata
  | copy hv hv' hget =>
    cases hdata
    rw [hget] at hp
    cases hp
    exact if_pos fun hlen => hne (List.length_eq_zero_iff.1 hlen)

namespace Memory

theorem Owned.nil (buffers : Nat → Slice) : Owned { buffers } [] where
  sliceOf h hh := by cases hh
  nodup := List.nodup_nil
  live p text hp := by simp at hp

theorem Owned.perm (h : m.Owned held) (hp : held.Perm held') : m.Owned held' := by
  have hperm : (arraysOf held).Perm (arraysOf held') := hp.filterMap _
  exact ⟨fun x hx => h.sliceOf x (hp.mem_iff.2 hx), hperm.nodup_iff.1 h.nodup,
    fun p text hp hne => hperm.mem_iff.1 (h.live p text hp hne)⟩

theorem Owned.fill (h : m.Owned held) : (m.fill b data).Owned held := by
  unfold Memory.fill
  split_ifs with hlen
  · refine ⟨fun x hx => (h.sliceOf x hx).congr (fun _ _ => rfl) fun c => ?_, h.nodup, h.live⟩
    dsimp only
    split_ifs with hc
    · rw [hc, hlen]
    · rfl
  · exact h

/-- What is owned is a matter of the arrays. -/
theorem Owned.changeBatch {change : Option Operation} (h : m.Owned held) : (m.changeBatch p change).Owned held :=
  ⟨fun x hx => (h.sliceOf x hx).congr (fun _ _ => rfl) fun _ => rfl, h.nodup, h.live⟩

theorem Owned.lt (h : m.Owned held) (hp : p ∈ arraysOf held) : p < m.arrays.length := by
  obtain ⟨x, hx, howned⟩ := List.mem_filterMap.1 hp
  exact (h.sliceOf x hx).lt ((h.sliceOf x hx).of_owned howned).1

theorem arraysOf_cons : arraysOf ((v, slice) :: held) = slice.owned.toList ++ arraysOf held := by
  unfold arraysOf
  rw [List.filterMap_cons]
  dsimp only
  cases slice.owned <;> rfl

/-- A copy is made in a new array, which belongs to its slice. -/
theorem Owned.copy (h : m.Owned held) (hv : v.isNullish = false) (hv' : v.isBuffer = false) :
    (m.newArray v.text).2.Owned ((v, ⟨(m.newArray v.text).1, v.text.length⟩) :: held) := by
  have hnew : (m.newArray v.text).2.arrays[m.arrays.length]? = some (some v.text) := List.getElem?_concat_length
  have hfresh : m.arrays.length ∉ arraysOf held := fun hmem => absurd (h.lt hmem) (Nat.lt_irrefl _)
  have howned : RawSlice.owned ⟨(m.newArray v.text).1, v.text.length⟩ =
      if v.text.length ≠ 0 then some m.arrays.length else none := rfl
  refine ⟨fun x hx => ?_, ?_, fun p text hp hne => ?_⟩
  · rcases List.mem_cons.1 hx with rfl | hx
    · exact .copy hv hv' hnew
    · have hold := h.sliceOf x hx
      exact hold.congr (fun p hp => List.getElem?_append_left (hold.lt hp)) fun _ => rfl
  · rw [arraysOf_cons, howned]
    split_ifs
    · exact List.nodup_cons.2 ⟨hfresh, h.nodup⟩
    · exact h.nodup
  · rw [arraysOf_cons, howned, List.mem_append]
    have hp' : (m.arrays ++ [some v.text])[p]? = some (some text) := hp
    rcases Nat.lt_or_ge p m.arrays.length with hlt | hge
    · rw [List.getElem?_append_left hlt] at hp'
      exact .inr (h.live p text hp' hne)
    · have hlast : p = m.arrays.length ∧ v.text = text := by
        obtain ⟨hlt, hget⟩ := List.getElem?_eq_some_iff.1 hp'
        rw [List.length_append, List.length_singleton] at hlt
        obtain rfl : p = m.arrays.length := by omega
        rw [List.getElem?_concat_length] at hp'
        exact ⟨rfl, Option.some.inj (Option.some.inj hp')⟩
      obtain ⟨rfl, rfl⟩ := hlast
      rw [if_pos fun hlen => hne (List.length_eq_zero_iff.1 hlen)]
      exact .inl (List.mem_singleton_self _)

theorem Owned.cons (h : m.Owned held) (hs : SliceOf m v slice) (ho : slice.owned = none) :
    m.Owned ((v, slice) :: held) := by
  have harrays : arraysOf ((v, slice) :: held) = arraysOf held := by
    rw [arraysOf_cons, ho]
    rfl
  refine ⟨fun x hx => ?_, ?_, fun p text hp hne => ?_⟩
  · rcases List.mem_cons.1 hx with rfl | hx
    · exact hs
    · exact h.sliceOf x hx
  · rw [harrays]
    exact h.nodup
  · rw [harrays]
    exact h.live p text hp hne

/-- The slice of a value is one to be disposed of. -/
theorem Owned.stringOrBufferToSlice (h : m.Owned held) (v : Value) :
    (stringOrBufferToSlice m v).2.Owned ((v, (stringOrBufferToSlice m v).1) :: held) := by
  cases v with
  | null => exact h.cons (.empty rfl) rfl
  | undefined => exact h.cons (.empty rfl) rfl
  | buffer b => exact h.cons (.view b) rfl
  | primitive | string | array | object | function => exact h.copy rfl rfl

theorem stringOrBufferToSlice_shares (m : Memory) (v : Value) : m.Shares (stringOrBufferToSlice m v).2 := by
  cases v <;> exact ⟨rfl, rfl⟩

/-- Disposing of a slice is defined, and leaves the other slices alone. -/
theorem Owned.dispose (h : m.Owned ((v, slice) :: held)) : ∃ m', disposeStringOrBufferFromSlice m v slice = some m' ∧
    m'.Owned held ∧ m.Shares m' := by
  have hs : SliceOf m v slice := h.sliceOf _ List.mem_cons_self
  have hrest : ∀ x ∈ held, SliceOf m x.1 x.2 := fun x hx => h.sliceOf x (List.mem_cons_of_mem _ hx)
  have hnodup := h.nodup
  have hlive := h.live
  rw [arraysOf_cons] at hnodup hlive
  unfold disposeStringOrBufferFromSlice
  cases ho : slice.owned with
  | none =>
    rw [ho] at hnodup hlive
    have hnot : ¬ (slice.size ≠ 0 ∧ v.isBuffer = false) := by
      rintro ⟨hsize, hv⟩
      cases hs with
      | empty => exact hsize rfl
      | view => cases hv
      | copy => simp [RawSlice.owned, hsize] at ho
    exact ⟨m, if_neg hnot, ⟨hrest, hnodup, hlive⟩, rfl, rfl⟩
  | some p =>
    obtain ⟨hdata, htext, hsize, hv, hget⟩ := hs.of_owned ho
    rw [ho] at hnodup hlive
    obtain ⟨hp, hnodup⟩ := List.nodup_cons.1 hnodup
    have hdelete : m.deleteArray (.array p) = some { m with arrays := m.arrays.set p none } := by
      unfold deleteArray
      dsimp only
      rw [hget]
      rfl
    rw [if_pos ⟨hsize, hv⟩, hdata, hdelete]
    refine ⟨_, rfl, ⟨fun x hx => ?_, hnodup, fun q text' hq hne => ?_⟩, rfl, rfl⟩
    · -- the array is not empty, so a slice of it owns it
      refine (hrest x hx).congr (fun q hq => List.getElem?_set_ne ?_) fun _ => rfl
      rintro rfl
      refine hp (List.mem_filterMap.2 ⟨x, hx, ?_⟩)
      exact (hrest x hx).owned_of_ne_nil hq hget htext
    · have hqp : q ≠ p := by
        rintro rfl
        rw [List.getElem?_set_self (hs.lt hdata)] at hq
        cases hq
      rw [List.getElem?_set_ne hqp.symm] at hq
      rcases List.mem_append.1 (hlive q text' hq hne) with hmem | hmem
      · exact absurd (List.mem_singleton.1 hmem) hqp
      · exact hmem

theorem Owned.disposeAll {new : List (Value × RawSlice)} (h : m.Owned (new ++ held)) :
    ∃ m', disposeAll m new = some m' ∧ m'.Owned held ∧ m.Shares m' := by
  induction new generalizing m with
  | nil => exact ⟨m, rfl, h, rfl, rfl⟩
  | cons x new ih =>
    obtain ⟨v, slice⟩ := x
    obtain ⟨m', hdispose, howned, hshares⟩ := h.dispose
    obtain ⟨m'', hall, howned', hshares'⟩ := ih howned
    refine ⟨m'', ?_, howned', hshares.trans hshares'⟩
    unfold Kududown.disposeAll
    rw [hdispose]
    exact hall

/-- An array that is made and deleted again. -/
theorem Owned.deleted (h : m.Owned held) : Owned { m with arrays := m.arrays ++ [none] } held := by
  refine ⟨fun x hx => ?_, h.nodup, fun p text hp hne => ?_⟩
  · have hs := h.sliceOf x hx
    exact hs.congr (fun p hp => List.getElem?_append_left (hs.lt hp)) fun _ => rfl
  · have hp' : (m.arrays ++ [none])[p]? = some (some text) := hp
    rw [List.getElem?_append] at hp'
    split_ifs at hp' with hlt
    · exact h.live p text hp' hne
    · simp [List.getElem?_singleton] at hp'

/-- The arrays with bytes in them are those that are owned. -/
theorem Owned.mem_live (h : m.Owned held) :
    (∃ text, text ≠ [] ∧ m.arrays[p]? = some (some text)) ↔ p ∈ arraysOf held := by
  constructor
  · rintro ⟨text, hne, hp⟩
    exact h.live p text hp hne
  · intro hp
    obtain ⟨x, hx, howned⟩ := List.mem_filterMap.1 hp
    obtain ⟨-, htext, -, -, hget⟩ := (h.sliceOf x hx).of_owned howned
    exact ⟨_, htext, hget⟩

end Memory

end Kududown
