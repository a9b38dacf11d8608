import Mathlib.Data.List.Basic

/-!
# Readers and records

A `Reader` takes a value off a source, or fails. A source is not looked into: `carries d items` says what is still to be
read in `d`, and `Reads carries r items a` that `r` reads `a` where `items` come first, and no further. The fields of a
record have numbers, and may be read in any order (`Reads.fields`); if every field is read, the record is the one that
was written, whatever was in it before (`Fields.copyAll_eq`).
-/

variable {δ ι ε α β ρ : Type}

abbrev Reader (δ ε α : Type) := δ → Except ε (α × δ)

namespace Reader

protected def pure (a : α) : Reader δ ε α := fun d => .ok (a, d)

protected def bind (r : Reader δ ε α) (f : α → Reader δ ε β) : Reader δ ε β :=
  fun d => (r d).bind fun x => f x.1 x.2

protected def map (f : α → β) (r : Reader δ ε α) : Reader δ ε β := r.bind fun a => .pure (f a)

def fail (e : ε) : Reader δ ε α := fun _ => .error e

theorem bind_of_ok {r : Reader δ ε α} {f : α → Reader δ ε β} {d d' : δ} {a : α} (h : r d = .ok (a, d')) :
    r.bind f d = f a d' := by
  unfold Reader.bind
  rw [h]
  rfl

theorem bind_of_error {r : Reader δ ε α} {f : α → Reader δ ε β} {d : δ} {e : ε} (h : r d = .error e) :
    r.bind f d = .error e := by
  unfold Reader.bind
  rw [h]
  rfl

theorem map_of_error {r : Reader δ ε α} {f : α → β} {d : δ} {e : ε} (h : r d = .error e) : r.map f d = .error e :=
  bind_of_error h

/-! ### What is read -/

/-- Where a source carries `items` and then more, `r` reads `a` and leaves what is more. -/
def Reads (carries : δ → List ι → Prop) (r : Reader δ ε α) (items : List ι) (a : α) : Prop :=
  ∀ d rest, carries d (items ++ rest) → ∃ d', r d = .ok (a, d') ∧ carries d' rest

variable {carries : δ → List ι → Prop} {r : Reader δ ε α} {f : α → Reader δ ε β} {items items' : List ι} {a : α} {b : β}

theorem Reads.pure : Reads carries (.pure a : Reader δ ε α) [] a := fun d _ h => ⟨d, rfl, h⟩

theorem Reads.bind (h : Reads carries r items a) (h' : Reads carries (f a) items' b) :
    Reads carries (r.bind f) (items ++ items') b := by
  intro d rest hd
  rw [List.append_assoc] at hd
  obtain ⟨d', hr, hd'⟩ := h d _ hd
  obtain ⟨d'', hf, hd''⟩ := h' d' rest hd'
  exact ⟨d'', (bind_of_ok hr).trans hf, hd''⟩

theorem Reads.map (h : Reads carries r items a) (f : α → β) : Reads carries (r.map f) items (f a) := by
  have hmap : Reads carries (r.bind fun a => .pure (f a)) (items ++ []) (f a) := h.bind .pure
  rw [List.append_nil] at hmap
  exact hmap

/-- All that `r` reads is in `P`, wherever it reads. -/
def Yields (r : Reader δ ε α) (P : α → Prop) : Prop := ∀ d a d', r d = .ok (a, d') → P a

variable {P : α → Prop} {Q : β → Prop}

theorem Yields.pure (h : P a) : Yields (.pure a : Reader δ ε α) P := by
  intro d a' d' hr
  cases hr
  exact h

theorem Yields.fail (e : ε) : Yields (fail e : Reader δ ε α) P := by
  intro d a d' hr
  cases hr

theorem Yields.bind (h : Yields r P) (h' : ∀ a, P a → Yields (f a) Q) : Yields (r.bind f) Q := by
  intro d b d' hb
  rcases hr : r d with e | ⟨a, d''⟩
  · rw [bind_of_error hr] at hb
    cases hb
  · rw [bind_of_ok hr] at hb
    exact h' a (h _ _ _ hr) _ _ _ hb

theorem Yields.map {f : α → β} (h : Yields r P) (hf : ∀ a, P a → Q (f a)) : Yields (r.map f) Q :=
  h.bind fun a ha => .pure (hf a ha)

theorem Yields.all : Yields r fun _ => True := fun _ _ _ _ => trivial

/-! ### Records -/

def readFields (readField : Nat → ρ → Reader δ ε ρ) : List Nat → ρ → Reader δ ε ρ
  | [], v => .pure v
  | i :: order, v => (readField i v).bind (readFields readField order)

/-- The numbered fields of a record: `copy i v w` is `w` with the field `i` of `v`. -/
structure Fields (ρ : Type) where
  size : Nat
  copy : Nat → ρ → ρ → ρ
  copy_copy : ∀ i v w, copy i v (copy i v w) = copy i v w
  copy_comm : ∀ i j v w, copy i v (copy j v w) = copy j v (copy i v w)
  all : ∀ v w, (List.range size).foldl (fun w i => copy i v w) w = v

namespace Fields
variable {F : Fields ρ} {v w : ρ} {order : List Nat} {i : Nat}

def copyAll (F : Fields ρ) (order : List Nat) (v w : ρ) : ρ := order.foldl (fun w i => F.copy i v w) w

theorem copy_copyAll (F : Fields ρ) (i : Nat) (order : List Nat) (v w : ρ) :
    F.copy i v (F.copyAll order v w) = F.copyAll order v (F.copy i v w) := by
  induction order generalizing w with
  | nil => rfl
  | cons j order ih =>
    show F.copy i v (F.copyAll order v (F.copy j v w)) = F.copyAll order v (F.copy j v (F.copy i v w))
    rw [ih, F.copy_comm]

theorem copy_of_mem (h : i ∈ order) : F.copy i v (F.copyAll order v w) = F.copyAll order v w := by
  induction order generalizing w with
  | nil => cases h
  | cons j order ih =>
    rcases List.mem_cons.1 h with rfl | h
    · show F.copy i v (F.copyAll order v (F.copy i v w)) = F.copyAll order v (F.copy i v w)
      rw [copy_copyAll, F.copy_copy]
    · exact ih h

theorem copyAll_of_copy (h : ∀ i ∈ order, F.copy i v w = w) : F.copyAll order v w = w := by
  induction order with
  | nil => rfl
  | cons i order ih =>
    show F.copyAll order v (F.copy i v w) = w
    rw [h i List.mem_cons_self]
    exact ih fun j hj => h j (List.mem_cons_of_mem _ hj)

/-- Nothing of `w` is left. -/
theorem copyAll_eq (h : ∀ i < F.size, i ∈ order) : F.copyAll order v w = v := by
  have hkept := @copyAll_of_copy _ F v (F.copyAll order v w) (List.range F.size)
    fun i hi => copy_of_mem (h i (List.mem_range.1 hi))
  exact hkept.symm.trans (F.all v _)

end Fields

variable {readField : Nat → ρ → Reader δ ε ρ} {F : Fields ρ} {v w : ρ} {order : List Nat}

theorem Reads.fields {items : Nat → List ι}
    (h : ∀ i ∈ order, ∀ w, Reads carries (readField i w) (items i) (F.copy i v w)) (w : ρ) :
    Reads carries (readFields readField order w) (order.flatMap items) (F.copyAll order v w) := by
  induction order generalizing w with
  | nil => exact .pure
  | cons i order ih =>
    rw [List.flatMap_cons]
    exact (h i List.mem_cons_self w).bind (ih (fun j hj => h j (List.mem_cons_of_mem _ hj)) _)

theorem Yields.fields {P : ρ → Prop} (h : ∀ i w, P w → Yields (readField i w) P) (hw : P w) (order : List Nat) :
    Yields (readFields readField order w) P := by
  induction order generalizing w with
  | nil => exact .pure hw
  | cons i order ih => exact (h i w hw).bind fun _ hv => ih hv

/-! ### What is written -/

/-- Write one after the other. -/
def writeAll : List (Except ε (List ι)) → Except ε (List ι)
  | [] => .ok []
  | x :: xs => x.bind fun items => (writeAll xs).map (items ++ ·)

theorem writeAll_cons_ok {x : Except ε (List ι)} {xs : List (Except ε (List ι))} :
    writeAll (x :: xs) = .ok items ↔ ∃ is js, x = .ok is ∧ writeAll xs = .ok js ∧ items = is ++ js := by
  show x.bind (fun items => (writeAll xs).map (items ++ ·)) = .ok items ↔ _
  rcases x with e | is
  · simp [Except.bind]
  · rcases writeAll xs with e | js
    · simp [Except.bind, Except.map]
    · simp [Except.bind, Except.map, eq_comm]

/-- What the field `i` is written as. -/
def itemsOf (xs : List (Except ε (List ι))) (i : Nat) : List ι :=
  match xs[i]? with
  | some (.ok items) => items
  | _ => []

/-- Fields that are written in some order. -/
theorem writeAll_order {xs : List (Except ε (List ι))} (h : writeAll (order.filterMap (xs[·]?)) = .ok items) :
    items = order.flatMap (itemsOf xs) ∧ ∀ i ∈ order, ∀ x, xs[i]? = some x → x = .ok (itemsOf xs i) := by
  induction order generalizing items with
  | nil =>
    cases h
    exact ⟨rfl, fun i hi => (by cases hi)⟩
  | cons j order ih =>
    rcases hj : xs[j]? with _ | x
    · rw [List.filterMap_cons_none hj] at h
      obtain ⟨hitems, hall⟩ := ih h
      refine ⟨?_, fun i hi x hx => ?_⟩
      · rw [List.flatMap_cons, hitems]
        simp [itemsOf, hj]
      · rcases List.mem_cons.1 hi with rfl | hi
        · rw [hj] at hx
          cases hx
        · exact hall i hi x hx
    · rw [List.filterMap_cons_some hj] at h
      obtain ⟨is, js, rfl, hrest, rfl⟩ := writeAll_cons_ok.1 h
      obtain ⟨hitems, hall⟩ := ih hrest
      have his : itemsOf xs j = is := by simp [itemsOf, hj]
      refine ⟨by rw [List.flatMap_cons, his, hitems], fun i hi x hx => ?_⟩
      rcases List.mem_cons.1 hi with rfl | hi
      · rw [hj] at hx
        cases hx
        rw [his]
      · exact hall i hi x hx

/-- Elements that are written one after the other. -/
theorem writeAll_map {f : α → Except ε (List ι)} {as : List α} (h : writeAll (as.map f) = .ok items) :
    items = as.flatMap (fun a => (f a).toOption.getD []) ∧ ∀ a ∈ as, f a = .ok ((f a).toOption.getD []) := by
  induction as generalizing items with
  | nil =>
    cases h
    exact ⟨rfl, fun a ha => (by cases ha)⟩
  | cons a as ih =>
    obtain ⟨is, js, hfa, hrest, rfl⟩ := writeAll_cons_ok.1 h
    obtain ⟨hitems, hall⟩ := ih hrest
    refine ⟨?_, fun b hb => ?_⟩
    · rw [List.flatMap_cons, hfa, hitems]
      rfl
    · rcases List.mem_cons.1 hb with rfl | hb
      · rw [hfa]
        rfl
      · exact hall b hb

/-- It can be written. -/
def Writes (x : Except ε (List ι)) : Prop := ∃ items, x = .ok items

theorem writes_ok : Writes (.ok items : Except ε (List ι)) := ⟨_, rfl⟩

theorem writes_map {x : Except ε (List ι)} {f : List ι → List ι} : Writes (x.map f) ↔ Writes x := by
  rcases x with e | is
  · exact Iff.intro nofun nofun
  · exact Iff.intro (fun _ => writes_ok) (fun _ => writes_ok)

theorem writes_writeAll {xs : List (Except ε (List ι))} : Writes (writeAll xs) ↔ ∀ x ∈ xs, Writes x := by
  induction xs with
  | nil => exact ⟨fun _ x hx => (by cases hx), fun _ => writes_ok⟩
  | cons x xs ih =>
    rw [List.forall_mem_cons, ← ih]
    constructor
    · rintro ⟨items, h⟩
      obtain ⟨is, js, hx, hxs, -⟩ := writeAll_cons_ok.1 h
      exact ⟨⟨is, hx⟩, js, hxs⟩
    · rintro ⟨⟨is, hx⟩, js, hxs⟩
      exact ⟨is ++ js, writeAll_cons_ok.2 ⟨is, js, hx, hxs, rfl⟩⟩

theorem filterMap_range {γ : Type} (xs : List γ) : (List.range xs.length).filterMap (xs[·]?) = xs := by
  induction xs with
  | nil => rfl
  | cons x xs ih =>
    rw [List.length_cons, List.range_succ_eq_map]
    show x :: (List.map Nat.succ (List.range xs.length)).filterMap _ = x :: xs
    rw [List.filterMap_map]
    exact congrArg (x :: ·) ih

end Reader
