import Mathlib

/-!
# Ordered maps

`OrdMap κ α` is a finite map given by its entries in ascending key order, the order in which a
`std::map` is iterated. The order is a field, so a map is determined by its entries as a set
(`OrdMap.ext_mem`) and by its lookups (`OrdMap.ext_get?`).
-/

/-- A finite map from `κ` to `α`: its entries, in strictly ascending key order. -/
structure OrdMap (κ α : Type) [LinearOrder κ] where
  entries : List (κ × α)
  sorted : entries.Pairwise (·.1 < ·.1)
deriving DecidableEq

namespace OrdMap
variable {κ α : Type} [LinearOrder κ]

/-- Insert `(k, a)` into an ascending list of entries, replacing an entry at `k`. -/
def insertEntry (k : κ) (a : α) : List (κ × α) → List (κ × α)
  | [] => [(k, a)]
  | e :: l =>
    if k < e.1 then (k, a) :: e :: l
    else if k = e.1 then (k, a) :: l
    else e :: insertEntry k a l

theorem mem_insertEntry {k : κ} {a : α} {l : List (κ × α)} (hl : l.Pairwise (·.1 < ·.1)) {e : κ × α} :
    e ∈ insertEntry k a l ↔ e = (k, a) ∨ (e ∈ l ∧ e.1 ≠ k) := by
  induction l with
  | nil => simp [insertEntry]
  | cons f l ih =>
    obtain ⟨hf, hl⟩ := List.pairwise_cons.1 hl
    rw [insertEntry]
    split_ifs with h1 h2
    · rw [List.mem_cons]
      refine or_congr_right ⟨fun he => ⟨he, ?_⟩, And.left⟩
      rcases List.mem_cons.1 he with rfl | he
      · exact ne_of_gt h1
      · exact ne_of_gt (lt_trans h1 (hf e he))
    · subst h2
      rw [List.mem_cons]
      refine or_congr_right ⟨fun he => ⟨List.mem_cons_of_mem _ he, ne_of_gt (hf e he)⟩, ?_⟩
      rintro ⟨he, hne⟩
      rcases List.mem_cons.1 he with rfl | he
      · exact absurd rfl hne
      · exact he
    · rw [List.mem_cons, ih hl, List.mem_cons]
      constructor
      · rintro (rfl | rfl | ⟨he, hne⟩)
        · exact .inr ⟨.inl rfl, fun h => h2 h.symm⟩
        · exact .inl rfl
        · exact .inr ⟨.inr he, hne⟩
      · rintro (rfl | ⟨rfl | he, hne⟩)
        · exact .inr (.inl rfl)
        · exact .inl rfl
        · exact .inr (.inr ⟨he, hne⟩)

theorem insertEntry_sorted (k : κ) (a : α) {l : List (κ × α)} (hl : l.Pairwise (·.1 < ·.1)) :
    (insertEntry k a l).Pairwise (·.1 < ·.1) := by
  induction l with
  | nil => simp [insertEntry]
  | cons f l ih =>
    obtain ⟨hf, hl'⟩ := List.pairwise_cons.1 hl
    rw [insertEntry]
    split_ifs with h1 h2
    · refine List.pairwise_cons.2 ⟨fun e he => ?_, hl⟩
      rcases List.mem_cons.1 he with rfl | he
      · exact h1
      · exact lt_trans h1 (hf e he)
    · subst h2; exact List.pairwise_cons.2 ⟨hf, hl'⟩
    · refine List.pairwise_cons.2 ⟨fun e he => ?_, ih hl'⟩
      rcases (mem_insertEntry hl').1 he with rfl | ⟨he, -⟩
      · exact lt_of_le_of_ne (not_lt.1 h1) (Ne.symm h2)
      · exact hf e he

def empty : OrdMap κ α := ⟨[], List.Pairwise.nil⟩

def insert (m : OrdMap κ α) (k : κ) (a : α) : OrdMap κ α :=
  ⟨insertEntry k a m.entries, insertEntry_sorted k a m.sorted⟩

/-- `m.erase(k)`: remove the entry at `k`, if there is one. -/
def erase (m : OrdMap κ α) (k : κ) : OrdMap κ α :=
  ⟨m.entries.filter (·.1 ≠ k), m.sorted.filter _⟩

def get? (m : OrdMap κ α) (k : κ) : Option α :=
  (m.entries.find? (·.1 = k)).map Prod.snd

variable {m m' : OrdMap κ α} {k k' : κ} {a b : α}

/-! ### Entries -/

@[simp] theorem entries_empty : (empty : OrdMap κ α).entries = [] := rfl

@[simp] theorem mem_insert {e : κ × α} :
    e ∈ (m.insert k a).entries ↔ e = (k, a) ∨ (e ∈ m.entries ∧ e.1 ≠ k) :=
  mem_insertEntry m.sorted

@[simp] theorem mem_erase {e : κ × α} : e ∈ (m.erase k).entries ↔ e ∈ m.entries ∧ e.1 ≠ k := by
  simp [erase]

theorem insert_ne_nil : (m.insert k a).entries ≠ [] :=
  List.ne_nil_of_mem (mem_insert.2 (.inl rfl))

theorem mem_unique (ha : (k, a) ∈ m.entries) (hb : (k, b) ∈ m.entries) : a = b := by
  have hne : m.entries.Pairwise (fun e f => e.1 ≠ f.1) := m.sorted.imp fun h => ne_of_lt h
  have : Std.Symm (fun e f : κ × α => e.1 ≠ f.1) := ⟨fun _ _ h => h.symm⟩
  by_contra hab
  exact hne.forall ha hb (fun h => hab (congrArg Prod.snd h)) rfl

theorem ext_mem (h : ∀ e, e ∈ m.entries ↔ e ∈ m'.entries) : m = m' := by
  obtain ⟨l, hl⟩ := m
  obtain ⟨l', hl'⟩ := m'
  have nd : ∀ {l : List (κ × α)}, l.Pairwise (·.1 < ·.1) → l.Nodup := fun hl =>
    hl.imp fun h hef => ne_of_lt h (congrArg Prod.fst hef)
  have hp : l.Perm l' := (List.perm_ext_iff_of_nodup (nd hl) (nd hl')).2 h
  congr 1
  exact hp.eq_of_pairwise (fun _ _ _ _ h1 h2 => absurd h1 (lt_asymm h2)) hl hl'

/-- A list of the entries, in ascending key order, is the list of entries. -/
theorem eq_entries_of_perm {l : List (κ × α)} (hp : l.Perm m.entries) :
    l = m.entries ↔ l.Pairwise (·.1 < ·.1) :=
  ⟨fun h => h ▸ m.sorted, fun h =>
    hp.eq_of_pairwise (fun _ _ _ _ h1 h2 => absurd h1 (lt_asymm h2)) h m.sorted⟩

/-! ### Lookups -/

theorem get?_eq_some : m.get? k = some a ↔ (k, a) ∈ m.entries := by
  rw [get?, Option.map_eq_some_iff]
  constructor
  · rintro ⟨e, he, rfl⟩
    have hk := List.find?_some he
    rw [decide_eq_true_eq] at hk
    exact hk ▸ List.mem_of_find?_eq_some he
  · intro h
    cases hf : m.entries.find? (·.1 = k) with
    | none => exact absurd (decide_eq_true rfl) (List.find?_eq_none.1 hf _ h)
    | some e =>
      have hk := List.find?_some hf
      rw [decide_eq_true_eq] at hk
      have he : (k, e.2) ∈ m.entries := hk ▸ List.mem_of_find?_eq_some hf
      exact ⟨e, rfl, mem_unique he h⟩

theorem get?_eq_none : m.get? k = none ↔ ∀ a, (k, a) ∉ m.entries := by
  rw [Option.eq_none_iff_forall_ne_some]
  exact forall_congr' fun a => not_congr get?_eq_some

theorem ext_get? (h : ∀ k, m.get? k = m'.get? k) : m = m' :=
  ext_mem fun e => by rw [← get?_eq_some, ← get?_eq_some, h]

@[simp] theorem get?_empty : (empty : OrdMap κ α).get? k = none := rfl

@[simp] theorem get?_insert_self : (m.insert k a).get? k = some a :=
  get?_eq_some.2 (mem_insert.2 (.inl rfl))

theorem get?_insert_of_ne (h : k' ≠ k) : (m.insert k a).get? k' = m.get? k' := by
  refine Option.ext fun b => ?_
  rw [get?_eq_some, get?_eq_some, mem_insert]
  simp [h]

theorem get?_insert : (m.insert k a).get? k' = if k' = k then some a else m.get? k' := by
  split_ifs with h
  · rw [h, get?_insert_self]
  · exact get?_insert_of_ne h

@[simp] theorem get?_erase_self : (m.erase k).get? k = none :=
  get?_eq_none.2 fun _ h => (mem_erase.1 h).2 rfl

theorem get?_erase_of_ne (h : k' ≠ k) : (m.erase k).get? k' = m.get? k' := by
  refine Option.ext fun b => ?_
  rw [get?_eq_some, get?_eq_some, mem_erase]
  simp [h]

/-- At most one entry has the key `k`: the one that is looked up. -/
theorem filter_key {p : κ × α → Bool} (hp : ∀ e, p e = true ↔ e.1 = k) :
    m.entries.filter p = (m.get? k).toList.map fun a => (k, a) := by
  obtain ⟨l, hl⟩ := m
  unfold get?
  dsimp only
  induction l with
  | nil => rfl
  | cons e l ih =>
    obtain ⟨he, hl⟩ := List.pairwise_cons.1 hl
    by_cases hk : e.1 = k
    · have hnil : l.filter p = [] := by
        refine List.filter_eq_nil_iff.2 fun f hf hpf => ne_of_gt (he f hf) ?_
        rw [(hp f).1 hpf, hk]
      rw [List.filter_cons_of_pos ((hp e).2 hk), hnil, List.find?_cons_of_pos (by simpa using hk), ← hk]
      rfl
    · rw [List.filter_cons_of_neg (mt (hp e).1 hk), List.find?_cons_of_neg (by simpa using hk)]
      exact ih hl

end OrdMap
