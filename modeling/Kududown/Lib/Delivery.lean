import Mathlib

/-!
# Delivery in watermarked chunks

A reader hands out the items of a sequence of batches in chunks. It takes items until their weight
reaches the watermark or the batch ends, so a chunk never crosses a batch border; an empty batch gives
no chunk. Fetching a batch or reading an item may fail, which ends the delivery with that error. A
limit on the number of fetched items may end it early. `Delivery` is what is handed out; `fill`,
`batchDelivery` and `scanDelivery` compute it for a chunk, a batch and a sequence of batches.
-/

/-- The chunks handed out, and the error the delivery ends in, if it ends in one. -/
structure Delivery (ε α : Type) where
  chunks : List (List α)
  error : Option ε

namespace Delivery
variable {ε α : Type} {d d' : Delivery ε α} {e : ε} {c : List α}

def done : Delivery ε α := ⟨[], none⟩

def fail (e : ε) : Delivery ε α := ⟨[], some e⟩

def cons (c : List α) (d : Delivery ε α) : Delivery ε α := ⟨c :: d.chunks, d.error⟩

/-- `d`, then `d'` unless `d` ended in an error. -/
def append (d d' : Delivery ε α) : Delivery ε α :=
  match d.error with
  | some e => ⟨d.chunks, some e⟩
  | none => ⟨d.chunks ++ d'.chunks, d'.error⟩

def items (d : Delivery ε α) : List α := d.chunks.flatten

@[simp] theorem chunks_done : (done : Delivery ε α).chunks = [] := rfl
@[simp] theorem error_done : (done : Delivery ε α).error = none := rfl
@[simp] theorem items_done : (done : Delivery ε α).items = [] := rfl
@[simp] theorem chunks_fail : (fail e : Delivery ε α).chunks = [] := rfl
@[simp] theorem error_fail : (fail e : Delivery ε α).error = some e := rfl
@[simp] theorem items_fail : (fail e : Delivery ε α).items = [] := rfl
@[simp] theorem chunks_cons : (cons c d).chunks = c :: d.chunks := rfl
@[simp] theorem error_cons : (cons c d).error = d.error := rfl
@[simp] theorem items_cons : (cons c d).items = c ++ d.items := rfl

@[simp] theorem done_append : done.append d = d := rfl
@[simp] theorem fail_append : (fail e).append d = fail e := rfl

@[simp] theorem cons_append : (cons c d).append d' = cons c (d.append d') := by
  obtain ⟨cs, _ | e⟩ := d <;> rfl

theorem append_of_error (h : d.error = some e) : d.append d' = d := by
  obtain ⟨cs, x⟩ := d; cases h; rfl

theorem items_append (h : d.error = none) : (d.append d').items = d.items ++ d'.items := by
  obtain ⟨cs, x⟩ := d; cases h; exact List.flatten_append

theorem error_append (h : d.error = none) : (d.append d').error = d'.error := by
  obtain ⟨cs, x⟩ := d; cases h; rfl

theorem chunks_append (h : d.error = none) : (d.append d').chunks = d.chunks ++ d'.chunks := by
  obtain ⟨cs, x⟩ := d; cases h; rfl

theorem mem_chunks_append {c : List α} (h : c ∈ (d.append d').chunks) : c ∈ d.chunks ∨ c ∈ d'.chunks := by
  obtain ⟨cs, _ | e⟩ := d
  · exact List.mem_append.1 h
  · exact .inl h

end Delivery

section
variable {ε α : Type} (w : α → Nat) (mark : Nat)

def weight (c : List α) : Nat := (c.map w).sum

@[simp] theorem weight_nil : weight w [] = 0 := rfl
@[simp] theorem weight_cons (a : α) (c : List α) : weight w (a :: c) = w a + weight w c := rfl

/-- Take items while the weight taken, starting at `size`, is below the watermark: the items and
what is left, or the first error met. -/
def fill (size : Nat) : List (Except ε α) → Except ε (List α × List (Except ε α))
  | [] => .ok ([], [])
  | .error e :: l => if size < mark then .error e else .ok ([], .error e :: l)
  | .ok a :: l =>
    if size < mark then (fill (size + w a) l).map fun p => (a :: p.1, p.2) else .ok ([], .ok a :: l)

variable {w mark} {size : Nat} {l r : List (Except ε α)} {c : List α} {e : ε} {a : α}

theorem fill_cons_ok (h : size < mark) :
    fill w mark size (.ok a :: l) = (fill w mark (size + w a) l).map fun p => (a :: p.1, p.2) := by
  rw [fill, if_pos h]

theorem fill_cons_error (h : size < mark) : fill w mark size (.error e :: l) = .error e := by
  rw [fill, if_pos h]

theorem fill_of_le (h : mark ≤ size) : fill w mark size l = .ok ([], l) := by
  match l with
  | [] => rfl
  | .error e :: l => rw [fill, if_neg (Nat.not_lt.2 h)]
  | .ok a :: l => rw [fill, if_neg (Nat.not_lt.2 h)]

theorem map_eq_ok {β γ : Type} {f : β → γ} {x : Except ε β} {y : γ} (h : x.map f = .ok y) :
    ∃ b, x = .ok b ∧ f b = y := by
  cases x with
  | error e => cases h
  | ok b => exact ⟨b, rfl, Except.ok.inj h⟩

theorem map_eq_error {β γ : Type} {f : β → γ} {x : Except ε β} (h : x.map f = .error e) :
    x = .error e := by
  cases x with
  | error e' => exact congrArg _ (Except.error.inj h)
  | ok b => cases h

/-- A filled chunk starts the list, and everything before its last item weighs less than the
watermark; it stops short of the end only when the watermark is reached. -/
theorem fill_eq_ok (h : fill w mark size l = .ok (c, r)) :
    l = c.map .ok ++ r ∧ (c ≠ [] → size + weight w c.dropLast < mark) ∧
      (r ≠ [] → mark ≤ size + weight w c) := by
  induction l generalizing size c with
  | nil => cases h; simp
  | cons x l ih =>
    by_cases hs : size < mark
    · cases x with
      | error e => rw [fill_cons_error hs] at h; cases h
      | ok a =>
        rw [fill_cons_ok hs] at h
        obtain ⟨⟨c', r'⟩, h', heq⟩ := map_eq_ok h
        cases heq
        obtain ⟨hl, hw, hr⟩ := ih h'
        refine ⟨by rw [hl]; rfl, fun _ => ?_, fun hne => ?_⟩
        · cases c' with
          | nil => simpa using hs
          | cons b c' =>
            have := hw (List.cons_ne_nil _ _)
            simp only [List.dropLast_cons_cons, weight_cons]; omega
        · have := hr hne
          simp only [weight_cons]; omega
    · rw [fill_of_le (Nat.not_lt.1 hs)] at h
      cases h
      exact ⟨rfl, fun hne => absurd rfl hne, fun _ => by simpa using Nat.not_lt.1 hs⟩

theorem fill_ne_nil (h : fill w mark size l = .ok (c, r)) (hl : l ≠ []) (hs : size < mark) : c ≠ [] := by
  cases l with
  | nil => exact absurd rfl hl
  | cons x l =>
    cases x with
    | error e => rw [fill_cons_error hs] at h; cases h
    | ok a =>
      rw [fill_cons_ok hs] at h
      obtain ⟨p, -, heq⟩ := map_eq_ok h
      cases heq
      exact List.cons_ne_nil _ _

theorem fill_eq_error (h : fill w mark size l = .error e) :
    ∃ (c : List α) (r : List (Except ε α)), l = c.map .ok ++ .error e :: r ∧ size + weight w c < mark := by
  induction l generalizing size with
  | nil => cases h
  | cons x l ih =>
    by_cases hs : size < mark
    · cases x with
      | error e' =>
        rw [fill_cons_error hs] at h; cases h
        exact ⟨[], l, rfl, hs⟩
      | ok a =>
        rw [fill_cons_ok hs] at h
        obtain ⟨c, r, hl, hw⟩ := ih (map_eq_error h)
        exact ⟨a :: c, r, by rw [hl]; rfl, by rw [weight_cons]; omega⟩
    · rw [fill_of_le (Nat.not_lt.1 hs)] at h; cases h

/-- The items before an error are read up to it when all of them are below the watermark. -/
theorem fill_error (hw : size + weight w c < mark) : fill w mark size (c.map .ok ++ .error e :: r) = .error e := by
  induction c generalizing size with
  | nil => exact fill_cons_error hw
  | cons a c ih =>
    rw [weight_cons] at hw
    rw [List.map_cons, List.cons_append, fill_cons_ok (by omega), ih (by omega)]
    rfl

theorem fill_length_lt (h : fill w mark 0 l = .ok (c, r)) (hl : l ≠ []) (hm : 0 < mark) :
    r.length < l.length := by
  have hc := List.length_pos_of_ne_nil (fill_ne_nil h hl hm)
  rw [(fill_eq_ok h).1]
  simp only [List.length_append, List.length_map]; omega

variable (w mark) in
/-- One batch, filled chunk after chunk. (With `mark = 0` no chunk can be filled.) -/
def batchDelivery (l : List (Except ε α)) : Delivery ε α :=
  if l = [] then .done
  else
    match fill w mark 0 l with
    | .error e => .fail e
    | .ok (c, r) => if _h : r.length < l.length then .cons c (batchDelivery r) else .done
termination_by l.length

@[simp] theorem batchDelivery_nil : batchDelivery w mark ([] : List (Except ε α)) = .done := by
  rw [batchDelivery]; rfl

theorem batchDelivery_of_ok (hl : l ≠ []) (hm : 0 < mark) (h : fill w mark 0 l = .ok (c, r)) :
    batchDelivery w mark l = .cons c (batchDelivery w mark r) := by
  rw [batchDelivery, if_neg hl, h]
  exact dif_pos (fill_length_lt h hl hm)

theorem batchDelivery_of_error (h : fill w mark 0 l = .error e) : batchDelivery w mark l = .fail e := by
  have hl : l ≠ [] := by rintro rfl; cases h
  rw [batchDelivery, if_neg hl, h]

variable (w mark) in
/-- Fetch the batches one after another and deliver each; `n` items have been fetched so far, and
once `full` holds of their number no further chunk is started. -/
def scanDelivery (full : Nat → Bool) (n : Nat) : List (Except ε (List (Except ε α))) → Delivery ε α
  | [] => .done
  | .error e :: _ => .fail e
  | .ok b :: bs =>
    if b = [] then scanDelivery full n bs
    else
      match fill w mark 0 b with
      | .error e => .fail e
      | .ok (c, r) => .cons c <|
        if full (n + b.length) then .done
        else (batchDelivery w mark r).append (scanDelivery full (n + b.length) bs)

variable (w mark) in
/-- What is still to come from a reader that has fetched `n` items, `cur` of them not yet read. -/
def restDelivery (full : Nat → Bool) (n : Nat) (cur : List (Except ε α))
    (bs : List (Except ε (List (Except ε α)))) : Delivery ε α :=
  if full n then .done else (batchDelivery w mark cur).append (scanDelivery w mark full n bs)

/-- All items of the batches, readable or not; a failed fetch stands as a failed item. -/
def scanItems (bs : List (Except ε (List (Except ε α)))) : List (Except ε α) :=
  bs.flatMap fun
    | .ok b => b
    | .error e => [.error e]

variable {full : Nat → Bool} {n : Nat} {b : List (Except ε α)} {bs : List (Except ε (List (Except ε α)))}

theorem scanItems_cons_ok : scanItems (.ok b :: bs) = b ++ scanItems bs := rfl

theorem scanDelivery_cons_nil : scanDelivery w mark full n (.ok [] :: bs) = scanDelivery w mark full n bs := by
  rw [scanDelivery, if_pos rfl]

theorem scanDelivery_of_error (h : fill w mark 0 b = .error e) :
    scanDelivery w mark full n (.ok b :: bs) = .fail e := by
  have hb : b ≠ [] := by rintro rfl; cases h
  rw [scanDelivery, if_neg hb, h]

theorem scanDelivery_of_ok (hb : b ≠ []) (h : fill w mark 0 b = .ok (c, r)) :
    scanDelivery w mark full n (.ok b :: bs) =
      .cons c (restDelivery w mark full (n + b.length) r bs) := by
  rw [scanDelivery, if_neg hb, h]; rfl

theorem scanDelivery_cons (hm : 0 < mark) (hf : full (n + b.length) = false) :
    scanDelivery w mark full n (.ok b :: bs) =
      (batchDelivery w mark b).append (scanDelivery w mark full (n + b.length) bs) := by
  by_cases hb : b = []
  · subst hb; rw [scanDelivery_cons_nil]; simp
  · cases h : fill w mark 0 b with
    | error e => rw [scanDelivery_of_error h, batchDelivery_of_error h, Delivery.fail_append]
    | ok p =>
      rw [scanDelivery_of_ok hb h, batchDelivery_of_ok hb hm h, restDelivery, hf, Delivery.cons_append]
      rfl

/-! ### What is delivered -/

/-- `d` hands out the items `l` when it ends in no error. When it ends in one, that is the first in `l`, and
what it hands out is a prefix of the items before it. -/
structure Delivery.Of (l : List (Except ε α)) (d : Delivery ε α) : Prop where
  all : d.error = none → d.items.map .ok = l
  first : ∀ e, d.error = some e → ∃ c r, l = (d.items ++ c).map .ok ++ .error e :: r

theorem Delivery.Of.isPrefix {l : List (Except ε α)} {d : Delivery ε α} (h : d.Of l) : d.items.map .ok <+: l := by
  cases he : d.error with
  | none => rw [h.all he]
  | some e =>
    obtain ⟨c, r, hl⟩ := h.first e he
    rw [hl, List.map_append, List.append_assoc]
    exact List.prefix_append ..

theorem Delivery.Of.append {l l' : List (Except ε α)} {d d' : Delivery ε α} (h : d.Of l) (h' : d'.Of l') :
    (d.append d').Of (l ++ l') := by
  cases hd : d.error with
  | some e =>
    rw [append_of_error hd]
    refine ⟨fun hn => (by rw [hd] at hn; cases hn), fun e he => ?_⟩
    obtain ⟨c, r, hl⟩ := h.first e he
    exact ⟨c, r ++ l', by rw [hl, List.append_assoc, List.cons_append]⟩
  | none =>
    have hl := h.all hd
    refine ⟨fun hn => ?_, fun e he => ?_⟩
    · rw [error_append hd] at hn
      rw [items_append hd, List.map_append, hl, h'.all hn]
    · rw [error_append hd] at he
      obtain ⟨c, r, hl'⟩ := h'.first e he
      exact ⟨c, r, by rw [items_append hd, List.append_assoc, List.map_append, List.append_assoc, ← hl', hl]⟩

theorem Delivery.of_fail : (Delivery.fail e).Of (c.map .ok ++ .error e :: l) :=
  ⟨fun h => (by cases h), fun _ h => (by cases h; exact ⟨c, l, rfl⟩)⟩

theorem batchDelivery_of (hm : 0 < mark) (l : List (Except ε α)) : (batchDelivery w mark l).Of l := by
  induction l using batchDelivery.induct w mark with
  | case1 => rw [batchDelivery_nil]; exact ⟨fun _ => rfl, fun _ h => (by cases h)⟩
  | case2 l hl e h =>
    obtain ⟨c, r, hs, -⟩ := fill_eq_error h
    rw [batchDelivery_of_error h, hs]
    exact Delivery.of_fail
  | case3 l hl c r h hlt ih =>
    rw [batchDelivery_of_ok hl hm h]
    have hs := (fill_eq_ok h).1
    refine ⟨fun hn => ?_, fun e he => ?_⟩
    · rw [Delivery.items_cons, List.map_append, hs, ih.all hn]
    · obtain ⟨c', r', hr⟩ := ih.first e he
      exact ⟨c', r', by rw [Delivery.items_cons, List.append_assoc, List.map_append, List.append_assoc, ← hr, hs]⟩
  | case4 l hl c r h hlt => exact absurd (fill_length_lt h hl hm) hlt

theorem scanDelivery_of (hm : 0 < mark) (n : Nat) (bs : List (Except ε (List (Except ε α)))) :
    (scanDelivery w mark (fun _ => false) n bs).Of (scanItems bs) := by
  induction bs generalizing n with
  | nil => exact ⟨fun _ => rfl, fun _ h => (by cases h)⟩
  | cons x bs ih =>
    cases x with
    | error e => exact Delivery.of_fail (c := [])
    | ok b =>
      rw [scanDelivery_cons hm rfl, scanItems_cons_ok]
      exact (batchDelivery_of hm b).append (ih _)

/-- A chunk of a batch: some consecutive items of it, of which all but the last are below the watermark. -/
structure ChunkOf (w : α → Nat) (mark : Nat) (b : List (Except ε α)) (c : List α) : Prop where
  ne_nil : c ≠ []
  isInfix : c.map .ok <:+: b
  weight_lt : weight w c.dropLast < mark

theorem ChunkOf.of_fill (hm : 0 < mark) (hb : b ≠ []) (h : fill w mark 0 b = .ok (c, r)) :
    ChunkOf w mark b c :=
  have hc := fill_ne_nil h hb hm
  ⟨hc, ⟨[], r, (fill_eq_ok h).1.symm⟩, by simpa using (fill_eq_ok h).2.1 hc⟩

theorem ChunkOf.of_suffix (hs : r <:+ b) (h : ChunkOf w mark r c) : ChunkOf w mark b c :=
  ⟨h.ne_nil, h.isInfix.trans hs.isInfix, h.weight_lt⟩

theorem chunkOf_batchDelivery (hm : 0 < mark) (l : List (Except ε α)) :
    ∀ c ∈ (batchDelivery w mark l).chunks, ChunkOf w mark l c := by
  induction l using batchDelivery.induct w mark with
  | case1 => rw [batchDelivery_nil]; simp
  | case2 l hl e h => rw [batchDelivery_of_error h]; simp
  | case3 l hl c r h hlt ih =>
    rw [batchDelivery_of_ok hl hm h]
    intro c' hc'
    rcases List.mem_cons.1 hc' with rfl | hc'
    · exact .of_fill hm hl h
    · exact .of_suffix ⟨_, (fill_eq_ok h).1.symm⟩ (ih c' hc')
  | case4 l hl c r h hlt => exact absurd (fill_length_lt h hl hm) hlt

theorem chunkOf_scanDelivery (hm : 0 < mark) (n : Nat) (bs : List (Except ε (List (Except ε α)))) :
    ∀ c ∈ (scanDelivery w mark full n bs).chunks, ∃ b, .ok b ∈ bs ∧ ChunkOf w mark b c := by
  induction bs generalizing n with
  | nil => simp [scanDelivery]
  | cons x bs ih =>
    intro c hc
    have later : ∀ m, c ∈ (scanDelivery w mark full m bs).chunks →
        ∃ b, .ok b ∈ x :: bs ∧ ChunkOf w mark b c := fun m hc =>
      let ⟨b, hb, h⟩ := ih m c hc; ⟨b, List.mem_cons_of_mem _ hb, h⟩
    cases x with
    | error e => simp [scanDelivery] at hc
    | ok b =>
      by_cases hb : b = []
      · subst hb; rw [scanDelivery_cons_nil] at hc; exact later _ hc
      · cases h : fill w mark 0 b with
        | error e => rw [scanDelivery_of_error h] at hc; simp at hc
        | ok p =>
          obtain ⟨c', r⟩ := p
          rw [scanDelivery_of_ok hb h] at hc
          rcases List.mem_cons.1 hc with rfl | hc
          · exact ⟨b, List.mem_cons_self, .of_fill hm hb h⟩
          · rw [restDelivery] at hc
            split at hc
            · simp at hc
            · rcases Delivery.mem_chunks_append hc with hc | hc
              · exact ⟨b, List.mem_cons_self,
                  .of_suffix ⟨_, (fill_eq_ok h).1.symm⟩ (chunkOf_batchDelivery hm r c hc)⟩
              · exact later _ hc

theorem batchDelivery_error_mem {l : List (Except ε α)} (h : (batchDelivery w mark l).error = some e) :
    .error e ∈ l := by
  induction l using batchDelivery.induct w mark with
  | case1 => rw [batchDelivery_nil] at h; cases h
  | case2 l hl e' hf =>
    rw [batchDelivery_of_error hf] at h; cases h
    obtain ⟨c, r, hs, -⟩ := fill_eq_error hf
    rw [hs]; simp
  | case3 l hl c r hf hlt ih =>
    rw [batchDelivery, if_neg hl, hf] at h
    simp only [dif_pos hlt] at h
    rw [(fill_eq_ok hf).1]
    exact List.mem_append_right _ (ih h)
  | case4 l hl c r hf hlt =>
    rw [batchDelivery, if_neg hl, hf] at h
    simp only [dif_neg hlt] at h
    cases h

theorem scanDelivery_error_mem (h : (scanDelivery w mark full n bs).error = some e) :
    .error e ∈ bs ∨ ∃ b, .ok b ∈ bs ∧ .error e ∈ b := by
  induction bs generalizing n with
  | nil => cases h
  | cons x bs ih =>
    have later : ∀ m, (scanDelivery w mark full m bs).error = some e →
        .error e ∈ x :: bs ∨ ∃ b, .ok b ∈ x :: bs ∧ .error e ∈ b := fun m h =>
      (ih h).imp (List.mem_cons_of_mem _) fun ⟨b, hb, he⟩ => ⟨b, List.mem_cons_of_mem _ hb, he⟩
    cases x with
    | error e' => cases h; exact .inl List.mem_cons_self
    | ok b =>
      by_cases hb : b = []
      · subst hb; rw [scanDelivery_cons_nil] at h; exact later _ h
      · cases hf : fill w mark 0 b with
        | error e' =>
          rw [scanDelivery_of_error hf] at h; cases h
          obtain ⟨c, r, hl, -⟩ := fill_eq_error hf
          exact .inr ⟨b, List.mem_cons_self, by rw [hl]; simp⟩
        | ok p =>
          obtain ⟨c, r⟩ := p
          rw [scanDelivery_of_ok hb hf, Delivery.error_cons, restDelivery] at h
          split at h
          · cases h
          · cases hr : (batchDelivery w mark r).error with
            | none => rw [Delivery.error_append hr] at h; exact later _ h
            | some e' =>
              rw [Delivery.append_of_error hr, hr] at h; cases h
              refine .inr ⟨b, List.mem_cons_self, ?_⟩
              rw [(fill_eq_ok hf).1]
              exact List.mem_append_right _ (batchDelivery_error_mem hr)

/-! ### With a limit -/

theorem weight_append (c c' : List α) : weight w (c ++ c') = weight w c + weight w c' := by
  simp [weight]

theorem weight_take_mono (b : List α) {i j : Nat} (h : i ≤ j) :
    weight w (b.take i) ≤ weight w (b.take j) := by
  obtain ⟨t, ht⟩ : b.take i <+: b.take j := List.take_prefix_take_left h
  rw [← ht, weight_append]
  exact Nat.le_add_right _ _

variable (w mark) in
/-- The `m`-th item of the batches is the last of the first chunk of its batch. -/
def LimitFits (m : Nat) : List (List α) → Prop
  | [] => True
  | b :: B =>
    if b.length < m then LimitFits (m - b.length) B
    else weight w (b.take (m - 1)) < mark ∧ (b.length = m ∨ mark ≤ weight w (b.take m))

def allOk (B : List (List α)) : List (Except ε (List (Except ε α))) :=
  B.map fun b => .ok (b.map .ok)

theorem fill_map_ok {b : List α} (hb : b ≠ []) (hm : 0 < mark)
    (h : fill w mark 0 (b.map .ok) = .ok (c, r)) :
    ∃ k, 0 < k ∧ k ≤ b.length ∧ c = b.take k ∧ weight w (b.take (k - 1)) < mark ∧
      (b.length = k ∨ mark ≤ weight w (b.take k)) := by
  obtain ⟨hl, hw, hr⟩ := fill_eq_ok h
  have hne := fill_ne_nil h (mt List.map_eq_nil_iff.1 hb) hm
  have hlen : b.length = c.length + r.length := by simpa using congrArg List.length hl
  have hct : c = b.take c.length := List.prefix_iff_eq_take.1 <|
    (List.prefix_map_iff_of_injective fun _ _ => Except.ok.inj).1 ⟨r, hl.symm⟩
  refine ⟨c.length, List.length_pos_of_ne_nil hne, by omega, hct, ?_, ?_⟩
  · have hd : c.dropLast = b.take (c.length - 1) := by
      rw [List.dropLast_eq_take]
      conv_lhs => rw [hct]
      rw [List.take_take, List.length_take]; congr 1; omega
    have := hw hne
    rw [← hd]; omega
  · rcases r with _ | ⟨x, r⟩
    · exact .inl hlen
    · have := hr (List.cons_ne_nil _ _)
      rw [← hct]; exact .inr (by omega)

theorem take_length_unique {b : List α} {k m : Nat} (hk : k ≤ b.length) (hm : m ≤ b.length)
    (hk1 : weight w (b.take (k - 1)) < mark) (hk2 : b.length = k ∨ mark ≤ weight w (b.take k))
    (hm1 : weight w (b.take (m - 1)) < mark) (hm2 : b.length = m ∨ mark ≤ weight w (b.take m)) : k = m := by
  have lt_absurd : ∀ {i j : Nat}, i < j → j ≤ b.length → weight w (b.take (j - 1)) < mark →
      ¬ (b.length = i ∨ mark ≤ weight w (b.take i)) := by
    rintro i j hij hj h1 (h2 | h2)
    · omega
    · have := weight_take_mono (w := w) b (show i ≤ j - 1 by omega); omega
  rcases Nat.lt_trichotomy k m with h | h | h
  · exact absurd hk2 (lt_absurd h hm hm1)
  · exact h
  · exact absurd hm2 (lt_absurd h hk hk1)

theorem error_mem_allOk {B : List (List α)} :
    ¬ ((.error e : Except ε _) ∈ allOk B ∨ ∃ b, .ok b ∈ allOk B ∧ .error e ∈ b) := by
  simp only [allOk, List.mem_map]
  rintro (⟨b, -, hb⟩ | ⟨b, ⟨b', -, hb⟩, he⟩)
  · cases hb
  · cases hb
    obtain ⟨a, -, ha⟩ := List.mem_map.1 he
    cases ha

theorem scanDelivery_allOk_error (B : List (List α)) :
    (scanDelivery w mark full n (allOk (ε := ε) B)).error = none := by
  cases h : (scanDelivery w mark full n (allOk (ε := ε) B)).error with
  | none => rfl
  | some e => exact absurd (scanDelivery_error_mem h) error_mem_allOk

theorem scanItems_allOk (B : List (List α)) : scanItems (allOk (ε := ε) B) = B.flatten.map .ok := by
  induction B with
  | nil => rfl
  | cons b B ih => rw [allOk, List.map_cons, scanItems_cons_ok, List.flatten_cons, List.map_append, ← ih]; rfl

theorem map_ok_inj {l l' : List α} (h : l.map (Except.ok : α → Except ε α) = l'.map .ok) : l = l' :=
  List.map_injective_iff.2 (fun _ _ => Except.ok.inj) h

theorem batchDelivery_map_ok_error (b : List α) :
    (batchDelivery w mark (b.map (Except.ok : α → Except ε α))).error = none := by
  cases h : (batchDelivery w mark (b.map (Except.ok : α → Except ε α))).error with
  | none => rfl
  | some e =>
    obtain ⟨a, -, ha⟩ := List.mem_map.1 (batchDelivery_error_mem h)
    cases ha

theorem batchDelivery_map_ok_items (hm : 0 < mark) (b : List α) :
    (batchDelivery w mark (b.map (Except.ok : α → Except ε α))).items = b :=
  map_ok_inj ((batchDelivery_of hm _).all (batchDelivery_map_ok_error b))

theorem scanDelivery_allOk_items (hm : 0 < mark) (n : Nat) (B : List (List α)) :
    (scanDelivery w mark (fun _ => false) n (allOk (ε := ε) B)).items = B.flatten :=
  map_ok_inj <| ((scanDelivery_of hm n _).all (scanDelivery_allOk_error B)).trans (scanItems_allOk B)

theorem chunk_of_allOk {B : List (List α)} (hm : 0 < mark)
    (hc : c ∈ (scanDelivery w mark full n (allOk (ε := ε) B)).chunks) :
    c ≠ [] ∧ (∃ b ∈ B, c <:+: b) ∧ weight w c.dropLast < mark := by
  obtain ⟨b', hb', hne, hinfix, hw⟩ := chunkOf_scanDelivery hm n _ c hc
  obtain ⟨b, hb, heq⟩ := List.mem_map.1 hb'
  cases heq
  obtain ⟨c', hc', heq⟩ := List.infix_map_iff.1 hinfix
  rw [map_ok_inj heq]
  exact ⟨map_ok_inj heq ▸ hne, ⟨b, hb, hc'⟩, map_ok_inj heq ▸ hw⟩

/-- With the limit `L` on the fetched items, what is delivered is the first `L` items just if the last of
them ends the first chunk of its batch: whole chunks are delivered, and once the limit is reached no second
chunk of the batch is. -/
theorem scanDelivery_limit_iff {L : Nat} (hm : 0 < mark) (hn : n < L) (B : List (List α)) :
    (scanDelivery w mark (fun n => decide (L ≤ n)) n (allOk (ε := ε) B)).items = B.flatten.take (L - n) ↔
      LimitFits w mark (L - n) B := by
  induction B generalizing n with
  | nil => simp [allOk, scanDelivery, LimitFits]
  | cons b B ih =>
    have hlen : (b.map (Except.ok : α → Except ε α)).length = b.length := List.length_map _
    rw [allOk, List.map_cons, LimitFits, List.flatten_cons]
    split_ifs with hb
    · rw [scanDelivery_cons hm (by rw [hlen]; simp; omega), hlen,
        Delivery.items_append (batchDelivery_map_ok_error b), batchDelivery_map_ok_items hm,
        List.take_append, List.take_of_length_le (Nat.le_of_lt hb), List.append_cancel_left_eq,
        show L - n - b.length = L - (n + b.length) by omega]
      exact ih (by omega)
    · have hne : b ≠ [] := by rintro rfl; simp at hb; omega
      cases h : fill w mark 0 (b.map (Except.ok : α → Except ε α)) with
      | error e =>
        obtain ⟨c, r, hl, -⟩ := fill_eq_error h
        have : Except.error e ∈ b.map (Except.ok : α → Except ε α) := by rw [hl]; simp
        simp at this
      | ok p =>
        obtain ⟨c, r⟩ := p
        obtain ⟨k, hk0, hk, rfl, hk1, hk2⟩ := fill_map_ok hne hm h
        rw [scanDelivery_of_ok (mt List.map_eq_nil_iff.1 hne) h, restDelivery, hlen,
          if_pos (by simp; omega), Delivery.items_cons, Delivery.items_done, List.append_nil,
          List.take_append_of_le_length (by omega)]
        constructor
        · intro heq
          have := congrArg List.length heq
          rw [List.length_take, List.length_take] at this
          obtain rfl : k = L - n := by omega
          exact ⟨hk1, hk2⟩
        · rintro ⟨hm1, hm2⟩
          rw [take_length_unique hk (by omega) hk1 hk2 hm1 hm2]

/-! ### Where a failure strikes -/

variable (w mark) in
/-- After the items `p` the next chunk meets the first failure, `e`: either the next fetch fails, or an item of
the batch being read does and the unread items before it weigh less than the watermark. -/
inductive Strikes (e : ε) : List α → List (Except ε (List (Except ε α))) → Prop
  | fetch {bs : List (Except ε (List (Except ε α)))} : Strikes e [] (.error e :: bs)
  | item {q c : List α} {r : List (Except ε α)} {bs : List (Except ε (List (Except ε α)))}
      (hw : weight w c < mark) : Strikes e q (.ok ((q ++ c).map .ok ++ .error e :: r) :: bs)
  | later {p : List α} {bs : List (Except ε (List (Except ε α)))} (b : List α) (h : Strikes e p bs) :
      Strikes e (b ++ p) (.ok (b.map .ok) :: bs)

variable {p : List α}

theorem Strikes.first (h : Strikes w mark e p bs) :
    ∃ c r, scanItems bs = (p ++ c).map .ok ++ .error e :: r := by
  induction h with
  | @fetch bs => exact ⟨[], scanItems bs, rfl⟩
  | @item q c r bs hw => exact ⟨c, r ++ scanItems bs, by rw [scanItems_cons_ok, List.append_assoc, List.cons_append]⟩
  | later b h ih =>
    obtain ⟨c, r, hs⟩ := ih
    exact ⟨c, r, by rw [scanItems_cons_ok, hs]; simp only [List.map_append, List.append_assoc]⟩

theorem batchDelivery_error (hm : 0 < mark) {l : List (Except ε α)} (h : (batchDelivery w mark l).error = some e) :
    ∃ c r, l = ((batchDelivery w mark l).items ++ c).map .ok ++ .error e :: r ∧ weight w c < mark := by
  induction l using batchDelivery.induct w mark with
  | case1 => rw [batchDelivery_nil] at h; cases h
  | case2 l hl e' hf =>
    rw [batchDelivery_of_error hf] at h ⊢; cases h
    obtain ⟨c, r, hs, hw⟩ := fill_eq_error hf
    exact ⟨c, r, hs, by omega⟩
  | case3 l hl c r hf hlt ih =>
    rw [batchDelivery_of_ok hl hm hf] at h ⊢
    obtain ⟨c', r', hr, hw⟩ := ih h
    refine ⟨c', r', ?_, hw⟩
    rw [Delivery.items_cons, List.append_assoc, List.map_append, List.append_assoc, ← hr, (fill_eq_ok hf).1]
  | case4 l hl c r hf hlt => exact absurd (fill_length_lt hf hl hm) hlt

/-- A delivery that ends in an error has met it after the items it has handed out. -/
theorem strikes_of_error (hm : 0 < mark) (h : (scanDelivery w mark (fun _ => false) n bs).error = some e) :
    Strikes w mark e (scanDelivery w mark (fun _ => false) n bs).items bs := by
  induction bs generalizing n with
  | nil => cases h
  | cons x bs ih =>
    cases x with
    | error e' => cases h; exact .fetch
    | ok b =>
      rw [scanDelivery_cons hm rfl] at h ⊢
      cases hb : (batchDelivery w mark b).error with
      | some e' =>
        rw [Delivery.append_of_error hb] at h ⊢
        obtain ⟨c, r, hl, hw⟩ := batchDelivery_error hm h
        have hs : Strikes w mark e (batchDelivery w mark b).items
            (.ok (((batchDelivery w mark b).items ++ c).map .ok ++ .error e :: r) :: bs) := .item hw
        rwa [← hl] at hs
      | none =>
        rw [Delivery.error_append hb] at h
        rw [Delivery.items_append hb]
        have hs := (ih h).later (batchDelivery w mark b).items
        rwa [(batchDelivery_of hm b).all hb] at hs

theorem batchDelivery_struck (hm : 0 < mark) {k : Nat} {l : List (Except ε α)}
    (hl : l = (((batchDelivery w mark l).chunks.take k).flatten ++ c).map .ok ++ .error e :: r)
    (hw : weight w c < mark) :
    (batchDelivery w mark l).chunks.drop k = [] ∧ (batchDelivery w mark l).error = some e := by
  have hfill : fill w mark 0 (c.map .ok ++ .error e :: r) = .error e := fill_error (by omega)
  induction k generalizing l with
  | zero =>
    rw [batchDelivery_of_error (hl ▸ hfill)]
    exact ⟨rfl, rfl⟩
  | succ k ih =>
    have hne : l ≠ [] := by rw [hl]; simp
    cases hf : fill w mark 0 l with
    | error e' =>
      rw [batchDelivery_of_error hf] at hl ⊢
      rw [hl] at hf
      cases hf.symm.trans hfill
      exact ⟨rfl, rfl⟩
    | ok p =>
      obtain ⟨c', r'⟩ := p
      rw [batchDelivery_of_ok hne hm hf] at hl ⊢
      refine ih (@List.append_cancel_left _ (c'.map .ok) _ _ ?_)
      rw [← (fill_eq_ok hf).1]
      exact hl.trans (by simp)

theorem take_flatten_append {cs cs' : List (List α)} {k : Nat} (hne : ∀ c ∈ cs, c ≠ [])
    (h : ((cs ++ cs').take k).flatten = cs.flatten ++ p) :
    cs.length ≤ k ∧ (cs'.take (k - cs.length)).flatten = p := by
  induction cs generalizing k with
  | nil => exact ⟨Nat.zero_le k, h⟩
  | cons c cs ih =>
    rcases k with _ | k
    · have hc := hne c List.mem_cons_self
      exact absurd (List.append_eq_nil_iff.1 (List.append_eq_nil_iff.1 h.symm).1).1 hc
    · rw [List.cons_append, List.take_succ_cons, List.flatten_cons, List.flatten_cons, List.append_assoc] at h
      obtain ⟨hk, hp⟩ := ih (fun c hc => hne c (List.mem_cons_of_mem _ hc)) (List.append_cancel_left h)
      rw [List.length_cons, Nat.add_sub_add_right]
      exact ⟨Nat.succ_le_succ hk, hp⟩

/-- Where a failure strikes the delivery is at its end, and ends in that failure. -/
theorem Strikes.struck (hm : 0 < mark) {k : Nat} (h : Strikes w mark e p bs)
    (hp : p = ((scanDelivery w mark (fun _ => false) n bs).chunks.take k).flatten) :
    (scanDelivery w mark (fun _ => false) n bs).chunks.drop k = [] ∧
      (scanDelivery w mark (fun _ => false) n bs).error = some e := by
  induction h generalizing n k with
  | fetch => exact ⟨List.drop_nil, rfl⟩
  | @item q c r bs hw =>
    rw [scanDelivery_cons hm rfl] at hp ⊢
    generalize hb : (q ++ c).map Except.ok ++ .error e :: r = b at hp ⊢
    cases he : (batchDelivery w mark b).error with
    | none =>
      have hmem : Except.error e ∈ (batchDelivery w mark b).items.map Except.ok := by
        rw [(batchDelivery_of hm b).all he, ← hb]
        simp
      simp at hmem
    | some e' =>
      rw [Delivery.append_of_error he] at hp ⊢
      exact batchDelivery_struck hm (by rw [← hp, hb]) hw
  | @later p bs b h ih =>
    have hne : ∀ c ∈ (batchDelivery w mark (b.map (Except.ok (ε := ε)))).chunks, c ≠ [] :=
      fun c hc => (chunkOf_batchDelivery hm _ c hc).ne_nil
    have herr := @batchDelivery_map_ok_error ε α w mark b
    rw [scanDelivery_cons hm rfl, Delivery.chunks_append herr] at hp ⊢
    rw [Delivery.error_append herr]
    obtain ⟨hk, hp'⟩ := take_flatten_append hne
      (hp.symm.trans (congrArg (· ++ p) (@batchDelivery_map_ok_items ε α w mark hm b).symm))
    obtain ⟨hd, he⟩ := ih hp'.symm
    exact ⟨by rw [List.drop_append, List.drop_eq_nil_of_le hk, hd]; rfl, he⟩

end
