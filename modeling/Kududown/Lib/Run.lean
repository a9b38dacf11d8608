import Mathlib

/-!
# Runs of a labelled step relation

`Run R s as t`: the steps labelled `as`, taken in order, lead from `s` to `t`. An invariant of one step
is an invariant of a run (`Run.inv`), a quantity every step lowers bounds the length of a run
(`Run.length_le`, and `Run.inv_length_le` where it takes an invariant). Where several tasks are under way
the quantity is a sum over them (`sum_map_set`, `sum_map_eraseIdx`). A partial step function is a relation
through `Steps`, which can also ask for a condition on the state and the label before each step.
-/

variable {σ α : Type}

/-- The labels `as` lead from `s` to `t` by steps of `R`. -/
inductive Run (R : σ → α → σ → Prop) : σ → List α → σ → Prop
  | nil (s : σ) : Run R s [] s
  | cons {s t u : σ} {a : α} {as : List α} (h : R s a t) (hr : Run R t as u) : Run R s (a :: as) u

/-- The steps of `step` taken where `ok` holds. -/
def Steps (step : σ → α → Option σ) (ok : σ → α → Prop) (s : σ) (a : α) (t : σ) : Prop :=
  step s a = some t ∧ ok s a

/-- Take the steps labelled `as`, if they can all be taken. -/
def exec (step : σ → α → Option σ) (s : σ) : List α → Option σ
  | [] => some s
  | a :: as => (step s a).bind fun t => exec step t as

namespace Run
variable {R R' : σ → α → σ → Prop} {s t u : σ} {a : α} {as bs : List α}

theorem single (h : R s a t) : Run R s [a] t := .cons h (.nil t)

theorem append (h : Run R s as t) (h' : Run R t bs u) : Run R s (as ++ bs) u := by
  induction h with
  | nil => exact h'
  | cons h _ ih => exact .cons h (ih h')

theorem mono (hR : ∀ s a t, R s a t → R' s a t) (h : Run R s as t) : Run R' s as t := by
  induction h with
  | nil => exact .nil _
  | cons h _ ih => exact .cons (hR _ _ _ h) ih

theorem inv {I : σ → Prop} (hR : ∀ s a t, I s → R s a t → I t) (h : Run R s as t) (hs : I s) : I t := by
  induction h with
  | nil => exact hs
  | cons h _ ih => exact ih (hR _ _ _ hs h)

theorem length_le {μ : σ → Nat} (hR : ∀ s a t, R s a t → μ t < μ s) (h : Run R s as t) :
    as.length + μ t ≤ μ s := by
  induction h with
  | nil => simp
  | cons h _ ih =>
    have := hR _ _ _ h
    simp only [List.length_cons]; omega

/-- The same when it takes an invariant to see that a step lowers the quantity. -/
theorem inv_length_le {I : σ → Prop} {μ : σ → Nat} (hI : ∀ s a t, I s → R s a t → I t)
    (hμ : ∀ s a t, I s → R s a t → μ t < μ s) (h : Run R s as t) (hs : I s) : as.length + μ t ≤ μ s := by
  induction h with
  | nil => simp
  | cons h _ ih =>
    have hlt := hμ _ _ _ hs h
    have hle := ih (hI _ _ _ hs h)
    simp only [List.length_cons]; omega

theorem of_exec {step : σ → α → Option σ} (h : exec step s as = some t) :
    Run (Steps step fun _ _ => True) s as t := by
  induction as generalizing s with
  | nil => cases h; exact .nil _
  | cons a as ih =>
    obtain ⟨u, hu, h⟩ := Option.bind_eq_some_iff.1 h
    exact .cons ⟨hu, trivial⟩ (ih h)

end Run

/-! ### Sums over tasks -/

theorem sum_map_eraseIdx {l : List α} {i : Nat} {a : α} (h : l[i]? = some a) (f : α → Nat) :
    ((l.eraseIdx i).map f).sum + f a = (l.map f).sum := by
  obtain ⟨hi, rfl⟩ := List.getElem?_eq_some_iff.1 h
  have hsum := ((List.getElem_cons_eraseIdx_perm hi).map f).sum_eq
  simp only [List.map_cons, List.sum_cons] at hsum
  omega

theorem sum_map_set {l : List α} {i : Nat} {a : α} (h : l[i]? = some a) (b : α) (f : α → Nat) :
    ((l.set i b).map f).sum + f a = (l.map f).sum + f b := by
  have herase := sum_map_eraseIdx h f
  obtain ⟨hi, -⟩ := List.getElem?_eq_some_iff.1 h
  have hsum := ((List.set_perm_cons_eraseIdx hi b).map f).sum_eq
  simp only [List.map_cons, List.sum_cons] at hsum
  omega
