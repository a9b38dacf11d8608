import Kududown.Registry

/-!
# Garbage collection

`Nan::ObjectWrap` holds its object weakly, and so does the map of iterators: only JS and the workers keep a wrapper
alive. A wrapper that is collected before `End` leaves its entry behind, and `Close` will call `End` on it
(`collected_registered`). If only ended iterators are collected, every entry refers to a live one (`entries_live`).
-/

namespace Kududown

/-- The loop, the iterators that JS no longer refers to, and those that `~Iterator` has been run on. -/
structure Heap where
  loop : Loop := .init
  dropped : List Nat := []
  destroyed : List Nat := []

inductive HeapAction
  | loop (a : Action)
  | drop (iterator : Nat)
  | gc (iterator : Nat)

namespace Heap

/-- JS calls a method of an iterator through its reference to it. -/
def mayCall (s : Heap) : Action → Bool
  | .jsNext r | .jsEnd r => r ∉ s.dropped
  | _ => true

/-- One step. A wrapper is collected when JS has dropped it and no NextWorker or EndWorker, queued or parked, holds
it. -/
def step (s : Heap) : HeapAction → Option Heap
  | .loop a => if s.mayCall a then (s.loop.step a).map fun loop => { s with loop } else none
  | .drop r => if r < s.loop.objs.length then some { s with dropped := r :: s.dropped } else none
  | .gc r => s.loop.objs[r]?.bind fun it =>
      if r ∈ s.dropped ∧ r ∉ s.destroyed ∧ s.loop.nexts r = 0 ∧ s.loop.ends r = 0 ∧ it.endWorker = none then
        some { s with destroyed := r :: s.destroyed }
      else none

/-- Every entry of `Database::iterators` refers to an iterator that has not been destroyed. -/
def Live (s : Heap) : Prop := ∀ e ∈ s.loop.iterators.entries, e.2 ∉ s.destroyed

/-- `End` has been called on an iterator that is collected. -/
def CollectsEnded (s : Heap) : HeapAction → Prop
  | .gc r => ∀ it, s.loop.objs[r]? = some it → it.ended = true
  | _ => True

/-- What carries `Live`: no entry has its EndWorker behind it. -/
structure Tracked (s : Heap) : Prop where
  inv : s.loop.Inv
  live : s.Live
  destroyed : ∀ r ∈ s.destroyed, r < s.loop.objs.length
  pending : ∀ e ∈ s.loop.iterators.entries, ∀ it, s.loop.objs[e.2]? = some it → ¬ s.loop.EndGone e.2 it

namespace Tracked
variable {s t : Heap} {l : Loop} {a : Action} {r i : Nat} {it : Iterator}

theorem init : Tracked {} where
  inv := Loop.Inv.init
  live e he := by cases he
  destroyed r hr := by cases hr
  pending e he := by cases he

theorem kept (h : s.Tracked) (hk : s.loop.Kept l) (hl : l.Inv) : Tracked { s with loop := l } := by
  refine ⟨hl, fun e he => h.live e (hk.iterators ▸ he), fun r hr => hk.length.symm ▸ h.destroyed r hr,
    fun e he it' ho' hgone => ?_⟩
  have he' : e ∈ s.loop.iterators.entries := hk.iterators ▸ he
  obtain ⟨it, ho, -⟩ := h.inv.registered e he'
  obtain ⟨it'', ho'', -, hiff⟩ := hk.obj e.2 it ho
  obtain rfl := Option.some.inj (ho''.symm.trans ho')
  exact h.pending e he' it ho (hiff.2 hgone)

theorem jsIterator (h : s.Tracked) (options : IteratorOptions) :
    Tracked { s with loop := s.loop.jsIterator options } := by
  refine ⟨h.inv.jsIterator options, fun e he hr => ?_, fun r hr => ?_, fun e he it ho hgone => ?_⟩
  · rcases OrdMap.mem_insert.1 he with rfl | ⟨he, -⟩
    · exact absurd (h.destroyed _ hr) (Nat.lt_irrefl _)
    · exact h.live e he hr
  · refine Nat.lt_of_lt_of_le (h.destroyed r hr) ?_
    simp [Loop.jsIterator]
  · rcases OrdMap.mem_insert.1 he with rfl | ⟨he, -⟩
    · rw [Loop.jsIterator, List.getElem?_concat_length] at ho
      rw [← Option.some.inj ho] at hgone
      exact Bool.noConfusion hgone.1
    · obtain ⟨it', ho', -⟩ := h.inv.registered e he
      rw [Loop.jsIterator, List.getElem?_append_left (Loop.lt_length ho')] at ho
      exact h.pending e he it ho hgone

/-- The entry of the iterator whose EndWorker completes goes with it. -/
theorem endComplete {callback : EndCallback} {report : Report} (h : s.Tracked)
    (ht : s.loop.pool[i]? = some ⟨.EndWorker r callback, some report⟩) (ho : s.loop.objs[r]? = some it) :
    Tracked { s with loop := { s.loop with pool := s.loop.pool.eraseIdx i }.endComplete r it callback } := by
  have hframe := Loop.releaseIterator_frame (s := { s.loop with pool := s.loop.pool.eraseIdx i }) it.id
  have hentry : ∀ e ∈ ({ s.loop with pool := s.loop.pool.eraseIdx i }.endComplete r it callback).iterators.entries,
      e ∈ s.loop.iterators.entries ∧ r ≠ e.2 := by
    intro e he
    rw [Loop.endComplete_iterators] at he
    obtain ⟨he, hne⟩ := OrdMap.mem_erase.1 he
    refine ⟨he, fun hr => hne ?_⟩
    obtain ⟨it', ho', hid⟩ := h.inv.registered e he
    rw [← hr, ho] at ho'
    cases ho'
    exact hid.symm
  refine ⟨(h.inv.eraseIdx ht).endComplete, fun e he => h.live e (hentry e he).1, fun r' hr => ?_,
    fun e he it' ho' hgone => ?_⟩
  · show r' < (Loop.releaseIterator _ _).objs.length
    rw [hframe.1]
    exact h.destroyed r' hr
  · obtain ⟨he', hne⟩ := hentry e he
    obtain ⟨hobj, hends⟩ :=
      Loop.endComplete_obj { s.loop with pool := s.loop.pool.eraseIdx i } e.2 r it callback
    have hcount : Loop.ends { s.loop with pool := s.loop.pool.eraseIdx i } e.2 = s.loop.ends e.2 := by
      have hadd := Loop.count_eraseIdx (f := Worker.isEnd e.2) ht
      rwa [Worker.isEnd, decide_eq_false hne] at hadd
    exact h.pending e he' it' (hobj.symm.trans ho') ((Loop.endGone_congr (hends.trans hcount) rfl rfl).2 hgone)

theorem loopStep (h : s.Tracked) (ha : s.loop.step a = some l) : Tracked { s with loop := l } := by
  rcases Loop.kept_or ha with hkept | ⟨options, rfl, rfl⟩ | ⟨i, r, callback, report, it, ht, ho, rfl⟩
  · exact h.kept hkept (h.inv.step ha)
  · exact h.jsIterator options
  · exact h.endComplete ht ho

/-- An ended iterator that nothing holds has its EndWorker behind it, so it has no entry. -/
theorem gc (h : s.Tracked) (ho : s.loop.objs[r]? = some it) (hended : it.ended = true) (hends : s.loop.ends r = 0)
    (hw : it.endWorker = none) : Tracked { s with destroyed := r :: s.destroyed } := by
  have hgone : s.loop.EndGone r it := by
    refine ⟨hended, ?_⟩
    rintro (hpos | hsome)
    · omega
    · rw [hw] at hsome
      cases hsome
  refine ⟨h.inv, fun e he hr => ?_, fun r' hr => ?_, h.pending⟩
  · rcases List.mem_cons.1 hr with rfl | hr
    · exact h.pending e he it ho hgone
    · exact h.live e he hr
  · rcases List.mem_cons.1 hr with rfl | hr
    · exact Loop.lt_length ho
    · exact h.destroyed r' hr

theorem step {action : HeapAction} (h : s.Tracked) (ha : s.step action = some t) (hok : s.CollectsEnded action) :
    t.Tracked := by
  cases action with
  | loop a =>
    unfold Heap.step at ha
    dsimp only at ha
    split_ifs at ha
    obtain ⟨l, hl, rfl⟩ := Option.map_eq_some_iff.1 ha
    exact h.loopStep hl
  | drop r =>
    unfold Heap.step at ha
    dsimp only at ha
    split_ifs at ha
    cases ha
    exact ⟨h.inv, h.live, h.destroyed, h.pending⟩
  | gc r =>
    obtain ⟨it, ho, ha⟩ := Option.bind_eq_some_iff.1 ha
    split_ifs at ha with hfree
    cases ha
    obtain ⟨-, -, -, hends, hw⟩ := hfree
    exact h.gc ho (hok it ho) hends hw

end Tracked

/-- In every run that collects only ended iterators every entry of the map refers to a live one. -/
theorem entries_live {actions : List HeapAction} {t : Heap} (h : Run (Steps step CollectsEnded) {} actions t) :
    t.Live := by
  have ht : t.Tracked := Run.inv (fun _ _ _ hs ha => hs.step ha.1 ha.2) h Tracked.init
  exact ht.live

/-- An iterator is ended, released and collected while another one stays open. -/
def endedThenCollected : List HeapAction :=
  [.loop (.jsIterator {}), .loop (.jsIterator {}), .loop (.jsEnd 0), .drop 0,
    .loop (.execute 0 Loop.noRows none), .loop (.complete 0), .gc 0]

theorem entries_live_one : ∃ t, Run (Steps step CollectsEnded) {} endedThenCollected t ∧ t.destroyed = [0] ∧
    t.loop.iterators.entries = [(1, 1)] ∧ t.Live := by
  obtain ⟨t, hrun, hdestroyed, hentries⟩ : ∃ t, Run (Steps step CollectsEnded) {} endedThenCollected t ∧
      t.destroyed = [0] ∧ t.loop.iterators.entries = [(1, 1)] := by
    refine ⟨_, .cons ⟨rfl, trivial⟩ (.cons ⟨rfl, trivial⟩ (.cons ⟨rfl, trivial⟩ (.cons ⟨rfl, trivial⟩
      (.cons ⟨rfl, trivial⟩ (.cons ⟨rfl, trivial⟩ (.single ⟨rfl, fun it ho => ?_⟩)))))), rfl, rfl⟩
    rw [← Option.some.inj ho]
  exact ⟨t, hrun, hdestroyed, hentries, entries_live hrun⟩

/-- `db.iterator()`, abandoned and collected, is still registered when `Close` is called. -/
theorem collected_registered : ∃ t, exec step {} [.loop (.jsIterator {}), .drop 0, .gc 0] = some t ∧
    ¬ t.Live ∧ (t.step (.loop .jsClose)).isSome = true := by
  refine ⟨_, rfl, fun h => ?_, rfl⟩
  exact h (0, 0) (List.mem_singleton_self _) (List.mem_singleton_self _)

end Heap

end Kududown
