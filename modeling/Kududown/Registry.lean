import Kududown.EndGate

/-!
# The registry

`Database::iterators` maps the ids of the open iterators, those created and not yet released, to them. `Kept` says
what every step but a creation and a release keeps of this. A creation takes the next value of a 32-bit counter
as the id, so it keeps the correspondence just if no open iterator was created a multiple of 2^32 creations before
it (`registry_one_to_one`); after 2^32 creations an iterator that was left open loses its entry (`registry_lost`).
-/

namespace Kududown

namespace Loop
variable {s t u : Loop} {a : Action} {as bs : List Action} {r r' i call id : Nat} {it it' : Iterator}
  {e : Event} {w : Worker} {callback : EndCallback} {report : Report}

/-! ### What other steps keep -/

/-- An EndWorker of `r`, which keeps its wrapper alive, is in the pool or parked. -/
def EndHeld (s : Loop) (r : Nat) (it : Iterator) : Prop := 0 < s.ends r ∨ it.endWorker.isSome = true

/-- Its EndWorker has come and gone. -/
def EndGone (s : Loop) (r : Nat) (it : Iterator) : Prop := it.ended = true ∧ ¬ s.EndHeld r it

theorem EndGone.ends (h : s.EndGone r it) : s.ends r = 0 := Nat.eq_zero_of_not_pos fun hpos => h.2 (.inl hpos)

/-- From `s` to `t` no iterator was created or released, and the same ones have their EndWorker behind them. -/
structure Kept (s t : Loop) : Prop where
  obj : ∀ (r : Nat) (it : Iterator), s.objs[r]? = some it → ∃ it' : Iterator, t.objs[r]? = some it' ∧ it'.id = it.id ∧
    (s.EndGone r it ↔ t.EndGone r it')
  length : t.objs.length = s.objs.length
  counter : t.currentIteratorId = s.currentIteratorId
  iterators : t.iterators = s.iterators
  released : ∀ r, .released r ∈ t.log ↔ .released r ∈ s.log

theorem endGone_congr (hends : t.ends r = s.ends r) (he : it'.ended = it.ended) (hw : it'.endWorker = it.endWorker) :
    s.EndGone r it ↔ t.EndGone r it' := by
  unfold EndGone EndHeld
  rw [hends, he, hw]

namespace Kept

theorem of_eq (hobjs : t.objs = s.objs) (hcounter : t.currentIteratorId = s.currentIteratorId)
    (hends : ∀ r, t.ends r = s.ends r) (hit : t.iterators = s.iterators)
    (hlog : ∀ r, .released r ∈ t.log ↔ .released r ∈ s.log) : Kept s t :=
  ⟨fun r it ho => ⟨it, hobjs ▸ ho, rfl, endGone_congr (hends r) rfl rfl⟩, congrArg List.length hobjs, hcounter, hit, hlog⟩

theorem refl (s : Loop) : Kept s s := of_eq rfl rfl (fun _ => rfl) rfl fun _ => Iff.rfl

theorem trans (h : Kept s t) (h' : Kept t u) : Kept s u := by
  refine ⟨fun r it ho => ?_, h'.length.trans h.length, h'.counter.trans h.counter,
    h'.iterators.trans h.iterators, fun r => (h'.released r).trans (h.released r)⟩
  obtain ⟨it', ho', hid, hgone⟩ := h.obj r it ho
  obtain ⟨it'', ho'', hid', hgone'⟩ := h'.obj r it' ho'
  exact ⟨it'', ho'', hid'.trans hid, hgone.trans hgone'⟩

theorem emit (he : ∀ r, e ≠ .released r) : Kept s (s.emit e) := by
  refine of_eq rfl rfl (fun _ => rfl) rfl fun r => ?_
  show _ ∈ s.log ++ [e] ↔ _
  rw [List.mem_append, List.mem_singleton]
  exact or_iff_left (Ne.symm (he r))

theorem calls (n : Nat) : Kept s { s with calls := n } := of_eq rfl rfl (fun _ => rfl) rfl fun _ => Iff.rfl

theorem pending (p : Option Nat) : Kept s { s with pendingCloseWorker := p } :=
  of_eq rfl rfl (fun _ => rfl) rfl fun _ => Iff.rfl

theorem queue (hw : ∀ r, w.isEnd r = false) : Kept s (s.queue w) := by
  refine of_eq rfl rfl (fun r => ?_) rfl fun _ => Iff.rfl
  rw [ends_queue, hw r]
  rfl

theorem eraseIdx {report' : Option Report} (ht : s.pool[i]? = some ⟨w, report'⟩) (hw : ∀ r, w.isEnd r = false) :
    Kept s { s with pool := s.pool.eraseIdx i } := by
  refine of_eq rfl rfl (fun r => ?_) rfl fun _ => Iff.rfl
  have hadd := count_eraseIdx (f := Worker.isEnd r) ht
  rwa [hw r] at hadd

theorem setTask {report' : Option Report} (ht : s.pool[i]? = some ⟨w, report'⟩) :
    Kept s (s.setTask i ⟨w, some report⟩) :=
  of_eq rfl rfl (fun _ => count_setTask ht) rfl fun _ => Iff.rfl

theorem setObj (ho : s.objs[r]? = some it) (hid : it'.id = it.id)
    (hgone : s.EndGone r it ↔ (s.setObj r it').EndGone r it') : Kept s (s.setObj r it') := by
  refine ⟨fun r' it'' ho' => ?_, length_setObj, rfl, rfl, fun _ => Iff.rfl⟩
  by_cases hr : r' = r
  · subst hr
    rw [ho] at ho'
    cases ho'
    exact ⟨it', getElem?_setObj_self ho, hid, hgone⟩
  · exact ⟨it'', (getElem?_setObj ho).trans ((if_neg hr).trans ho'), rfl, endGone_congr rfl rfl rfl⟩

/-- An EndWorker is queued for an iterator that did not have it behind it. -/
theorem queueEnd (ho : s.objs[r]? = some it) (hid : it'.id = it.id) (hgone : ¬ s.EndGone r it) :
    Kept s ((s.setObj r it').queue (.EndWorker r callback)) := by
  refine ⟨fun r' it'' ho' => ?_, length_setObj, rfl, rfl, fun _ => Iff.rfl⟩
  by_cases hr : r' = r
  · subst hr
    rw [ho] at ho'
    cases ho'
    refine ⟨it', getElem?_setObj_self ho, hid, iff_of_false hgone fun hg => hg.2 (.inl ?_)⟩
    rw [ends_queue, Worker.isEnd, decide_eq_true rfl]
    exact Nat.succ_pos _
  · refine ⟨it'', (getElem?_setObj ho).trans ((if_neg hr).trans ho'), rfl, endGone_congr ?_ rfl rfl⟩
    rw [ends_queue, Worker.isEnd, decide_eq_false (Ne.symm hr)]
    rfl

theorem endIterator (ho : s.objs[r]? = some it) : Kept s (s.endIterator r it callback) := by
  unfold Loop.endIterator
  split_ifs with he hn
  · exact refl s
  · exact setObj ho rfl (iff_of_false (fun hg => he hg.1) fun hg => hg.2 (.inr rfl))
  · exact queueEnd ho rfl fun hg => he hg.1

theorem closeIterator (entry : Nat × Nat) : Kept s (s.closeIterator entry) := by
  unfold Loop.closeIterator
  split
  · exact refl s
  · next it ho =>
    split_ifs
    · exact refl s
    · exact endIterator ho

theorem closeAll (l : List (Nat × Nat)) : Kept s (l.foldl Loop.closeIterator s) := by
  induction l generalizing s with
  | nil => exact refl s
  | cons entry l ih => exact (closeIterator entry).trans ih

theorem jsClose : Kept s s.jsClose := by
  unfold Loop.jsClose
  dsimp only
  have hcall : Kept s ({ s with calls := s.calls + 1 }.emit (.closeCalled s.calls)) :=
    (calls _).trans (emit fun _ => Event.noConfusion)
  split_ifs
  · exact hcall.trans (queue fun _ => rfl)
  · exact (hcall.trans (pending _)).trans (closeAll _)

theorem checkEndCallback (ho : s.objs[r]? = some it) : Kept s (s.checkEndCallback r it) := by
  unfold Loop.checkEndCallback
  split
  · exact refl s
  · next callback hw =>
    have hparked : it.endWorker.isSome = true := by
      rw [hw]
      rfl
    exact @queueEnd s r it { it with endWorker := none } callback ho rfl fun hg => hg.2 (.inr hparked)

theorem nextComplete (ho : s.objs[r]? = some it) : Kept s (s.nextComplete r call it report) := by
  unfold Loop.nextComplete
  split
  · exact (checkEndCallback ho).trans (emit fun _ => Event.noConfusion)
  · exact emit fun _ => Event.noConfusion

theorem nextExecute {openScan : ScanSpec → OpenReply} {tablePtr : Option KuduTable}
    (ht : s.pool[i]? = some ⟨.NextWorker r call, none⟩) (ho : s.objs[r]? = some it) :
    Kept s (s.nextExecute i r call it openScan tablePtr) := by
  have hf := @Iterator.iteratorNext_frame it openScan tablePtr
  have hobj : Kept s (s.setObj r (it.iteratorNext openScan tablePtr).iterator) :=
    setObj ho hf.id (endGone_congr rfl hf.ended hf.endWorker)
  exact (hobj.trans (setTask ht)).trans (emit fun _ => Event.noConfusion)

end Kept

/-- Not a creation, and not the completion of an EndWorker. -/
def Other (s : Loop) : Action → Prop
  | .jsIterator _ => False
  | .complete i => ∀ r callback report, s.pool[i]? ≠ some ⟨.EndWorker r callback, some report⟩
  | _ => True

theorem Other.complete {report' : Option Report} (ht : s.pool[i]? = some ⟨w, report'⟩)
    (hw : ∀ r, w.isEnd r = false) : s.Other (.complete i) := by
  intro r callback report ht'
  rw [ht] at ht'
  cases ht'
  have hend := hw r
  rw [Worker.isEnd, decide_eq_true rfl] at hend
  cases hend

theorem Kept.step (ha : Loop.step s a = some t) (hother : s.Other a) : Kept s t := by
  cases stepped ha with
  | jsIterator options => exact hother.elim
  | nextRefused ho he => exact (Kept.calls _).trans (.emit fun _ => Event.noConfusion)
  | @nextQueued r it ho he hn =>
    have hobj : Kept s ({ s with calls := s.calls + 1 }.setObj r { it with nexting := true }) :=
      (Kept.calls _).trans (.setObj ho rfl (endGone_congr rfl rfl rfl))
    exact (hobj.trans (.queue fun _ => rfl)).trans (.emit fun _ => Event.noConfusion)
  | jsEnd ho => exact (Kept.calls _).trans (.endIterator ho)
  | jsClose => exact .jsClose
  | nextExecuted ht ho => exact .nextExecute ht ho
  | executed ht hw => exact .setTask ht
  | nextCompleted ht ho => exact (Kept.eraseIdx ht fun _ => rfl).trans (.nextComplete ho)
  | endCompleted ht ho => exact absurd ht (hother _ _ _)
  | closeCompleted ht => exact (Kept.eraseIdx ht fun _ => rfl).trans (.emit fun _ => Event.noConfusion)

/-- Only a creation and the completion of an EndWorker change which iterators there are. -/
theorem kept_or (ha : Loop.step s a = some t) :
    Kept s t ∨ (∃ options, a = .jsIterator options ∧ t = s.jsIterator options) ∨
      ∃ i r callback report it, s.pool[i]? = some ⟨.EndWorker r callback, some report⟩ ∧ s.objs[r]? = some it ∧
        t = { s with pool := s.pool.eraseIdx i }.endComplete r it callback := by
  cases stepped ha with
  | jsIterator options => exact .inr (.inl ⟨options, rfl, rfl⟩)
  | endCompleted ht ho => exact .inr (.inr ⟨_, _, _, _, _, ht, ho, rfl⟩)
  | nextRefused | nextQueued | jsEnd | jsClose | nextExecuted | executed => exact .inl (.step ha trivial)
  | nextCompleted ht ho => exact .inl (.step ha (.complete ht fun _ => rfl))
  | closeCompleted ht => exact .inl (.step ha (.complete ht fun _ => rfl))

/-! ### Open iterators -/

/-- Created and not yet released. -/
def Open (s : Loop) (r : Nat) (it : Iterator) : Prop := s.objs[r]? = some it ∧ .released r ∉ s.log

structure OneToOne (s : Loop) : Prop where
  distinct : ∀ r r' it it', s.Open r it → s.Open r' it' → it.id = it'.id → r = r'
  registered : ∀ id r, (id, r) ∈ s.iterators.entries ↔ ∃ it, s.Open r it ∧ it.id = id
  release : ∀ i r callback report it t, s.pool[i]? = some ⟨.EndWorker r callback, some report⟩ →
    s.objs[r]? = some it → s.step (.complete i) = some t → (it.id, r) ∈ s.iterators.entries ∧
      ∀ e, e ∈ t.iterators.entries ↔ e ∈ s.iterators.entries ∧ e ≠ (it.id, r)

/-- No open iterator was created a multiple of 2^32 creations before the one that is created. -/
def NoneReturns (s : Loop) : Action → Prop
  | .jsIterator _ => ∀ r < s.objs.length, .released r ∉ s.log → ¬ 2 ^ 32 ∣ s.objs.length - r
  | _ => True

/-- A creation finds the counter at a value that is not the id of an open iterator. -/
def FreshId (s : Loop) : Action → Prop
  | .jsIterator _ => ∀ r it, s.Open r it → it.id ≠ s.currentIteratorId
  | _ => True

theorem getElem?_jsIterator {options : IteratorOptions} (ho : s.objs[r]? = some it) :
    (s.jsIterator options).objs[r]? = some it := by
  rw [jsIterator, List.getElem?_append_left (lt_length ho)]
  exact ho

theorem Open.jsIterator {options : IteratorOptions} (h : s.Open r it) : (s.jsIterator options).Open r it :=
  ⟨getElem?_jsIterator h.1, h.2⟩

theorem releaseIterator_frame (id : Nat) : (s.releaseIterator id).objs = s.objs ∧
    (∀ r, (s.releaseIterator id).ends r = s.ends r) ∧ (s.releaseIterator id).log = s.log ∧
    (s.releaseIterator id).currentIteratorId = s.currentIteratorId := by
  unfold releaseIterator
  dsimp only
  split_ifs
  · split
    · exact ⟨rfl, fun _ => rfl, rfl, rfl⟩
    · exact ⟨rfl, fun _ => ends_queue, rfl, rfl⟩
  · exact ⟨rfl, fun _ => rfl, rfl, rfl⟩

theorem endComplete_obj (s : Loop) (r' r : Nat) (it : Iterator) (callback : EndCallback) :
    (s.endComplete r it callback).objs[r']? = s.objs[r']? ∧ (s.endComplete r it callback).ends r' = s.ends r' :=
  ⟨congrArg (fun l : List Iterator => l[r']?) (releaseIterator_frame it.id).1, (releaseIterator_frame it.id).2.1 r'⟩

/-- Another EndWorker completes. -/
theorem EndGone.endComplete (hgone : s.EndGone r' it') :
    EndGone ({ s with pool := s.pool.eraseIdx i }.endComplete r it callback) r' it' := by
  refine ⟨hgone.1, fun hheld => hgone.2 (hheld.imp_left fun hpos => Nat.lt_of_lt_of_le hpos ?_)⟩
  rw [(endComplete_obj { s with pool := s.pool.eraseIdx i } r' r it callback).2]
  exact (List.eraseIdx_sublist s.pool i).countP_le

/-- The EndWorker of `r` completes: it was the only one. -/
theorem Inv.endGone_endComplete (h : s.Inv) (ht : s.pool[i]? = some ⟨.EndWorker r callback, some report⟩)
    (ho : s.objs[r]? = some it) :
    EndGone ({ s with pool := s.pool.eraseIdx i }.endComplete r it callback) r it := by
  have hone := h.one_end r it ho
  have hcount : ends { s with pool := s.pool.eraseIdx i } r + 1 = s.ends r := by
    have hadd := count_eraseIdx (f := Worker.isEnd r) ht
    rwa [Worker.isEnd, decide_eq_true rfl] at hadd
  have hended : it.ended = true := by
    cases he : it.ended with
    | true => rfl
    | false =>
      rw [he, Bool.toNat_false] at hone
      omega
  rw [hended, Bool.toNat_true] at hone
  refine ⟨hended, ?_⟩
  rintro (hpos | hsome)
  · rw [(endComplete_obj { s with pool := s.pool.eraseIdx i } r r it callback).2] at hpos
    omega
  · rw [hsome, Bool.toNat_true] at hone
    omega

/-- What carries the correspondence: a released iterator was ended and has no EndWorker left. -/
structure Registry (s : Loop) : Prop where
  inv : s.Inv
  released : ∀ r, .released r ∈ s.log → ∃ it, s.objs[r]? = some it ∧ s.EndGone r it
  registered : ∀ id r, (id, r) ∈ s.iterators.entries ↔ ∃ it, s.Open r it ∧ it.id = id

namespace Registry

theorem init : Registry init where
  inv := .init
  released r hr := by cases hr
  registered id r := by
    refine iff_of_false (fun he => by cases he) ?_
    rintro ⟨it, ⟨ho, -⟩, -⟩
    cases ho

theorem kept (h : Registry s) (hk : Kept s t) (ht : t.Inv) : Registry t := by
  refine ⟨ht, fun r hr => ?_, fun id r => ?_⟩
  · obtain ⟨it, ho, hgone⟩ := h.released r ((hk.released r).1 hr)
    obtain ⟨it', ho', -, hiff⟩ := hk.obj r it ho
    exact ⟨it', ho', hiff.1 hgone⟩
  · rw [hk.iterators, h.registered]
    constructor
    · rintro ⟨it, ⟨ho, hr⟩, rfl⟩
      obtain ⟨it', ho', hid, -⟩ := hk.obj r it ho
      exact ⟨it', ⟨ho', mt (hk.released r).1 hr⟩, hid⟩
    · rintro ⟨it', ⟨ho', hr⟩, rfl⟩
      have hlt : r < s.objs.length := hk.length ▸ lt_length ho'
      obtain ⟨it'', ho'', hid, -⟩ := hk.obj r _ (List.getElem?_eq_getElem hlt)
      rw [ho'] at ho''
      cases ho''
      exact ⟨_, ⟨List.getElem?_eq_getElem hlt, mt (hk.released r).2 hr⟩, hid.symm⟩

theorem distinct (h : Registry s) (ho : s.Open r it) (ho' : s.Open r' it') (hid : it.id = it'.id) : r = r' :=
  OrdMap.mem_unique ((h.registered it.id r).2 ⟨it, ho, rfl⟩) ((h.registered it.id r').2 ⟨it', ho', hid.symm⟩)

theorem open_new (h : Registry s) (options : IteratorOptions) :
    (s.jsIterator options).Open s.objs.length (Iterator.new s.currentIteratorId options) := by
  refine ⟨List.getElem?_concat_length, fun hr => ?_⟩
  obtain ⟨it, ho, -⟩ := h.released _ hr
  exact absurd (lt_length ho) (Nat.lt_irrefl _)

theorem jsIterator (h : Registry s) (options : IteratorOptions) (hid : s.FreshId (.jsIterator options)) :
    Registry (s.jsIterator options) := by
  have hinv : Inv (s.jsIterator options) := h.inv.jsIterator options
  have hnew := h.open_new options
  have hnewid : (Iterator.new s.currentIteratorId options).id = s.currentIteratorId :=
    Iterator.new_id options h.inv.id_lt
  refine ⟨hinv, fun r hr => ?_, fun id r => ?_⟩
  · obtain ⟨it, ho, hgone⟩ := h.released r hr
    exact ⟨it, getElem?_jsIterator ho, hgone⟩
  · constructor
    · intro he
      rcases OrdMap.mem_insert.1 he with heq | ⟨he, -⟩
      · cases heq
        exact ⟨_, hnew, hnewid⟩
      · obtain ⟨it, ho, hid'⟩ := (h.registered id r).1 he
        exact ⟨it, ho.jsIterator, hid'⟩
    · rintro ⟨it, ⟨ho, hr⟩, rfl⟩
      refine OrdMap.mem_insert.2 ?_
      rcases Nat.lt_or_ge r s.objs.length with hlt | hge
      · rw [Loop.jsIterator, List.getElem?_append_left hlt] at ho
        exact .inr ⟨(h.registered it.id r).2 ⟨it, ⟨ho, hr⟩, rfl⟩, hid r it ⟨ho, hr⟩⟩
      · have hlen := lt_length ho
        rw [Loop.jsIterator, List.length_append, List.length_singleton] at hlen
        obtain rfl : r = s.objs.length := by omega
        obtain rfl := Option.some.inj (hnew.1.symm.trans ho)
        rw [hnewid]
        exact .inl rfl

/-- The iterator of an EndWorker in the pool is open. -/
theorem open_of_end {report' : Option Report} (h : Registry s)
    (ht : s.pool[i]? = some ⟨.EndWorker r callback, report'⟩) (ho : s.objs[r]? = some it) : s.Open r it := by
  refine ⟨ho, fun hr => ?_⟩
  obtain ⟨it', -, hgone⟩ := h.released r hr
  exact absurd hgone.ends (Nat.ne_of_gt (count_pos ht (decide_eq_true rfl)))

/-- Erasing the id of an open iterator erases its entry and no other. -/
theorem mem_erase_iff (h : Registry s) (ho : s.Open r it) (e : Nat × Nat) :
    e ∈ (s.iterators.erase it.id).entries ↔ e ∈ s.iterators.entries ∧ e ≠ (it.id, r) := by
  rw [OrdMap.mem_erase]
  refine and_congr_right fun he => not_congr ⟨fun hid => ?_, fun heq => heq ▸ rfl⟩
  obtain ⟨id, r'⟩ := e
  cases hid
  exact Prod.ext rfl (OrdMap.mem_unique he ((h.registered it.id r).2 ⟨it, ho, rfl⟩))

theorem endComplete (h : Registry s) (ht : s.pool[i]? = some ⟨.EndWorker r callback, some report⟩)
    (ho : s.objs[r]? = some it) : Registry ({ s with pool := s.pool.eraseIdx i }.endComplete r it callback) := by
  have hopen : s.Open r it := h.open_of_end ht ho
  have hobj := fun r' => endComplete_obj { s with pool := s.pool.eraseIdx i } r' r it callback
  have hmem : ∀ r', .released r' ∈ ({ s with pool := s.pool.eraseIdx i }.endComplete r it callback).log ↔
      .released r' ∈ s.log ∨ r' = r := fun r' => by
    show _ ∈ (releaseIterator _ _).log ++ [_] ++ [_] ↔ _
    rw [(releaseIterator_frame _).2.2.1]
    simp
  refine ⟨(h.inv.eraseIdx ht).endComplete, fun r' hr => ?_, fun id r' => ?_⟩
  · rcases (hmem r').1 hr with hr | rfl
    · obtain ⟨it', ho', hgone⟩ := h.released r' hr
      exact ⟨it', (hobj r').1.trans ho', hgone.endComplete⟩
    · exact ⟨it, (hobj r').1.trans ho, h.inv.endGone_endComplete ht ho⟩
  · rw [endComplete_iterators, h.mem_erase_iff hopen, h.registered]
    constructor
    · rintro ⟨⟨it', ⟨ho', hr⟩, rfl⟩, hne⟩
      refine ⟨it', ⟨(hobj r').1.trans ho', fun hr' => ?_⟩, rfl⟩
      rcases (hmem r').1 hr' with hr' | rfl
      · exact hr hr'
      · rw [ho] at ho'
        cases ho'
        exact hne rfl
    · rintro ⟨it', ⟨ho', hr⟩, rfl⟩
      have hopen' : s.Open r' it' := ⟨(hobj r').1.symm.trans ho', fun hr' => hr ((hmem r').2 (.inl hr'))⟩
      refine ⟨⟨it', hopen', rfl⟩, fun heq => hr ((hmem r').2 (.inr ?_))⟩
      exact h.distinct hopen' hopen (Prod.mk.inj heq).1

theorem step (h : Registry s) (ha : Loop.step s a = some t) (hok : s.FreshId a) : Registry t := by
  rcases kept_or ha with hkept | ⟨options, rfl, rfl⟩ | ⟨i, r, callback, report, it, ht, ho, rfl⟩
  · exact h.kept hkept (h.inv.step ha)
  · exact h.jsIterator options hok
  · exact h.endComplete ht ho

theorem oneToOne (h : Registry s) : s.OneToOne := by
  refine ⟨fun r r' it it' => h.distinct, h.registered, fun i r callback report it t ht ho ha => ?_⟩
  have hopen := h.open_of_end ht ho
  refine ⟨(h.registered it.id r).2 ⟨it, hopen, rfl⟩, fun e => ?_⟩
  have ht' : t = { s with pool := s.pool.eraseIdx i }.endComplete r it callback := by
    unfold Loop.step at ha
    dsimp only at ha
    rw [ht] at ha
    dsimp only at ha
    rw [ho] at ha
    exact (Option.some.inj ha).symm
  rw [ht', endComplete_iterators]
  exact h.mem_erase_iff hopen e

end Registry

/-- The counter counts the creations, and the ids are what it was, modulo 2^32. -/
structure Numbered (s : Loop) : Prop where
  counter : s.currentIteratorId = s.objs.length % 2 ^ 32
  id : ∀ r it, s.objs[r]? = some it → it.id = r % 2 ^ 32

namespace Numbered

theorem init : Numbered init := ⟨rfl, fun r it ho => by cases ho⟩

theorem kept (h : Numbered s) (hk : Kept s t) : Numbered t := by
  refine ⟨by rw [hk.counter, hk.length, h.counter], fun r it ho => ?_⟩
  have hlt : r < s.objs.length := hk.length ▸ lt_length ho
  obtain ⟨it', ho', hid, -⟩ := hk.obj r _ (List.getElem?_eq_getElem hlt)
  rw [ho] at ho'
  cases ho'
  rw [hid, h.id r _ (List.getElem?_eq_getElem hlt)]

theorem jsIterator (h : Numbered s) (options : IteratorOptions) : Numbered (s.jsIterator options) := by
  have hlt : s.currentIteratorId < 2 ^ 32 := by
    rw [h.counter]
    exact Nat.mod_lt _ (by decide)
  refine ⟨?_, fun r it ho => ?_⟩
  · show (s.currentIteratorId + 1) % 2 ^ 32 = (s.objs ++ [_]).length % 2 ^ 32
    rw [List.length_append, List.length_singleton, h.counter]
    omega
  · rcases Nat.lt_or_ge r s.objs.length with hr | hr
    · rw [Loop.jsIterator, List.getElem?_append_left hr] at ho
      exact h.id r it ho
    · have hlen := lt_length ho
      rw [Loop.jsIterator, List.length_append, List.length_singleton] at hlen
      obtain rfl : r = s.objs.length := by omega
      rw [Loop.jsIterator, List.getElem?_concat_length] at ho
      rw [← Option.some.inj ho, Iterator.new_id options hlt, h.counter]

theorem step (h : Numbered s) (ha : Loop.step s a = some t) : Numbered t := by
  rcases kept_or ha with hkept | ⟨options, rfl, rfl⟩ | ⟨i, r, callback, report, it, ht, ho, rfl⟩
  · exact h.kept hkept
  · exact h.jsIterator options
  · have hframe := releaseIterator_frame (s := { s with pool := s.pool.eraseIdx i }) it.id
    have hobj := fun r' => (endComplete_obj { s with pool := s.pool.eraseIdx i } r' r it callback).1
    refine ⟨?_, fun r' it' ho' => h.id r' it' ((hobj r').symm.trans ho')⟩
    show (releaseIterator _ _).currentIteratorId = (releaseIterator _ _).objs.length % 2 ^ 32
    rw [hframe.2.2.2, hframe.1]
    exact h.counter

theorem freshId_iff (h : Numbered s) : s.FreshId a ↔ s.NoneReturns a := by
  cases a with
  | jsIterator options =>
    constructor
    · intro hid r hr hopen
      have := hid r _ ⟨List.getElem?_eq_getElem hr, hopen⟩
      rw [h.id r _ (List.getElem?_eq_getElem hr), h.counter] at this
      omega
    · intro hnone r it ho
      have hr := lt_length ho.1
      have := hnone r hr ho.2
      rw [h.id r it ho.1, h.counter]
      omega
  | jsNext | jsEnd | jsClose | execute | complete => exact Iff.rfl

end Numbered

/-- As long as no iterator is created a multiple of 2^32 creations after one that is still open, ids and open
iterators correspond one to one, and the first creation that is ends this. -/
theorem registry_one_to_one (h : Run (Steps step NoneReturns) init as s) :
    s.OneToOne ∧ ∀ options, (s.jsIterator options).OneToOne ↔ s.NoneReturns (.jsIterator options) := by
  have hboth : Numbered s ∧ Registry s := h.inv (I := fun s => Numbered s ∧ Registry s)
    (fun _ _ _ hs ha => ⟨hs.1.step ha.1, hs.2.step ha.1 (hs.1.freshId_iff.2 ha.2)⟩) ⟨.init, .init⟩
  obtain ⟨hn, hs⟩ := hboth
  refine ⟨hs.oneToOne, fun options => ?_⟩
  rw [← hn.freshId_iff]
  refine ⟨fun h1 r it ho hid => ?_, fun hid => (hs.jsIterator options hid).oneToOne⟩
  have hnewid : (Iterator.new s.currentIteratorId options).id = s.currentIteratorId :=
    Iterator.new_id options hs.inv.id_lt
  have hr := h1.distinct r s.objs.length it _ ho.jsIterator (hs.open_new options) (hid.trans hnewid.symm)
  exact absurd (lt_length ho.1) (hr ▸ Nat.lt_irrefl _)

/-- Of two iterators the first is ended. -/
theorem registry_one_to_one_first :
    ∃ s, exec step init [.jsIterator {}, .jsIterator {}, .jsEnd 0, .execute 0 noRows none, .complete 0] = some s ∧
      s.OneToOne ∧ ∀ options, (s.jsIterator options).OneToOne ↔ s.NoneReturns (.jsIterator options) := by
  refine ⟨_, rfl, @registry_one_to_one _
    [.jsIterator {}, .jsIterator {}, .jsEnd 0, .execute 0 noRows none, .complete 0] ?_⟩
  refine .cons ⟨rfl, fun r hr => absurd hr (Nat.not_lt_zero r)⟩ (.cons ⟨rfl, fun r (hr : r < 1) _ => ?_⟩ ?_)
  · show ¬ 2 ^ 32 ∣ 1 - r
    omega
  · exact .cons ⟨rfl, trivial⟩ (.cons ⟨rfl, trivial⟩ (.single ⟨rfl, trivial⟩))

/-! ### 2^32 creations -/

/-- An iterator is created, as number `r`, and ended at once. -/
def createAndEnd (r : Nat) : List Action := [.jsIterator {}, .jsEnd r, .execute 0 noRows none, .complete 0]

/-- After `n` times `createAndEnd`, with iterator 0 left open. -/
structure Cycled (n : Nat) (s : Loop) : Prop where
  pool : s.pool = []
  pending : s.pendingCloseWorker = none
  length : s.objs.length = n + 1
  id : s.currentIteratorId = (n + 1) % 2 ^ 32
  first : ∃ it, s.Open 0 it ∧ it.id = 0
  released : ∀ r, .released r ∈ s.log → r ≤ n

theorem releaseIterator_of_none (h : s.pendingCloseWorker = none) :
    s.releaseIterator id = { s with iterators := s.iterators.erase id } := by
  unfold releaseIterator
  dsimp only
  rw [h]
  split_ifs <;> rfl

theorem complete_end {objs : List Iterator} (callback : EndCallback) (cur n : Nat) (iterators : OrdMap Nat Nat)
    (log : List Event) (ho : objs[r]? = some it) :
    step ⟨objs, cur, iterators, none, [⟨.EndWorker r callback, some (.ok [] true)⟩], n, log⟩ (.complete 0) =
      some ⟨objs, cur, iterators.erase it.id, none, [], n, log ++ [.released r] ++ [.endCallback r callback]⟩ := by
  unfold step
  dsimp only [List.getElem?_cons_zero]
  rw [ho, Option.map_some, endComplete, releaseIterator_of_none rfl]
  rfl

theorem Cycled.next {n : Nat} (h : Cycled n s) :
    ∃ t, Run (Steps step fun _ _ => True) s (createAndEnd (n + 1)) t ∧ Cycled (n + 1) t := by
  obtain ⟨objs, cur, iterators, pending, pool, calls, log⟩ := s
  obtain ⟨hpool, hpending, hlength, hid, ⟨it, ⟨ho, hlog⟩, hzero⟩, hreleased⟩ := h
  dsimp only at hpool hpending hlength hid ho hlog hreleased
  subst hpool hpending
  have hnew : (objs ++ [Iterator.new cur {}])[n + 1]? = some (Iterator.new cur {}) := by
    rw [← hlength]
    exact List.getElem?_concat_length
  have hset : ((objs ++ [Iterator.new cur {}]).set (n + 1) { Iterator.new cur {} with ended := true })[n + 1]? =
      some { Iterator.new cur {} with ended := true } := by
    refine List.getElem?_set_self ?_
    rw [List.length_append, hlength]
    exact Nat.lt_succ_self _
  have hend : step (jsIterator ⟨objs, cur, iterators, none, [], calls, log⟩ {}) (.jsEnd (n + 1)) = some
      ⟨(objs ++ [Iterator.new cur {}]).set (n + 1) { Iterator.new cur {} with ended := true }, (cur + 1) % 2 ^ 32,
        iterators.insert cur objs.length, none, [⟨.EndWorker (n + 1) (.js calls), none⟩], calls + 1, log⟩ := by
    unfold step jsIterator
    dsimp only
    rw [hnew]
    rfl
  have hcomplete := complete_end (.js calls) ((cur + 1) % 2 ^ 32) (calls + 1)
    (iterators.insert cur objs.length) log hset
  refine ⟨_, .cons ⟨rfl, trivial⟩ (.cons ⟨hend, trivial⟩ (.cons ⟨rfl, trivial⟩ (.single ⟨hcomplete, trivial⟩))),
    rfl, rfl, ?_, ?_, ⟨it, ⟨?_, ?_⟩, hzero⟩, fun r hr => ?_⟩
  · rw [List.length_set, List.length_append, hlength]
    rfl
  · show (cur + 1) % 2 ^ 32 = (n + 1 + 1) % 2 ^ 32
    omega
  · show ((objs ++ [Iterator.new cur {}]).set (n + 1) _)[0]? = some it
    rw [List.getElem?_set_ne (Nat.succ_ne_zero n), List.getElem?_append_left (hlength ▸ Nat.succ_pos n)]
    exact ho
  · simp [hlog]
  · simp only [List.mem_append, List.mem_singleton, Event.released.injEq, reduceCtorEq, or_false] at hr
    rcases hr with hr | rfl
    · exact Nat.le_succ_of_le (hreleased r hr)
    · exact Nat.le_refl _

/-- Iterator 0 is created and left open while `n` others come and go. -/
def leftOpen (n : Nat) : List Action :=
  .jsIterator {} :: (List.range n).flatMap (fun k => createAndEnd (k + 1))

theorem cycled (n : Nat) : ∃ t, Run (Steps step fun _ _ => True) init (leftOpen n) t ∧ Cycled n t := by
  induction n with
  | zero =>
    have hzero : (Iterator.new 0 {}).id = 0 := Iterator.new_id {} (by omega)
    refine ⟨init.jsIterator {}, .single ⟨rfl, trivial⟩, rfl, rfl, rfl, ?_, ⟨_, ⟨rfl, List.not_mem_nil⟩, hzero⟩,
      fun r hr => by cases hr⟩
    show (0 + 1) % 2 ^ 32 = (0 + 1) % 2 ^ 32
    rfl
  | succ n ih =>
    obtain ⟨s, hs, hcycled⟩ := ih
    obtain ⟨t, ht, hnext⟩ := hcycled.next
    refine ⟨t, ?_, hnext⟩
    unfold leftOpen at hs ⊢
    rw [List.range_succ, List.flatMap_append, List.flatMap_singleton, ← List.cons_append]
    exact hs.append ht

/-- The counter comes back to 0 while iterator 0 is open: the next iterator gets its id and its entry. -/
theorem registry_lost : ∃ t, Run (Steps step fun _ _ => True) init (leftOpen (2 ^ 32 - 1) ++ [.jsIterator {}]) t ∧
    ¬ t.OneToOne := by
  obtain ⟨s, hs, hcycled⟩ := cycled (2 ^ 32 - 1)
  obtain ⟨it, ho, hzero⟩ := hcycled.first
  refine ⟨s.jsIterator {}, hs.append (.single ⟨rfl, trivial⟩), fun h => ?_⟩
  have hlt := lt_length ho.1
  have hlength := hcycled.length
  have hcur : s.currentIteratorId = 0 := by
    rw [hcycled.id]
    omega
  have hnew : (s.jsIterator {}).Open s.objs.length (Iterator.new 0 {}) := by
    refine ⟨?_, fun hr => ?_⟩
    · rw [jsIterator, List.getElem?_concat_length, hcur]
    · have := hcycled.released _ hr
      omega
  have hids := h.distinct 0 s.objs.length it _ ho.jsIterator hnew (hzero.trans (Iterator.new_id {} (by omega)).symm)
  omega

end Loop

end Kududown
