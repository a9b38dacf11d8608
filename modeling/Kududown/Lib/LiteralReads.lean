import Kududown.Lib.Literal

/-!
# What a reader has committed itself to

What has been read stands in the value in the end (`Parser.Fits`, `Dialect.fits_of_run`). So two readers that are at the
same place and go on to the same value read the same string there (`Parser.Reads.unique`), and a string that is being
read is the beginning of the one in the value (`Dialect.closes`).
-/

namespace Literal

/-- `x` is what `whole` has where the frame is read for. -/
def Frame.Item : Frame → Value → Value → Prop
  | .array items, whole, x => ∃ rest, whole = .array (items ++ x :: rest)
  | .object properties name, whole, x => ∃ rest, whole = .object (properties ++ (name, x) :: rest)

/-- `x` is what `v` has where the innermost frame is read for. -/
def At : List Frame → Value → Value → Prop
  | [], v, x => v = x
  | f :: stack, v, x => ∃ whole, At stack v whole ∧ f.Item whole x

namespace Parser

/-- `v` has what has been read, where it has been read. -/
def Fits : Parser → Value → Prop
  | .value stack, v => ∃ x, At stack v x
  | .firstItem stack, v => ∃ items, At stack v (.array items)
  | .afterItem items stack, v => ∃ rest, At stack v (.array (items ++ rest))
  | .firstKey stack, v => ∃ properties, At stack v (.object properties)
  | .key properties stack, v => ∃ rest, At stack v (.object (properties ++ rest))
  | .colon properties name stack, v => ∃ x rest, At stack v (.object (properties ++ (name, x) :: rest))
  | .afterMember properties stack, v => ∃ rest, At stack v (.object (properties ++ rest))
  | .done w, v => v = w

/-- `v` has the string `s`, as a value or as a property name, where the parser reads on. -/
def Reads : Parser → Value → JSString → Prop
  | .value stack, v, s => At stack v (.string s)
  | .firstItem stack, v, s => At (.array [] :: stack) v (.string s)
  | .firstKey stack, v, s => ∃ x rest, At stack v (.object ((s, x) :: rest))
  | .key properties stack, v, s => ∃ x rest, At stack v (.object (properties ++ (s, x) :: rest))
  | .afterItem .., _, _ | .colon .., _, _ | .afterMember .., _, _ | .done _, _, _ => False

end Parser

variable {D : Dialect} {p q : Parser} {t : Token} {v a x y : Value} {stack : List Frame} {s u : State} {c : Char}
  {text w : List Char} {units units' : JSString}

theorem At.unique (h : At stack v x) (h' : At stack v y) : x = y := by
  induction stack generalizing x y with
  | nil => exact h.symm.trans h'
  | cons f stack ih =>
    obtain ⟨whole, hat, hitem⟩ := h
    obtain ⟨whole', hat', hitem'⟩ := h'
    cases ih hat hat'
    cases f with
    | array items =>
      obtain ⟨rest, rfl⟩ := hitem
      obtain ⟨rest', heq⟩ := hitem'
      cases List.append_cancel_left (Value.array.inj heq)
      rfl
    | object properties name =>
      obtain ⟨rest, rfl⟩ := hitem
      obtain ⟨rest', heq⟩ := hitem'
      cases List.append_cancel_left (Value.object.inj heq)
      rfl

theorem Parser.Reads.unique (h : p.Reads v units) (h' : p.Reads v units') : units = units' := by
  cases p with
  | value stack => exact Value.string.inj (h.unique h')
  | firstItem stack => exact Value.string.inj (h.unique h')
  | firstKey stack =>
    obtain ⟨x, rest, hat⟩ := h
    obtain ⟨x', rest', hat'⟩ := h'
    cases hat.unique hat'
    rfl
  | key properties stack =>
    obtain ⟨x, rest, hat⟩ := h
    obtain ⟨x', rest', hat'⟩ := h'
    cases List.append_cancel_left (Value.object.inj (hat.unique hat'))
    rfl
  | afterItem | colon | afterMember | done => cases h

/-! ### One step -/

theorem fits_complete (h : (complete a stack).Fits v) : At stack v a := by
  rcases stack with _ | ⟨items | ⟨properties, name⟩, stack⟩
  · exact h
  · obtain ⟨rest, hat⟩ := h
    rw [List.append_assoc] at hat
    exact ⟨_, hat, rest, rfl⟩
  · obtain ⟨rest, hat⟩ := h
    rw [List.append_assoc] at hat
    exact ⟨_, hat, rest, rfl⟩

theorem fits_startValue (h : startValue t stack = some q) (hq : q.Fits v) : ∃ x, At stack v x := by
  unfold startValue at h
  split_ifs at h
  · cases h
    obtain ⟨properties, hat⟩ := hq
    exact ⟨_, hat⟩
  · cases h
    obtain ⟨items, hat⟩ := hq
    exact ⟨_, hat⟩
  · obtain ⟨a, -, rfl⟩ := Option.map_eq_some_iff.1 h
    exact ⟨a, fits_complete hq⟩

/-- What fits after a token fits before it. -/
theorem fits_token (h : D.token p t = some q) (hq : q.Fits v) : p.Fits v := by
  cases p with
  | value stack => exact fits_startValue h hq
  | firstItem stack =>
    simp only [Dialect.token] at h
    split_ifs at h
    · cases h
      exact ⟨[], fits_complete hq⟩
    · obtain ⟨x, whole, hat, rest, rfl⟩ := fits_startValue h hq
      exact ⟨_, hat⟩
  | afterItem items stack =>
    simp only [Dialect.token] at h
    split_ifs at h
    · cases h
      obtain ⟨x, whole, hat, rest, rfl⟩ := hq
      exact ⟨_, hat⟩
    · cases h
      refine ⟨[], ?_⟩
      rw [List.append_nil]
      exact fits_complete hq
  | firstKey stack =>
    simp only [Dialect.token] at h
    split_ifs at h
    · cases h
      exact ⟨[], fits_complete hq⟩
    · obtain ⟨name, -, rfl⟩ := Option.map_eq_some_iff.1 h
      obtain ⟨x, rest, hat⟩ := hq
      exact ⟨_, hat⟩
  | key properties stack =>
    obtain ⟨name, -, rfl⟩ := Option.map_eq_some_iff.1 h
    obtain ⟨x, rest, hat⟩ := hq
    exact ⟨_, hat⟩
  | colon properties name stack =>
    simp only [Dialect.token] at h
    split_ifs at h
    cases h
    obtain ⟨x, whole, hat, rest, rfl⟩ := hq
    exact ⟨x, rest, hat⟩
  | afterMember properties stack =>
    simp only [Dialect.token] at h
    split_ifs at h
    · cases h
      exact hq
    · cases h
      refine ⟨[], ?_⟩
      rw [List.append_nil]
      exact fits_complete hq
  | done w => cases h

theorem fits_flush (h : D.flush p w = some q) (hq : q.Fits v) : p.Fits v := by
  unfold Dialect.flush at h
  split_ifs at h
  · cases h
    exact hq
  · exact fits_token h hq

theorem fits_delimit (h : D.delimit p c = some q) (hq : q.Fits v) : p.Fits v := by
  unfold Dialect.delimit at h
  split_ifs at h
  · exact fits_token h hq
  · cases h
    exact hq

theorem fits_step (h : D.step s c = some u) (hu : u.parser.Fits v) : s.parser.Fits v := by
  obtain ⟨lex, p⟩ := s
  cases lex with
  | bare w =>
    simp only [Dialect.step] at h
    split_ifs at h
    · cases h
      exact hu
    · cases h
      exact hu
    · obtain ⟨q, hq, h⟩ := Option.bind_eq_some_iff.1 h
      obtain ⟨r, hr, rfl⟩ := Option.map_eq_some_iff.1 h
      exact fits_flush hq (fits_delimit hr hu)
  | string mode units =>
    simp only [Dialect.step] at h
    split_ifs at h
    · obtain ⟨q, hq, rfl⟩ := Option.map_eq_some_iff.1 h
      exact fits_token hq hu
    · obtain ⟨r, -, rfl⟩ := Option.map_eq_some_iff.1 h
      exact hu

/-! ### The whole text -/

/-- A text that is read from `s` and has the value `v`. -/
def Dialect.Ends (D : Dialect) (s : State) (text : List Char) (v : Value) : Prop :=
  ∃ t, D.run s text = some t ∧ D.finish t = some v

theorem ends_nil : D.Ends s [] v ↔ D.finish s = some v := by
  refine ⟨fun h => ?_, fun h => ⟨s, rfl, h⟩⟩
  obtain ⟨t, hrun, hfinish⟩ := h
  cases hrun
  exact hfinish

theorem ends_cons : D.Ends s (c :: text) v ↔ ∃ u, D.step s c = some u ∧ D.Ends u text v := by
  refine ⟨fun h => ?_, fun h => ?_⟩
  · obtain ⟨t, hrun, hfinish⟩ := h
    obtain ⟨u, hu, hrun⟩ := Option.bind_eq_some_iff.1 hrun
    exact ⟨u, hu, t, hrun, hfinish⟩
  · obtain ⟨u, hu, t, hrun, hfinish⟩ := h
    refine ⟨t, ?_, hfinish⟩
    rw [Dialect.run_cons, hu]
    exact hrun

theorem ends_append {text' : List Char} : D.Ends s (text ++ text') v ↔ ∃ u, D.run s text = some u ∧ D.Ends u text' v := by
  refine ⟨fun h => ?_, fun h => ?_⟩
  · obtain ⟨t, hrun, hfinish⟩ := h
    rw [Dialect.run_append] at hrun
    obtain ⟨u, hu, hrun⟩ := Option.bind_eq_some_iff.1 hrun
    exact ⟨u, hu, t, hrun, hfinish⟩
  · obtain ⟨u, hu, t, hrun, hfinish⟩ := h
    refine ⟨t, ?_, hfinish⟩
    rw [Dialect.run_append, hu]
    exact hrun

theorem ends_of_run {o : Option Parser} {text' : List Char} (h : D.run s text = o.bind fun q => D.run ⟨.bare [], q⟩ text') :
    D.Ends s text v ↔ ∃ q, o = some q ∧ D.Ends ⟨.bare [], q⟩ text' v := by
  unfold Dialect.Ends
  rw [h]
  cases o <;> simp

theorem ends_string {body : List Char} (hquotes : '"' ∉ body) (hvalue : D.stringValue body = some units) :
    D.Ends ⟨.bare [], p⟩ ('"' :: (body ++ '"' :: text)) v ↔
      ∃ q, D.token p (.string units) = some q ∧ D.Ends ⟨.bare [], q⟩ text v :=
  ends_of_run (Dialect.run_string hquotes hvalue)

theorem ends_colon : D.Ends ⟨.bare [], p⟩ (' ' :: ':' :: text) v ↔
    ∃ q, D.token p (.punct ':') = some q ∧ D.Ends ⟨.bare [], q⟩ text v :=
  ends_of_run Dialect.run_colon

theorem ends_word (hne : w ≠ []) (hw : ∀ c ∈ w, isWordChar c = true) :
    D.Ends ⟨.bare [], p⟩ (w ++ ' ' :: text) v ↔
      ∃ q, D.token p (.word w) = some q ∧ D.Ends ⟨.bare [], q⟩ (' ' :: text) v :=
  ends_of_run (Dialect.run_word_space hne hw)

/-- Outside of a string a character that is no quote goes on with the word, or ends it. -/
theorem ends_bare (hc : c ≠ '"') (h : D.Ends ⟨.bare w, p⟩ (c :: text) v) :
    D.Ends ⟨.bare (w ++ [c]), p⟩ text v ∨
      ∃ q r, D.flush p w = some q ∧ D.delimit q c = some r ∧ D.Ends ⟨.bare [], r⟩ text v := by
  obtain ⟨u, hu, hends⟩ := ends_cons.1 h
  rw [Dialect.step, if_neg hc] at hu
  split_ifs at hu
  · cases hu
    exact .inl hends
  · obtain ⟨q, hq, hu⟩ := Option.bind_eq_some_iff.1 hu
    obtain ⟨r, hr, rfl⟩ := Option.map_eq_some_iff.1 hu
    exact .inr ⟨q, r, hq, hr, hends⟩

/-- Whatever has been read before a text stands in its value. -/
theorem fits_of_ends (h : D.Ends s text v) : s.parser.Fits v := by
  induction text generalizing s with
  | nil =>
    have hfinish := ends_nil.1 h
    obtain ⟨lex, p⟩ := s
    cases lex with
    | bare w =>
      obtain ⟨q, hq, hresult⟩ := Option.bind_eq_some_iff.1 hfinish
      refine fits_flush hq ?_
      cases q <;> cases hresult
      rfl
    | string mode units => cases hfinish
  | cons c text ih =>
    obtain ⟨u, hu, hends⟩ := ends_cons.1 h
    exact fits_step hu (ih hends)

/-! ### Strings -/

theorem reads_string (h : D.token p (.string units) = some q) (hq : q.Fits v) : p.Reads v units := by
  cases p with
  | value stack =>
    cases h
    exact fits_complete hq
  | firstItem stack =>
    cases h
    exact fits_complete hq
  | firstKey stack =>
    obtain ⟨name, hname, rfl⟩ := Option.map_eq_some_iff.1 h
    obtain ⟨-, rfl⟩ := Dialect.nameOf_string.1 hname
    exact hq
  | key properties stack =>
    obtain ⟨name, hname, rfl⟩ := Option.map_eq_some_iff.1 h
    obtain ⟨-, rfl⟩ := Dialect.nameOf_string.1 hname
    exact hq
  | afterItem | colon | afterMember | done => cases h

/-- Nothing of a string is taken back, and an escape adds something to it in the end. -/
theorem strStep_grows {mode : StrMode} {r : StrMode × JSString} (h : D.strStep (mode, units) c = some r) :
    ∃ more, r.2 = units ++ more ∧ (mode ≠ .plain → more ≠ [] ∨ r.1 ≠ .plain) := by
  cases mode with
  | plain =>
    simp only [Dialect.strStep] at h
    split_ifs at h
    · cases h
      exact ⟨[], (List.append_nil _).symm, fun hne => absurd rfl hne⟩
    · cases h
      exact ⟨utf16 c, rfl, fun hne => absurd rfl hne⟩
  | escape =>
    simp only [Dialect.strStep] at h
    split_ifs at h
    · cases h
      exact ⟨[], (List.append_nil _).symm, fun _ => .inr (by simp)⟩
    · obtain ⟨e, he, rfl⟩ := Option.map_eq_some_iff.1 h
      exact ⟨e, rfl, fun _ => .inl (D.escape_ne_nil c e he)⟩
  | unicode left value =>
    obtain ⟨d, -, rfl⟩ := Option.map_eq_some_iff.1 h
    by_cases hleft : left ≤ 1
    · rw [if_pos hleft]
      exact ⟨[UInt16.ofNat (16 * value + d)], rfl, fun _ => .inl (List.cons_ne_nil _ _)⟩
    · rw [if_neg hleft]
      exact ⟨[], (List.append_nil _).symm, fun _ => .inr (by simp)⟩

theorem foldlM_grows {r r' : StrMode × JSString} (h : text.foldlM D.strStep r = some r') : r.2 <+: r'.2 := by
  induction text generalizing r with
  | nil =>
    cases h
    exact List.prefix_rfl
  | cons c text ih =>
    obtain ⟨u, hu, h⟩ := Option.bind_eq_some_iff.1 h
    obtain ⟨more, hmore, -⟩ := strStep_grows hu
    have hprefix := ih h
    rw [hmore] at hprefix
    exact (List.prefix_append _ _).trans hprefix

/-- What comes does not depend on what there is. -/
theorem strStep_append {mode : StrMode} {before : JSString} :
    D.strStep (mode, before ++ units) c = (D.strStep (mode, units) c).map fun r => (r.1, before ++ r.2) := by
  cases mode with
  | plain =>
    simp only [Dialect.strStep]
    split_ifs <;> simp
  | escape =>
    simp only [Dialect.strStep]
    split_ifs
    · rfl
    · cases D.escape c <;> simp
  | unicode left value =>
    simp only [Dialect.strStep]
    cases hexDigit c with
    | none => rfl
    | some d =>
      simp only [Option.map_some]
      split_ifs <;> simp

theorem foldlM_append {mode : StrMode} {before : JSString} :
    text.foldlM D.strStep (mode, before ++ units) =
      (text.foldlM D.strStep (mode, units)).map fun r => (r.1, before ++ r.2) := by
  induction text generalizing mode units with
  | nil => rfl
  | cons c text ih =>
    rw [List.foldlM_cons, List.foldlM_cons, strStep_append]
    cases D.strStep (mode, units) c with
    | none => rfl
    | some r => exact ih

/-- What stands in a string now is where the string in the value begins. -/
theorem closes {mode : StrMode} (h : D.Ends ⟨.string mode units, p⟩ text v) :
    ∃ units', p.Reads v units' ∧ units <+: units' ∧ (mode ≠ .plain → units.length < units'.length) := by
  induction text generalizing mode units with
  | nil => cases ends_nil.1 h
  | cons c text ih =>
    obtain ⟨s, hs, hends⟩ := ends_cons.1 h
    simp only [Dialect.step] at hs
    split_ifs at hs with hclose
    · obtain ⟨q, hq, rfl⟩ := Option.map_eq_some_iff.1 hs
      exact ⟨units, reads_string hq (fits_of_ends hends), List.prefix_rfl, fun hne => absurd hclose.2 hne⟩
    · obtain ⟨r, hr, rfl⟩ := Option.map_eq_some_iff.1 hs
      obtain ⟨units', hreads, hprefix, hlength⟩ := ih hends
      refine ⟨units', hreads, ?_⟩
      obtain ⟨more, hmore, hadds⟩ := strStep_grows hr
      rw [hmore] at hprefix hlength
      refine ⟨(List.prefix_append _ _).trans hprefix, fun hne => ?_⟩
      have hle := hprefix.length_le
      rw [List.length_append] at hle hlength
      rcases hadds hne with hmore | hmode
      · have hpos := List.length_pos_iff.2 hmore
        omega
      · have hlt := hlength hmode
        omega

/-! ### Property names -/

def Parser.ForName : Parser → Prop
  | .firstKey _ | .key .. => True
  | _ => False

/-- A string that a colon follows is a property name. -/
theorem forName_of_colon {q' : Parser} (h : D.token p (.string units) = some q)
    (hcolon : D.token q (.punct ':') = some q') : p.ForName := by
  have hvalue : ∀ stack, some (complete (.string units) stack) ≠ some q := by
    intro stack heq
    cases heq
    rw [Dialect.token_complete] at hcolon
    cases hcolon
  cases p with
  | value stack => exact absurd h (hvalue stack)
  | firstItem stack => exact absurd h (hvalue (.array [] :: stack))
  | firstKey | key => trivial
  | afterItem | colon | afterMember | done => cases h

theorem reads_word (hp : p.ForName) (h : D.token p (.word w) = some q) (hq : q.Fits v) :
    ∃ n, D.nameOf (.word w) = some n ∧ p.Reads v n := by
  cases p with
  | firstKey stack | key properties stack =>
    obtain ⟨n, hn, rfl⟩ := Option.map_eq_some_iff.1 h
    exact ⟨n, hn, hq⟩
  | value | firstItem | afterItem | colon | afterMember | done => cases hp

/-- Where a word names a property, the name in quotes does. -/
theorem token_string {n : JSString} (hp : p.ForName) (h : D.token p (.word w) = some q) (hname : D.name w = some n) :
    D.token p (.string n) = some q := by
  cases p with
  | firstKey stack | key properties stack =>
    obtain ⟨m, hm, rfl⟩ := Option.map_eq_some_iff.1 h
    obtain ⟨hm, hproperty⟩ := Dialect.nameOf_word.1 hm
    rw [hname] at hm
    cases hm
    show (D.nameOf (.string n)).map _ = _
    rw [Dialect.nameOf_string.2 ⟨hproperty, rfl⟩]
    rfl
  | value | firstItem | afterItem | colon | afterMember | done => cases hp

/-- The end of the object is not where it has another property. -/
theorem not_reads_punct (hp : p.ForName) (hreads : p.Reads v units) (h : D.token p (.punct c) = some q) (hq : q.Fits v) :
    False := by
  cases p with
  | firstKey stack =>
    obtain ⟨x, rest, hat⟩ := hreads
    simp only [Dialect.token] at h
    split_ifs at h
    · cases h
      cases hat.unique (fits_complete hq)
    · cases h
  | key properties stack => cases h
  | value | firstItem | afterItem | colon | afterMember | done => cases hp

/-- Where the value has a property and the text no quote, a word names the property. -/
theorem word_reads {acc body rest : List Char} (hp : p.ForName) (hreads : p.Reads v units) (hquotes : '"' ∉ body)
    (h : D.Ends ⟨.bare acc, p⟩ (body ++ ' ' :: ':' :: rest) v) : ∃ w, D.name w = some units := by
  have hword : ∀ {w : List Char} {q : Parser}, D.token p (.word w) = some q → q.Fits v → ∃ w, D.name w = some units := by
    intro w q hq hfits
    obtain ⟨n, hn, hreads'⟩ := reads_word hp hq hfits
    rw [hreads.unique hreads']
    exact ⟨w, (Dialect.nameOf_word.1 hn).1⟩
  induction body generalizing acc with
  | nil =>
    obtain ⟨u, hu, hends⟩ := ends_cons.1 h
    obtain ⟨q, hq, hu⟩ := Option.bind_eq_some_iff.1 hu
    cases hu
    unfold Dialect.flush at hq
    split_ifs at hq
    · cases hq
      obtain ⟨u, hu, hends⟩ := ends_cons.1 hends
      obtain ⟨q, hq, rfl⟩ := Option.map_eq_some_iff.1 hu
      exact (not_reads_punct hp hreads hq (fits_of_ends hends)).elim
    · exact hword hq (fits_of_ends hends)
  | cons c body ih =>
    have hc : c ≠ '"' := fun h => hquotes (h ▸ List.mem_cons_self)
    have hbody : '"' ∉ body := fun h => hquotes (List.mem_cons_of_mem _ h)
    rcases ends_bare hc h with hends | ⟨q, r, hq, hr, hends⟩
    · exact ih hbody hends
    · unfold Dialect.flush at hq
      split_ifs at hq
      · cases hq
        unfold Dialect.delimit at hr
        split_ifs at hr
        · exact (not_reads_punct hp hreads hr (fits_of_ends hends)).elim
        · cases hr
          exact ih hbody hends
      · exact hword hq (fits_delimit hr (fits_of_ends hends))

theorem token_word_none (hname : D.name w = none) (hconstant : constant w = none) : D.token p (.word w) = none := by
  have hvalue : ∀ stack, startValue (.word w) stack = none := by
    intro stack
    show (constant w).map _ = none
    rw [hconstant]
    rfl
  have hkey : D.nameOf (.word w) = none := by
    show (D.name w).filter D.property = none
    rw [hname]
    rfl
  cases p with
  | value stack => exact hvalue stack
  | firstItem stack => exact hvalue (.array [] :: stack)
  | firstKey stack =>
    show (D.nameOf (.word w)).map _ = none
    rw [hkey]
    rfl
  | key properties stack =>
    show (D.nameOf (.word w)).map _ = none
    rw [hkey]
    rfl
  | afterItem | colon | afterMember | done => rfl

/-- No text has a backslash and a space outside of its strings. -/
theorem not_ends_backslash {acc body rest : List Char} (hname : ∀ w, D.name (w ++ ['\\']) = none)
    (hconstant : ∀ w, constant (w ++ ['\\']) = none) (hquotes : '"' ∉ body) :
    ¬ D.Ends ⟨.bare acc, p⟩ (body ++ '\\' :: ' ' :: rest) v := by
  intro h
  induction body generalizing acc p with
  | nil =>
    obtain ⟨u, hu, hends⟩ := ends_cons.1 h
    cases hu
    obtain ⟨u, hu, hends⟩ := ends_cons.1 hends
    obtain ⟨q, hq, hu⟩ := Option.bind_eq_some_iff.1 hu
    unfold Dialect.flush at hq
    rw [if_neg (List.append_ne_nil_of_right_ne_nil _ (List.cons_ne_nil _ _)), token_word_none (hname acc) (hconstant acc)]
      at hq
    cases hq
  | cons c body ih =>
    have hc : c ≠ '"' := fun h => hquotes (h ▸ List.mem_cons_self)
    have hbody : '"' ∉ body := fun h => hquotes (List.mem_cons_of_mem _ h)
    rcases ends_bare hc h with hends | ⟨q, r, hq, hr, hends⟩
    · exact ih hbody hends
    · exact ih hbody hends

end Literal
