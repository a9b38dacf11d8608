import Kududown.Lib.LiteralReads

/-!
# Quotes that a text can lose

`name_of_ends`: when two quotes with ` :` behind them are taken out of a JSON text, and what is left is an object literal
of the same value, then the quotes stood around a property name, and without them that name is a word for the same
property. Anywhere else the loss shows. In a string it makes the string longer or takes a quote out of it, and outside of
one a quote that is taken away either glues a word together that is none or leaves a backslash in the open.
-/

namespace Literal

variable {E : Ecma} {p : Parser} {v : Value} {s : State} {c d : Char} {body w : List Char} {n units : JSString} {x : UInt16}

/-! ### Characters -/

/-- The characters that end a word. -/
def delimiters : List Char := ['"', ' ', '\t', '\n', '\r', '\x7b', '\x7d', '[', ']', ':', ',']

theorem not_isWordChar (h : isWordChar c = false) : c ∈ delimiters := by
  simp only [isWordChar, isSpace, isPunct, Bool.not_eq_false', Bool.or_eq_true, decide_eq_true_eq] at h
  simp only [delimiters, List.mem_cons, List.not_mem_nil, or_false]
  tauto

theorem of_delimiters {P : Char → Prop} [DecidablePred P] (hall : delimiters.all (fun d => decide (P d)) = true)
    (hc : isWordChar c = false) : P c :=
  of_decide_eq_true (List.all_eq_true.1 hall c (not_isWordChar hc))

theorem isWordChar_of_isIdentifierChar {first : Bool} (h : E.isIdentifierChar first c = true) : isWordChar c = true := by
  by_contra hc
  have hnot : ∀ d ∈ delimiters, E.isIdentifierChar first d = false := by
    simp [delimiters, Ecma.isIdentifierChar, Char.isAlpha, Char.isUpper, Char.isLower, Char.isDigit]
  rw [hnot c (not_isWordChar (Bool.not_eq_true _ ▸ hc))] at h
  cases h

theorem utf16_eq (hc : isWordChar c = false) : utf16 c = [UInt16.ofNat c.toNat] ∧ c.toNat < 0x80 :=
  of_delimiters (P := fun d => utf16 d = [UInt16.ofNat d.toNat] ∧ d.toNat < 0x80) (by decide) hc

/-- No code unit is shared by a character of a word and one that ends a word. -/
theorem utf16_disjoint (hc : isWordChar c = true) (hd : isWordChar d = false) (hx : x ∈ utf16 c) : x ∉ utf16 d := by
  intro hx'
  obtain ⟨heq, hd'⟩ := utf16_eq hd
  rw [heq, List.mem_singleton] at hx'
  subst hx'
  unfold utf16 at hx
  split_ifs at hx with hlt
  · rw [List.mem_singleton] at hx
    have hnat := congrArg UInt16.toNat hx
    rw [UInt16.toNat_ofNat', UInt16.toNat_ofNat', Nat.mod_eq_of_lt (by omega), Nat.mod_eq_of_lt (by omega)] at hnat
    rw [Char.toNat_inj.1 hnat, hc] at hd
    cases hd
  · have hc' : c.toNat < 0x110000 := by
      rcases c.valid with h | h
      · exact Nat.lt_trans h (by omega)
      · exact h.2
    simp only [List.mem_cons, List.not_mem_nil, or_false] at hx
    rcases hx with hx | hx
    · have hnat := congrArg UInt16.toNat hx
      rw [UInt16.toNat_ofNat', UInt16.toNat_ofNat'] at hnat
      omega
    · have hnat := congrArg UInt16.toNat hx
      rw [UInt16.toNat_ofNat', UInt16.toNat_ofNat'] at hnat
      omega

/-! ### Words -/

/-- The units of what a word names come from characters of words. -/
theorem identifier_units {first : Bool} (h : E.identifier first w = some n) (hx : x ∈ n) :
    ∃ c, isWordChar c = true ∧ x ∈ utf16 c := by
  fun_induction Ecma.identifier E first w generalizing n with
  | case1 => cases h
  | case2 =>
    cases h
    cases hx
  | case3 first _ _ _ _ w _ _ _ _ _ _ _ _ char hchar =>
    rename_i ih
    obtain ⟨m, hm, rfl⟩ := Option.map_eq_some_iff.1 h
    rcases List.mem_append.1 hx with hx | hx
    · exact ⟨char, isWordChar_of_isIdentifierChar hchar, hx⟩
    · exact ih hm hx
  | case4 => cases h
  | case5 => cases h
  | case6 first c w hnot hc ih =>
    obtain ⟨m, hm, rfl⟩ := Option.map_eq_some_iff.1 h
    rcases List.mem_append.1 hx with hx | hx
    · exact ⟨c, isWordChar_of_isIdentifierChar hc, hx⟩
    · exact ih hm hx
  | case7 => cases h

theorem name_units (h : E.name w = some n) (hx : x ∈ n) : ∃ c, isWordChar c = true ∧ x ∈ utf16 c := by
  unfold Ecma.name at h
  split_ifs at h
  · cases h
    obtain ⟨c, hc, hx⟩ := List.mem_flatMap.1 hx
    exact ⟨c, E.number_word w c hc, hx⟩
  · exact identifier_units h hx

/-- Neither an identifier nor a number ends in a backslash. -/
theorem identifier_getLast {first : Bool} (h : E.identifier first w = some n) : w.getLast? ≠ some '\\' := by
  fun_induction Ecma.identifier E first w generalizing n with
  | case1 => cases h
  | case2 => simp
  | case3 first a b c d w _ _ _ _ hd _ _ _ char hchar =>
    rename_i ih
    obtain ⟨m, hm, rfl⟩ := Option.map_eq_some_iff.1 h
    have hlast := ih hm
    rcases w with _ | ⟨e, w⟩
    · intro heq
      simp only [List.getLast?_cons_cons, List.getLast?_singleton, Option.some.injEq] at heq
      subst heq
      cases hd
    · simpa only [List.getLast?_cons_cons] using hlast
  | case4 => cases h
  | case5 => cases h
  | case6 first c w hnot hc ih =>
    obtain ⟨m, hm, rfl⟩ := Option.map_eq_some_iff.1 h
    have hlast := ih hm
    rcases w with _ | ⟨e, w⟩
    · intro heq
      simp only [List.getLast?_singleton, Option.some.injEq] at heq
      subst heq
      simp [Ecma.isIdentifierChar, Char.isAlpha, Char.isDigit] at hc
    · simpa only [List.getLast?_cons_cons] using hlast
  | case7 => cases h

def isNumberChar (c : Char) : Bool := c.isDigit || c = '+' || c = '-' || c = '.' || c = 'e' || c = 'E'

theorem isDigits_mem (h : isDigits w = true) (hc : isNumberChar c = false) : c ∉ w := by
  intro hmem
  rw [isDigits, Bool.and_eq_true, List.all_eq_true] at h
  simp [isNumberChar, h.2 c hmem] at hc

theorem isExponent_mem (h : isExponent w = true) (hc : isNumberChar c = false) : c ∉ w := by
  have hc' := hc
  simp only [isNumberChar, Bool.or_eq_false_iff, decide_eq_false_iff_not] at hc'
  unfold isExponent at h
  split at h
  · exact List.not_mem_nil
  all_goals first
    | cases h
    | have hdigits := isDigits_mem h hc
      simp [hc', hdigits]

theorem mem_split {p : Char → Bool} (htake : c ∉ w.takeWhile p) (hdrop : c ∉ w.dropWhile p) : c ∉ w := by
  intro hmem
  rw [← @List.takeWhile_append_dropWhile _ p w] at hmem
  rcases List.mem_append.1 hmem with h | h
  · exact htake h
  · exact hdrop h

theorem isFraction_mem (h : isFraction w = true) (hc : isNumberChar c = false) : c ∉ w := by
  unfold isFraction at h
  split at h
  · next w =>
    rw [Bool.and_eq_true] at h
    have hdot : c ≠ '.' := by
      rintro rfl
      cases hc
    exact List.not_mem_cons_of_ne_of_not_mem hdot (mem_split (isDigits_mem h.1 hc) (isExponent_mem h.2 hc))
  · exact isExponent_mem h hc

theorem isDecimal_mem (h : isDecimal w = true) (hc : isNumberChar c = false) : c ∉ w := by
  unfold isDecimal at h
  split at h
  · next w =>
    have hzero : c ≠ '0' := by
      rintro rfl
      cases hc
    exact List.not_mem_cons_of_ne_of_not_mem hzero (isFraction_mem h hc)
  · rw [Bool.and_eq_true] at h
    exact mem_split (isDigits_mem h.1 hc) (isFraction_mem h.2 hc)

theorem isNumber_mem (h : isNumber w = true) (hc : isNumberChar c = false) : c ∉ w := by
  unfold isNumber at h
  split at h
  · next w =>
    have hminus : c ≠ '-' := by
      rintro rfl
      cases hc
    exact List.not_mem_cons_of_ne_of_not_mem hminus (isDecimal_mem h hc)
  · exact isDecimal_mem h hc

theorem backslash_mem : '\\' ∈ w ++ ['\\'] := List.mem_append_right _ List.mem_cons_self

theorem constant_backslash : constant (w ++ ['\\']) = none := by
  unfold constant
  have hmem := @backslash_mem w
  rw [if_neg, if_neg, if_neg, if_neg]
  · exact fun h => isNumber_mem h rfl hmem
  all_goals
    intro heq
    rw [heq] at hmem
    simp at hmem

theorem name_backslash : E.name (w ++ ['\\']) = none := by
  rw [Option.eq_none_iff_forall_ne_some]
  intro n h
  unfold Ecma.name at h
  split_ifs at h with hword hdecimal
  · exact isDecimal_mem hdecimal rfl backslash_mem
  · exact identifier_getLast h (by simp)

theorem not_name_terminator (hc : isLineTerminator c = true) :
    c ≠ '\\' ∧ c ≠ 'u' ∧ hexDigit c = none ∧ isNumberChar c = false ∧ ∀ first, E.isIdentifierChar first c = false := by
  obtain ⟨hstart, hcontinue⟩ := E.id_terminator c hc
  simp only [isLineTerminator, Bool.or_eq_true, decide_eq_true_eq] at hc
  rcases hc with ((rfl | rfl) | rfl) | rfl
  all_goals
    refine ⟨by decide, by decide, rfl, rfl, ?_⟩
    rintro (_ | _) <;> simp [Ecma.isIdentifierChar, hstart, hcontinue, Char.isAlpha, Char.isUpper, Char.isLower, Char.isDigit]

/-- No name has a line terminator in it. -/
theorem identifier_terminator {first : Bool} (h : E.identifier first w = some n) (hc : isLineTerminator c = true) :
    c ∉ w := by
  obtain ⟨hback, hu, hhex, -, hid⟩ := @not_name_terminator E c hc
  have hne : ∀ {d : Char} {k : Nat}, hexDigit d = some k → c ≠ d := by
    rintro d k hd rfl
    rw [hhex] at hd
    cases hd
  fun_induction Ecma.identifier E first w generalizing n with
  | case1 => cases h
  | case2 => exact List.not_mem_nil
  | case3 first a b c d w _ _ _ _ hd hc hb ha char =>
    rename_i ih
    obtain ⟨m, hm, rfl⟩ := Option.map_eq_some_iff.1 h
    simp only [List.mem_cons, not_or]
    exact ⟨hback, hu, hne ha, hne hb, hne hc, hne hd, ih hm⟩
  | case4 => cases h
  | case5 => cases h
  | case6 first d w hnot hd ih =>
    obtain ⟨m, hm, rfl⟩ := Option.map_eq_some_iff.1 h
    refine List.not_mem_cons_of_ne_of_not_mem ?_ (ih hm)
    rintro rfl
    rw [hid first] at hd
    cases hd
  | case7 => cases h

theorem name_terminator (h : E.name w = some n) (hc : isLineTerminator c = true) : c ∉ w := by
  unfold Ecma.name at h
  split_ifs at h with hword hdecimal
  · obtain ⟨-, -, -, hnumber, -⟩ := @not_name_terminator E c hc
    exact isDecimal_mem hdecimal hnumber
  · exact identifier_terminator h hc

/-! ### Around a name -/

theorem not_escape (hc : isWordChar c = false) (hquote : c ≠ '"') :
    c ≠ '\\' ∧ c ≠ 'u' ∧ jsonEscape c = none ∧ hexDigit c = none :=
  of_delimiters (P := fun d => d ≠ '"' → d ≠ '\\' ∧ d ≠ 'u' ∧ jsonEscape d = none ∧ hexDigit d = none) (by decide) hc
    hquote

/-- In JSON a character that ends words stands in a string only for itself. -/
theorem strStep_mem {r r' : StrMode × JSString} (h : json.strStep r c = some r') (hc : isWordChar c = false)
    (hquote : c ≠ '"') (hx : x ∈ utf16 c) : x ∈ r'.2 := by
  obtain ⟨hback, hu, hescape, hhex⟩ := not_escape hc hquote
  obtain ⟨mode, units⟩ := r
  cases mode with
  | plain =>
    simp only [Dialect.strStep] at h
    rw [if_neg hback] at h
    split_ifs at h
    cases h
    exact List.mem_append_right _ hx
  | escape =>
    simp only [Dialect.strStep] at h
    rw [if_neg hu] at h
    change (jsonEscape c).map _ = _ at h
    rw [hescape] at h
    cases h
  | unicode left value =>
    simp only [Dialect.strStep] at h
    rw [hhex] at h
    cases h

theorem foldlM_mem {r r' : StrMode × JSString} (h : body.foldlM json.strStep r = some r') (hmem : c ∈ body)
    (hc : isWordChar c = false) (hquote : c ≠ '"') (hx : x ∈ utf16 c) : x ∈ r'.2 := by
  induction body generalizing r with
  | nil => cases hmem
  | cons d body ih =>
    obtain ⟨u, hu, hbody⟩ := Option.bind_eq_some_iff.1 h
    rcases List.mem_cons.1 hmem with rfl | hmem
    · exact (foldlM_grows hbody).subset (strStep_mem hu hc hquote hx)
    · exact ih hbody hmem

/-- The characters of a name are those of a word. -/
theorem word_of_name {mode : StrMode} (h : body.foldlM json.strStep (.plain, []) = some (mode, n))
    (hname : E.name w = some n) (hquotes : '"' ∉ body) : ∀ c ∈ body, isWordChar c = true := by
  intro c hmem
  by_contra hc
  have hc' := Bool.not_eq_true _ ▸ hc
  obtain ⟨x, hx⟩ := List.exists_mem_of_ne_nil _ (@utf16_ne_nil c)
  have hquote : c ≠ '"' := fun h => hquotes (h ▸ hmem)
  obtain ⟨d, hd, hx'⟩ := name_units hname (foldlM_mem h hmem hc' hquote hx)
  exact utf16_disjoint hd hc' hx' hx

/-- After an escape has begun there is a backslash. -/
theorem escape_getLast {D : Dialect} (h : body.foldlM D.strStep (.plain, []) = some (.escape, units)) :
    ∃ body', body = body' ++ ['\\'] := by
  rcases List.eq_nil_or_concat body with rfl | ⟨body', c, rfl⟩
  · cases h
  · rw [List.concat_eq_append, List.foldlM_append] at h
    obtain ⟨⟨mode, units'⟩, -, h⟩ := Option.bind_eq_some_iff.1 h
    obtain ⟨r, hr, h⟩ := Option.bind_eq_some_iff.1 h
    cases h
    refine ⟨body', ?_⟩
    cases mode with
    | plain =>
      simp only [Dialect.strStep] at hr
      split_ifs at hr with hc
      · rw [hc, List.concat_eq_append]
      · cases hr
    | escape =>
      simp only [Dialect.strStep] at hr
      split_ifs at hr
      · cases hr
      · obtain ⟨e, -, hr⟩ := Option.map_eq_some_iff.1 hr
        cases hr
    | unicode left value =>
      obtain ⟨d, -, hr⟩ := Option.map_eq_some_iff.1 hr
      split_ifs at hr <;> cases hr

theorem name_of_bare {rest rest' : List Char} (hne : body ≠ []) (hquotes : '"' ∉ body)
    (hjson : json.Ends ⟨.bare [], p⟩ ('"' :: (body ++ '"' :: ' ' :: ':' :: rest)) v)
    (hliteral : E.literal.Ends ⟨.bare [], p⟩ (body ++ ' ' :: ':' :: rest') v) :
    ∃ n, json.stringValue body = some n ∧ E.name body = some n := by
  obtain ⟨u, hu, hends⟩ := ends_cons.1 hjson
  cases hu
  obtain ⟨u, hrun, hends⟩ := ends_append.1 hends
  rw [Dialect.run_body hquotes] at hrun
  obtain ⟨⟨mode, units⟩, hfold, rfl⟩ := Option.map_eq_some_iff.1 hrun
  cases mode with
  | plain =>
    have hvalue := Dialect.stringValue_eq.2 hfold
    obtain ⟨q, hq, hends⟩ := (ends_string hquotes hvalue).1 hjson
    obtain ⟨q', hq', -⟩ := ends_colon.1 hends
    have hreads := reads_string hq (fits_of_ends hends)
    have hp := forName_of_colon hq hq'
    refine ⟨units, hvalue, ?_⟩
    -- the first word names the string, so the string is that word
    obtain ⟨w, hw⟩ := word_reads hp hreads hquotes hliteral
    obtain ⟨q, hq, hends⟩ := (ends_word hne (word_of_name hfold hw hquotes)).1 hliteral
    obtain ⟨n, hn, hreads'⟩ := reads_word hp hq (fits_of_ends hends)
    rw [hreads.unique hreads']
    exact (Dialect.nameOf_word.1 hn).1
  | escape =>
    obtain ⟨body', rfl⟩ := escape_getLast hfold
    rw [List.append_assoc] at hliteral
    have hquotes' : '"' ∉ body' := fun h => hquotes (List.mem_append_left _ h)
    exact absurd hliteral (not_ends_backslash (fun _ => name_backslash) (fun _ => constant_backslash) hquotes')
  | unicode left value =>
    obtain ⟨u, hu, -⟩ := ends_cons.1 hends
    cases hu

/-! ### In a string -/

/-- Where the quote ends a string, the string goes on without it. -/
theorem not_ends_plain {D D' : Dialect} {text text' : List Char} (hc : c ≠ '"')
    (h : D.Ends ⟨.string .plain units, p⟩ ('"' :: text) v) : ¬ D'.Ends ⟨.string .plain units, p⟩ (c :: text') v := by
  intro h'
  obtain ⟨s, hs, hends⟩ := ends_cons.1 h
  obtain ⟨q, hq, rfl⟩ := Option.map_eq_some_iff.1 hs
  have hreads := reads_string hq (fits_of_ends hends)
  obtain ⟨s', hs', hends'⟩ := ends_cons.1 h'
  rw [Dialect.step, if_neg fun h => hc h.1] at hs'
  obtain ⟨r, hr, rfl⟩ := Option.map_eq_some_iff.1 hs'
  obtain ⟨units', hreads', hprefix, hlonger⟩ := closes hends'
  cases hreads.unique hreads'
  simp only [Dialect.strStep] at hr
  split_ifs at hr
  · cases hr
    exact absurd (hlonger (by simp)) (Nat.lt_irrefl _)
  · cases hr
    have hle := hprefix.length_le
    rw [List.length_append] at hle
    have hpos := List.length_pos_iff.2 (@utf16_ne_nil c)
    omega

theorem utf16_quote (h : 0x22 ∈ utf16 c) : c = '"' := by
  by_cases hc : isWordChar c = true
  · exact absurd (List.mem_singleton_self _) (utf16_disjoint hc (d := '"') rfl h)
  · exact of_delimiters (P := fun d => 0x22 ∈ utf16 d → d = '"') (by decide) (Bool.not_eq_true _ ▸ hc) h

/-- A quote is escaped as itself only. -/
theorem escape_quote (hc : c ≠ '"') (h : Ecma.escape c = some units) : ¬ [0x22] <+: units := by
  intro hprefix
  have hmem := hprefix.subset List.mem_cons_self
  unfold Ecma.escape at h
  split at h
  · next he =>
    cases h
    unfold jsonEscape at he
    split at he
    · exact hc rfl
    all_goals
      cases he
      try exact absurd hmem (by decide)
  · split_ifs at h
    · cases h
      exact absurd hmem (by decide)
    · cases h
      exact hc (utf16_quote hmem)

theorem mem_of_cycle {α : Type} {a : α} {ds xs : List α} (hds : ds ≠ []) (h : xs ++ [a] <+: ds ++ xs) : a ∈ ds := by
  induction hlen : xs.length using Nat.strong_induction_on generalizing xs with
  | _ n ih =>
    have hds' : ds <+: ds ++ xs := List.prefix_append _ _
    rcases Nat.lt_or_ge xs.length ds.length with hlt | hge
    · have hprefix : xs ++ [a] <+: ds := by
        refine List.prefix_of_prefix_length_le h hds' ?_
        rw [List.length_append, List.length_singleton]
        omega
      exact hprefix.subset (List.mem_append_right _ List.mem_cons_self)
    · have hprefix : ds <+: xs := by
        exact List.prefix_of_prefix_length_le hds' ((List.prefix_append _ _).trans h) hge
      obtain ⟨xs', rfl⟩ := hprefix
      rw [List.append_assoc, List.prefix_append_right_inj] at h
      have hpos := List.length_pos_iff.2 hds
      refine ih xs'.length ?_ h rfl
      rw [List.length_append] at hlen
      omega

theorem hexDigit_word (h : (hexDigit c).isSome = true) : isWordChar c = true ∧ c ≠ '\\' := by
  refine ⟨?_, ?_⟩
  · by_contra hc
    rw [of_delimiters (P := fun d => hexDigit d = none) (by decide) (Bool.not_eq_true _ ▸ hc)] at h
    cases h
  · rintro rfl
    cases h

/-- The digits of an escape come before a space that follows it. -/
theorem hex_digits {D : Dialect} {left value : Nat} {text : List Char}
    (h : D.Ends ⟨.string (.unicode left value) units, p⟩ (body ++ ' ' :: text) v) :
    ∃ digits body' x, body = digits ++ body' ∧ (∀ c ∈ digits, (hexDigit c).isSome = true) ∧
      D.Ends ⟨.string .plain (units ++ [x]), p⟩ (body' ++ ' ' :: text) v := by
  induction body generalizing left value with
  | nil =>
    obtain ⟨s, hs, -⟩ := ends_cons.1 h
    cases hs
  | cons c body ih =>
    obtain ⟨s, hs, hends⟩ := ends_cons.1 h
    rw [Dialect.step, if_neg (by simp)] at hs
    obtain ⟨r, hr, rfl⟩ := Option.map_eq_some_iff.1 hs
    obtain ⟨d, hd, rfl⟩ := Option.map_eq_some_iff.1 hr
    have hhex : (hexDigit c).isSome = true := by rw [hd, Option.isSome_some]
    by_cases hleft : left ≤ 1
    · rw [if_pos hleft] at hends
      refine ⟨[c], body, _, rfl, ?_, hends⟩
      intro c' hc'
      rw [List.mem_singleton.1 hc']
      exact hhex
    · rw [if_neg hleft] at hends
      obtain ⟨digits, body', x, rfl, hdigits, hends⟩ := ih hends
      refine ⟨c :: digits, body', x, rfl, ?_, hends⟩
      intro c' hc'
      rcases List.mem_cons.1 hc' with rfl | hc'
      · exact hhex
      · exact hdigits c' hc'

theorem foldlM_plain {D : Dialect} {r : StrMode × JSString} (hback : '\\' ∉ body)
    (h : body.foldlM D.strStep (.plain, units) = some r) : r = (.plain, units ++ body.flatMap utf16) := by
  induction body generalizing units with
  | nil =>
    cases h
    rw [List.flatMap_nil, List.append_nil]
  | cons c body ih =>
    obtain ⟨u, hu, hbody⟩ := Option.bind_eq_some_iff.1 h
    simp only [Dialect.strStep] at hu
    rw [if_neg fun hc : c = '\\' => hback (hc ▸ List.mem_cons_self)] at hu
    split_ifs at hu
    cases hu
    rw [List.flatMap_cons, ← List.append_assoc]
    exact ih (fun hmem => hback (List.mem_cons_of_mem _ hmem)) hbody

/-- A space is a space in a string, escaped or not. -/
theorem ends_space {mode : StrMode} {text : List Char} (h : E.literal.Ends ⟨.string mode units, p⟩ (' ' :: text) v) :
    E.literal.Ends ⟨.string .plain (units ++ [0x20]), p⟩ text v := by
  obtain ⟨s, hs, hends⟩ := ends_cons.1 h
  cases mode with
  | plain | escape =>
    cases hs
    exact hends
  | unicode left value => cases hs

/-- The string goes on as it is after what the body stands for. -/
theorem ends_body {D : Dialect} {text : List Char} (hquotes : '"' ∉ body)
    (h : D.Ends ⟨.string .plain units, p⟩ (body ++ text) v) :
    ∃ r, body.foldlM D.strStep (.plain, []) = some r ∧ D.Ends ⟨.string r.1 (units ++ r.2), p⟩ text v := by
  obtain ⟨s, hrun, hends⟩ := ends_append.1 h
  have happend := @foldlM_append D body [] .plain units
  rw [List.append_nil] at happend
  rw [Dialect.run_body hquotes, happend] at hrun
  obtain ⟨r', hr', rfl⟩ := Option.map_eq_some_iff.1 hrun
  obtain ⟨r, hr, rfl⟩ := Option.map_eq_some_iff.1 hr'
  exact ⟨r, hr, hends⟩

/-- With the digits of an escape in front of it the same string is not the same. -/
theorem not_ends_unicode {digits text text' : List Char} (hdigits : ∀ c ∈ digits, (hexDigit c).isSome = true)
    (hquotes : '"' ∉ digits ++ body)
    (hjson : json.Ends ⟨.string .plain (units ++ [0x22]), p⟩ (('u' :: digits) ++ (body ++ '"' :: text)) v) :
    ¬ E.literal.Ends ⟨.string .plain (units ++ [x]), p⟩ (body ++ ' ' :: text') v := by
  intro hliteral
  have hword : ∀ c ∈ 'u' :: digits, isWordChar c = true ∧ c ≠ '\\' := by
    intro c hc
    rcases List.mem_cons.1 hc with rfl | hc
    · exact ⟨rfl, by decide⟩
    · exact hexDigit_word (hdigits c hc)
  have hbody : '"' ∉ body := fun h => hquotes (List.mem_append_right _ h)
  have hu : '"' ∉ 'u' :: digits := by
    intro h
    cases (hword _ h).1
  obtain ⟨r, hr, hends⟩ := ends_body hu hjson
  cases foldlM_plain (fun h => (hword _ h).2 rfl) hr
  obtain ⟨r, hr, hends⟩ := ends_body hbody hends
  obtain ⟨r', hr', hends'⟩ := ends_body hbody hliteral
  cases Dialect.foldlM_unique (fun _ _ _ _ => Dialect.strStep_unique (json_below E)) hr hr'
  obtain ⟨all, hreads, hprefix, -⟩ := closes hends
  obtain ⟨all', hreads', hprefix', -⟩ := closes (ends_space hends')
  cases hreads.unique hreads'
  simp only [List.append_assoc, List.nil_append] at hprefix hprefix'
  have hne : ('u' :: digits).flatMap utf16 ≠ [] := by
    rw [List.flatMap_cons]
    exact List.append_ne_nil_of_left_ne_nil utf16_ne_nil _
  have hpos := List.length_pos_iff.2 hne
  have hlength : (units ++ ([x] ++ (r.2 ++ [0x20]))).length ≤
      (units ++ ([0x22] ++ (('u' :: digits).flatMap utf16 ++ r.2))).length := by
    simp only [List.length_append, List.length_singleton]
    omega
  have hcycle := List.prefix_of_prefix_length_le hprefix' hprefix hlength
  rw [List.prefix_append_right_inj] at hcycle
  have hspace := mem_of_cycle hne (List.cons_prefix_cons.1 hcycle).2
  obtain ⟨c, hc, hmem⟩ := List.mem_flatMap.1 hspace
  exact utf16_disjoint (hword c hc).1 (d := ' ') rfl hmem (by decide)

/-- Where the quote is escaped, nothing else that is escaped is a quote. -/
theorem not_ends_escape {text text' : List Char} (hne : body ≠ []) (hquotes : '"' ∉ body)
    (hjson : json.Ends ⟨.string .escape units, p⟩ ('"' :: (body ++ '"' :: text)) v) :
    ¬ E.literal.Ends ⟨.string .escape units, p⟩ (body ++ ' ' :: text') v := by
  intro hliteral
  obtain ⟨s, hs, hends⟩ := ends_cons.1 hjson
  cases hs
  rcases body with _ | ⟨c, body⟩
  · exact hne rfl
  have hc : c ≠ '"' := fun h => hquotes (h ▸ List.mem_cons_self)
  have hbody : '"' ∉ body := fun h => hquotes (List.mem_cons_of_mem _ h)
  obtain ⟨s', hs', hends'⟩ := ends_cons.1 hliteral
  rw [Dialect.step, if_neg fun h => hc h.1] at hs'
  obtain ⟨r, hr, rfl⟩ := Option.map_eq_some_iff.1 hs'
  simp only [Dialect.strStep] at hr
  split_ifs at hr with hu
  · cases hr
    subst hu
    obtain ⟨digits, body', x, rfl, hdigits, hends'⟩ := hex_digits hends'
    rw [← List.cons_append, List.append_assoc] at hends
    exact not_ends_unicode hdigits hbody hends hends'
  · obtain ⟨e, he, rfl⟩ := Option.map_eq_some_iff.1 hr
    obtain ⟨all, hreads, hprefix, -⟩ := closes hends
    obtain ⟨all', hreads', hprefix', -⟩ := closes hends'
    cases hreads.unique hreads'
    have hpos := List.length_pos_iff.2 (Ecma.escape_ne_nil he)
    have hquote : units ++ [0x22] <+: units ++ e := by
      refine List.prefix_of_prefix_length_le hprefix hprefix' ?_
      rw [List.length_append, List.length_append, List.length_singleton]
      omega
    exact escape_quote hc he ((List.prefix_append_right_inj _).1 hquote)

/-- A text that has the same value without two of its quotes, which ` :` follows, has lost those of a property name, and
what stood between them is a word for the same property. -/
theorem name_of_ends {rest rest' : List Char} (hne : body ≠ []) (hquotes : '"' ∉ body)
    (hjson : json.Ends s ('"' :: (body ++ '"' :: ' ' :: ':' :: rest)) v)
    (hliteral : E.literal.Ends s (body ++ ' ' :: ':' :: rest') v) :
    s.lex = .bare [] ∧ ∃ n, json.stringValue body = some n ∧ E.name body = some n := by
  obtain ⟨lex, p⟩ := s
  cases lex with
  | bare w =>
    obtain ⟨u, hu, -⟩ := ends_cons.1 hjson
    rw [Dialect.step, if_pos rfl] at hu
    split_ifs at hu with hw
    subst hw
    exact ⟨rfl, name_of_bare hne hquotes hjson hliteral⟩
  | string mode units =>
    exfalso
    cases mode with
    | plain =>
      rcases body with _ | ⟨c, body⟩
      · exact hne rfl
      exact not_ends_plain (fun h => hquotes (h ▸ List.mem_cons_self)) hjson hliteral
    | escape => exact not_ends_escape hne hquotes hjson hliteral
    | unicode left value =>
      obtain ⟨u, hu, -⟩ := ends_cons.1 hjson
      cases hu

/-! ### The quotes again -/

theorem strStep_literal {r r' : StrMode × JSString} (hplain : c ≠ '\\' → E.literal.plain c = true)
    (h : json.strStep r c = some r') : E.literal.strStep r c = some r' := by
  obtain ⟨mode, units⟩ := r
  cases mode with
  | plain =>
    simp only [Dialect.strStep] at h ⊢
    by_cases hback : c = '\\'
    · rw [if_pos hback] at h ⊢
      exact h
    · rw [if_neg hback] at h ⊢
      rw [if_pos (hplain hback)]
      split_ifs at h
      exact h
  | escape =>
    simp only [Dialect.strStep] at h ⊢
    split_ifs at h ⊢ with hu
    · exact h
    · obtain ⟨e, he, rfl⟩ := Option.map_eq_some_iff.1 h
      rw [(json_below E).escape c e he]
      rfl
  | unicode left value => exact h

theorem foldlM_literal {r r' : StrMode × JSString} (hplain : ∀ c ∈ body, c ≠ '\\' → E.literal.plain c = true)
    (h : body.foldlM json.strStep r = some r') : body.foldlM E.literal.strStep r = some r' := by
  induction body generalizing r with
  | nil => exact h
  | cons c body ih =>
    obtain ⟨u, hu, hbody⟩ := Option.bind_eq_some_iff.1 h
    rw [List.foldlM_cons, strStep_literal (hplain c List.mem_cons_self) hu]
    exact ih (fun c' hc' => hplain c' (List.mem_cons_of_mem _ hc')) hbody

/-- A name may stand in quotes in an object literal as it does in JSON. -/
theorem stringValue_literal {m : JSString} (hvalue : json.stringValue body = some n) (hname : E.name body = some m) :
    E.literal.stringValue body = some n := by
  rw [Dialect.stringValue_eq] at hvalue ⊢
  refine foldlM_literal ?_ hvalue
  intro c hmem hback
  have hterminator : ¬ isLineTerminator c = true := fun hc => name_terminator hname hc hmem
  have hquote : c ≠ '"' := by
    rintro rfl
    cases (E.literal.word body m hname).2 _ hmem
  simp only [isLineTerminator, Bool.or_eq_true, decide_eq_true_eq, not_or] at hterminator
  obtain ⟨⟨⟨h1, h2⟩, h3⟩, h4⟩ := hterminator
  simp [Ecma.literal, h1, h2, h3, h4, hquote, hback]

/-- Both readers go on from the same place, and the object literal may have the quotes back. -/
theorem ends_name {rest rest' : List Char} (hne : body ≠ []) (hquotes : '"' ∉ body)
    (hvalue : json.stringValue body = some n) (hname : E.name body = some n)
    (hjson : json.Ends ⟨.bare [], p⟩ ('"' :: (body ++ '"' :: ' ' :: ':' :: rest)) v)
    (hliteral : E.literal.Ends ⟨.bare [], p⟩ (body ++ ' ' :: ':' :: rest') v) :
    ∃ q, json.run ⟨.bare [], p⟩ ('"' :: (body ++ ['"', ' ', ':'])) = some ⟨.bare [], q⟩ ∧
      json.Ends ⟨.bare [], q⟩ rest v ∧ E.literal.Ends ⟨.bare [], q⟩ rest' v ∧
      ∀ text, E.literal.Ends ⟨.bare [], q⟩ text v →
        E.literal.Ends ⟨.bare [], p⟩ ('"' :: (body ++ '"' :: ' ' :: ':' :: text)) v := by
  have hword := (E.literal.word body n hname).2
  obtain ⟨r, hr, hends⟩ := (ends_string hquotes hvalue).1 hjson
  obtain ⟨q, hq, hends⟩ := ends_colon.1 hends
  obtain ⟨r', hr', hends'⟩ := (ends_word hne hword).1 hliteral
  obtain ⟨q', hq', hends'⟩ := ends_colon.1 hends'
  have hstring := token_string (forName_of_colon hr hq) hr' hname
  cases Dialect.token_unique (json_below E) hr hstring
  cases Dialect.token_unique (json_below E) hq hq'
  refine ⟨q, ?_, hends, hends', ?_⟩
  · rw [Dialect.run_string hquotes hvalue, hr, Option.bind_some, Dialect.run_colon, hq]
    rfl
  · intro text htext
    have hcolon := ends_colon.2 ⟨q, hq', htext⟩
    exact (ends_string hquotes (stringValue_literal hvalue hname)).2 ⟨r, hstring, hcolon⟩

end Literal
