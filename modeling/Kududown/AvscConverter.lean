import Kududown.Lib.LiteralQuotes

/-!
# The schema converter

`AvscConverter.convert` makes an object literal of each Avro schema: `replace(/"([^"]+(?=" :))" :/g, '$1 :')` takes the
quotes off what it takes for property names. The expression knows nothing of strings and escapes, so it also takes away
two quotes of a string in which a colon follows a quote. `convert_evaluates` says of which schemas the literal has the
value of the JSON text.
-/

namespace Kududown.AvscConverter
open Literal

/-- The group of `/"([^"]+(?=" :))" :/` after the quote it begins with. `[^"]+` goes up to the next quote: anywhere
before it the lookahead fails. -/
def matchKey (text : List Char) : Option (List Char) :=
  match text.takeWhile (· ≠ '"'), text.dropWhile (· ≠ '"') with
  | c :: body, '"' :: ' ' :: ':' :: _ => some (c :: body)
  | _, _ => none

/-- `replace` with the global expression; `skip` characters belong to the last match. -/
def replace : Nat → List Char → List Char
  | _, [] => []
  | skip + 1, _ :: text => replace skip text
  | 0, c :: text =>
    match if c = '"' then matchKey text else none with
    | some body => body ++ ' ' :: ':' :: replace (body.length + 3) text
    | none => c :: replace 0 text

/-- The literal that `convert` writes for a schema. -/
def schemaTextTS (schemaTextJSON : List Char) : List Char := replace 0 schemaTextJSON

/-- Each match of the expression begins at the quote of a string, ends at the next quote of that string, and has between
them a word that names the property that the string names. `s` is where the reader of JSON is. -/
def matchesNames (E : Ecma) : Nat → State → List Char → Bool
  | _, _, [] => true
  | skip + 1, s, c :: text =>
    match json.step s c with
    | some u => matchesNames E skip u text
    | none => true
  | 0, s, c :: text =>
    match if c = '"' then matchKey text else none with
    | some body =>
      s.lex = .bare [] && (json.stringValue body).isSome && json.stringValue body = E.name body &&
        match json.step s c with
        | some u => matchesNames E (body.length + 3) u text
        | none => true
    | none =>
      match json.step s c with
      | some u => matchesNames E 0 u text
      | none => true

variable {E : Ecma} {text body : List Char} {s t u : State} {skip : Nat} {c : Char} {v : Value}

/-! ### The matches -/

theorem matchKey_eq (h : matchKey text = some body) :
    body ≠ [] ∧ '"' ∉ body ∧ ∃ rest, text = body ++ '"' :: ' ' :: ':' :: rest := by
  unfold matchKey at h
  split at h
  · next c body' rest htake hdrop =>
    cases h
    refine ⟨List.cons_ne_nil _ _, fun hmem => ?_, rest, ?_⟩
    · rw [← htake] at hmem
      have hne := List.mem_takeWhile_imp hmem
      simp at hne
    · rw [← htake, ← hdrop, List.takeWhile_append_dropWhile]
  · cases h

theorem replace_skip : replace skip text = replace 0 (text.drop skip) := by
  induction text generalizing skip with
  | nil =>
    rw [List.drop_nil]
    cases skip <;> rfl
  | cons c text ih =>
    cases skip with
    | zero => rfl
    | succ skip => exact ih

theorem matchesNames_skip (hrun : json.run s (text.take skip) = some u) :
    matchesNames E skip s text = matchesNames E 0 u (text.drop skip) := by
  induction text generalizing skip s with
  | nil =>
    rw [List.drop_nil]
    cases skip <;> rfl
  | cons c text ih =>
    cases skip with
    | zero =>
      cases hrun
      rfl
    | succ skip =>
      rw [List.take_succ_cons, Dialect.run_cons] at hrun
      obtain ⟨s', hstep, hrun⟩ := Option.bind_eq_some_iff.1 hrun
      rw [matchesNames, hstep]
      exact ih hrun

theorem take_match {rest : List Char} :
    (body ++ '"' :: ' ' :: ':' :: rest).take (body.length + 3) = body ++ ['"', ' ', ':'] := by
  rw [List.take_length_add_append]
  rfl

theorem drop_match {rest : List Char} : (body ++ '"' :: ' ' :: ':' :: rest).drop (body.length + 3) = rest := by
  rw [List.drop_length_add_append]
  rfl

/-! Where the expression matches nothing both functions go one character on, and else to the end of the match. -/

theorem replace_char (hkey : (if c = '"' then matchKey text else none) = none) :
    replace 0 (c :: text) = c :: replace 0 text := by
  rw [replace, hkey]

theorem matchesNames_char (hkey : (if c = '"' then matchKey text else none) = none) (hstep : json.step s c = some u) :
    matchesNames E 0 s (c :: text) = matchesNames E 0 u text := by
  rw [matchesNames, hkey]
  dsimp only
  rw [hstep]

theorem replace_match {rest : List Char} (hkey : matchKey (body ++ '"' :: ' ' :: ':' :: rest) = some body) :
    replace 0 ('"' :: (body ++ '"' :: ' ' :: ':' :: rest)) = body ++ ' ' :: ':' :: replace 0 rest := by
  rw [replace, if_pos rfl, hkey]
  dsimp only
  rw [replace_skip, drop_match]

theorem matchesNames_match {rest : List Char} (hkey : matchKey (body ++ '"' :: ' ' :: ':' :: rest) = some body)
    (hrun : json.run s ('"' :: (body ++ ['"', ' ', ':'])) = some u) :
    matchesNames E 0 s ('"' :: (body ++ '"' :: ' ' :: ':' :: rest)) = true ↔
      s.lex = .bare [] ∧ (∃ n, json.stringValue body = some n ∧ E.name body = some n) ∧ matchesNames E 0 u rest = true := by
  obtain ⟨u', hstep, hrun⟩ := Option.bind_eq_some_iff.1 hrun
  rw [matchesNames, if_pos rfl, hkey]
  dsimp only
  rw [hstep]
  dsimp only
  rw [matchesNames_skip (take_match ▸ hrun), drop_match]
  simp only [Bool.and_eq_true, decide_eq_true_eq]
  refine ⟨fun h => ?_, fun h => ?_⟩
  · obtain ⟨⟨⟨hlex, hsome⟩, hname⟩, hnames⟩ := h
    obtain ⟨n, hn⟩ := Option.isSome_iff_exists.1 hsome
    exact ⟨hlex, ⟨n, hn, hname ▸ hn⟩, hnames⟩
  · obtain ⟨hlex, ⟨n, hvalue, hname⟩, hnames⟩ := h
    exact ⟨⟨⟨hlex, by rw [hvalue, Option.isSome_some]⟩, by rw [hvalue, hname]⟩, hnames⟩

theorem key_of_match (hkey : (if c = '"' then matchKey text else none) = some body) :
    c = '"' ∧ matchKey text = some body := by
  split_ifs at hkey with hc
  exact ⟨hc, hkey⟩

theorem length_match {rest : List Char} : rest.length < ('"' :: (body ++ '"' :: ' ' :: ':' :: rest)).length := by
  rw [List.length_cons, List.length_append, List.length_cons, List.length_cons, List.length_cons]
  omega

/-- Where every match is a name, `replace` takes the quotes off property names and changes nothing else. -/
theorem unquoted (hrun : json.run s text = some t) (h : matchesNames E 0 s text = true) :
    Unquoted json E.literal s text (replace 0 text) := by
  induction hlen : text.length using Nat.strong_induction_on generalizing s text with
  | _ n ih =>
    subst hlen
    rcases text with _ | ⟨c, text⟩
    · exact .nil s
    cases hkey : (if c = '"' then matchKey text else none) with
    | none =>
      obtain ⟨u, hstep, hrun⟩ := Option.bind_eq_some_iff.1 hrun
      rw [matchesNames_char hkey hstep] at h
      rw [replace_char hkey]
      exact .char hstep (ih text.length (Nat.lt_succ_self _) hrun h rfl)
    | some body =>
      obtain ⟨rfl, hmatch⟩ := key_of_match hkey
      obtain ⟨hne, hquotes, rest, rfl⟩ := matchKey_eq hmatch
      have hsplit : '"' :: (body ++ '"' :: ' ' :: ':' :: rest) = ('"' :: (body ++ ['"', ' ', ':'])) ++ rest := by simp
      have hrun' := hrun
      rw [hsplit, Dialect.run_append] at hrun'
      obtain ⟨u, hu, hrest⟩ := Option.bind_eq_some_iff.1 hrun'
      obtain ⟨hlex, ⟨name, hvalue, hname⟩, hnames⟩ := (matchesNames_match hmatch hu).1 h
      obtain ⟨lex, p⟩ := s
      dsimp only at hlex
      subst hlex
      rw [Dialect.run_string hquotes hvalue] at hu
      obtain ⟨q, htoken, hu⟩ := Option.bind_eq_some_iff.1 hu
      rw [Dialect.run_colon] at hu
      obtain ⟨q', hcolon, hu⟩ := Option.bind_eq_some_iff.1 hu
      cases hu
      rw [replace_match hmatch]
      exact .name hquotes hvalue hname htoken hcolon (ih rest.length length_match hrest hnames rfl)

/-- Where the literal has the value, every match is a name, and the text with the quotes is a literal as well. -/
theorem names_of_ends (hjson : json.Ends s text v) (hliteral : E.literal.Ends s (replace 0 text) v) :
    matchesNames E 0 s text = true ∧ E.literal.Ends s text v := by
  induction hlen : text.length using Nat.strong_induction_on generalizing s text with
  | _ n ih =>
    subst hlen
    rcases text with _ | ⟨c, text⟩
    · exact ⟨rfl, hliteral⟩
    cases hkey : (if c = '"' then matchKey text else none) with
    | none =>
      rw [replace_char hkey] at hliteral
      obtain ⟨u, hu, hjson⟩ := ends_cons.1 hjson
      obtain ⟨u', hu', hliteral⟩ := ends_cons.1 hliteral
      cases Dialect.step_unique (json_below E) hu hu'
      obtain ⟨hnames, hends⟩ := ih text.length (Nat.lt_succ_self _) hjson hliteral rfl
      rw [matchesNames_char hkey hu]
      exact ⟨hnames, ends_cons.2 ⟨u, hu', hends⟩⟩
    | some body =>
      obtain ⟨rfl, hmatch⟩ := key_of_match hkey
      obtain ⟨hne, hquotes, rest, rfl⟩ := matchKey_eq hmatch
      rw [replace_match hmatch] at hliteral
      obtain ⟨hlex, name, hvalue, hname⟩ := name_of_ends hne hquotes hjson hliteral
      obtain ⟨lex, p⟩ := s
      dsimp only at hlex
      subst hlex
      obtain ⟨q, hrun, hjson', hliteral', hquoted⟩ := ends_name hne hquotes hvalue hname hjson hliteral
      obtain ⟨hnames, hends⟩ := ih rest.length length_match hjson' hliteral' rfl
      exact ⟨(matchesNames_match hmatch hrun).2 ⟨rfl, ⟨name, hvalue, hname⟩, hnames⟩, hquoted rest hends⟩

/-- The literal has the value of the JSON text just when the text is itself an object literal and the expression matches
nothing but property names that may go without quotes. -/
theorem convert_evaluates (E : Ecma) (text : List Char) (v : Value) (hjson : json.parse text = some v) :
    E.literal.parse (schemaTextTS text) = some v ↔
      (E.literal.parse text).isSome = true ∧ matchesNames E 0 start text = true := by
  obtain ⟨t, hrun, hfinish⟩ := Option.bind_eq_some_iff.1 hjson
  refine ⟨fun h => ?_, fun h => ?_⟩
  · obtain ⟨hnames, hends⟩ := names_of_ends ⟨t, hrun, hfinish⟩ (Option.bind_eq_some_iff.1 h)
    rw [Dialect.parse, Option.bind_eq_some_iff.2 hends]
    exact ⟨rfl, hnames⟩
  · obtain ⟨hliteral, hnames⟩ := h
    obtain ⟨v', hv'⟩ := Option.isSome_iff_exists.1 hliteral
    exact (unquoted hrun hnames).parse (json_below E) hjson hv'

/-- What texts need that have no characters beyond ASCII and no numbers for names. -/
def ascii : Ecma where
  idStart := fun _ => false
  idContinue := fun _ => false
  numberToString := fun w => w.filter isWordChar
  lineSeparators := true
  id_terminator := fun _ _ => ⟨rfl, rfl⟩
  number_word := fun _ _ hc => (List.mem_filter.1 hc).2

def units (s : String) : JSString := s.toList.flatMap utf16

def recordOf (doc : String) : Value :=
  .object [(units "type", .string (units "record")), (units "name", .string (units "A")),
    (units "doc", .string (units doc)), (units "fields", .array [])]

/-- `{"type" : "record", "name" : "A", "doc" : "id:", "fields" : []}` -/
def plainSchema : List Char :=
  "\x7b\"type\" : \"record\", \"name\" : \"A\", \"doc\" : \"id:\", \"fields\" : []\x7d".toList

set_option maxRecDepth 4000 in
theorem convert_evaluates_plain : ascii.literal.parse (schemaTextTS plainSchema) = some (recordOf "id:") :=
  (convert_evaluates ascii plainSchema (recordOf "id:") rfl).2 ⟨rfl, rfl⟩

/-- `{"type":"record","name":"A","doc":"\"id\" : x","fields":[]}` -/
def quotingSchema : List Char :=
  "\x7b\"type\":\"record\",\"name\":\"A\",\"doc\":\"\\\"id\\\" : x\",\"fields\":[]\x7d".toList

set_option maxRecDepth 4000 in
/-- The documentation loses the two quotes that it has escaped. -/
theorem convert_mangles :
    json.parse quotingSchema = some (recordOf "\"id\" : x") ∧
      ascii.literal.parse (schemaTextTS quotingSchema) = some (recordOf "id : x") ∧
      recordOf "id : x" ≠ recordOf "\"id\" : x" := by
  refine ⟨rfl, rfl, fun heq => ?_⟩
  have hproperties := Value.object.inj heq
  simp [units, utf16] at hproperties

end Kududown.AvscConverter
