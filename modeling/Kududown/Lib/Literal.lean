import Mathlib

/-!
# JSON texts and object literals

A reader for texts of JSON and for the object literals of ECMAScript that are written like them. It goes over a text
character by character (`Dialect.step`): the characters make words and strings, and a word, a string or a punctuator
takes a pushdown parser one step further. What the two languages do differently is a `Dialect`: what may stand in a
string, which escapes there are, and whether a property name may go without quotes.

`Unquoted.run`: a text in which property names have lost their quotes is read like the text with them, as long as each
of them is a word that reads as the same name.
-/

namespace Literal

/-! ### Values -/

/-- A string of ECMAScript: its UTF-16 code units. -/
abbrev JSString := List UInt16

def utf16 (c : Char) : JSString :=
  if c.toNat < 0x10000 then [UInt16.ofNat c.toNat]
  else [UInt16.ofNat (0xD800 + (c.toNat - 0x10000) / 0x400), UInt16.ofNat (0xDC00 + (c.toNat - 0x10000) % 0x400)]

theorem utf16_ne_nil {c : Char} : utf16 c ≠ [] := by
  unfold utf16
  split_ifs <;> exact List.cons_ne_nil _ _

/-- A value as it is written: a number is given by its literal, an object by its properties in order. -/
inductive Value
  | null
  | bool (b : Bool)
  | number (literal : List Char)
  | string (s : JSString)
  | array (items : List Value)
  | object (properties : List (JSString × Value))

/-! ### Characters and words -/

def isSpace (c : Char) : Bool := c = ' ' || c = '\t' || c = '\n' || c = '\r'

def isPunct (c : Char) : Bool := c = '\x7b' || c = '\x7d' || c = '[' || c = ']' || c = ':' || c = ','

/-- A character that may stand in a word. -/
def isWordChar (c : Char) : Bool := !(c = '"' || isSpace c || isPunct c)

def hexDigit (c : Char) : Option Nat :=
  if c.isDigit then some (c.toNat - 48)
  else if 'a' ≤ c ∧ c ≤ 'f' then some (c.toNat - 87)
  else if 'A' ≤ c ∧ c ≤ 'F' then some (c.toNat - 55)
  else none

def isDigits (w : List Char) : Bool := !w.isEmpty && w.all Char.isDigit

def isExponent : List Char → Bool
  | [] => true
  | 'e' :: '+' :: w | 'e' :: '-' :: w | 'E' :: '+' :: w | 'E' :: '-' :: w => isDigits w
  | 'e' :: w | 'E' :: w => isDigits w
  | _ => false

def isFraction : List Char → Bool
  | '.' :: w => isDigits (w.takeWhile Char.isDigit) && isExponent (w.dropWhile Char.isDigit)
  | w => isExponent w

/-- A decimal literal as JSON has it, without a sign. -/
def isDecimal : List Char → Bool
  | '0' :: w => isFraction w
  | w => isDigits (w.takeWhile Char.isDigit) && isFraction (w.dropWhile Char.isDigit)

def isNumber : List Char → Bool
  | '-' :: w => isDecimal w
  | w => isDecimal w

/-- The value of a word that is no name. -/
def constant (w : List Char) : Option Value :=
  if w = ['n', 'u', 'l', 'l'] then some .null
  else if w = ['t', 'r', 'u', 'e'] then some (.bool true)
  else if w = ['f', 'a', 'l', 's', 'e'] then some (.bool false)
  else if isNumber w then some (.number w)
  else none

/-! ### Dialects -/

/-- `plain` characters stand for themselves in a string, `escape` is what a character after a backslash stands for (`u`
apart), `name` is the property that a word names, and `property` says which properties there may be. -/
structure Dialect where
  plain : Char → Bool
  escape : Char → Option JSString
  name : List Char → Option JSString
  property : JSString → Bool
  word : ∀ w n, name w = some n → w ≠ [] ∧ ∀ c ∈ w, isWordChar c = true
  escape_ne_nil : ∀ c units, escape c = some units → units ≠ []

inductive Token
  | punct (c : Char)
  | string (s : JSString)
  | word (w : List Char)
deriving DecidableEq

/-- An array or an object that a value is read for. -/
inductive Frame
  | array (items : List Value)
  | object (properties : List (JSString × Value)) (name : JSString)

/-- What has been read so far, and what is to come. -/
inductive Parser
  | value (stack : List Frame)
  | firstItem (stack : List Frame)
  | afterItem (items : List Value) (stack : List Frame)
  | firstKey (stack : List Frame)
  | key (properties : List (JSString × Value)) (stack : List Frame)
  | colon (properties : List (JSString × Value)) (name : JSString) (stack : List Frame)
  | afterMember (properties : List (JSString × Value)) (stack : List Frame)
  | done (v : Value)

/-- In a string: what the next character is. -/
inductive StrMode
  | plain
  | escape
  | unicode (left value : Nat)
deriving DecidableEq

inductive Lex
  | bare (word : List Char)
  | string (mode : StrMode) (units : JSString)
deriving DecidableEq

structure State where
  lex : Lex
  parser : Parser

def complete (v : Value) : List Frame → Parser
  | [] => .done v
  | .array items :: stack => .afterItem (items ++ [v]) stack
  | .object properties name :: stack => .afterMember (properties ++ [(name, v)]) stack

def Token.scalar : Token → Option Value
  | .punct _ => none
  | .string s => some (.string s)
  | .word w => constant w

def startValue (t : Token) (stack : List Frame) : Option Parser :=
  if t = .punct '\x7b' then some (.firstKey stack)
  else if t = .punct '[' then some (.firstItem stack)
  else t.scalar.map fun v => complete v stack

namespace Dialect
variable (D : Dialect)

def nameOf : Token → Option JSString
  | .punct _ => none
  | .string s => if D.property s then some s else none
  | .word w => (D.name w).filter D.property

def token : Parser → Token → Option Parser
  | .value stack, t => startValue t stack
  | .firstItem stack, t =>
    if t = .punct ']' then some (complete (.array []) stack) else startValue t (.array [] :: stack)
  | .afterItem items stack, t =>
    if t = .punct ',' then some (.value (.array items :: stack))
    else if t = .punct ']' then some (complete (.array items) stack)
    else none
  | .firstKey stack, t =>
    if t = .punct '\x7d' then some (complete (.object []) stack)
    else (D.nameOf t).map fun name => .colon [] name stack
  | .key properties stack, t => (D.nameOf t).map fun name => .colon properties name stack
  | .colon properties name stack, t =>
    if t = .punct ':' then some (.value (.object properties name :: stack)) else none
  | .afterMember properties stack, t =>
    if t = .punct ',' then some (.key properties stack)
    else if t = .punct '\x7d' then some (complete (.object properties) stack)
    else none
  | .done _, _ => none

def strStep : StrMode × JSString → Char → Option (StrMode × JSString)
  | (.plain, units), c =>
    if c = '\\' then some (.escape, units)
    else if D.plain c then some (.plain, units ++ utf16 c)
    else none
  | (.escape, units), c =>
    if c = 'u' then some (.unicode 4 0, units) else (D.escape c).map fun e => (.plain, units ++ e)
  | (.unicode left value, units), c =>
    (hexDigit c).map fun d =>
      if left ≤ 1 then (.plain, units ++ [UInt16.ofNat (16 * value + d)])
      else (.unicode (left - 1) (16 * value + d), units)

/-- The value of a string by what stands between its quotes. -/
def stringValue (body : List Char) : Option JSString :=
  match body.foldlM D.strStep (.plain, []) with
  | some (.plain, units) => some units
  | _ => none

/-- The end of a word. -/
def flush (p : Parser) (w : List Char) : Option Parser := if w = [] then some p else D.token p (.word w)

def delimit (p : Parser) (c : Char) : Option Parser := if isPunct c then D.token p (.punct c) else some p

def step : State → Char → Option State
  | ⟨.bare w, p⟩, c =>
    if c = '"' then if w = [] then some ⟨.string .plain [], p⟩ else none
    else if isWordChar c then some ⟨.bare (w ++ [c]), p⟩
    else (D.flush p w).bind fun p => (D.delimit p c).map fun p => ⟨.bare [], p⟩
  | ⟨.string mode units, p⟩, c =>
    if c = '"' ∧ mode = .plain then (D.token p (.string units)).map fun p => ⟨.bare [], p⟩
    else (D.strStep (mode, units) c).map fun r => ⟨.string r.1 r.2, p⟩

def run (s : State) (text : List Char) : Option State := text.foldlM D.step s

end Dialect

def Parser.result : Parser → Option Value
  | .done v => some v
  | _ => none

def start : State := ⟨.bare [], .value []⟩

namespace Dialect

def finish (D : Dialect) (s : State) : Option Value :=
  match s.lex with
  | .bare w => (D.flush s.parser w).bind Parser.result
  | .string _ _ => none

/-- The value of a text. -/
def parse (D : Dialect) (text : List Char) : Option Value := (D.run start text).bind D.finish

end Dialect

/-! ### JSON -/

def jsonEscape : Char → Option JSString
  | '"' => some [0x22]
  | '\\' => some [0x5C]
  | '/' => some [0x2F]
  | 'b' => some [0x08]
  | 'f' => some [0x0C]
  | 'n' => some [0x0A]
  | 'r' => some [0x0D]
  | 't' => some [0x09]
  | _ => none

theorem jsonEscape_ne_nil {c : Char} {units : JSString} (h : jsonEscape c = some units) : units ≠ [] := by
  unfold jsonEscape at h
  split at h <;> cases h <;> exact List.cons_ne_nil _ _

def json : Dialect where
  plain := fun c => 0x20 ≤ c.toNat && c ≠ '"' && c ≠ '\\'
  escape := jsonEscape
  name := fun _ => none
  property := fun _ => true
  word := fun _ _ h => (by cases h)
  escape_ne_nil := fun _ _ => jsonEscape_ne_nil

/-! ### ECMAScript -/

def isLineTerminator (c : Char) : Bool := c = '\n' || c = '\r' || c = '\u2028' || c = '\u2029'

/-- What an engine takes from elsewhere: the characters beyond ASCII that an identifier may begin and go on with, how a
decimal literal prints as a number, and whether its edition lets U+2028 and U+2029 stand in a string. -/
structure Ecma where
  idStart : Char → Bool
  idContinue : Char → Bool
  numberToString : List Char → List Char
  lineSeparators : Bool
  id_terminator : ∀ c, isLineTerminator c = true → idStart c = false ∧ idContinue c = false
  number_word : ∀ w, ∀ c ∈ numberToString w, isWordChar c = true

namespace Ecma
variable (E : Ecma)

def isIdentifierChar (first : Bool) (c : Char) : Bool :=
  c.isAlpha || c = '$' || c = '_' || !first && c.isDigit ||
    0x80 ≤ c.toNat && (if first then E.idStart c else E.idContinue c)

/-- The value of an identifier name, or of the rest of one. -/
def identifier (first : Bool) : List Char → Option JSString
  | [] => if first then none else some []
  | '\\' :: 'u' :: a :: b :: c :: d :: w =>
    match hexDigit a, hexDigit b, hexDigit c, hexDigit d with
    | some a, some b, some c, some d =>
      let char := Char.ofNat (((a * 16 + b) * 16 + c) * 16 + d)
      if E.isIdentifierChar first char then (identifier false w).map (utf16 char ++ ·) else none
    | _, _, _, _ => none
  | c :: w => if E.isIdentifierChar first c then (identifier false w).map (utf16 c ++ ·) else none

/-- The property that a word names: an identifier name, or a number. -/
def name (w : List Char) : Option JSString :=
  if w ≠ [] ∧ w.all isWordChar then
    if isDecimal w then some ((E.numberToString w).flatMap utf16) else E.identifier true w
  else none

def escape (c : Char) : Option JSString :=
  match jsonEscape c with
  | some units => some units
  | none =>
    if c = 'v' then some [0x0B]
    else if c.isDigit || c = 'x' || c = 'u' || isLineTerminator c then none
    else some (utf16 c)

theorem escape_ne_nil {c : Char} {units : JSString} (h : escape c = some units) : units ≠ [] := by
  unfold escape at h
  split at h
  · next he =>
    cases h
    exact jsonEscape_ne_nil he
  · split_ifs at h
    · cases h
      exact List.cons_ne_nil _ _
    · cases h
      exact utf16_ne_nil

/-- `__proto__ : v` sets the prototype and makes no property. -/
def proto : JSString := "__proto__".toList.flatMap utf16

/-- Object literals written like JSON: no computed names, methods or spreads, no trailing commas and no comments, and of
the escapes those of one character and `\uXXXX`. -/
def literal : Dialect where
  plain := fun c => c ≠ '\n' && c ≠ '\r' && c ≠ '"' && c ≠ '\\' && (c ≠ '\u2028' && c ≠ '\u2029' || E.lineSeparators)
  escape := escape
  name := E.name
  property := fun s => s ≠ proto
  word := fun w n h => by
    unfold name at h
    split_ifs at h with hw
    · exact ⟨hw.1, List.all_eq_true.1 hw.2⟩
    · exact ⟨hw.1, List.all_eq_true.1 hw.2⟩
  escape_ne_nil := fun _ _ => escape_ne_nil

end Ecma

/-! ### Two dialects -/

/-- What `D` makes of an escape or of a name is what `D'` makes of it. -/
structure Dialect.Below (D D' : Dialect) : Prop where
  escape : ∀ c units, D.escape c = some units → D'.escape c = some units
  name : ∀ w n, D.name w = some n → D'.name w = some n

theorem json_below (E : Ecma) : json.Below E.literal := by
  refine ⟨fun c units h => ?_, fun w n h => (by cases h)⟩
  show Ecma.escape c = some units
  change jsonEscape c = some units at h
  unfold Ecma.escape
  rw [h]

namespace Dialect
variable {D D' : Dialect} {p : Parser} {t : Token} {c : Char} {s u u' : State} {text body w : List Char} {v : JSString}

theorem nameOf_string {units n : JSString} : D.nameOf (.string units) = some n ↔ D.property units = true ∧ units = n := by
  show (if D.property units = true then some units else none) = some n ↔ _
  split_ifs with h <;> simp [h]

theorem nameOf_word {n : JSString} : D.nameOf (.word w) = some n ↔ D.name w = some n ∧ D.property n = true :=
  Option.filter_eq_some_iff

/-! Where both dialects go on they go on alike. -/

theorem nameOf_unique {n n' : JSString} (hbelow : D.Below D') (h : D.nameOf t = some n) (h' : D'.nameOf t = some n') :
    n = n' := by
  cases t with
  | punct c => cases h
  | string units => exact (nameOf_string.1 h).2.symm.trans (nameOf_string.1 h').2
  | word w =>
    have hn := hbelow.name w n (nameOf_word.1 h).1
    rw [(nameOf_word.1 h').1] at hn
    exact (Option.some.inj hn).symm

theorem token_unique {q q' : Parser} (hbelow : D.Below D') (h : D.token p t = some q) (h' : D'.token p t = some q') :
    q = q' := by
  have hkey : ∀ properties stack, ((D.nameOf t).map fun name => Parser.colon properties name stack) = some q →
      ((D'.nameOf t).map fun name => Parser.colon properties name stack) = some q' → q = q' := by
    intro properties stack h h'
    obtain ⟨n, hn, rfl⟩ := Option.map_eq_some_iff.1 h
    obtain ⟨n', hn', rfl⟩ := Option.map_eq_some_iff.1 h'
    rw [nameOf_unique hbelow hn hn']
  cases p with
  | key properties stack => exact hkey properties stack h h'
  | firstKey stack =>
    simp only [token] at h h'
    split_ifs at h h'
    · exact Option.some.inj (h.symm.trans h')
    · exact hkey [] stack h h'
  | value | firstItem | afterItem | colon | afterMember | done => exact Option.some.inj (h.symm.trans h')

theorem strStep_unique {r q q' : StrMode × JSString} (hbelow : D.Below D') (h : D.strStep r c = some q)
    (h' : D'.strStep r c = some q') : q = q' := by
  obtain ⟨mode, units⟩ := r
  cases mode with
  | plain =>
    simp only [strStep] at h h'
    split_ifs at h h'
    · exact Option.some.inj (h.symm.trans h')
    · exact Option.some.inj (h.symm.trans h')
  | escape =>
    simp only [strStep] at h h'
    split_ifs at h h'
    · exact Option.some.inj (h.symm.trans h')
    · obtain ⟨e, he, rfl⟩ := Option.map_eq_some_iff.1 h
      obtain ⟨e', he', rfl⟩ := Option.map_eq_some_iff.1 h'
      rw [hbelow.escape c e he] at he'
      rw [Option.some.inj he']
  | unicode left value => exact Option.some.inj (h.symm.trans h')

theorem flush_unique {q q' : Parser} (hbelow : D.Below D') (h : D.flush p w = some q) (h' : D'.flush p w = some q') :
    q = q' := by
  unfold flush at h h'
  split_ifs at h h'
  · exact Option.some.inj (h.symm.trans h')
  · exact token_unique hbelow h h'

theorem delimit_unique {q q' : Parser} (hbelow : D.Below D') (h : D.delimit p c = some q) (h' : D'.delimit p c = some q') :
    q = q' := by
  unfold delimit at h h'
  split_ifs at h h'
  · exact token_unique hbelow h h'
  · exact Option.some.inj (h.symm.trans h')

theorem step_unique (hbelow : D.Below D') (h : D.step s c = some u) (h' : D'.step s c = some u') : u = u' := by
  obtain ⟨lex, p⟩ := s
  cases lex with
  | bare w =>
    simp only [step] at h h'
    split_ifs at h h'
    · exact Option.some.inj (h.symm.trans h')
    · exact Option.some.inj (h.symm.trans h')
    · obtain ⟨q, hq, h⟩ := Option.bind_eq_some_iff.1 h
      obtain ⟨q', hq', h'⟩ := Option.bind_eq_some_iff.1 h'
      obtain ⟨r, hr, rfl⟩ := Option.map_eq_some_iff.1 h
      obtain ⟨r', hr', rfl⟩ := Option.map_eq_some_iff.1 h'
      rw [flush_unique hbelow hq hq'] at hr
      rw [delimit_unique hbelow hr hr']
  | string mode units =>
    simp only [step] at h h'
    split_ifs at h h'
    · obtain ⟨q, hq, rfl⟩ := Option.map_eq_some_iff.1 h
      obtain ⟨q', hq', rfl⟩ := Option.map_eq_some_iff.1 h'
      rw [token_unique hbelow hq hq']
    · obtain ⟨q, hq, rfl⟩ := Option.map_eq_some_iff.1 h
      obtain ⟨q', hq', rfl⟩ := Option.map_eq_some_iff.1 h'
      rw [strStep_unique hbelow hq hq']

theorem finish_unique {v v' : Value} (hbelow : D.Below D') (h : D.finish s = some v) (h' : D'.finish s = some v') :
    v = v' := by
  obtain ⟨lex, p⟩ := s
  cases lex with
  | bare w =>
    obtain ⟨q, hq, h⟩ := Option.bind_eq_some_iff.1 h
    obtain ⟨q', hq', h'⟩ := Option.bind_eq_some_iff.1 h'
    rw [flush_unique hbelow hq hq'] at h
    exact Option.some.inj (h.symm.trans h')
  | string mode units => cases h

/-! ### Reading on -/

theorem foldlM_unique {σ α : Type} {f g : σ → α → Option σ} {l : List α} {x y z : σ}
    (hfg : ∀ x a y z, f x a = some y → g x a = some z → y = z) (hf : l.foldlM f x = some y) (hg : l.foldlM g x = some z) :
    y = z := by
  induction l generalizing x with
  | nil => exact Option.some.inj (hf.symm.trans hg)
  | cons a l ih =>
    obtain ⟨y', hy, hf⟩ := Option.bind_eq_some_iff.1 hf
    obtain ⟨z', hz, hg⟩ := Option.bind_eq_some_iff.1 hg
    rw [hfg x a y' z' hy hz] at hf
    exact ih hf hg

theorem run_cons : D.run s (c :: text) = (D.step s c).bind fun u => D.run u text := rfl

theorem run_append {text' : List Char} : D.run s (text ++ text') = (D.run s text).bind fun u => D.run u text' :=
  List.foldlM_append

/-- Inside a string the parser waits. -/
theorem run_body {mode : StrMode} {units : JSString} (hquotes : '"' ∉ body) :
    D.run ⟨.string mode units, p⟩ body =
      (body.foldlM D.strStep (mode, units)).map fun r => ⟨.string r.1 r.2, p⟩ := by
  induction body generalizing mode units with
  | nil => rfl
  | cons c body ih =>
    have hc : ¬ (c = '"' ∧ mode = .plain) := fun h => hquotes (h.1 ▸ List.mem_cons_self)
    have hbody : '"' ∉ body := fun h => hquotes (List.mem_cons_of_mem _ h)
    rw [run_cons, step, if_neg hc, List.foldlM_cons]
    cases D.strStep (mode, units) c with
    | none => rfl
    | some r => exact ih hbody

theorem stringValue_eq : D.stringValue body = some v ↔ body.foldlM D.strStep (.plain, []) = some (.plain, v) := by
  unfold stringValue
  split
  · next units h => simp [h]
  · next h =>
    refine ⟨fun h' => (by cases h'), fun h' => ?_⟩
    exact absurd h' (h v)

theorem run_string (hquotes : '"' ∉ body) (hvalue : D.stringValue body = some v) :
    D.run ⟨.bare [], p⟩ ('"' :: (body ++ '"' :: text)) =
      (D.token p (.string v)).bind fun q => D.run ⟨.bare [], q⟩ text := by
  have hopen : D.step ⟨.bare [], p⟩ '"' = some ⟨.string .plain [], p⟩ := rfl
  rw [run_cons, hopen, Option.bind_some, run_append, run_body hquotes, stringValue_eq.1 hvalue, Option.map_some,
    Option.bind_some, run_cons, step, if_pos ⟨rfl, rfl⟩, Option.bind_map]
  rfl

theorem run_colon : D.run ⟨.bare [], p⟩ (' ' :: ':' :: text) =
    (D.token p (.punct ':')).bind fun q => D.run ⟨.bare [], q⟩ text := by
  have hspace : D.step ⟨.bare [], p⟩ ' ' = some ⟨.bare [], p⟩ := rfl
  have hcolon : D.step ⟨.bare [], p⟩ ':' = (D.token p (.punct ':')).map fun q => ⟨.bare [], q⟩ := rfl
  rw [run_cons, hspace, Option.bind_some, run_cons, hcolon, Option.bind_map]
  rfl

theorem run_word {acc : List Char} (hw : ∀ c ∈ w, isWordChar c = true) :
    D.run ⟨.bare acc, p⟩ w = some ⟨.bare (acc ++ w), p⟩ := by
  induction w generalizing acc with
  | nil =>
    rw [List.append_nil]
    rfl
  | cons c w ih =>
    have hc := hw c List.mem_cons_self
    have hquote : c ≠ '"' := by
      rintro rfl
      cases hc
    rw [run_cons, step, if_neg hquote, if_pos hc, Option.bind_some, ih fun c' hc' => hw c' (List.mem_cons_of_mem _ hc'),
      List.append_assoc]
    rfl

theorem run_word_space (hne : w ≠ []) (hw : ∀ c ∈ w, isWordChar c = true) :
    D.run ⟨.bare [], p⟩ (w ++ ' ' :: text) = (D.token p (.word w)).bind fun q => D.run ⟨.bare [], q⟩ (' ' :: text) := by
  have hspace : D.step ⟨.bare w, p⟩ ' ' = (D.token p (.word w)).map fun q => ⟨.bare [], q⟩ := by
    show (D.flush p w).bind _ = _
    unfold flush
    rw [if_neg hne]
    cases D.token p (.word w) <;> rfl
  rw [run_append, run_word hw, Option.bind_some, List.nil_append, run_cons, hspace, Option.bind_map]
  rfl

/-- After a value there is no colon. -/
theorem token_complete {a : Value} {stack : List Frame} : D.token (complete a stack) (.punct ':') = none := by
  rcases stack with _ | ⟨_ | _, stack⟩ <;> rfl

/-- A string that a colon follows is a property name, and a word for the same name does as well. -/
theorem token_name {q q' : Parser} (h : D.token p (.string v) = some q) (hcolon : D.token q (.punct ':') = some q')
    (hname : D.name w = some v) : D.token p (.word w) = some q := by
  have hkey : ∀ properties stack, ((D.nameOf (.string v)).map fun name => Parser.colon properties name stack) = some q →
      ((D.nameOf (.word w)).map fun name => Parser.colon properties name stack) = some q := by
    intro properties stack h
    obtain ⟨n, hn, rfl⟩ := Option.map_eq_some_iff.1 h
    obtain ⟨hproperty, rfl⟩ := nameOf_string.1 hn
    rw [nameOf_word.2 ⟨hname, hproperty⟩]
    rfl
  have hvalue : ∀ stack, some (complete (.string v) stack) ≠ some q := by
    intro stack heq
    cases heq
    rw [token_complete] at hcolon
    cases hcolon
  cases p with
  | key properties stack => exact hkey properties stack h
  | firstKey stack => exact hkey [] stack h
  | value stack => exact absurd h (hvalue stack)
  | firstItem stack => exact absurd h (hvalue (.array [] :: stack))
  | afterItem | colon | afterMember | done => cases h

end Dialect

/-! ### Names without quotes -/

/-- The second text is the first one, which is read from `s`, with some property names without their quotes. -/
inductive Unquoted (D D' : Dialect) : State → List Char → List Char → Prop
  | nil (s : State) : Unquoted D D' s [] []
  | char {s u : State} {c : Char} {text text' : List Char} (hstep : D.step s c = some u)
      (hr : Unquoted D D' u text text') : Unquoted D D' s (c :: text) (c :: text')
  | name {p q q' : Parser} {v : JSString} {body text text' : List Char} (hquotes : '"' ∉ body)
      (hvalue : D.stringValue body = some v) (hname : D'.name body = some v) (htoken : D.token p (.string v) = some q)
      (hcolon : D.token q (.punct ':') = some q') (hr : Unquoted D D' ⟨.bare [], q'⟩ text text') :
      Unquoted D D' ⟨.bare [], p⟩ ('"' :: (body ++ '"' :: ' ' :: ':' :: text)) (body ++ ' ' :: ':' :: text')

namespace Unquoted
variable {D D' : Dialect} {s t t' : State} {text text' : List Char}

theorem run (hbelow : D.Below D') (h : Unquoted D D' s text text') (hD : D.run s text = some t)
    (hD' : D'.run s text = some t') : D'.run s text' = some t := by
  induction h with
  | nil s =>
    cases hD
    rfl
  | char hstep hr ih =>
    obtain ⟨u, hu, hD⟩ := Option.bind_eq_some_iff.1 hD
    obtain ⟨u', hu', hD'⟩ := Option.bind_eq_some_iff.1 hD'
    cases Dialect.step_unique hbelow hu hu'
    rw [hstep] at hu
    cases hu
    rw [Dialect.run_cons, hu', Option.bind_some]
    exact ih hD hD'
  | @name p q q' v body text text' hquotes hvalue hname htoken hcolon hr ih =>
    obtain ⟨hne, hword⟩ := D'.word body v hname
    -- the string is the same for both
    have hvalue' : D'.stringValue body = some v := by
      have hopen : D'.step ⟨.bare [], p⟩ '"' = some ⟨.string .plain [], p⟩ := rfl
      have hbody := hD'
      rw [Dialect.run_cons, hopen, Option.bind_some, Dialect.run_append, Dialect.run_body hquotes] at hbody
      obtain ⟨u, hu, -⟩ := Option.bind_eq_some_iff.1 hbody
      obtain ⟨r, hr', -⟩ := Option.map_eq_some_iff.1 hu
      have hsame := Dialect.foldlM_unique (fun _ _ _ _ => Dialect.strStep_unique hbelow) (Dialect.stringValue_eq.1 hvalue) hr'
      rw [← hsame] at hr'
      exact Dialect.stringValue_eq.2 hr'
    rw [Dialect.run_string hquotes hvalue, htoken, Option.bind_some, Dialect.run_colon, hcolon, Option.bind_some] at hD
    rw [Dialect.run_string hquotes hvalue'] at hD'
    obtain ⟨r, hr', hD'⟩ := Option.bind_eq_some_iff.1 hD'
    cases Dialect.token_unique hbelow htoken hr'
    rw [Dialect.run_colon] at hD'
    obtain ⟨r, hcolon', hD'⟩ := Option.bind_eq_some_iff.1 hD'
    cases Dialect.token_unique hbelow hcolon hcolon'
    rw [Dialect.run_word_space hne hword, Dialect.token_name hr' hcolon' hname, Option.bind_some, Dialect.run_colon, hcolon',
      Option.bind_some]
    exact ih hD hD'

/-- A text that both dialects read is read alike by the second one when property names have lost their quotes. -/
theorem parse {v v' : Value} (hbelow : D.Below D') (h : Unquoted D D' start text text') (hD : D.parse text = some v)
    (hD' : D'.parse text = some v') : D'.parse text' = some v := by
  obtain ⟨t, hrun, hfinish⟩ := Option.bind_eq_some_iff.1 hD
  obtain ⟨t', hrun', hfinish'⟩ := Option.bind_eq_some_iff.1 hD'
  cases Dialect.foldlM_unique (fun _ _ _ _ => Dialect.step_unique hbelow) hrun hrun'
  cases Dialect.finish_unique hbelow hfinish hfinish'
  unfold Dialect.parse
  rw [h.run hbelow hrun hrun', Option.bind_some]
  exact hfinish'

end Unquoted

end Literal
