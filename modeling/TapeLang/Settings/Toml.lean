import TapeLang.Text.IntLiteral
import TapeLang.Text.Quoted
import TapeLang.Text.Utf8

/-! # TOML documents

A reader for the parts of TOML that settings are written in: comments, bare,
quoted and dotted keys, table and array-of-tables headers, strings of all four
kinds, integers, floats, booleans, arrays and inline tables. Values of floats
are not kept.

A document is the list of its keys in the order of their appearance and the
values of the keys at its top level.
-/

namespace TapeLang

namespace Toml

/-- A value. -/
inductive Value where
  | integer (n : Int)
  | float
  | boolean (b : Bool)
  | string (s : String)
  | array (items : List Value)
  | table
  deriving Repr, Inhabited

/-- The parts of a dotted key. -/
abbrev Key := List String

/-- How a key came to be. -/
inductive Status where
  /-- It has a value. -/
  | value
  /-- It is the table of a header. -/
  | header
  /-- It is a table because a header has it in front. -/
  | parent
  /-- It is a table because a dotted key has it in front. -/
  | dotted
  /-- It is an array of tables. -/
  | tables
  deriving Repr, DecidableEq

/-- A document read so far. -/
structure Doc where
  /-- All keys in the order of their appearance. -/
  keys : Array Key := #[]
  /-- The keys in use. -/
  known : List (Key × Status) := []
  /-- The values of the keys at the top level. -/
  values : Array (String × Value) := #[]

namespace Doc

/-- How a key came to be, if it is in use. -/
def status? (d : Doc) (key : Key) : Option Status :=
  d.known.lookup key

/-- Note how a key came to be. -/
def mark (d : Doc) (key : Key) (s : Status) : Doc :=
  { d with known := (key, s) :: d.known }

/-- The proper, non-empty front parts of a key, shortest first. -/
def fronts (key : Key) : List Key :=
  (List.range (key.length - 1)).map fun n => key.take (n + 1)

/-- Make sure a header may have `key` in front. -/
def passHeader (d : Doc) (key : Key) : Option Doc :=
  match d.status? key with
  | none => some (d.mark key .parent)
  | some .value => none
  | some _ => some d

/-- Make sure a dotted key may have `key` in front. -/
def passDotted (d : Doc) (key : Key) : Option Doc :=
  match d.status? key with
  | none => some (d.mark key .dotted)
  | some .dotted => some d
  | some .parent => some (d.mark key .dotted)
  | some _ => none

/-- Start the table of a header. -/
def openTable (d : Doc) (key : Key) : Option Doc := do
  let d ← (fronts key).foldlM passHeader d
  match d.status? key with
  | none | some .parent => some { d.mark key .header with keys := d.keys.push key }
  | some _ => none

/-- Start another table of an array of tables; the keys of the one before are
    free again. -/
def openElement (d : Doc) (key : Key) : Option Doc := do
  let d ← (fronts key).foldlM passHeader d
  match d.status? key with
  | none => some { d.mark key .tables with keys := d.keys.push key }
  | some .tables =>
    some { d with
      known := d.known.filter fun k => k.1 = key || !key.isPrefixOf k.1
      keys := d.keys.push key }
  | some _ => none

/-- Start a key with a value below the table `base`. -/
def openKey (d : Doc) (base key : Key) : Option Doc := do
  let d ← ((fronts key).map (base ++ ·)).foldlM passDotted d
  match d.status? (base ++ key) with
  | none => some { d.mark (base ++ key) .value with keys := d.keys.push (base ++ key) }
  | some _ => none

/-- Free the keys below `base`, for the next element of an array. -/
def freeBelow (d : Doc) (base : Key) : Doc :=
  { d with known := d.known.filter fun k => k.1 = base || !base.isPrefixOf k.1 }

end Doc

/-- Space and tab. -/
def isBlank (c : Char) : Bool :=
  c = ' ' || c = '\t'

/-- A line ending; a carriage return only stands before a line feed. -/
def isNewline (c : Char) : Bool :=
  c = '\n' || c = '\r'

/-- Drop blanks. -/
def skipBlank (cs : List Char) : List Char :=
  cs.dropWhile isBlank

/-- Drop blanks, line endings and comments. -/
def skipLines (inComment : Bool) : List Char → List Char
  | [] => []
  | c :: cs =>
    if inComment then skipLines (c != '\n') cs
    else if isBlank c || isNewline c then skipLines false cs
    else if c = '#' then skipLines true cs
    else c :: cs

/-- What is left after an item that ends its line, if it does. -/
def endLine (cs : List Char) : Option (List Char) :=
  match skipBlank cs with
  | [] => some []
  | c :: rest => if c = '#' || isNewline c then some (c :: rest) else none

/-- A character of a key without quotes. -/
def isBare (c : Char) : Bool :=
  c.isAlphanum || c = '_' || c = '-'

/-- The value of hexadecimal digits. -/
def hexValue? (digits : List Char) : Option Nat :=
  digits.foldlM (fun n c =>
    if c.isDigit then some (n * 16 + (c.toNat - 48))
    else if 'a' ≤ c && c ≤ 'f' then some (n * 16 + (c.toNat - 87))
    else if 'A' ≤ c && c ≤ 'F' then some (n * 16 + (c.toNat - 55))
    else none) 0

/-- The character with the given number in hexadecimal. -/
def hexChar? (digits : List Char) : Option Char := do
  let n ← hexValue? digits
  if n.isValidChar then some (Char.ofNat n) else none

/-- The character that a one-letter escape stands for. -/
def escapeChar? (c : Char) : Option Char :=
  match c with
  | 'b' => some (Char.ofNat 8)
  | 't' => some '\t'
  | 'n' => some '\n'
  | 'f' => some (Char.ofNat 12)
  | 'r' => some '\r'
  | 'e' => some (Char.ofNat 27)
  | '"' => some '"'
  | '\\' => some '\\'
  | _ => none

/-- What a backslash at the end of a line does. -/
inductive Joining where
  /-- There is none. -/
  | off
  /-- Only blanks may come before the line ending. -/
  | line
  /-- Blanks and line endings are dropped. -/
  | drop
  deriving Repr, DecidableEq

/-- Replace the escapes of a text. `read` is the text so far, in reverse. -/
def unescape (joining : Joining) (read : List Char) : List Char → Option String
  | [] => if joining = .line then none else some (String.ofList read.reverse)
  | c :: cs =>
    if joining = .line then
      if isBlank c then unescape .line read cs
      else if isNewline c then unescape .drop read cs
      else none
    else if joining = .drop && (isBlank c || isNewline c) then unescape .drop read cs
    else if c != '\\' then unescape .off (c :: read) cs
    else match cs with
      | 'x' :: a :: b :: cs => do unescape .off ((← hexChar? [a, b]) :: read) cs
      | 'u' :: a :: b :: c :: d :: cs => do
        unescape .off ((← hexChar? [a, b, c, d]) :: read) cs
      | 'U' :: a :: b :: c :: d :: e :: f :: g :: h :: cs => do
        unescape .off ((← hexChar? [a, b, c, d, e, f, g, h]) :: read) cs
      | e :: cs =>
        if isBlank e then unescape .line read cs
        else if isNewline e then unescape .drop read cs
        else do unescape .off ((← escapeChar? e) :: read) cs
      | [] => none

/-- The characters up to a closing quote on the same line, after the opening
    one, and what follows. A backslash protects the character after it if
    `escapes` is set. -/
def quotedBody (quote : Char) (escapes : Bool) (read : List Char) :
    List Char → Option (List Char × List Char)
  | [] => none
  | c :: cs =>
    if c = quote then some (read.reverse, cs)
    else if isNewline c then none
    else if escapes && c = '\\' then
      match cs with
      | e :: cs => if isNewline e then none else quotedBody quote escapes (e :: c :: read) cs
      | [] => none
    else quotedBody quote escapes (c :: read) cs

/-- The same for three closing quotes on any line. Up to two quotes more belong
    to the text. -/
def multilineBody (quote : Char) (escapes : Bool) (read : List Char) :
    List Char → Option (List Char × List Char)
  | [] => none
  | c :: cs =>
    if c = quote && cs.take 2 = [quote, quote] then
      match (cs.takeWhile (· = quote)).length with
      | 2 => some (read.reverse, cs.drop 2)
      | 3 => some ((quote :: read).reverse, cs.drop 3)
      | 4 => some ((quote :: quote :: read).reverse, cs.drop 4)
      | _ => none
    else if escapes && c = '\\' then
      match cs with
      | e :: cs => multilineBody quote escapes (e :: c :: read) cs
      | [] => none
    else multilineBody quote escapes (c :: read) cs

/-- Drop a line ending right after the opening quotes. -/
def dropFirstNewline : List Char → List Char
  | '\n' :: cs => cs
  | '\r' :: '\n' :: cs => cs
  | cs => cs

/-- The single quote. -/
def apostrophe : Char := Char.ofNat 39

/-- The text after an opening quote, and what follows it. -/
def quotedText (quote : Char) (cs : List Char) : Option (String × List Char) := do
  let basic := quote = '"'
  let (body, rest) ← quotedBody quote basic [] cs
  if basic then return (← unescape .off [] body, rest) else return (String.ofList body, rest)

/-- The text after three opening quotes, and what follows it. -/
def multilineText (quote : Char) (cs : List Char) : Option (String × List Char) := do
  let basic := quote = '"'
  let (body, rest) ← multilineBody quote basic [] (dropFirstNewline cs)
  if basic then return (← unescape .off [] body, rest) else return (String.ofList body, rest)

/-- The string that starts with the given quote, and what follows it. -/
def stringValue (quote : Char) (cs : List Char) : Option (String × List Char) :=
  if cs.take 2 = [quote, quote] then multilineText quote (cs.drop 2) else quotedText quote cs

/-- One part of a key, and what follows it. -/
def keyPart (cs : List Char) : Option (String × List Char) :=
  match cs with
  | c :: rest =>
    if c = '"' || c = apostrophe then
      if rest.take 2 = [c, c] then none else quotedText c rest
    else
      let name := cs.takeWhile isBare
      if name.isEmpty then none else some (String.ofList name, cs.dropWhile isBare)
  | [] => none

/-- The parts of a key from here on, at most `fuel` of them, and what follows. -/
def keyParts : (fuel : Nat) → List Char → Option (Key × List Char)
  | 0, _ => none
  | fuel + 1, cs => do
    let (part, rest) ← keyPart (skipBlank cs)
    match skipBlank rest with
    | '.' :: rest =>
      let (more, rest) ← keyParts fuel rest
      return (part :: more, rest)
    | rest => return ([part], rest)

/-- A key up to the given closing character, and what follows it. -/
def keyUpTo (close : Char) (cs : List Char) : Option (Key × List Char) := do
  let (key, rest) ← keyParts cs.length cs
  match rest with
  | c :: rest => if c = close then some (key, rest) else none
  | [] => none

/-- Whether underscores stand between digits only. -/
def underscoresOk (text : List Char) : Bool :=
  let step (state : Bool × Bool) (c : Char) : Bool × Bool :=
    (state.1 && (c != '_' || state.2), (hexValue? [c]).isSome)
  let (good, digit) := text.foldl step (true, false)
  good && digit

/-- Whether a decimal numeral has a zero in front of other characters. -/
def leadingZero (text : List Char) : Bool :=
  match text with
  | '0' :: c :: _ => !(c = 'b' || c = 'o' || c = 'x')
  | '-' :: '0' :: _ :: _ => true
  | '+' :: '0' :: _ :: _ => true
  | _ => false

/-- Whether every period is followed by a digit. -/
def periodsOk : List Char → Bool
  | [] => true
  | '.' :: c :: cs => c.isDigit && periodsOk (c :: cs)
  | ['.'] => false
  | _ :: cs => periodsOk cs

/-- The value of an integer. -/
def integer? (text : List Char) : Option Value :=
  if underscoresOk text && !leadingZero text then
    match IntLiteral.parse 64 (Bytes.ofString (String.ofList text)) with
    | .ok n => some (.integer n)
    | .error _ => none
  else none

/-- Whether a text is an exponent with its sign, or empty after the mark. -/
def exponentOk (text : List Char) : Bool :=
  let digits := match text with
    | '-' :: cs => cs
    | '+' :: cs => cs
    | cs => cs
  !digits.isEmpty && digits.all (fun c => c.isDigit || c = '_')

/-- A float, if the text is one. -/
def float? (text : List Char) : Option Value :=
  let unsigned := match text with
    | '-' :: cs => cs
    | '+' :: cs => cs
    | cs => cs
  let isMark (c : Char) : Bool := c = 'e' || c = 'E'
  let mantissa := unsigned.takeWhile (!isMark ·)
  let exponent := unsigned.dropWhile (!isMark ·)
  let whole := mantissa.takeWhile (· != '.')
  let fraction := (mantissa.dropWhile (· != '.')).drop 1
  let digitsOk (cs : List Char) : Bool := cs.all (fun c => c.isDigit || c = '_') && underscoresOk cs
  if digitsOk whole && !leadingZero whole && periodsOk text &&
      (fraction.isEmpty || digitsOk fraction) &&
      (exponent.isEmpty || exponentOk (exponent.drop 1) && underscoresOk (exponent.drop 1)) then
    some .float
  else none

/-- A number at the front, and what follows it. -/
def number (cs : List Char) : Option (Value × List Char) :=
  let unsigned := match cs with
    | '-' :: rest => rest
    | '+' :: rest => rest
    | rest => rest
  let signed := unsigned.length < cs.length
  if unsigned.take 3 = ['i', 'n', 'f'] || unsigned.take 3 = ['n', 'a', 'n'] then
    some (.float, unsigned.drop 3)
  else match unsigned with
    | '0' :: mark :: _ =>
      if mark = 'b' || mark = 'o' || mark = 'x' then
        if signed then none
        else
          let isDigit (c : Char) : Bool := c = '_' || match mark with
            | 'b' => c = '0' || c = '1'
            | 'o' => '0' ≤ c && c ≤ '7'
            | _ => (hexValue? [c]).isSome
          let text := ['0', mark] ++ (unsigned.drop 2).takeWhile isDigit
          (integer? text).map fun v => (v, (unsigned.drop 2).dropWhile isDigit)
      else decimal cs
    | _ => decimal cs
where
  /-- A decimal integer or a float. -/
  decimal (cs : List Char) : Option (Value × List Char) :=
    let isPlain (c : Char) : Bool := c.isDigit || c = '_'
    let isFloat (c : Char) : Bool :=
      isPlain c || c = '.' || c = 'e' || c = 'E' || c = '-' || c = '+'
    let sign := cs.takeWhile fun c => c = '-' || c = '+'
    let digits := (cs.drop sign.length).takeWhile isPlain
    let rest := (cs.drop sign.length).dropWhile isPlain
    if 1 < sign.length || digits.isEmpty then none
    else match rest with
      | c :: _ =>
        if c = '.' || c = 'e' || c = 'E' then
          (float? (sign ++ digits ++ rest.takeWhile isFloat)).map fun v => (v, rest.dropWhile isFloat)
        else (integer? (sign ++ digits)).map fun v => (v, rest)
      | [] => (integer? (sign ++ digits)).map fun v => (v, rest)

/-- A word of letters at the front, and what follows it. -/
def boolean (cs : List Char) : Option (Value × List Char) :=
  let word := String.ofList (cs.takeWhile Char.isAlpha)
  let rest := cs.dropWhile Char.isAlpha
  if word = "true" then some (.boolean true, rest)
  else if word = "false" then some (.boolean false, rest)
  else none

mutual

/-- The value of `key` at the front, and what follows it. `inArray` says that
    the value is an element of an array. -/
def value : (fuel : Nat) → (key : Key) → (inArray : Bool) → Doc → List Char →
    Option (Value × Doc × List Char)
  | 0, _, _, _, _ => none
  | fuel + 1, key, inArray, d, cs =>
    match skipBlank cs with
    | [] => none
    | c :: rest =>
      if c = '[' then do
        let (items, d, rest) ← elements fuel key d [] rest
        return (.array items, d, rest)
      else if c = '\x7b' then do
        let d := if inArray then d.freeBelow key else d
        let (d, rest) ← fields fuel key d rest
        return (.table, d, rest)
      else if c = '"' || c = apostrophe then do
        let (s, rest) ← stringValue c rest
        return (.string s, d, rest)
      else if c.isDigit || c = '-' || c = '+' || c = 'i' || c = 'n' then do
        let (v, rest) ← number (c :: rest)
        return (v, d, rest)
      else do
        let (v, rest) ← boolean (c :: rest)
        return (v, d, rest)

/-- The elements of an array up to its end, after those in `before`, which are
    in reverse. -/
def elements : (fuel : Nat) → (key : Key) → Doc → (before : List Value) → List Char →
    Option (List Value × Doc × List Char)
  | 0, _, _, _, _ => none
  | fuel + 1, key, d, before, cs =>
    match skipLines false cs with
    | ']' :: rest => some (before.reverse, d, rest)
    | cs => do
      let (v, d, rest) ← value fuel key true d cs
      match skipLines false rest with
      | ',' :: rest => elements fuel key d (v :: before) rest
      | ']' :: rest => some ((v :: before).reverse, d, rest)
      | _ => none

/-- The keys and values of an inline table up to its end. -/
def fields : (fuel : Nat) → (base : Key) → Doc → List Char → Option (Doc × List Char)
  | 0, _, _, _ => none
  | fuel + 1, base, d, cs =>
    match skipLines false cs with
    | '\x7d' :: rest => some (d, rest)
    | cs => do
      let (key, rest) ← keyUpTo '=' cs
      let d ← d.openKey base key
      let (_, d, rest) ← value fuel (base ++ key) false d rest
      match skipLines false rest with
      | ',' :: rest => fields fuel base d rest
      | '\x7d' :: rest => some (d, rest)
      | _ => none

end

/-- Keep the value of a key at the top level. -/
def Doc.keep (d : Doc) (key : Key) (v : Value) : Doc :=
  match key with
  | [name] => { d with values := d.values.push (name, v) }
  | name :: _ => { d with values := d.values.push (name, .table) }
  | [] => d

/-- Read lines below the table `base`. -/
def lines : (fuel : Nat) → (base : Key) → Doc → List Char → Option Doc
  | 0, _, _, _ => none
  | fuel + 1, base, d, cs =>
    match skipLines false cs with
    | [] => some d
    | '[' :: '[' :: rest => do
      let (key, rest) ← keyUpTo ']' rest
      let rest ← match rest with
        | ']' :: rest => some rest
        | _ => none
      let d ← d.openElement key
      lines fuel key (d.keep key .table) (← endLine rest)
    | '[' :: rest => do
      let (key, rest) ← keyUpTo ']' rest
      let d ← d.openTable key
      lines fuel key (d.keep key .table) (← endLine rest)
    | cs => do
      let (key, rest) ← keyUpTo '=' cs
      let d ← d.openKey base key
      let (v, d, rest) ← value fuel (base ++ key) false d rest
      lines fuel base (d.keep (base ++ key) v) (← endLine rest)

/-- The characters of a document in UTF-8, without the mark that may stand in
    front. -/
def decode : (fuel : Nat) → Bytes → Option (List Char)
  | 0, _ => none
  | _, [] => some []
  | fuel + 1, bs =>
    match Utf8.front bs with
    | .whole c width => (decode fuel (bs.drop width)).map (c :: ·)
    | _ => none

/-- Drop the mark of an encoding at the very start. -/
def dropMark : Bytes → Bytes
  | 0xFF :: 0xFE :: bs => bs
  | 0xFE :: 0xFF :: bs => bs
  | 0xEF :: 0xBB :: 0xBF :: bs => bs
  | bs => bs

/-- Whether a document holds no control characters, and carriage returns only
    before line feeds. -/
def controlsOk : List Char → Bool
  | [] => true
  | '\r' :: '\n' :: cs => controlsOk cs
  | c :: cs =>
    (c = '\t' || c = '\n' || (32 ≤ c.toNat && c.toNat != 127)) && controlsOk cs

/-- Read a document. -/
def parse (bs : Bytes) : Option Doc := do
  let cs ← decode (bs.length + 1) (dropMark bs)
  if controlsOk cs then lines (cs.length + 1) [] {} cs else none

/-- The escape of a character in a quoted key. -/
def escapeKeyChar (c : Char) : String :=
  match c with
  | '"' => "\\\""
  | '\\' => "\\\\"
  | '\t' => "\\t"
  | '\n' => "\\n"
  | '\r' => "\\r"
  | c =>
    if c.toNat = 8 then "\\b"
    else if c.toNat = 12 then "\\f"
    else if c.toNat < 32 || c.toNat = 127 then "\\u" ++ Quoted.hex 4 c.toNat
    else String.singleton c

/-- One part of a key as it is shown: quoted unless it can stand bare. -/
def showPart (part : String) : String :=
  if !part.isEmpty && part.toList.all isBare then part
  else "\"" ++ String.join (part.toList.map escapeKeyChar) ++ "\""

/-- A key as it is shown. -/
def showKey (key : Key) : String :=
  ".".intercalate (key.map showPart)

end Toml

end TapeLang
