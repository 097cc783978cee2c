import Mathlib.Algebra.Ring.Nat
import Mathlib.Data.List.Basic

/-!
# Stitch tokens

The lexer is non-fatal: it always gives the whole token stream, and beside it the errors it met. A string literal
keeps its interpolations as token streams of their own, whose spans count from the start of the interpolation.
A float token is the text of its literal.
-/

namespace SnitchOs.Stitch

structure Span where
  start : Nat
  stop : Nat
deriving DecidableEq

structure LexError where
  message : String
  span : Span
deriving DecidableEq

inductive Symbol
  | prod | sum | contract | test | expect | on | let_ | mut_ | ext | free | use | uses | match_ | handle | with_
  | without | and | or | not | if_
  | plus | minus | star | slash | percent | eq | eqEq | notEq | lt | le | gt | ge | arrow | lArrow | fatArrow
  | bar | pipe | crossPipe | question | questionDot | dot | dotDot | dotDotEq
  | lParen | rParen | lBrace | rBrace | lBracket | rBracket | comma | semicolon | at_ | colon | eof
deriving DecidableEq

structure Spanned (K : Type) where
  kind : K
  span : Span

/-- A piece of a string literal: its text, or what was lexed between braces. -/
inductive StrPartOf (K : Type)
  | lit (text : String)
  | expr (tokens : List (Spanned K)) (errors : List LexError)

inductive TokenKind
  | int (n : Nat)
  | float (text : String)
  | bool (b : Bool)
  | str (parts : List (StrPartOf TokenKind))
  | ident (name : String)
  /-- `none` is a bare `$`. -/
  | placeholder (name : Option String)
  | sym (s : Symbol)

abbrev Token := Spanned TokenKind

abbrev StrPart := StrPartOf TokenKind

structure Lexed where
  tokens : List Token
  errors : List LexError

def keyword (word : String) : Option TokenKind :=
  match word with
  | "prod" => some (.sym .prod)
  | "sum" => some (.sym .sum)
  | "contract" => some (.sym .contract)
  | "test" => some (.sym .test)
  | "expect" => some (.sym .expect)
  | "on" => some (.sym .on)
  | "let" => some (.sym .let_)
  | "mut" => some (.sym .mut_)
  | "ext" => some (.sym .ext)
  | "free" => some (.sym .free)
  | "use" => some (.sym .use)
  | "uses" => some (.sym .uses)
  | "match" => some (.sym .match_)
  | "handle" => some (.sym .handle)
  | "with" => some (.sym .with_)
  | "without" => some (.sym .without)
  | "and" => some (.sym .and)
  | "or" => some (.sym .or)
  | "not" => some (.sym .not)
  | "if" => some (.sym .if_)
  | "true" => some (.bool true)
  | "false" => some (.bool false)
  | _ => none

/-- `char::is_whitespace` -/
def isWhitespace (c : Char) : Bool :=
  let n := c.toNat
  (0x09 ≤ n && n ≤ 0x0D) || n == 0x20 || n == 0x85 || n == 0xA0 || n == 0x1680 || (0x2000 ≤ n && n ≤ 0x200A) ||
    n == 0x2028 || n == 0x2029 || n == 0x202F || n == 0x205F || n == 0x3000

def isWordChar (c : Char) : Bool := c.isAlphanum || c == '_'

/-! ### The kinds of token -/

def readWord (chars : List Char) : String × List Char :=
  (String.ofList (chars.takeWhile isWordChar), chars.dropWhile isWordChar)

/-- The digits of a literal without their separators, and whether it has a point: one followed by a digit. -/
def readNumber : Bool → List Char → List Char × Bool × List Char
  | isFloat, [] => ([], isFloat, [])
  | isFloat, c :: chars =>
    if c == '_' then readNumber isFloat chars
    else if c.isDigit then
      let (text, isFloat, rest) := readNumber isFloat chars
      (c :: text, isFloat, rest)
    else if c == '.' && !isFloat && chars.head?.any Char.isDigit then
      let (text, isFloat, rest) := readNumber true chars
      ('.' :: text, isFloat, rest)
    else ([], isFloat, c :: chars)

def digitsValue (text : List Char) : Nat := text.foldl (fun n c => 10 * n + (c.toNat - '0'.toNat)) 0

/-- The token, the message of an error, what is left. -/
def lexNumber (chars : List Char) : TokenKind × Option String × List Char :=
  let (text, isFloat, rest) := readNumber false chars
  if isFloat then (.float (String.ofList text), none, rest)
  else if digitsValue text < 2 ^ 63 then (.int (digitsValue text), none, rest)
  else (.int 0, some ("integer literal `" ++ String.ofList text ++ "` out of range"), rest)

def lexWord (chars : List Char) : TokenKind × List Char :=
  let (word, rest) := readWord chars
  ((keyword word).getD (.ident word), rest)

/-- Behind the `$`. -/
def lexPlaceholder (chars : List Char) : TokenKind × List Char :=
  let (name, rest) := readWord chars
  (.placeholder (if name.isEmpty then none else some name), rest)

inductive RawPart
  | lit (text : String)
  | expr (raw : List Char)

def unescape (c : Char) : Char :=
  match c with
  | 'n' => '\n'
  | 't' => '\t'
  | 'r' => '\r'
  | 'e' => '\x1b'
  | c => c

/-- A scan inside a literal: its parts so far and the text since, both last first. -/
structure StrScan where
  parts : List RawPart
  lit : List Char

def StrScan.push (s : StrScan) (c : Char) : StrScan := { s with lit := c :: s.lit }

def StrScan.flush (s : StrScan) : List RawPart :=
  if s.lit.isEmpty then s.parts else .lit (String.ofList s.lit.reverse) :: s.parts

def StrScan.finish (s : StrScan) : List RawPart :=
  if !s.lit.isEmpty || s.parts.isEmpty then (.lit (String.ofList s.lit.reverse) :: s.parts).reverse else s.parts.reverse

/-- From behind the opening quote: the parts, whether a closing quote was found, what is left. With `depth` open
braces it reads the raw text of an interpolation. -/
def scanString : (depth : Nat) → (raw : List Char) → StrScan → List Char → List RawPart × Bool × List Char
  | 0, _, s, [] => (s.finish, false, [])
  | 0, _, s, '"' :: chars => (s.finish, true, chars)
  | 0, _, s, ['\\'] => (s.finish, false, [])
  | 0, _, s, '\\' :: c :: chars => scanString 0 [] (s.push (unescape c)) chars
  | 0, _, s, '{' :: '{' :: chars => scanString 0 [] (s.push '{') chars
  | 0, _, s, '{' :: chars => scanString 1 [] ⟨s.flush, []⟩ chars
  | 0, _, s, '}' :: '}' :: chars => scanString 0 [] (s.push '}') chars
  | 0, _, s, '}' :: chars => scanString 0 [] (s.push '}') chars
  | 0, _, s, c :: chars => scanString 0 [] (s.push c) chars
  | _ + 1, raw, s, [] => ({ s with parts := .expr raw.reverse :: s.parts }.finish, false, [])
  | depth + 1, raw, s, '{' :: chars => scanString (depth + 2) ('{' :: raw) s chars
  | 1, raw, s, '}' :: chars => scanString 0 [] { s with parts := .expr raw.reverse :: s.parts } chars
  | depth + 2, raw, s, '}' :: chars => scanString (depth + 1) ('}' :: raw) s chars
  | depth + 1, raw, s, c :: chars => scanString (depth + 1) (c :: raw) s chars

def skipLineComment : List Char → Bool × List Char
  | [] => (false, [])
  | '\n' :: chars => (true, '\n' :: chars)
  | _ :: chars => skipLineComment chars

/-- With `depth` comments open. -/
def skipBlockComment : Nat → List Char → Bool × List Char
  | 0, chars => (true, chars)
  | _ + 1, [] => (false, [])
  | depth + 1, '/' :: '*' :: chars => skipBlockComment (depth + 2) chars
  | depth + 1, '*' :: '/' :: chars => skipBlockComment depth chars
  | depth + 1, _ :: chars => skipBlockComment (depth + 1) chars

/-- Was it closed, and what is left. The leading `/` is still there. -/
def skipComment (chars : List Char) : Bool × List Char :=
  match chars with
  | '/' :: '/' :: rest => skipLineComment rest
  | rest => skipBlockComment 1 (rest.drop 2)

/-- Consumes the leading character even when there is no such operator. -/
def lexOperator : List Char → Option Symbol × List Char
  | '-' :: '>' :: chars => (some .arrow, chars)
  | '-' :: chars => (some .minus, chars)
  | '=' :: '>' :: chars => (some .fatArrow, chars)
  | '=' :: '=' :: chars => (some .eqEq, chars)
  | '=' :: chars => (some .eq, chars)
  | '!' :: '=' :: chars => (some .notEq, chars)
  | '<' :: '=' :: chars => (some .le, chars)
  | '<' :: '-' :: chars => (some .lArrow, chars)
  | '<' :: chars => (some .lt, chars)
  | '>' :: '=' :: chars => (some .ge, chars)
  | '>' :: chars => (some .gt, chars)
  | '|' :: '>' :: chars => (some .pipe, chars)
  | '|' :: chars => (some .bar, chars)
  | '~' :: '>' :: chars => (some .crossPipe, chars)
  | '?' :: '.' :: chars => (some .questionDot, chars)
  | '?' :: chars => (some .question, chars)
  | '.' :: '.' :: '=' :: chars => (some .dotDotEq, chars)
  | '.' :: '.' :: chars => (some .dotDot, chars)
  | '.' :: chars => (some .dot, chars)
  | '+' :: chars => (some .plus, chars)
  | '*' :: chars => (some .star, chars)
  | '/' :: chars => (some .slash, chars)
  | '%' :: chars => (some .percent, chars)
  | '(' :: chars => (some .lParen, chars)
  | ')' :: chars => (some .rParen, chars)
  | '{' :: chars => (some .lBrace, chars)
  | '}' :: chars => (some .rBrace, chars)
  | '[' :: chars => (some .lBracket, chars)
  | ']' :: chars => (some .rBracket, chars)
  | ',' :: chars => (some .comma, chars)
  | ';' :: chars => (some .semicolon, chars)
  | '@' :: chars => (some .at_, chars)
  | ':' :: chars => (some .colon, chars)
  | _ :: chars => (none, chars)
  | [] => (none, [])

def atComment : List Char → Bool
  | '/' :: '/' :: _ => true
  | '/' :: '*' :: _ => true
  | _ => false

/-! ### The loop -/

/-- One round of the loop: the token and the error message, if any, and what is left. `lexRaw` lexes an
interpolation. -/
def lexStep (lexRaw : List Char → Lexed) : List Char → Option TokenKind × Option String × List Char
  | [] => (none, none, [])
  | c :: chars =>
    if isWhitespace c then (none, none, chars)
    else if c.isDigit then
      let (kind, error, rest) := lexNumber (c :: chars)
      (some kind, error, rest)
    else if c.isAlpha || c == '_' then
      let (kind, rest) := lexWord (c :: chars)
      (some kind, none, rest)
    else if c == '"' then
      let (parts, _, rest) := scanString 0 [] ⟨[], []⟩ chars
      (some (.str (parts.map fun
        | .lit text => .lit text
        | .expr raw => .expr (lexRaw raw).tokens (lexRaw raw).errors)), none, rest)
    else if c == '$' then
      let (kind, rest) := lexPlaceholder chars
      (some kind, none, rest)
    else if atComment (c :: chars) then (none, none, (skipComment (c :: chars)).2)
    else
      match lexOperator (c :: chars) with
      | (some s, rest) => (some (.sym s), none, rest)
      | (none, rest) => (none, some ("unexpected character `" ++ c.toString ++ "`"), rest)

def byteLength (chars : List Char) : Nat := (chars.map Char.utf8Size).sum

/-- From byte `offset` on. Every round takes a character, and an interpolation is shorter than the literal it is in,
so `chars.length + 1` rounds suffice. -/
def lexFrom : Nat → List Char → Nat → Lexed
  | 0, _, offset => ⟨[⟨.sym .eof, ⟨offset, offset⟩⟩], []⟩
  | _ + 1, [], offset => ⟨[⟨.sym .eof, ⟨offset, offset⟩⟩], []⟩
  | rounds + 1, c :: chars, offset =>
    let (kind, error, rest) := lexStep (fun raw => lexFrom rounds raw 0) (c :: chars)
    let stop := offset + (byteLength (c :: chars) - byteLength rest)
    let span := ⟨offset, stop⟩
    let lexed := lexFrom rounds rest stop
    ⟨(kind.map fun kind => ⟨kind, span⟩).toList ++ lexed.tokens,
      (error.map fun message => ⟨message, span⟩).toList ++ lexed.errors⟩

def lex (src : String) : Lexed := lexFrom (src.toList.length + 1) src.toList 0

end SnitchOs.Stitch
