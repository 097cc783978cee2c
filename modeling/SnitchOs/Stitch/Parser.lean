import SnitchOs.Lib.Calls
import SnitchOs.Stitch.Ast
import SnitchOs.Stitch.Lexer

/-!
# The Stitch parser

Recursive descent with binding powers over the token stream. The recursive procedures are the calls of a `Calls.Prog`;
a loop of the source is a call of itself, with what it has collected. All the loops over `X (sep X)*`, with or without
a trailing separator, are the one call `more`.

The operations look at the current token, the one behind it, or past a parenthesised parameter list, and consume the
current token. An interpolation is parsed from its own tokens, set on top of the literal's.
-/

namespace SnitchOs.Stitch

open Calls

/-- What a parse error says. A rejected token stands for its rendering. -/
inductive Message
  | text (s : String)
  | expected (what : String)
  | unexpectedToken (kind : TokenKind)
  | expectedDeclaration (found : TokenKind)
  | unexpectedInPattern (kind : TokenKind)
  | inInterpolation (message : Message)

structure ParseError where
  message : Message
  span : Span

/-! ### Tables -/

def infixOp : TokenKind → Option BinOp
  | .sym .plus => some .add
  | .sym .minus => some .sub
  | .sym .star => some .mul
  | .sym .slash => some .div
  | .sym .percent => some .rem
  | .sym .eqEq => some .eq
  | .sym .notEq => some .ne
  | .sym .lt => some .lt
  | .sym .le => some .le
  | .sym .gt => some .gt
  | .sym .ge => some .ge
  | .sym .and => some .and
  | .sym .or => some .or
  | .sym .pipe => some .pipe
  | .sym .crossPipe => some .crossPipe
  | .sym .dotDot => some .range
  | .sym .dotDotEq => some .rangeIncl
  | _ => none

/-- An operator that may stand as a value. -/
def operatorFn (kind : TokenKind) : Option BinOp :=
  match infixOp kind with
  | some .pipe | some .crossPipe | some .range | some .rangeIncl => none
  | op => op

/-- Is a range operator inclusive? -/
def rangeKind : BinOp → Option Bool
  | .range => some false
  | .rangeIncl => some true
  | _ => none

def isNonAssoc : BinOp → Bool
  | .eq | .ne | .lt | .le | .gt | .ge | .range | .rangeIncl => true
  | _ => false

def nonAssocMessage (op : BinOp) : String :=
  if (rangeKind op).isSome then "ranges don't chain — `a..b..c` is ambiguous; use a single range"
  else "comparisons don't chain — write `a < b and b < c`, not `a < b < c`"

/-- Left and right, loosest lowest. -/
def bindingPower : BinOp → Nat × Nat
  | .or => (1, 2)
  | .and => (3, 4)
  | .eq | .ne | .lt | .le | .gt | .ge => (5, 6)
  | .pipe | .crossPipe => (7, 8)
  | .range | .rangeIncl => (9, 10)
  | .add | .sub => (11, 12)
  | .mul | .div | .rem => (13, 14)

def tokenStartsExpr : TokenKind → Bool
  | .int _ | .float _ | .bool _ | .ident _ | .str _ | .placeholder _ => true
  | .sym .lParen | .sym .lBracket | .sym .lBrace | .sym .at_ | .sym .match_ | .sym .minus | .sym .not => true
  | _ => false

def startsUppercase (s : String) : Bool := s.toList.head?.any Char.isUpper

def noSemicolons : String :=
  "Stitch has no semicolons — remove the `;` (statements are separated by whitespace)"

/-! ### Reading tokens -/

def TokenKind.isSym (kind : TokenKind) (s : Symbol) : Bool :=
  match kind with
  | .sym t => t == s
  | _ => false

def TokenKind.isIdent : TokenKind → Bool
  | .ident _ => true
  | _ => false

/-- The tokens not yet consumed, and below them those of the enclosing literals. -/
structure Tokens where
  cur : List Token
  outer : List (List Token)

/-- Past the end there is nothing but the end. -/
def endToken : Token := ⟨.sym .eof, ⟨0, 0⟩⟩

def Tokens.peek (ts : Tokens) : Token := ts.cur.headD endToken

/-- The kind behind the current one, that of the end at the end. -/
def Tokens.peekNext (ts : Tokens) : TokenKind :=
  match ts.cur with
  | _ :: t :: _ => t.kind
  | _ => ts.peek.kind

def Tokens.bump (ts : Tokens) : Tokens :=
  if ts.peek.kind.isSym .eof then ts else { ts with cur := ts.cur.tail }

/-- Behind a name of a parameter list: is the rest of it one, and then an arrow? -/
def paramsThenArrow : List Token → Bool
  | ⟨.sym .rParen, _⟩ :: t :: _ => t.kind.isSym .arrow
  | ⟨.sym .comma, _⟩ :: ⟨.ident _, _⟩ :: ts => paramsThenArrow ts
  | _ => false

/-- Would a parenthesised parameter list be parsed here, with an arrow behind it? -/
def Tokens.atParams (ts : Tokens) : Bool :=
  match ts.cur with
  | ⟨.sym .lParen, _⟩ :: ⟨.sym .rParen, _⟩ :: t :: _ => t.kind.isSym .arrow
  | ⟨.sym .lParen, _⟩ :: ⟨.ident _, _⟩ :: ts => paramsThenArrow ts
  | _ => false

inductive TokenOp
  | peek | peekNext | atParams | bump
  | enter (tokens : List Token)
  | leave

@[reducible] def TokenOp.Res : TokenOp → Type
  | .peek => Token
  | .peekNext => TokenKind
  | .atParams => Bool
  | .bump | .enter _ | .leave => Unit

def TokenOp.handle : (o : TokenOp) → Tokens → o.Res × Tokens
  | .peek, ts => (ts.peek, ts)
  | .peekNext, ts => (ts.peekNext, ts)
  | .atParams, ts => (ts.atParams, ts)
  | .bump, ts => ((), ts.bump)
  | .enter tokens, ts => ((), ⟨tokens, ts.cur :: ts.outer⟩)
  | .leave, ts => ((), ⟨ts.outer.headD [], ts.outer.tail⟩)

/-! ### The procedures -/

/-- What a list may be of. -/
inductive Elem
  | ident (what : String)
  | param | field | variant | type | pattern | patternAtom | arg | expr | entry

@[reducible] def Elem.Res : Elem → Type
  | .ident _ => String
  | .param => Param
  | .field => Field
  | .variant => Variant
  | .type => TypeExpr
  | .pattern | .patternAtom => Pattern
  | .arg => Arg
  | .expr => Expr
  | .entry => Expr × Expr

inductive ParseCall
  | expr (minBp : Nat)
  | infixes (minBp : Nat) (left : Expr)
  | unary
  | postfixes (e : Expr)
  | type
  | pattern
  /-- Further elements behind `acc`; with a `close`, a separator may stand before it. -/
  | more (elem : Elem) (sep : Symbol) (close : Option Symbol) (acc : List elem.Res)
  | block (stmts : List Stmt)
  | arms (acc : List MatchArm)
  | conditions (acc : List (Expr × Expr))
  | methods (requireBody : Bool) (acc : List Method)
  | items (acc : List Item)

@[reducible] def ParseCall.Res : ParseCall → Type
  | .expr _ | .infixes _ _ | .unary | .postfixes _ | .block _ | .conditions _ => Expr
  | .type => TypeExpr
  | .pattern => Pattern
  | .more elem _ _ _ => List elem.Res
  | .arms _ => List MatchArm
  | .methods _ _ => List Method
  | .items _ => List Item

abbrev Parser := Prog ⟨TokenOp, TokenOp.Res⟩ ⟨ParseCall, ParseCall.Res⟩ ParseError

namespace Parser

def token : Parser Token := .op TokenOp.peek fun t => .done (.ok t)

def peekNext : Parser TokenKind := .op TokenOp.peekNext fun k => .done (.ok k)

def atParams : Parser Bool := .op TokenOp.atParams fun b => .done (.ok b)

def bump : Parser Unit := .op TokenOp.bump fun _ => .done (.ok ())

def enter (tokens : List Token) : Parser Unit := .op (TokenOp.enter tokens) fun _ => .done (.ok ())

def leave : Parser Unit := .op TokenOp.leave fun _ => .done (.ok ())

def call (c : ParseCall) : Parser c.Res := Prog.call c Prog.done

def peek : Parser TokenKind := do
  let t ← token
  pure t.kind

def at_ (s : Symbol) : Parser Bool := do
  let k ← peek
  pure (k.isSym s)

/-- At the current token. -/
def err {α : Type} (message : Message) : Parser α := do
  let t ← token
  throw ⟨message, t.span⟩

def expect (want : Symbol) (what : String) : Parser Unit := do
  let t ← token
  bump
  if t.kind.isSym want then pure () else throw ⟨.expected what, t.span⟩

def expectIdent (what : String) : Parser String := do
  let t ← token
  bump
  match t.kind with
  | .ident name => pure name
  | _ => throw ⟨.expected what, t.span⟩

def expr (minBp : Nat) : Parser Expr := call (.expr minBp)

/-- `p` if the current token is `s`, which is consumed. -/
def ifEat {α : Type} (s : Symbol) (p : Parser α) (otherwise : Parser α) : Parser α := do
  if ← at_ s then
    bump
    p
  else otherwise

/-! ### Expressions -/

def lambdaParams : Parser (List String) := do
  if ← at_ .lParen then
    bump
    let params ← do
      if ← at_ .rParen then pure []
      else
        let first ← expectIdent "lambda parameter"
        call (.more (.ident "lambda parameter") .comma none [first])
    expect .rParen "')' after lambda parameters"
    pure params
  else
    let name ← expectIdent "lambda parameter"
    pure [name]

def lambda : Parser Expr := do
  let params ← lambdaParams
  expect .arrow "'->'"
  let body ← expr 0
  pure ⟨.lambda params body⟩

def atLambda : Parser Bool := do
  let k ← peek
  if k.isIdent then
    let next ← peekNext
    pure (next.isSym .arrow)
  else if k.isSym .lParen then atParams
  else pure false

def exprBody (minBp : Nat) : Parser Expr := do
  if ← atLambda then lambda
  else
    let left ← call .unary
    call (.infixes minBp left)

def rangeEnd (rBp : Nat) : Parser (Option Expr) := do
  let k ← peek
  if tokenStartsExpr k then
    let stop ← expr rBp
    pure (some stop)
  else pure none

/-- Behind the operator. -/
def infixRight (op : BinOp) (left : Expr) : Parser Expr :=
  match rangeKind op with
  | some inclusive => do
    let stop ← rangeEnd (bindingPower op).2
    pure ⟨.range (some left) stop inclusive⟩
  | none => do
    let right ← expr (bindingPower op).2
    pure ⟨.binary op left right⟩

/-- `cond => then | els`, only outermost. -/
def conditional (minBp : Nat) (left : Expr) : Parser Expr := do
  if minBp == 0 && (← at_ .fatArrow) then
    bump
    let then_ ← expr 1
    expect .bar "'|' in conditional"
    let els ← expr 1
    if ← at_ .fatArrow then
      err (.text "chained conditionals aren't allowed — use `match` for more than two cases")
    else pure ⟨.if_ left then_ els⟩
  else pure left

def infixesBody (minBp : Nat) (left : Expr) : Parser Expr := do
  let k ← peek
  match infixOp k with
  | none => conditional minBp left
  | some op =>
    if (bindingPower op).1 < minBp then conditional minBp left
    else
      bump
      let left ← infixRight op left
      let next ← peek
      if isNonAssoc op && (infixOp next).any fun next => (bindingPower next).1 == (bindingPower op).1 then
        err (.text (nonAssocMessage op))
      else call (.infixes minBp left)

/-- A bare operator is its function when an argument ends behind it. -/
def argValue : Parser Expr := do
  let k ← peek
  let next ← peekNext
  match operatorFn k with
  | some op =>
    if next.isSym .comma || next.isSym .rParen then
      bump
      pure ⟨.operatorRef op⟩
    else expr 0
  | none => expr 0

def arg : Parser Arg := do
  let k ← peek
  if k.isSym .dotDot then
    bump
    let base ← expr 0
    pure ⟨none, ⟨.spread base⟩⟩
  else
    let next ← peekNext
    if k.isIdent && next.isSym .colon then
      let name ← expectIdent "argument label"
      bump
      let value ← argValue
      pure ⟨some name, value⟩
    else
      let value ← argValue
      pure ⟨none, value⟩

/-- What is between brackets or braces, unless they close at once. -/
def listed (elem : Elem) (first : Parser elem.Res) (close : Symbol) : Parser (List elem.Res) := do
  if ← at_ close then pure []
  else
    let x ← first
    call (.more elem .comma (some close) [x])

def arguments : Parser (List Arg) := do
  let args ← listed .arg arg .rParen
  expect .rParen "')' in call arguments"
  pure args

def postfixesBody (e : Expr) : Parser Expr := do
  let k ← peek
  match k with
  | .sym .lParen =>
    bump
    let args ← arguments
    call (.postfixes ⟨.call e args⟩)
  | .sym .dot =>
    bump
    let name ← expectIdent "field name after '.'"
    call (.postfixes ⟨.field e name⟩)
  | .sym .questionDot =>
    bump
    let name ← expectIdent "field name after '?.'"
    call (.postfixes ⟨.safeField e name⟩)
  | .sym .question =>
    bump
    call (.postfixes ⟨.try_ e⟩)
  | .sym .lBracket =>
    bump
    let index ← expr 0
    expect .rBracket "']'"
    call (.postfixes ⟨.index e index⟩)
  | _ => pure e

def entry : Parser (Expr × Expr) := do
  let key ← expr 0
  expect .colon "':' in map entry"
  let value ← expr 0
  pure (key, value)

/-- Behind the `[`. -/
def collection : Parser Expr := do
  let k ← peek
  if k.isSym .rBracket then
    bump
    pure ⟨.list []⟩
  else if k.isSym .colon then
    bump
    expect .rBracket "']' to close the empty map `[:]`"
    pure ⟨.map []⟩
  else
    let first ← expr 0
    if ← at_ .colon then
      bump
      let value ← expr 0
      let entries ← call (.more .entry .comma (some .rBracket) [(first, value)])
      expect .rBracket "']'"
      pure ⟨.map entries⟩
    else
      let items ← call (.more .expr .comma (some .rBracket) [first])
      expect .rBracket "']'"
      pure ⟨.list items⟩

/-- `let mut? name = value`, from the `let` on. -/
def binding : Parser (String × Bool × Expr) := do
  bump
  let mutable ← at_ .mut_
  if mutable then bump
  let name ← expectIdent "binding name"
  expect .eq "'=' in let binding"
  let value ← expr 0
  pure (name, mutable, value)

def letStmt : Parser Stmt := do
  let (name, mutable, value) ← binding
  pure (.let_ name mutable value)

def useStmt : Parser Stmt := do
  bump
  let k ← peek
  let binding ← if k.isIdent then some <$> expectIdent "use binding" else pure none
  expect .lArrow "'<-' in use"
  let call ← expr 0
  pure (.use binding call)

def blockBody (stmts : List Stmt) : Parser Expr := do
  let k ← peek
  if k.isSym .rBrace then
    bump
    pure ⟨.block stmts none⟩
  else if k.isSym .eof then err (.text "unterminated block: expected '\x7d'")
  else if k.isSym .let_ then
    let stmt ← letStmt
    call (.block (stmts ++ [stmt]))
  else if k.isSym .use then
    let stmt ← useStmt
    call (.block (stmts ++ [stmt]))
  else
    let e ← expr 0
    let next ← peek
    if next.isSym .eq then
      bump
      let value ← expr 0
      call (.block (stmts ++ [.assign e value]))
    else if next.isSym .rBrace then
      bump
      pure ⟨.block stmts (some e)⟩
    else call (.block (stmts ++ [.expr e]))

def block : Parser Expr := call (.block [])

/-! ### Patterns and types -/

def patternList : Parser (List Pattern) := do
  let pats ← listed .pattern (call .pattern) .rParen
  expect .rParen "')' in pattern"
  pure pats

def interpolatedPattern : String :=
  "string interpolation isn't allowed in a pattern — match on a plain string literal"

def patternAtom : Parser Pattern := do
  let t ← token
  bump
  match t.kind with
  | .int n => pure (.int n)
  | .float text => pure (.float text)
  | .bool b => pure (.bool b)
  | .str [.lit text] => pure (.str text)
  | .str [] => pure (.str "")
  | .str _ => throw ⟨.text interpolatedPattern, t.span⟩
  | .ident name =>
    if name = "_" then pure .wildcard
    else if startsUppercase name then
      ifEat .lParen (do
        let args ← patternList
        pure (.constructor name args)) (pure (.constructor name []))
    else pure (.binding name)
  | .sym .lParen => do
    let pats ← patternList
    match pats with
    | [single] => pure single
    | pats => pure (.tuple pats)
  | kind => throw ⟨.unexpectedInPattern kind, t.span⟩

def patternBody : Parser Pattern := do
  let first ← patternAtom
  if ← at_ .bar then
    let alts ← call (.more .patternAtom .bar none [first])
    pure (.or alts)
  else pure first

def typeName : Parser TypeExpr := do
  let name ← expectIdent "type name"
  ifEat .lt (do
    let first ← call .type
    let args ← call (.more .type .comma none [first])
    expect .gt "'>' to close type arguments"
    pure (.name name args)) (pure (.name name []))

def typeAtom : Parser TypeExpr :=
  ifEat .at_ (pure .selfType) (ifEat .lParen (do
    if ← at_ .rParen then
      bump
      pure (.tuple [])
    else
      let first ← call .type
      let elems ← call (.more .type .comma (some .rParen) [first])
      expect .rParen "')' in type"
      match elems with
      | [single] => pure single
      | elems => pure (.tuple elems)) typeName)

def typeBody : Parser TypeExpr := do
  let atom ← typeAtom
  ifEat .arrow (do
    let ret ← call .type
    pure (.func atom ret)) (pure atom)

/-! ### Atoms -/

def matchArm : Parser MatchArm := do
  let pattern ← call .pattern
  let guard ← ifEat .if_ (some <$> expr 1) (pure none)
  expect .fatArrow "'=>' in match arm"
  let body ← expr 0
  pure ⟨pattern, guard, body⟩

def armsBody (acc : List MatchArm) : Parser (List MatchArm) := do
  let k ← peek
  if k.isSym .rBrace then
    bump
    pure acc
  else if k.isSym .eof then err (.text "unterminated match: expected '\x7d'")
  else
    let arm ← matchArm
    call (.arms (acc ++ [arm]))

def atCatchAll : Parser Bool := do
  let k ← peek
  let next ← peekNext
  match k with
  | .ident name => pure (name == "_" && next.isSym .fatArrow)
  | _ => pure false

/-- The arms of a match without a subject, behind `acc`. -/
def conditionsBody (acc : List (Expr × Expr)) : Parser Expr := do
  let k ← peek
  if k.isSym .rBrace then err (.text "a subjectless `match` must end in a `_ => …` catch-all")
  else if k.isSym .eof then err (.text "unterminated match: expected '\x7d'")
  else if ← atCatchAll then
    bump
    bump
    let default ← expr 0
    if ← at_ .rBrace then
      bump
      pure ⟨.subjectlessMatch acc default⟩
    else err (.text "a `_ => …` catch-all must be the last arm of a subjectless match")
  else
    let cond ← expr 1
    expect .fatArrow "'=>' in match arm"
    let body ← expr 0
    call (.conditions (acc ++ [(cond, body)]))

def matchExpr : Parser Expr :=
  ifEat .lBrace (call (.conditions [])) (do
    let subject ← expr 0
    expect .lBrace "'\x7b' after match subject"
    let arms ← call (.arms [])
    pure ⟨.match_ subject arms⟩)

def handleExpr : Parser Expr := do
  let op ← expectIdent "effect name after `handle`"
  expect .with_ "`with` after the effect name"
  let handler ← expr 0
  expect .lBrace "'\x7b' for the `handle` body"
  let body ← block
  pure ⟨.handle op handler body⟩

def withoutExpr : Parser Expr := do
  let cap ← expectIdent "capability name after `without`"
  expect .lBrace "'\x7b' for the `without` body"
  let body ← block
  pure ⟨.without cap body⟩

/-- Each interpolation is parsed from its own tokens, of which some may be left over. -/
def strSegments : List StrPart → Parser (List StrSegment)
  | [] => pure []
  | .lit text :: parts => do
    let segments ← strSegments parts
    pure (.lit text :: segments)
  | .expr tokens errors :: parts => do
    enter tokens
    match errors with
    | error :: _ => err (.inInterpolation (.text error.message))
    | [] =>
      let inner ← tryCatch (expr 0) fun e => throw ⟨.inInterpolation e.message, e.span⟩
      leave
      let segments ← strSegments parts
      pure (.interp inner :: segments)

/-- Behind the `(`. -/
def parenthesised : Parser Expr := do
  if ← at_ .rParen then
    bump
    pure ⟨.tuple []⟩
  else
    let first ← expr 0
    if ← at_ .comma then
      let elems ← call (.more .expr .comma (some .rParen) [first])
      expect .rParen "')'"
      pure ⟨.tuple elems⟩
    else
      expect .rParen "')'"
      pure first

def atom : Parser Expr := do
  let t ← token
  bump
  match t.kind with
  | .int n => pure ⟨.int n⟩
  | .float text => pure ⟨.float text⟩
  | .bool b => pure ⟨.bool b⟩
  | .ident name => pure ⟨.var name⟩
  | .placeholder name => pure ⟨.placeholder name⟩
  | .sym .at_ => do
    let k ← peek
    if k.isIdent then
      let name ← expectIdent "field name after '@'"
      pure ⟨.field ⟨.selfRef⟩ name⟩
    else pure ⟨.selfRef⟩
  | .str parts => do
    let segments ← strSegments parts
    pure ⟨.str segments⟩
  | .sym .lParen => parenthesised
  | .sym .lBracket => collection
  | .sym .lBrace => block
  | .sym .match_ => matchExpr
  | .sym .expect => do
    let e ← expr 0
    pure ⟨.expect e⟩
  | .sym .handle => handleExpr
  | .sym .without => withoutExpr
  | .sym .semicolon => throw ⟨.text noSemicolons, t.span⟩
  | kind => throw ⟨.unexpectedToken kind, t.span⟩

def unaryBody : Parser Expr := do
  let k ← peek
  if k.isSym .dotDot || k.isSym .dotDotEq then
    bump
    let stop ← rangeEnd (bindingPower .range).2
    pure ⟨.range none stop (k.isSym .dotDotEq)⟩
  else if k.isSym .minus then
    bump
    let operand ← call .unary
    pure ⟨.unary .neg operand⟩
  else if k.isSym .not then
    bump
    let operand ← call .unary
    pure ⟨.unary .not operand⟩
  else
    let e ← atom
    call (.postfixes e)

/-! ### Declarations -/

def uses : Parser (List String) :=
  ifEat .uses (do
    let first ← expectIdent "capability name after `uses`"
    call (.more (.ident "capability name after `uses`") .comma none [first])) (pure [])

def param : Parser Param := do
  let name ← expectIdent "parameter name"
  ifEat .colon (do
    let ty ← call .type
    pure ⟨name, some ty⟩) (pure ⟨name, none⟩)

/-- Behind the `(`. -/
def params : Parser (List Param) := do
  let params ← listed .param param .rParen
  expect .rParen "')' after parameters"
  pure params

def field : Parser Field := do
  let isPublic ← at_ .ext
  if isPublic then bump
  let mutable ← at_ .mut_
  if mutable then bump
  let k ← peek
  let next ← peekNext
  if k.isIdent && next.isSym .colon then
    let name ← expectIdent "field name"
    bump
    let ty ← call .type
    pure ⟨some name, mutable, ty, isPublic⟩
  else
    let ty ← call .type
    pure ⟨none, mutable, ty, isPublic⟩

/-- Behind the `(`. -/
def fields : Parser (List Field) := do
  let fields ← listed .field field .rParen
  expect .rParen "')' after fields"
  pure fields

def variant : Parser Variant := do
  let name ← expectIdent "variant name"
  ifEat .lParen (do
    let fields ← fields
    pure ⟨name, fields⟩) (pure ⟨name, []⟩)

def generics : Parser (List String) :=
  ifEat .lt (do
    let first ← expectIdent "type parameter"
    let params ← call (.more (.ident "type parameter") .comma none [first])
    expect .gt "'>' to close type parameters"
    pure params) (pure [])

def body : Parser Expr :=
  ifEat .eq (expr 0) (ifEat .lBrace block (err (.text "expected '=' or '\x7b' for the function body")))

def returnType : Parser (Option TypeExpr) := ifEat .arrow (some <$> call .type) (pure none)

def methodBody (requireBody : Bool) : Parser (Option Expr) := do
  let k ← peek
  if k.isSym .eq || k.isSym .lBrace then some <$> body
  else if requireBody then err (.text "expected '=' or '\x7b' for the method body")
  else pure none

def method (requireBody : Bool) : Parser Method := do
  let modifier ← ifEat .mut_ (pure .mut_) (ifEat .free (pure .free) (pure .instance_))
  let name ← expectIdent "method name"
  expect .lParen "'(' after method name"
  let params ← params
  let ret ← returnType
  let uses ← uses
  let body ← methodBody requireBody
  pure ⟨name, modifier, params, ret, uses, body⟩

def methodsBody (requireBody : Bool) (acc : List Method) : Parser (List Method) := do
  let k ← peek
  if k.isSym .rBrace then
    bump
    pure acc
  else if k.isSym .eof then
    err (.text (if requireBody then "unterminated `on` block: expected '\x7d'"
      else "unterminated contract: expected '\x7d'"))
  else
    let m ← method requireBody
    call (.methods requireBody (acc ++ [m]))

def func (isPublic : Bool) : Parser Item := do
  let name ← expectIdent "function name"
  expect .lParen "'(' after function name"
  let params ← params
  let ret ← returnType
  let uses ← uses
  let body ← body
  pure (.func name params ret uses body isPublic)

def expectPlainStr (what : String) : Parser String := do
  let k ← peek
  match k with
  | .str [] => do
    bump
    pure ""
  | .str [.lit text] => do
    bump
    pure text
  | .str _ => err (.expected (what ++ ", without `\x7b…\x7d` interpolation"))
  | _ => err (.expected what)

def test : Parser Item := do
  bump
  let name ← expectPlainStr "a quoted test name after `test`"
  let uses ← uses
  let body ← body
  pure (.test name uses body)

def prod (isPublic : Bool) : Parser Item := do
  bump
  let name ← expectIdent "product type name"
  let generics ← generics
  expect .lParen "'(' after product name"
  let fields ← fields
  pure (.prod name generics fields isPublic)

def sum (isPublic : Bool) : Parser Item := do
  bump
  let name ← expectIdent "sum type name"
  let generics ← generics
  expect .eq "'=' in sum declaration"
  if ← at_ .bar then bump
  let first ← variant
  let variants ← call (.more .variant .bar none [first])
  pure (.sum name generics variants isPublic)

def contract : Parser Item := do
  bump
  let name ← expectIdent "contract name"
  let generics ← generics
  expect .lBrace "'\x7b' after contract name"
  let methods ← call (.methods false [])
  pure (.contract name generics methods)

def on : Parser Item := do
  bump
  let target ← call .type
  let contract ← ifEat .colon (some <$> call .type) (pure none)
  expect .lBrace "'\x7b' after on target"
  let methods ← call (.methods true [])
  pure (.on target contract methods)

def useImport : Parser Item := do
  bump
  let module ← expectIdent "module name after `use`"
  ifEat .dot (do
    expect .lBrace "'\x7b' for a selective import `use M.\x7b a, b \x7d`"
    let names ← listed (.ident "imported member name") (expectIdent "imported member name") .rBrace
    expect .rBrace "'\x7d' to close the import selection"
    pure (.use module (some names))) (pure (.use module none))

def item : Parser Item := do
  let isPublic ← at_ .ext
  if isPublic then bump
  let k ← peek
  match k with
  | .sym .use =>
    if isPublic then err (.text "`ext` applies to declarations, not a `use` import") else useImport
  | .sym .prod => prod isPublic
  | .sym .sum => sum isPublic
  | .sym .let_ => do
    let (name, mutable, value) ← binding
    pure (.const name mutable value isPublic)
  | .ident _ => func isPublic
  | .sym .contract =>
    if isPublic then err (.text "`ext` applies to functions, types, and constants — not `contract`/`on`") else contract
  | .sym .on =>
    if isPublic then err (.text "`ext` applies to functions, types, and constants — not `contract`/`on`") else on
  | .sym .test => test
  | kind => err (.expectedDeclaration kind)

def itemsBody (acc : List Item) : Parser (List Item) := do
  if ← at_ .eof then pure acc
  else
    let i ← item
    call (.items (acc ++ [i]))

/-! ### The family -/

def elem : (e : Elem) → Parser e.Res
  | .ident what => expectIdent what
  | .param => param
  | .field => field
  | .variant => variant
  | .type => call .type
  | .pattern => call .pattern
  | .patternAtom => patternAtom
  | .arg => arg
  | .expr => expr 0
  | .entry => entry

def moreBody (e : Elem) (sep : Symbol) (close : Option Symbol) (acc : List e.Res) : Parser (List e.Res) := do
  if ← at_ sep then
    bump
    let k ← peek
    if close.any k.isSym then pure acc
    else
      let x ← elem e
      call (.more e sep close (acc ++ [x]))
  else pure acc

def bodies : (c : ParseCall) → Parser c.Res
  | .expr minBp => exprBody minBp
  | .infixes minBp left => infixesBody minBp left
  | .unary => unaryBody
  | .postfixes e => postfixesBody e
  | .type => typeBody
  | .pattern => patternBody
  | .more e sep close acc => moreBody e sep close acc
  | .block stmts => blockBody stmts
  | .arms acc => armsBody acc
  | .conditions acc => conditionsBody acc
  | .methods requireBody acc => methodsBody requireBody acc
  | .items acc => itemsBody acc

/-- With at most that many nested calls. -/
def run {α : Type} (calls : Nat) (p : Parser α) (ts : Tokens) : Option (Except ParseError α × Tokens) :=
  Calls.run TokenOp.handle (meaning TokenOp.handle bodies calls) p ts

end Parser

mutual

def tokensSize : List Token → Nat
  | [] => 0
  | ⟨kind, _⟩ :: ts => kindSize kind + tokensSize ts

def kindSize : TokenKind → Nat
  | .str parts => 1 + partsSize parts
  | _ => 1

def partsSize : List StrPart → Nat
  | [] => 0
  | .lit _ :: parts => partsSize parts
  | .expr tokens _ :: parts => tokensSize tokens + partsSize parts

end

/-- Nested calls that suffice for a stream: every few of them consume a token. -/
def depthFor (tokens : List Token) : Nat := 8 * (tokensSize tokens + 1)

def parseTokens {α : Type} (p : Parser α) (lexed : Lexed) : Except ParseError α :=
  match lexed.errors with
  | error :: _ => .error ⟨.text error.message, error.span⟩
  | [] => (Parser.run (depthFor lexed.tokens) p ⟨lexed.tokens, []⟩).elim (.error ⟨.text "", ⟨0, 0⟩⟩) Prod.fst

namespace Parser

def program : Parser (List Item) := call (.items [])

def wholeExpr : Parser Expr := do
  let e ← expr 0
  if ← at_ .semicolon then err (.text noSemicolons)
  else
    expect .eof "end of input"
    pure e

end Parser

def parseProgramTokens (lexed : Lexed) : Except ParseError (List Item) := parseTokens Parser.program lexed

def parseExprTokens (lexed : Lexed) : Except ParseError Expr := parseTokens Parser.wholeExpr lexed

def parseProgram (src : String) : Except ParseError (List Item) := parseProgramTokens (lex src)

def parse (src : String) : Except ParseError Expr := parseExprTokens (lex src)

end SnitchOs.Stitch
