import SnitchOs.Stitch.Core
import SnitchOs.Stitch.Parser

/-!
# Values and faults

A value carries its own kind. What the source shares by reference is named here: a closure and a constructor by an
identity, a captured binding and a lazy sequence by an address, a module by its place in a table. A float is its 64
bits; what the machine does with them, with letter case and with an integer that leaves `i64` is given by a `Host`.
-/

namespace SnitchOs.Stitch

/-! ### The native functions -/

inductive Native
  | map | filter | fold | print | readLine | hold | revoke | grant | readFile | readByte | writeConsole | fsWrite
  | emit | present | span | toList | take | takeWhile | foldWhile | reverse | drop | dropWhile | flatMap | sort | sortBy
  | concat | zip | enumerate | toStr | iterate | repeat_ | join | strUpper | strLower | strLength | strSlice | strTrim
  | strContains | strStartsWith | strSplit | strReplace | strParseInt | listAt | listSet | listInsert | listRemoveAt
  | mapGet | mapHas | mapInsert | mapRemove | mapKeys | mapValues | mapEntries | mapFromList | mapUpdate | mapMapValues
deriving DecidableEq

namespace Native

def name : Native → String
  | map => "map"
  | filter => "filter"
  | fold => "fold"
  | print => "print"
  | readLine => "readLine"
  | hold => "hold"
  | revoke => "revoke"
  | grant => "grant"
  | readFile => "readFile"
  | readByte => "readByte"
  | writeConsole => "writeConsole"
  | fsWrite => "fsWrite"
  | emit => "emit"
  | present => "present"
  | span => "span"
  | toList => "toList"
  | take => "take"
  | takeWhile => "takeWhile"
  | foldWhile => "foldWhile"
  | reverse => "reverse"
  | drop => "drop"
  | dropWhile => "dropWhile"
  | flatMap => "flatMap"
  | sort => "sort"
  | sortBy => "sortBy"
  | concat => "concat"
  | zip => "zip"
  | enumerate => "enumerate"
  | toStr => "toStr"
  | iterate => "iterate"
  | repeat_ => "repeat"
  | join => "join"
  | strUpper => "strUpper"
  | strLower => "strLower"
  | strLength => "strLength"
  | strSlice => "strSlice"
  | strTrim => "strTrim"
  | strContains => "strContains"
  | strStartsWith => "strStartsWith"
  | strSplit => "strSplit"
  | strReplace => "strReplace"
  | strParseInt => "strParseInt"
  | listAt => "listAt"
  | listSet => "listSet"
  | listInsert => "listInsert"
  | listRemoveAt => "listRemoveAt"
  | mapGet => "mapGet"
  | mapHas => "mapHas"
  | mapInsert => "mapInsert"
  | mapRemove => "mapRemove"
  | mapKeys => "mapKeys"
  | mapValues => "mapValues"
  | mapEntries => "mapEntries"
  | mapFromList => "mapFromList"
  | mapUpdate => "mapUpdate"
  | mapMapValues => "mapMapValues"

def arity : Native → Nat
  | readLine | hold | readByte => 0
  | print | revoke | readFile | writeConsole | toList | reverse | sort | enumerate | toStr | repeat_ | strUpper
  | strLower | strLength | strTrim | strParseInt | mapKeys | mapValues | mapEntries | mapFromList => 1
  | fold | grant | present | foldWhile | strSlice | strReplace | listSet | listInsert | mapInsert => 3
  | mapUpdate => 4
  | _ => 2

/-- The module of the standard library that exports it, and under which name. -/
def exported : Native → Option (String × String)
  | iterate => some ("Seq", "iterate")
  | repeat_ => some ("Seq", "repeat")
  | join => some ("Str", "join")
  | strUpper => some ("Str", "upper")
  | strLower => some ("Str", "lower")
  | strLength => some ("Str", "length")
  | strSlice => some ("Str", "slice")
  | strTrim => some ("Str", "trim")
  | strContains => some ("Str", "contains")
  | strStartsWith => some ("Str", "startsWith")
  | strSplit => some ("Str", "split")
  | strReplace => some ("Str", "replace")
  | strParseInt => some ("Str", "parseInt")
  | listAt => some ("List", "at")
  | listSet => some ("List", "set")
  | listInsert => some ("List", "insert")
  | listRemoveAt => some ("List", "removeAt")
  | mapGet => some ("Map", "get")
  | mapHas => some ("Map", "has")
  | mapInsert => some ("Map", "insert")
  | mapRemove => some ("Map", "remove")
  | mapKeys => some ("Map", "keys")
  | mapValues => some ("Map", "values")
  | mapEntries => some ("Map", "entries")
  | mapFromList => some ("Map", "fromList")
  | mapUpdate => some ("Map", "update")
  | mapMapValues => some ("Map", "mapValues")
  | _ => none

/-- In the order of the table. -/
def all : List Native :=
  [map, filter, fold, print, readLine, hold, revoke, grant, readFile, readByte, writeConsole, fsWrite, emit, present,
    span, toList, take, takeWhile, foldWhile, reverse, drop, dropWhile, flatMap, sort, sortBy, concat, zip, enumerate,
    toStr, iterate, repeat_, join, strUpper, strLower, strLength, strSlice, strTrim, strContains, strStartsWith,
    strSplit, strReplace, strParseInt, listAt, listSet, listInsert, listRemoveAt, mapGet, mapHas, mapInsert, mapRemove,
    mapKeys, mapValues, mapEntries, mapFromList, mapUpdate, mapMapValues]

def cap : Native → Option String
  | emit | span => some "Telemetry"
  | present => some "Display"
  | print | writeConsole => some "ConsoleOut"
  | readLine | readByte => some "ConsoleIn"
  | fsWrite => some "FsWrite"
  | readFile => some "FsRead"
  | _ => none

end Native

/-! ### Values -/

abbrev Addr := Nat

/-- A function: `uses` is there for a declared one, and a lambda keeps the authority of where it was made. -/
structure ClosureData where
  id : Nat
  params : List String
  body : CoreExpr
  upvalues : List (String × Addr × Bool)
  homeGlobals : Nat
  authority : List String
  uses : Option (List String)

structure Constructor where
  id : Nat
  typeName : String
  variant : String
  fieldNames : List (Option String)

inductive Value
  | int (n : Int)
  | float (bits : UInt64)
  | bool (b : Bool)
  | str (s : String)
  | tuple (elems : List Value)
  | list (elems : List Value)
  | map (entries : List (Value × Value))
  | unit
  | closure (c : ClosureData)
  | constructor (c : Constructor)
  | data (typeName variant : String) (fields : List (Option String × Value)) (isNative : Bool)
  | native (n : Native)
  | seq (a : Addr)
  | module (id : Nat) (name : String)

instance : Inhabited Value := ⟨.unit⟩

/-- What the language leaves to the machine and the build. -/
structure Host where
  /-- An integer result that is no `i64`: what it wraps to, or a panic. -/
  overflow : Int → Option Int
  floatOfText : String → UInt64
  floatNeg : UInt64 → UInt64
  floatArith : BinOp → UInt64 → UInt64 → UInt64
  floatOrder : UInt64 → UInt64 → Option Ordering
  floatText : UInt64 → String
  toUppercase : String → String
  toLowercase : String → String
  /-- A string quoted and escaped, for a message. -/
  quote : String → String
  /-- The text of a parse error. -/
  messageText : Message → String
  /-- A value as a table, a tree or a line, for the terminal. -/
  render : Value → String

/-- A host with checked integers that computes no floats, for programs without them. -/
def Host.plain : Host where
  overflow _ := none
  floatOfText _ := 0
  floatNeg x := x
  floatArith _ x _ := x
  floatOrder _ _ := none
  floatText _ := ""
  toUppercase s := s
  toLowercase s := s
  quote s := s
  messageText _ := ""
  render _ := ""

def Host.floatEq (host : Host) (a b : UInt64) : Bool := host.floatOrder a b == some .eq

def Host.int (host : Host) (n : Int) : Option Int :=
  if -9223372036854775808 ≤ n ∧ n ≤ 9223372036854775807 then some n else host.overflow n

namespace Value

def kind : Value → String
  | .int _ => "Int"
  | .float _ => "Float"
  | .bool _ => "Bool"
  | .str _ => "Str"
  | .tuple _ => "Tuple"
  | .list _ => "List"
  | .map _ => "Map"
  | .unit => "Unit"
  | .closure _ | .constructor _ | .native _ => "Function"
  | .data _ _ _ _ => "a record"
  | .seq _ => "Seq"
  | .module _ _ => "Module"

section Host

variable (host : Host)

mutual

def display : Value → String
  | .int n => toString n
  | .float bits => host.floatText bits
  | .bool b => toString b
  | .str s => s
  | .tuple elems => "(" ++ String.intercalate ", " (displayAll elems) ++ ")"
  | .list elems => "[" ++ String.intercalate ", " (displayAll elems) ++ "]"
  | .map [] => "[:]"
  | .map entries => "[" ++ String.intercalate ", " (displayEntries entries) ++ "]"
  | .unit => "()"
  | .closure _ => "<function>"
  | .constructor _ => "<constructor>"
  | .native n => "<builtin " ++ n.name ++ ">"
  | .seq _ => "<seq>"
  | .module _ name => "<module " ++ name ++ ">"
  | .data _ variant [] _ => variant
  | .data _ variant fields _ => variant ++ "(" ++ String.intercalate ", " (displayFields fields) ++ ")"
termination_by structural v => v

def displayAll : List Value → List String
  | [] => []
  | v :: vs => display v :: displayAll vs
termination_by structural vs => vs

def displayEntries : List (Value × Value) → List String
  | [] => []
  | (key, value) :: entries => (display key ++ ": " ++ display value) :: displayEntries entries
termination_by structural entries => entries

def displayFields : List (Option String × Value) → List String
  | [] => []
  | (none, value) :: fields => display value :: displayFields fields
  | (some name, value) :: fields => (name ++ ": " ++ display value) :: displayFields fields
termination_by structural fields => fields

end

mutual

/-- Functions, sequences and modules by identity, a map in any order, everything else by content. -/
def eq : Value → Value → Bool
  | .int a, .int b => a == b
  | .float a, .float b => host.floatEq a b
  | .bool a, .bool b => a == b
  | .str a, .str b => a == b
  | .tuple a, .tuple b => eqAll a b
  | .list a, .list b => eqAll a b
  | .map a, .map b => a.length == b.length && eqEntries a b
  | .unit, .unit => true
  | .closure a, .closure b => a.id == b.id
  | .constructor a, .constructor b => a.id == b.id
  | .native a, .native b => a.name == b.name
  | .seq a, .seq b => a == b
  | .module a _, .module b _ => a == b
  | .data typeA variantA a _, .data typeB variantB b _ => typeA == typeB && variantA == variantB && eqFields a b
  | _, _ => false
termination_by structural v => v

def eqAll : List Value → List Value → Bool
  | [], [] => true
  | a :: as, b :: bs => eq a b && eqAll as bs
  | _, _ => false
termination_by structural vs => vs

/-- Is every entry among the others? -/
def eqEntries : List (Value × Value) → List (Value × Value) → Bool
  | [], _ => true
  | (key, value) :: entries, others => (others.any fun e => eq key e.1 && eq value e.2) && eqEntries entries others
termination_by structural entries => entries

def eqFields : List (Option String × Value) → List (Option String × Value) → Bool
  | [], [] => true
  | (nameA, a) :: as, (nameB, b) :: bs => nameA == nameB && eq a b && eqFields as bs
  | _, _ => false
termination_by structural fields => fields

end

end Host

end Value

/-! ### Faults -/

/-- The faults that are told apart, and all the others by their text. -/
inductive Fault
  | refused (effect cap : String)
  | tooDeep
  | fuelExhausted
  | namedArgument
  | spreadArgument
  | other (text : String)
deriving DecidableEq

def Fault.message : Fault → String
  | .refused effect cap => effect ++ " requires `uses " ++ cap ++ "`"
  | .tooDeep => "call stack too deep"
  | .fuelExhausted => "evaluation fuel exhausted"
  | .namedArgument => "named arguments are only allowed when constructing a prod/variant"
  | .spreadArgument => "spread (`..`) is only allowed when constructing a prod/variant"
  | .other text => text

/-- Why an operation on values has no result: its message, or a panic of the interpreter itself. -/
inductive Failure
  | message (text : String)
  | panic

/-- What leaves an evaluation instead of a value: a fault, the early return of `?`, a self-tail-call for the
activation that started it, or a panic. -/
inductive Signal
  | fault (f : Fault)
  | return_ (v : Value)
  | tailCall (args : List Value)
  | panic

def Failure.signal : Failure → Signal
  | .message text => .fault (.other text)
  | .panic => .panic

/-! ### Operators -/

section Operators

variable (host : Host)

def BinOp.debug : BinOp → String
  | .add => "Add"
  | .sub => "Sub"
  | .mul => "Mul"
  | .div => "Div"
  | .rem => "Rem"
  | .eq => "Eq"
  | .ne => "Ne"
  | .lt => "Lt"
  | .le => "Le"
  | .gt => "Gt"
  | .ge => "Ge"
  | .and => "And"
  | .or => "Or"
  | .pipe => "Pipe"
  | .crossPipe => "CrossPipe"
  | .range => "Range"
  | .rangeIncl => "RangeIncl"

def UnOp.debug : UnOp → String
  | .neg => "Neg"
  | .not => "Not"

def BinOp.isComparison : BinOp → Bool
  | .eq | .ne | .lt | .le | .gt | .ge => true
  | _ => false

def faultText {α : Type} (text : String) : Except Failure α := .error (.message text)

def intResult (n : Int) : Except Failure Value :=
  match host.int n with
  | some n => .ok (.int n)
  | none => .error .panic

def evalUnary : UnOp → Value → Except Failure Value
  | .neg, .int n => intResult host (-n)
  | .neg, .float bits => .ok (.float (host.floatNeg bits))
  | .not, .bool b => .ok (.bool !b)
  | op, operand => faultText ("operator " ++ op.debug ++ " cannot apply to " ++ operand.kind)

def asBool (value : Value) (context : String) : Except Failure Bool :=
  match value with
  | .bool b => .ok b
  | other => faultText (context ++ " requires a Bool, got " ++ other.kind)

def typeMismatch (op : BinOp) (left right : Value) : Except Failure Value :=
  faultText ("operator " ++ op.debug ++ " cannot apply to " ++ left.kind ++ " and " ++ right.kind)

def Value.discriminant : Value → Nat
  | .int _ => 0
  | .float _ => 1
  | .bool _ => 2
  | .str _ => 3
  | .tuple _ => 4
  | .list _ => 5
  | .map _ => 6
  | .unit => 7
  | .closure _ => 8
  | .constructor _ => 9
  | .data _ _ _ _ => 10
  | .native _ => 11
  | .seq _ => 12
  | .module _ _ => 13

def equality (op : BinOp) (left right : Value) : Except Failure Value :=
  if left.discriminant ≠ right.discriminant then typeMismatch op left right
  else
    let equal := left.eq host right
    .ok (.bool (if op = .ne then !equal else equal))

def valueOrder : Value → Value → Option Ordering
  | .int a, .int b => some (compare a b)
  | .float a, .float b => host.floatOrder a b
  | .str a, .str b => some (compare a b)
  | _, _ => none

def comparable : Value → Value → Bool
  | .int _, .int _ | .float _, .float _ | .str _, .str _ => true
  | _, _ => false

/-- Is it what the operator asks for? -/
def BinOp.holds : BinOp → Ordering → Bool
  | .lt, o => o == .lt
  | .le, o => o != .gt
  | .gt, o => o == .gt
  | .ge, o => o != .lt
  | _, _ => false

def ordering (op : BinOp) (left right : Value) : Except Failure Value :=
  if comparable left right then .ok (.bool ((valueOrder host left right).any op.holds)) else typeMismatch op left right

/-- Rust's `/` and `%` on integers, which panic where the quotient is no `i64`. -/
def intDivide (op : BinOp) (a b : Int) : Except Failure Value :=
  if b = 0 then faultText "division by zero"
  else if a = -9223372036854775808 ∧ b = -1 then .error .panic
  else .ok (.int (if op = .div then a.tdiv b else a.tmod b))

def evalBinary (op : BinOp) (left right : Value) : Except Failure Value :=
  match op, left, right with
  | .add, .int a, .int b => intResult host (a + b)
  | .sub, .int a, .int b => intResult host (a - b)
  | .mul, .int a, .int b => intResult host (a * b)
  | .div, .int a, .int b => intDivide .div a b
  | .rem, .int a, .int b => intDivide .rem a b
  | .add, .float a, .float b => .ok (.float (host.floatArith .add a b))
  | .sub, .float a, .float b => .ok (.float (host.floatArith .sub a b))
  | .mul, .float a, .float b => .ok (.float (host.floatArith .mul a b))
  | .div, .float a, .float b => .ok (.float (host.floatArith .div a b))
  | .rem, .float a, .float b => .ok (.float (host.floatArith .rem a b))
  | .add, .str a, .str b => .ok (.str (a ++ b))
  | .eq, left, right | .ne, left, right => equality host op left right
  | .lt, left, right | .le, left, right | .gt, left, right | .ge, left, right => ordering host op left right
  | op, left, right => typeMismatch op left right

end Operators

/-! ### The values that natives build and read -/

def some_ (value : Value) : Value := .data "Maybe" "Some" [(none, value)] false

def none_ : Value := .data "Maybe" "None" [] false

def maybe : Option Value → Value
  | none => none_
  | some value => some_ value

def mapLookup (host : Host) (entries : List (Value × Value)) (key : Value) : Value :=
  maybe ((entries.find? fun e => e.1.eq host key).map Prod.snd)

/-- The value as an index into a list. -/
def usizeOf (n : Int) : Option Nat := if 0 ≤ n then some n.toNat else none

/-- At an existing key its value changes and its place stays; a new key goes to the end. -/
def insertEntry (host : Host) (key value : Value) : List (Value × Value) → List (Value × Value)
  | [] => [(key, value)]
  | entry :: entries =>
    if entry.1.eq host key then (entry.1, value) :: entries else entry :: insertEntry host key value entries

def evalIndex (host : Host) (object index : Value) : Except Failure Value :=
  match object with
  | .map entries => .ok (mapLookup host entries index)
  | .list items =>
    match index with
    | .int position => .ok (maybe ((usizeOf position).bind fun i => items[i]?))
    | other => faultText ("list index must be an Int, got " ++ other.kind)
  | other => faultText ("cannot index a " ++ other.kind)

def makeData (ctor : Constructor) (values : List Value) : Except Failure Value :=
  if values.length ≠ ctor.fieldNames.length then
    faultText (ctor.variant ++ " expects " ++ toString ctor.fieldNames.length ++ " field(s), got " ++
      toString values.length)
  else .ok (.data ctor.typeName ctor.variant (ctor.fieldNames.zip values) false)

def setField (name : String) (value : Value) : List (Option String × Value) → Option (List (Option String × Value))
  | [] => none
  | field :: fields =>
    if field.1 = some name then some ((field.1, value) :: fields) else (setField name value fields).map (field :: ·)

end SnitchOs.Stitch
