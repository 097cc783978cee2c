import SnitchOs.Stitch.Eval

/-!
# The native functions

Each takes its evaluated arguments and what the caller's environment passes on. An effect first needs its capability,
then goes to the innermost handler for it, and only without one to the platform. A combinator over a lazy sequence
forces it step by step.
-/

namespace SnitchOs.Stitch

open Calls Eval Prog

variable (host : Host)

/-! ### Kinds of arguments -/

def expectStr (name : String) : Value → Except Failure String
  | .str text => .ok text
  | other => faultText (name ++ " expects a Str, got " ++ other.kind)

def expectList (name : String) : Value → Except Failure (List Value)
  | .list items => .ok items
  | other => faultText (name ++ " expects a List, got " ++ other.kind)

def expectMap (name : String) : Value → Except Failure (List (Value × Value))
  | .map entries => .ok entries
  | other => faultText (name ++ " expects a Map, got " ++ other.kind)

def entryTuple (entry : Value × Value) : Value := .tuple [entry.1, entry.2]

def u32Of (n : Int) : Option UInt32 := if 0 ≤ n ∧ n < 4294967296 then some (UInt32.ofNat n.toNat) else none

def u64Of (n : Int) : Option UInt64 := if 0 ≤ n then some (UInt64.ofNat n.toNat) else none

/-- `i64::try_from(..).unwrap_or(i64::MAX)`. -/
def saturate (n : Nat) : Value := .int (if n ≤ 9223372036854775807 then n else 9223372036854775807)

/-! ### Texts -/

def trimText (text : String) : String :=
  String.ofList (((text.toList.dropWhile isWhitespace).reverse.dropWhile isWhitespace).reverse)

/-- The pieces between the separators, which are not empty; `skip` characters of one are still to come. -/
def splitChars (sep : List Char) : (skip : Nat) → (current : List Char) → List Char → List (List Char)
  | _, current, [] => [current.reverse]
  | skip + 1, current, _ :: chars => splitChars sep skip current chars
  | 0, current, c :: chars =>
    if sep.isPrefixOf (c :: chars) then current.reverse :: splitChars sep (sep.length - 1) [] chars
    else splitChars sep 0 (c :: current) chars

/-- An empty separator is between all characters and at both ends. -/
def splitText (text sep : String) : List String :=
  if sep.isEmpty then [""] ++ text.toList.map Char.toString ++ [""]
  else (splitChars sep.toList 0 [] text.toList).map String.ofList

/-- At least one digit, and nothing else. -/
def decimal (chars : List Char) : Option Int :=
  if chars.isEmpty || !chars.all Char.isDigit then none else some (digitsValue chars)

def parseInt (text : String) : Option Int := do
  let n ←
    match text.toList with
    | '-' :: chars => (decimal chars).map fun n => -n
    | '+' :: chars => decimal chars
    | chars => decimal chars
  if -9223372036854775808 ≤ n ∧ n ≤ 9223372036854775807 then some n else none

def nativeUpper : List Value → Except Failure Value
  | [s] => do
    let text ← expectStr "Str.upper" s
    pure (.str (host.toUppercase text))
  | _ => faultText "Str.upper expects (s)"

def nativeLower : List Value → Except Failure Value
  | [s] => do
    let text ← expectStr "Str.lower" s
    pure (.str (host.toLowercase text))
  | _ => faultText "Str.lower expects (s)"

def nativeLength : List Value → Except Failure Value
  | [s] => do
    let text ← expectStr "Str.length" s
    pure (saturate text.length)
  | _ => faultText "Str.length expects (s)"

def nativeSlice : List Value → Except Failure Value
  | [s, start, stop] => do
    let text ← expectStr "Str.slice" s
    match start, stop with
    | .int start, .int stop =>
      let clamp := fun i => min ((usizeOf i).getD 0) text.length
      pure (.str (String.ofList ((text.toList.drop (clamp start)).take (clamp stop - clamp start))))
    | _, _ => faultText "Str.slice expects (s, start, end) with Int bounds"
  | _ => faultText "Str.slice expects (s, start, end)"

def nativeTrim : List Value → Except Failure Value
  | [s] => do
    let text ← expectStr "Str.trim" s
    pure (.str (trimText text))
  | _ => faultText "Str.trim expects (s)"

def nativeStrContains : List Value → Except Failure Value
  | [s, sub] => do
    let haystack ← expectStr "Str.contains" s
    let needle ← expectStr "Str.contains" sub
    pure (.bool (haystack.toList.tails.any fun rest => needle.toList.isPrefixOf rest))
  | _ => faultText "Str.contains expects (s, sub)"

def nativeStartsWith : List Value → Except Failure Value
  | [s, start] => do
    let text ← expectStr "Str.startsWith" s
    let start ← expectStr "Str.startsWith" start
    pure (.bool (start.toList.isPrefixOf text.toList))
  | _ => faultText "Str.startsWith expects (s, prefix)"

def nativeSplit : List Value → Except Failure Value
  | [s, sep] => do
    let text ← expectStr "Str.split" s
    let sep ← expectStr "Str.split" sep
    pure (.list ((splitText text sep).map .str))
  | _ => faultText "Str.split expects (s, sep)"

def nativeReplace : List Value → Except Failure Value
  | [s, old, new] => do
    let text ← expectStr "Str.replace" s
    let old ← expectStr "Str.replace" old
    let new ← expectStr "Str.replace" new
    pure (.str (String.intercalate new (splitText text old)))
  | _ => faultText "Str.replace expects (s, from, to)"

def nativeParseInt : List Value → Except Failure Value
  | [s] => do
    let text ← expectStr "Str.parseInt" s
    pure (maybe ((parseInt text).map .int))
  | _ => faultText "Str.parseInt expects (s)"

def nativeToStr : List Value → Except Failure Value
  | [value] => .ok (.str (value.display host))
  | _ => faultText "toStr expects (value)"

def nativeJoin : List Value → Except Failure Value
  | [list, .str separator] => do
    let items ← expectList "join" list
    pure (.str (String.intercalate separator (items.map (Value.display host))))
  | [_, separator] => faultText ("join separator must be a Str, got " ++ separator.kind)
  | _ => faultText "join expects (list, separator)"

/-! ### Lists -/

def nativeListAt : List Value → Except Failure Value
  | [xs, i] => do
    let items ← expectList "List.at" xs
    match i with
    | .int i => pure (maybe ((usizeOf i).bind fun i => items[i]?))
    | _ => faultText "List.at expects (xs, i) with an Int index"
  | _ => faultText "List.at expects (xs, i)"

def nativeListSet : List Value → Except Failure Value
  | [xs, i, v] => do
    let items ← expectList "List.set" xs
    match i with
    | .int i => pure (.list (((usizeOf i).map fun i => items.set i v).getD items))
    | _ => faultText "List.set expects (xs, i, v) with an Int index"
  | _ => faultText "List.set expects (xs, i, v)"

def nativeListInsert : List Value → Except Failure Value
  | [xs, i, v] => do
    let items ← expectList "List.insert" xs
    match i with
    | .int i => pure (.list (((usizeOf i).map fun i => items.insertIdx i v).getD items))
    | _ => faultText "List.insert expects (xs, i, v) with an Int index"
  | _ => faultText "List.insert expects (xs, i, v)"

def nativeListRemoveAt : List Value → Except Failure Value
  | [xs, i] => do
    let items ← expectList "List.removeAt" xs
    match i with
    | .int i => pure (.list (((usizeOf i).map fun i => items.eraseIdx i).getD items))
    | _ => faultText "List.removeAt expects (xs, i) with an Int index"
  | _ => faultText "List.removeAt expects (xs, i)"

/-- Some two that cannot be compared: a sort runs into them. -/
def incomparable : List Value → Bool
  | [] => false
  | x :: xs => (xs.any fun y => (valueOrder host x y).isNone) || incomparable xs

def notAfter (x y : Value) : Bool := valueOrder host x y != some .gt

def nativeSort : List Value → Except Failure Value
  | [list] => do
    let items ← expectList "sort" list
    if incomparable host items then
      faultText "sort: elements are not comparable (need all Int, all Float, or all Str)"
    else pure (.list (items.mergeSort (notAfter host)))
  | _ => faultText "sort expects (list)"

def nativeConcat : List Value → Except Failure Value
  | [xs, ys] => do
    let xs ← expectList "concat" xs
    let ys ← expectList "concat" ys
    pure (.list (xs ++ ys))
  | _ => faultText "concat expects (xs, ys)"

def nativeZip : List Value → Except Failure Value
  | [xs, ys] => do
    let xs ← expectList "zip" xs
    let ys ← expectList "zip" ys
    pure (.list ((xs.zip ys).map entryTuple))
  | _ => faultText "zip expects (xs, ys)"

def nativeEnumerate : List Value → Except Failure Value
  | [list] => do
    let items ← expectList "enumerate" list
    pure (.list (items.zipIdx.map fun item => .tuple [saturate item.2, item.1]))
  | _ => faultText "enumerate expects (list)"

def nativeReverse : List Value → Except Failure Value
  | [list] => do
    let items ← expectList "reverse" list
    pure (.list items.reverse)
  | _ => faultText "reverse expects (list)"

/-! ### Maps -/

def nativeMapGet : List Value → Except Failure Value
  | [map, key] => do
    let entries ← expectMap "get" map
    pure (mapLookup host entries key)
  | _ => faultText "get expects (map, key)"

def nativeMapHas : List Value → Except Failure Value
  | [map, key] => do
    let entries ← expectMap "has" map
    pure (.bool (entries.any fun e => e.1.eq host key))
  | _ => faultText "has expects (map, key)"

def nativeMapInsert : List Value → Except Failure Value
  | [map, key, value] => do
    let entries ← expectMap "insert" map
    pure (.map (insertEntry host key value entries))
  | _ => faultText "insert expects (map, key, value)"

def nativeMapRemove : List Value → Except Failure Value
  | [map, key] => do
    let entries ← expectMap "remove" map
    pure (.map (entries.filter fun e => !e.1.eq host key))
  | _ => faultText "remove expects (map, key)"

def nativeMapKeys : List Value → Except Failure Value
  | [map] => do
    let entries ← expectMap "keys" map
    pure (.list (entries.map Prod.fst))
  | _ => faultText "keys expects (map)"

def nativeMapValues : List Value → Except Failure Value
  | [map] => do
    let entries ← expectMap "values" map
    pure (.list (entries.map Prod.snd))
  | _ => faultText "values expects (map)"

def nativeMapEntries : List Value → Except Failure Value
  | [map] => do
    let entries ← expectMap "entries" map
    pure (.list (entries.map entryTuple))
  | _ => faultText "entries expects (map)"

def fromPairs : List Value → List (Value × Value) → Except Failure Value
  | [], entries => .ok (.map entries)
  | .tuple [key, value] :: items, entries => fromPairs items (insertEntry host key value entries)
  | .tuple elems :: _, _ =>
    faultText ("fromList expects (key, value) tuples, got a " ++ toString elems.length ++ "-element tuple")
  | item :: _, _ => faultText ("fromList expects (key, value) tuples, got " ++ item.kind)

def nativeMapFromList : List Value → Except Failure Value
  | [list] => do
    let items ← expectList "fromList" list
    fromPairs host items []
  | _ => faultText "fromList expects (list)"

/-! ### Lazy sequences -/

def forceSeq : Value → Eval Step
  | .seq a => force a
  | other => faultWith ("expected a Seq, got " ++ other.kind)

/-- A predicate on one element. -/
def keeps (pred item : Value) (ctx : Ctx) : Eval Bool := do
  let result ← apply pred [item] ctx
  match result with
  | .bool keep => pure keep
  | other => faultWith ("predicate must return a Bool, got " ++ other.kind)

def checked (n : Int) : Eval Int :=
  match host.int n with
  | some n => pure n
  | none => throw .panic

def pastEnd (current : Int) (stop : Option Int) (inclusive : Bool) : Bool :=
  match stop with
  | some stop => if inclusive then current > stop else current ≥ stop
  | none => false

def runThunk : Thunk → Eval Step
  | .range current stop inclusive =>
    if pastEnd current stop inclusive then pure .nil
    else do
      let next ← checked host (current + 1)
      let tail ← lazy (.range next stop inclusive)
      pure (.cons (.int current) tail)
  | .iterate current f ctx => do
    let tail ← lazy (.iterateNext current f ctx)
    pure (.cons current tail)
  | .iterateNext current f ctx => do
    let next ← apply f [current] ctx
    let seq ← lazy (.iterate next f ctx)
    forceSeq seq
  | .repeat_ x => do
    let tail ← lazy (.repeat_ x)
    pure (.cons x tail)
  | .take n seq =>
    if n ≤ 0 then pure .nil
    else
      match seq with
      | .seq a => do
        match ← force a with
        | .nil => pure .nil
        | .cons head tail =>
          let tail ← lazy (.take (n - 1) tail)
          pure (.cons head tail)
      | _ => pure .nil
  | .drop n seq => call (EvalCall.dropSeq n seq) done
  | .dropWhile seq pred ctx => call (EvalCall.dropWhileSeq seq pred ctx) done
  | .takeWhile seq pred ctx => do
    match ← forceSeq seq with
    | .nil => pure .nil
    | .cons head tail =>
      if ← keeps pred head ctx then
        let tail ← lazy (.takeWhile tail pred ctx)
        pure (.cons head tail)
      else pure .nil
  | .map seq f ctx => do
    match ← forceSeq seq with
    | .nil => pure .nil
    | .cons head tail =>
      let mapped ← apply f [head] ctx
      let tail ← lazy (.map tail f ctx)
      pure (.cons mapped tail)
  | .filter seq pred ctx => call (EvalCall.filterSeq seq pred ctx) done

/-- Computed once, then kept. -/
def forceState (a : Addr) : SeqState → Eval Step
  | .forced step => pure step
  | .unforced thunk => do
    let step ← runThunk host thunk
    memo a step
    pure step

def forceBody (a : Addr) : Eval Step := do
  let state ← seqState a
  forceState host a state

def dropSeqBody (n : Int) (current : Value) : Eval Step :=
  if n > 0 then do
    match ← forceSeq current with
    | .nil => pure .nil
    | .cons _ tail => call (EvalCall.dropSeq (n - 1) tail) done
  else forceSeq current

def dropWhileSeqBody (current pred : Value) (ctx : Ctx) : Eval Step := do
  match ← forceSeq current with
  | .nil => pure .nil
  | .cons head tail =>
    if ← keeps pred head ctx then call (EvalCall.dropWhileSeq tail pred ctx) done
    else pure (.cons head tail)

def filterSeqBody (current pred : Value) (ctx : Ctx) : Eval Step := do
  match ← forceSeq current with
  | .nil => pure .nil
  | .cons head tail =>
    if ← keeps pred head ctx then
      let rest ← lazy (.filter tail pred ctx)
      pure (.cons head rest)
    else call (EvalCall.filterSeq tail pred ctx) done

def toListBody (current : Value) (items : List Value) : Eval Value :=
  match current with
  | .seq a => do
    match ← force a with
    | .nil => pure (.list items)
    | .cons head tail => call (EvalCall.toList tail (items ++ [head])) done
  | other => faultWith ("toList expects a Seq, got " ++ other.kind)

def foldSeqBody (current acc f : Value) (ctx : Ctx) : Eval Value := do
  match ← forceSeq current with
  | .nil => pure acc
  | .cons head tail =>
    let acc ← apply f [acc, head] ctx
    call (EvalCall.foldSeq tail acc f ctx) done

/-- The accumulator to go on with, `none` to stop. -/
def foldWhileStep (f acc elem : Value) (ctx : Ctx) : Eval (Option Value) := do
  let result ← apply f [acc, elem] ctx
  match result with
  | .data "Maybe" "Some" fields _ => pure (some ((fields.head?.map Prod.snd).getD .unit))
  | .data "Maybe" "None" _ _ => pure none
  | other =>
    faultWith ("foldWhile step must return a Maybe (Some to continue, None to stop), got " ++ other.kind)

def foldWhileSeqBody (current acc f : Value) (ctx : Ctx) : Eval Value := do
  match ← forceSeq current with
  | .nil => pure acc
  | .cons head tail =>
    match ← foldWhileStep f acc head ctx with
    | some next => call (EvalCall.foldWhileSeq tail next f ctx) done
    | none => pure acc

def nativeIterate (ctx : Ctx) : List Value → Eval Value
  | [seed, f] => lazy (.iterate seed f ctx)
  | _ => faultWith "iterate expects (seed, function)"

def nativeRepeat : List Value → Eval Value
  | [x] => lazy (.repeat_ x)
  | _ => faultWith "repeat expects (value)"

/-- `take` and `drop`: the count first has to be an integer, then the other a sequence. -/
def countedSeq (name : String) (thunk : Int → Value → Thunk) : List Value → Eval Value
  | [seq, .int count] =>
    match seq with
    | .seq _ => lazy (thunk count seq)
    | other => faultWith (name ++ " expects a Seq, got " ++ other.kind)
  | [_, count] => faultWith (name ++ " count must be an Int, got " ++ count.kind)
  | _ => faultWith (name ++ " expects (seq, count)")

def nativeTake : List Value → Eval Value := countedSeq "take" .take

def nativeDrop : List Value → Eval Value := countedSeq "drop" .drop

/-- `takeWhile` and `dropWhile`. -/
def whileSeq (name : String) (thunk : Value → Value → Ctx → Thunk) (ctx : Ctx) : List Value → Eval Value
  | [seq, pred] =>
    match seq with
    | .seq _ => lazy (thunk seq pred ctx)
    | other => faultWith (name ++ " expects a Seq, got " ++ other.kind)
  | _ => faultWith (name ++ " expects (seq, predicate)")

def nativeTakeWhile : Ctx → List Value → Eval Value := whileSeq "takeWhile" .takeWhile

def nativeDropWhile : Ctx → List Value → Eval Value := whileSeq "dropWhile" .dropWhile

def nativeToList : List Value → Eval Value
  | [seq] => call (EvalCall.toList seq []) done
  | _ => faultWith "toList expects (seq)"

/-! ### Combinators -/

def nativeMap (ctx : Ctx) : List Value → Eval Value
  | [.seq a, function] => lazy (.map (.seq a) function ctx)
  | [.map entries, function] => do
    let mapped ← collect (fun entry => apply function [entryTuple entry] ctx) entries
    pure (.list mapped)
  | [collection, function] => do
    let items ← lift (expectList "map" collection)
    let mapped ← collect (fun item => apply function [item] ctx) items
    pure (.list mapped)
  | _ => faultWith "map expects (collection, function)"

/-- Those whose `item` the predicate holds of. -/
def keepAll {α : Type} (item : α → Value) (pred : Value) (ctx : Ctx) : List α → Eval (List α)
  | [] => pure []
  | x :: xs => do
    let keep ← keeps pred (item x) ctx
    let kept ← keepAll item pred ctx xs
    pure (if keep then x :: kept else kept)

def nativeFilter (ctx : Ctx) : List Value → Eval Value
  | [.seq a, pred] => lazy (.filter (.seq a) pred ctx)
  | [.map entries, pred] => do
    let kept ← keepAll entryTuple pred ctx entries
    pure (.map kept)
  | [collection, pred] => do
    let items ← lift (expectList "filter" collection)
    let kept ← keepAll id pred ctx items
    pure (.list kept)
  | _ => faultWith "filter expects (collection, predicate)"

def nativeFold (ctx : Ctx) : List Value → Eval Value
  | [.seq a, init, function] => call (EvalCall.foldSeq (.seq a) init function ctx) done
  | [.map entries, init, function] => foldUp (fun acc entry => apply function [acc, entryTuple entry] ctx) init entries
  | [collection, init, function] => do
    let items ← lift (expectList "fold" collection)
    foldUp (fun acc item => apply function [acc, item] ctx) init items
  | _ => faultWith "fold expects (collection, init, function)"

def foldWhileList (f : Value) (ctx : Ctx) : Value → List Value → Eval Value
  | acc, [] => pure acc
  | acc, item :: items => do
    match ← foldWhileStep f acc item ctx with
    | some next => foldWhileList f ctx next items
    | none => pure acc

def nativeFoldWhile (ctx : Ctx) : List Value → Eval Value
  | [.seq a, init, function] => call (EvalCall.foldWhileSeq (.seq a) init function ctx) done
  | [collection, init, function] => do
    let items ← lift (expectList "foldWhile" collection)
    foldWhileList function ctx init items
  | _ => faultWith "foldWhile expects (collection, init, function)"

def nativeFlatMap (ctx : Ctx) : List Value → Eval Value
  | [list, function] => do
    let items ← lift (expectList "flatMap" list)
    let mapped ← collect
      (fun item => do
        let mapped ← apply function [item] ctx
        lift (expectList "flatMap" mapped))
      items
    pure (.list mapped.flatten)
  | _ => faultWith "flatMap expects (list, function)"

def nativeSortBy (ctx : Ctx) : List Value → Eval Value
  | [list, key] => do
    let items ← lift (expectList "sortBy" list)
    let keys ← collect (fun item => apply key [item] ctx) items
    if incomparable host keys then
      faultWith "sortBy: keys are not comparable (need all Int, all Float, or all Str)"
    else pure (.list (((keys.zip items).mergeSort fun x y => notAfter host x.1 y.1).map Prod.snd))
  | _ => faultWith "sortBy expects (list, key)"

def nativeMapMapValues (ctx : Ctx) : List Value → Eval Value
  | [map, function] => do
    let entries ← lift (expectMap "mapValues" map)
    let mapped ← collect
      (fun entry => do
        let value ← apply function [entry.2] ctx
        pure (entry.1, value))
      entries
    pure (.map mapped)
  | _ => faultWith "mapValues expects (map, function)"

def updatedValue (value : Option Value) (default function : Value) (ctx : Ctx) : Eval Value :=
  match value with
  | some value => apply function [value] ctx
  | none => pure default

def nativeMapUpdate (ctx : Ctx) : List Value → Eval Value
  | [map, key, default, function] => do
    let entries ← lift (expectMap "update" map)
    let old := (entries.find? fun e => e.1.eq host key).map Prod.snd
    let updated ← updatedValue old default function ctx
    pure (.map (insertEntry host key updated entries))
  | _ => faultWith "update expects (map, key, default, function)"

/-! ### Effects -/

/-- The handler runs without itself. -/
def performEffect (op : String) (args : List Value) (ctx : Ctx) (ambient : Eval Value) : Eval Value :=
  match ctx.handlerFor op with
  | some handler => apply handler args (ctx.withoutTopHandler op)
  | none => ambient

/-- The capability, then the handler, then the platform. -/
def gated (effect cap : String) (args : List Value) (ctx : Ctx) (ambient : Eval Value) : Eval Value :=
  if ctx.hasAuthority cap then performEffect effect args ctx ambient else fault (.refused effect cap)

def nativeSpan (ctx : Ctx) : List Value → Eval Value
  | [.str name, body] =>
    gated "span" "Telemetry" [.str name, body] ctx do
      record (.spanOpen name)
      let result ← apply body [] ctx
      record (.spanClose name)
      pure result
  | [name, _] => faultWith ("span name must be a Str, got " ++ name.kind)
  | _ => faultWith "span expects (name, body)"

def nativePrint (ctx : Ctx) : List Value → Eval Value
  | [value] =>
    gated "print" "ConsoleOut" [value] ctx do
      platform (.write (value.display host ++ "\n"))
      pure .unit
  | _ => faultWith "print expects (value)"

def nativeReadLine (ctx : Ctx) : List Value → Eval Value
  | [] =>
    gated "readLine" "ConsoleIn" [] ctx do
      let line : Option String ← platform .readLine
      pure (maybe (line.map .str))
  | _ => faultWith "readLine expects no arguments"

def nativeReadByte (ctx : Ctx) : List Value → Eval Value
  | [] =>
    gated "readByte" "ConsoleIn" [] ctx do
      let byte : Option UInt8 ← platform .readByte
      pure (maybe (byte.map fun b => .str (Char.ofNat b.toNat).toString))
  | _ => faultWith "readByte expects no arguments"

def presentRows : List Value → Except Failure (List String)
  | [] => .ok []
  | .str s :: lines => do
    let rows ← presentRows lines
    pure (s :: rows)
  | line :: _ => faultText ("present rows must be Strs, got " ++ line.kind)

def nativePresent (ctx : Ctx) : List Value → Eval Value
  | [.int x, .int y, rows] =>
    match u32Of x, u32Of y with
    | some col, some row => do
      let lines ← lift (expectList "present" rows)
      let text ← lift (presentRows lines)
      gated "present" "Display" [.int x, .int y, rows] ctx do
        let reached : Bool ← platform (.present col row text)
        pure (.bool reached)
    | _, _ => faultWith "present x and y must be non-negative"
  | [x, y, _] => faultWith ("present x and y must be Ints, got (" ++ x.kind ++ ", " ++ y.kind ++ ")")
  | _ => faultWith "present expects (x, y, rows)"

def nativeWriteConsole (ctx : Ctx) : List Value → Eval Value
  | [.str text] =>
    gated "writeConsole" "ConsoleOut" [.str text] ctx do
      platform (.write text)
      pure .unit
  | [value] => faultWith ("writeConsole text must be a Str, got " ++ value.kind)
  | _ => faultWith "writeConsole expects (text)"

def nativeFsWrite (ctx : Ctx) : List Value → Eval Value
  | [.int handle, .str text] =>
    gated "fsWrite" "FsWrite" [.int handle, .str text] ctx do
      match u32Of handle with
      | some file => do
        let written : Bool ← platform (.fsWrite file text)
        pure (.bool written)
      | none => faultWith "fsWrite fileHandle is out of range"
  | [.int _, value] => faultWith ("fsWrite text must be a Str, got " ++ value.kind)
  | [_, _] => faultWith "fsWrite fileHandle must be an Int"
  | _ => faultWith "fsWrite expects (fileHandle, text)"

def nativeReadFile (ctx : Ctx) : List Value → Eval Value
  | [.str name] =>
    gated "readFile" "FsRead" [.str name] ctx do
      let contents : Option String ← platform (.fsRead name)
      pure (maybe (contents.map .str))
  | [name] => faultWith ("readFile name must be a Str, got " ++ name.kind)
  | _ => faultWith "readFile expects (name)"

def nativeEmit (ctx : Ctx) : List Value → Eval Value
  | [.str name, value] =>
    gated "emit" "Telemetry" [.str name, value] ctx do
      record (.emit name value)
      pure .unit
  | [name, _] => faultWith ("emit name must be a Str, got " ++ name.kind)
  | _ => faultWith "emit expects (name, value)"

/-! ### Capabilities of the process -/

def rightsGlyphs (rights : UInt32) : String :=
  (if rights &&& 8 = 0 then "" else "🪴") ++ (if rights &&& 36 = 0 then "" else "👀") ++
    (if rights &&& 19 = 0 then "" else "📝")

def rightBit (name : String) : Option UInt32 :=
  if name = "EMIT" then some 1
  else if name = "SEND" then some 2
  else if name = "RECV" then some 4
  else if name = "MINT" then some 8
  else if name = "SIGNAL" then some 16
  else if name = "WAIT" then some 32
  else none

/-- The words between spaces, commas and bars. -/
def rightWords : (current : List Char) → List Char → List (List Char)
  | current, [] => [current.reverse]
  | current, c :: chars =>
    if c == ' ' || c == ',' || c == '|' then current.reverse :: rightWords [] chars
    else rightWords (c.toUpper :: current) chars

def parseRights (spec : String) : Option UInt32 := do
  let bits ← ((rightWords [] spec.toList).filter fun w => !w.isEmpty).mapM fun w => rightBit (String.ofList w)
  let bits := bits.foldl (· ||| ·) 0
  if bits = 0 then none else some bits

def capRow (cap : CapInfo) : Value :=
  .data "Cap" "Cap"
    [(some "handle", .int cap.handle.toNat), (some "kind", .str cap.kind.asStr), (some "for", .str cap.name),
      (some "rights", .str (rightsGlyphs cap.rights)), (some "badge", saturate cap.badge.toNat)]
    true

def nativeHold : List Value → Eval Value
  | [] => do
    let caps : List CapInfo ← platform .hold
    pure (.list (caps.map capRow))
  | _ => faultWith "hold expects no arguments"

def nativeRevoke : List Value → Eval Value
  | [.int handle] =>
    match u32Of handle with
    | some h => do
      let count : Option Nat ← platform (.revoke h)
      match count with
      | some count => pure (saturate count)
      | none => faultWith ("revoke: you hold no capability at handle " ++ toString handle)
    | none => faultWith ("revoke: " ++ toString handle ++ " is not a valid handle")
  | _ => faultWith "revoke expects one argument: a capability handle"

def nativeGrant : List Value → Eval Value
  | [.int handle, .int badge, .str rights] =>
    match u32Of handle, u64Of badge, parseRights rights with
    | some h, some b, some bits => do
      let new : Option UInt32 ← platform (.grant h b bits)
      match new with
      | some new => pure (.int new.toNat)
      | none => faultWith ("grant: refused — you need MINT on an endpoint at handle " ++ toString handle)
    | none, _, _ => faultWith ("grant: " ++ toString handle ++ " is not a valid handle")
    | _, none, _ => faultWith ("grant: " ++ toString badge ++ " is not a valid badge")
    | _, _, none =>
      faultWith ("grant: unknown rights " ++ host.quote rights ++ " (expected names like SEND, RECV, MINT)")
  | _ =>
    faultWith ("grant expects (handle, badge, rights): an endpoint handle, a badge number, " ++
      "and a rights name like \"SEND\"")

/-! ### All of them -/

def Native.call (native : Native) (args : List Value) (ctx : Ctx) : Eval Value :=
  match native with
  | .map => nativeMap ctx args
  | .filter => nativeFilter ctx args
  | .fold => nativeFold ctx args
  | .print => nativePrint host ctx args
  | .readLine => nativeReadLine ctx args
  | .hold => nativeHold args
  | .revoke => nativeRevoke args
  | .grant => nativeGrant host args
  | .readFile => nativeReadFile ctx args
  | .readByte => nativeReadByte ctx args
  | .writeConsole => nativeWriteConsole ctx args
  | .fsWrite => nativeFsWrite ctx args
  | .emit => nativeEmit ctx args
  | .present => nativePresent ctx args
  | .span => nativeSpan ctx args
  | .toList => nativeToList args
  | .take => nativeTake args
  | .takeWhile => nativeTakeWhile ctx args
  | .foldWhile => nativeFoldWhile ctx args
  | .reverse => lift (nativeReverse args)
  | .drop => nativeDrop args
  | .dropWhile => nativeDropWhile ctx args
  | .flatMap => nativeFlatMap ctx args
  | .sort => lift (nativeSort host args)
  | .sortBy => nativeSortBy host ctx args
  | .concat => lift (nativeConcat args)
  | .zip => lift (nativeZip args)
  | .enumerate => lift (nativeEnumerate args)
  | .toStr => lift (nativeToStr host args)
  | .iterate => nativeIterate ctx args
  | .repeat_ => nativeRepeat args
  | .join => lift (nativeJoin host args)
  | .strUpper => lift (nativeUpper host args)
  | .strLower => lift (nativeLower host args)
  | .strLength => lift (nativeLength args)
  | .strSlice => lift (nativeSlice args)
  | .strTrim => lift (nativeTrim args)
  | .strContains => lift (nativeStrContains args)
  | .strStartsWith => lift (nativeStartsWith args)
  | .strSplit => lift (nativeSplit args)
  | .strReplace => lift (nativeReplace args)
  | .strParseInt => lift (nativeParseInt args)
  | .listAt => lift (nativeListAt args)
  | .listSet => lift (nativeListSet args)
  | .listInsert => lift (nativeListInsert args)
  | .listRemoveAt => lift (nativeListRemoveAt args)
  | .mapGet => lift (nativeMapGet host args)
  | .mapHas => lift (nativeMapHas host args)
  | .mapInsert => lift (nativeMapInsert host args)
  | .mapRemove => lift (nativeMapRemove host args)
  | .mapKeys => lift (nativeMapKeys args)
  | .mapValues => lift (nativeMapValues args)
  | .mapEntries => lift (nativeMapEntries args)
  | .mapFromList => lift (nativeMapFromList host args)
  | .mapUpdate => nativeMapUpdate host ctx args
  | .mapMapValues => nativeMapMapValues ctx args

end SnitchOs.Stitch
