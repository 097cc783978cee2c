import SnitchOs.Stitch.Lower
import SnitchOs.Stitch.Value

/-!
# Registration

Before a program is evaluated its items are collected into tables: the globals, the methods of each type, the
contracts, which types conform to them, and which fields may be assigned. A table is a list of keys and values; what
is inserted later stands in front and hides the rest. A panic of the lowering is `none`.
-/

namespace SnitchOs.Stitch

section Tables

variable {β : Type}

/-- Change the entry of the key, which starts from `initial`. -/
def upsert (key : String) (initial : β) (f : β → β) : List (String × β) → List (String × β)
  | [] => [(key, f initial)]
  | entry :: entries => if entry.1 = key then (key, f entry.2) :: entries else entry :: upsert key initial f entries

end Tables

structure Registration where
  globals : List (String × Value)
  methods : List (String × List Method)
  contracts : List (String × List Method)
  conformances : List (String × List String)
  fieldMut : List (String × List (String × Bool))
  nextId : Nat

namespace Registration

/-- Starting from a namespace, with identities counted from `nextId`. -/
def seeded (globals : List (String × Value)) (nextId : Nat) : Registration := ⟨globals, [], [], [], [], nextId⟩

def insert (reg : Registration) (name : String) (value : Value) : Registration :=
  { reg with globals := (name, value) :: reg.globals }

/-- Take over the other's declarations on types. -/
def absorbTypes (reg other : Registration) : Registration :=
  { reg with
    methods := other.methods.foldl (fun table entry => upsert entry.1 [] (· ++ entry.2) table) reg.methods
    fieldMut := other.fieldMut.foldl (fun table entry => upsert entry.1 [] (entry.2 ++ ·) table) reg.fieldMut
    contracts := other.contracts ++ reg.contracts
    conformances := other.conformances.foldl (fun table entry => upsert entry.1 [] (· ++ entry.2) table)
      reg.conformances }

end Registration

/-- The named fields of a variant, and whether each is `mut`. -/
def registerFieldMut (reg : Registration) (variant : String) (fields : List Field) : Registration :=
  { reg with
    fieldMut := upsert variant []
      (fields.foldl fun table field =>
        match field.name with
        | some name => (name, field.mutable) :: table
        | none => table) reg.fieldMut }

/-- A variant without fields is a value, one with fields a constructor. -/
def registerVariant (typeName : String) (reg : Registration) (variant : Variant) : Registration :=
  let value :=
    if variant.fields.isEmpty then .data typeName variant.name [] false
    else .constructor ⟨reg.nextId, typeName, variant.name, variant.fields.map Field.name⟩
  registerFieldMut { reg.insert variant.name value with nextId := reg.nextId + 1 } variant.name variant.fields

/-- A declared function, at home in the table. -/
def registeredClosure (table : Nat) (authority : List String) (id : Nat) (params : List Param) (uses : List String)
    (body : CoreExpr) : ClosureData :=
  ⟨id, params.map Param.name, body, [], table, authority, some uses⟩

/-- Functions capture the table of globals they are registered for. -/
def registerItem (table : Nat) (authority : List String) (reg : Registration) : Item → Option Registration
  | .func name params _ uses body _ => do
    let body ← lowerExprToCore body
    some { reg.insert name (.closure (registeredClosure table authority reg.nextId params uses body)) with
      nextId := reg.nextId + 1 }
  | .prod name _ fields _ =>
    let ctor := .constructor ⟨reg.nextId, name, name, fields.map Field.name⟩
    some (registerFieldMut { reg.insert name ctor with nextId := reg.nextId + 1 } name fields)
  | .sum name _ variants _ => some (variants.foldl (registerVariant name) reg)
  | .on (.name name _) contract methods =>
    let reg := { reg with methods := upsert name [] (· ++ methods) reg.methods }
    match contract with
    | some (.name contractName _) =>
      some { reg with conformances := upsert name [] (· ++ [contractName]) reg.conformances }
    | _ => some reg
  | .contract name _ methods => some { reg with contracts := (name, methods) :: reg.contracts }
  | _ => some reg

def registerItems (table : Nat) (authority : List String) (items : List Item) (reg : Registration) :
    Option Registration :=
  items.foldlM (registerItem table authority) reg

/-- The methods a type gets from the contracts it conforms to: those with a body that it does not define itself, the
first of each name. -/
def contractDefaults (reg : Registration) (defined : List Method) (contractNames : List String) : List Method :=
  let offered := contractNames.flatMap fun name => (reg.contracts.lookup name).getD []
  offered.foldl
    (fun queued method =>
      if method.body.isNone || (defined ++ queued).any fun m => m.name == method.name then queued
      else queued ++ [method])
    []

def bakeContractDefaults (reg : Registration) : Registration :=
  { reg with
    methods := reg.conformances.foldl
      (fun table entry =>
        match contractDefaults reg ((reg.methods.lookup entry.1).getD []) entry.2 with
        | [] => table
        | additions => upsert entry.1 [] (· ++ additions) table)
      reg.methods }

/-! ### What every program starts from -/

def registerNatives (globals : List (String × Value)) : List (String × Value) :=
  Native.all.foldl (fun globals native => (native.name, .native native) :: globals) globals

/-- The constructors of `Maybe` and `Result`. -/
def registerBuiltinTypes (nextId : Nat) (globals : List (String × Value)) : List (String × Value) :=
  ("None", .data "Maybe" "None" [] false) ::
    ("Err", .constructor ⟨nextId + 2, "Result", "Err", [none]⟩) ::
    ("Ok", .constructor ⟨nextId + 1, "Result", "Ok", [none]⟩) ::
    ("Some", .constructor ⟨nextId, "Maybe", "Some", [none]⟩) :: globals

def builtins (nextId : Nat) : Registration :=
  .seeded (registerBuiltinTypes nextId (registerNatives [])) (nextId + 3)

/-! ### The prelude

The declarations of `prelude.st`; its tests bind no names. -/

namespace Prelude

def name (x : String) : Expr := ⟨.var x⟩

def call (f : String) (args : List Expr) : Expr := ⟨.call (name f) (args.map (ArgOf.mk none))⟩

def lambda (params : List String) (body : Expr) : Expr := ⟨.lambda params body⟩

def binary (op : BinOp) (left right : Expr) : Expr := ⟨.binary op left right⟩

def matching (subject : Expr) (arms : List (Pattern × Expr)) : Expr :=
  ⟨.match_ subject (arms.map fun arm => ⟨arm.1, none, arm.2⟩)⟩

/-- A constructor pattern over one pattern. -/
def ctor (variant : String) (arg : Pattern) : Pattern := .constructor variant [arg]

/-- A variant without fields, which parses as a constructor pattern. -/
def bare (variant : String) : Pattern := .constructor variant []

def func (name : String) (params : List String) (body : Expr) : Item :=
  .func name (params.map fun param => ⟨param, none⟩) none [] body false

def signature (name : String) (params : List String) (ret : TypeExpr) : Method :=
  ⟨name, .instance_, params.map fun param => ⟨param, none⟩, some ret, [], none⟩

def method (name : String) (params : List String) (body : Expr) : Method :=
  ⟨name, .instance_, params.map fun param => ⟨param, none⟩, none, [], some body⟩

def self : Expr := ⟨.selfRef⟩

def wrapped (e : Expr) : Expr := call "Some" [e]

/-- `x` if it compares like that with what was found so far. -/
def better (op : BinOp) : Expr :=
  matching (name "acc")
    [(bare "None", wrapped (name "x")),
      (ctor "Some" (.binding "m"), ⟨.if_ (binary op (name "x") (name "m")) (wrapped (name "x")) (name "acc")⟩)]

end Prelude

open Prelude in
def preludeItems : List Item :=
  [func "count" ["xs"] (call "fold" [name "xs", ⟨.int 0⟩, lambda ["acc", "_"] (binary .add (name "acc") ⟨.int 1⟩)]),
    func "total" ["xs"]
      (call "fold" [name "xs", ⟨.int 0⟩, lambda ["acc", "x"] (binary .add (name "acc") (name "x"))]),
    func "any" ["xs", "pred"]
      (call "fold"
        [name "xs", ⟨.bool false⟩, lambda ["acc", "x"] (binary .or (name "acc") (call "pred" [name "x"]))]),
    func "all" ["xs", "pred"]
      (call "fold"
        [name "xs", ⟨.bool true⟩, lambda ["acc", "x"] (binary .and (name "acc") (call "pred" [name "x"]))]),
    func "contains" ["xs", "value"]
      (call "any" [name "xs", lambda ["x"] (binary .eq (name "x") (name "value"))]),
    func "each" ["xs", "f"] (call "fold" [name "xs", ⟨.tuple []⟩, lambda ["_", "x"] (call "f" [name "x"])]),
    func "find" ["xs", "pred"]
      (call "fold"
        [name "xs", name "None",
          lambda ["acc", "x"]
            (matching (name "acc")
              [(ctor "Some" .wildcard, name "acc"),
                (bare "None", ⟨.if_ (call "pred" [name "x"]) (wrapped (name "x")) (name "None")⟩)])]),
    func "min" ["xs"] (call "fold" [name "xs", name "None", lambda ["acc", "x"] (better .lt)]),
    func "max" ["xs"] (call "fold" [name "xs", name "None", lambda ["acc", "x"] (better .gt)]),
    func "first" ["xs"]
      (call "fold"
        [name "xs", name "None",
          lambda ["acc", "x"]
            (matching (name "acc") [(bare "None", wrapped (name "x")), (ctor "Some" .wildcard, name "acc")])]),
    func "last" ["xs"] (call "fold" [name "xs", name "None", lambda ["_", "x"] (wrapped (name "x"))]),
    func "flatten" ["xss"] (call "flatMap" [name "xss", lambda ["xs"] (name "xs")]),
    .contract "Try" [] [signature "isFailure" [] (.name "Bool" []), signature "unwrap" [] .selfType],
    .on (.name "Maybe" []) (some (.name "Try" []))
      [method "isFailure" [] (matching self [(bare "None", ⟨.bool true⟩), (ctor "Some" .wildcard, ⟨.bool false⟩)]),
        method "unwrap" [] (matching self [(ctor "Some" (.binding "v"), name "v"), (bare "None", self)])],
    .on (.name "Result" []) (some (.name "Try" []))
      [method "isFailure" []
        (matching self [(ctor "Err" .wildcard, ⟨.bool true⟩), (ctor "Ok" .wildcard, ⟨.bool false⟩)]),
        method "unwrap" [] (matching self [(ctor "Ok" (.binding "v"), name "v"), (ctor "Err" .wildcard, self)])],
    .contract "Functor" [] [signature "map" ["f"] .selfType],
    .on (.name "Maybe" []) (some (.name "Functor" []))
      [method "map" ["f"]
        (matching self
          [(ctor "Some" (.binding "v"), wrapped (call "f" [name "v"])), (bare "None", name "None")])],
    .on (.name "Result" []) (some (.name "Functor" []))
      [method "map" ["f"]
        (matching self
          [(ctor "Ok" (.binding "v"), call "Ok" [call "f" [name "v"]]),
            (ctor "Err" (.binding "e"), call "Err" [name "e"])])],
    func "isSome" ["m"]
      (matching (name "m") [(ctor "Some" .wildcard, ⟨.bool true⟩), (bare "None", ⟨.bool false⟩)]),
    func "isNone" ["m"]
      (matching (name "m") [(bare "None", ⟨.bool true⟩), (ctor "Some" .wildcard, ⟨.bool false⟩)]),
    func "unwrapOr" ["m", "default"]
      (matching (name "m") [(ctor "Some" (.binding "v"), name "v"), (bare "None", name "default")]),
    func "mapMaybe" ["m", "f"]
      (matching (name "m")
        [(ctor "Some" (.binding "v"), wrapped (call "f" [name "v"])), (bare "None", name "None")]),
    func "andThen" ["m", "f"]
      (matching (name "m") [(ctor "Some" (.binding "v"), call "f" [name "v"]), (bare "None", name "None")]),
    .func "view" [⟨"f", none⟩] none ["FsRead", "ConsoleOut"]
      (call "print" [call "unwrapOr" [call "readFile" [name "f"], ⟨.str [.lit "view: cannot read file"]⟩]]) false]

/-! ### Modules -/

/-- The exports of a module, and the names it keeps to itself. -/
structure ModuleHandle where
  name : String
  exports : List (String × Value)
  hidden : List String

namespace ModuleHandle

def member (handle : ModuleHandle) (name : String) : Option Value := handle.exports.lookup name

def accessError (handle : ModuleHandle) (name : String) : Fault :=
  if handle.hidden.contains name then
    .other ("member `" ++ name ++ "` of module `" ++ handle.name ++ "` is private")
  else .other ("module `" ++ handle.name ++ "` has no member `" ++ name ++ "`")

end ModuleHandle

def declaredBy : Item → List (String × Bool)
  | .func name _ _ _ _ isPublic => [(name, isPublic)]
  | .const name _ _ isPublic => [(name, isPublic)]
  | .prod name _ fields isPublic => [(name, isPublic && fields.all Field.isPublic)]
  | .sum _ _ variants isPublic => variants.map fun variant => (variant.name, isPublic)
  | .on _ _ _ | .contract _ _ _ | .use _ _ | .test _ _ _ => []

def declaredNames (items : List Item) : List (String × Bool) := items.flatMap declaredBy

def collectExports (items : List Item) (globals : List (String × Value)) : List (String × Value) × List String :=
  (declaredNames items).foldl
    (fun exported declared =>
      if declared.2 then
        match globals.lookup declared.1 with
        | some value => ((declared.1, value) :: exported.1, exported.2)
        | none => exported
      else (exported.1, declared.1 :: exported.2))
    ([], [])

def builtinModules (globals : List (String × Value)) : List ModuleHandle :=
  ["List", "Map", "Seq", "Str"].map fun module =>
    ⟨module,
      Native.all.filterMap fun native =>
        match native.exported with
        | some (home, name) => if home = module then (globals.lookup native.name).map fun v => (name, v) else none
        | none => none,
      []⟩

abbrev ModuleTable := List (String × Nat × ModuleHandle)

/-- The names of a selection, each bound to the member. -/
def linkNames (handle : ModuleHandle) : List String → List (String × Value) → Except Fault (List (String × Value))
  | [], globals => .ok globals
  | name :: names, globals =>
    match handle.member name with
    | some value => linkNames handle names ((name, value) :: globals)
    | none => .error (handle.accessError name)

def linkImports (modules : ModuleTable) :
    List Item → List (String × Value) → Except Fault (List (String × Value))
  | [], globals => .ok globals
  | .use module names :: items, globals =>
    match modules.lookup module with
    | none => .error (.other ("no module named `" ++ module ++ "`"))
    | some (id, handle) =>
      match names with
      | none => linkImports modules items ((module, .module id module) :: globals)
      | some names => do
        let globals ← linkNames handle names globals
        linkImports modules items globals
  | _ :: items, globals => linkImports modules items globals

/-- Numbered from `first`, by name. -/
def moduleTable (first : Nat) : List ModuleHandle → ModuleTable
  | [] => []
  | handle :: handles => (handle.name, first, handle) :: moduleTable (first + 1) handles

/-! ### One program -/

/-- What a program adds to the world. -/
structure Loaded where
  globals : List (String × Value)
  methods : List (String × List Method)
  fieldMut : List (String × List (String × Bool))
  modules : List ModuleHandle
  nextId : Nat

/-- The imports of a whole module that is built in; a program on its own links no others. -/
def isBuiltinUse (modules : ModuleTable) : Item → Bool
  | .use module none => (modules.lookup module).isSome
  | _ => false

/-- The tables of the prelude and the items, for the next table of globals, with the modules numbered from
`firstModule`. -/
def buildEnv (authority : List String) (nextId table firstModule : Nat) (items : List Item) : Option Loaded := do
  let reg ← registerItems table authority (preludeItems ++ items) (builtins nextId)
  let reg := bakeContractDefaults reg
  let handles := builtinModules reg.globals
  let modules := moduleTable firstModule handles
  match linkImports modules ((preludeItems ++ items).filter (isBuiltinUse modules)) reg.globals with
  | .ok globals => some ⟨globals, reg.methods, reg.fieldMut, handles, reg.nextId⟩
  | .error _ => none

end SnitchOs.Stitch
