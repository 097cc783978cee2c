import Mathlib.Data.List.Basic

/-!
# Stitch syntax trees

`ExprKind X` is one node whose children are `X`; an `Expr` is a node of `Expr`s. Positions in the source are left
out: equality of trees ignores them. A recursive function on trees is a `fold`: what it makes of a node, each
child given together with its result.
-/

namespace SnitchOs.Stitch

open List

inductive UnOp
  | neg | not
deriving DecidableEq

inductive BinOp
  | add | sub | mul | div | rem | eq | ne | lt | le | gt | ge | and | or | pipe | crossPipe | range | rangeIncl
deriving DecidableEq

def BinOp.spelling : BinOp → String
  | .add => "+"
  | .sub => "-"
  | .mul => "*"
  | .div => "/"
  | .rem => "%"
  | .eq => "=="
  | .ne => "!="
  | .lt => "<"
  | .le => "<="
  | .gt => ">"
  | .ge => ">="
  | .and => "and"
  | .or => "or"
  | .pipe => "|>"
  | .crossPipe => "~>"
  | .range => ".."
  | .rangeIncl => "..="

inductive Pattern
  | wildcard
  | int (n : Nat)
  | float (text : String)
  | bool (b : Bool)
  | str (text : String)
  | binding (name : String)
  | constructor (name : String) (args : List Pattern)
  | tuple (pats : List Pattern)
  | or (alts : List Pattern)

/-- A type annotation: parsed, not checked. -/
inductive TypeExpr
  | name (name : String) (args : List TypeExpr)
  | func (param ret : TypeExpr)
  | tuple (elems : List TypeExpr)
  | selfType

structure ArgOf (X : Type) where
  label : Option String
  value : X

inductive StrSegmentOf (X : Type)
  | lit (text : String)
  | interp (e : X)

inductive StmtOf (X : Type)
  | let_ (name : String) (mutable : Bool) (value : X)
  | assign (target value : X)
  /-- `use binding <- call`: the rest of the block is the callback. -/
  | use (binding : Option String) (call : X)
  | expr (e : X)

structure MatchArmOf (X : Type) where
  pattern : Pattern
  guard : Option X
  body : X

inductive ExprKind (X : Type)
  | int (n : Nat)
  | float (text : String)
  | bool (b : Bool)
  | var (name : String)
  | selfRef
  | spread (base : X)
  | placeholder (name : Option String)
  | binary (op : BinOp) (left right : X)
  | unary (op : UnOp) (operand : X)
  | call (callee : X) (args : List (ArgOf X))
  | field (object : X) (name : String)
  | safeField (object : X) (name : String)
  | try_ (operand : X)
  | index (object index : X)
  | lambda (params : List String) (body : X)
  | range (start stop : Option X) (inclusive : Bool)
  | if_ (cond then_ els : X)
  | tuple (elems : List X)
  | list (elems : List X)
  | map (entries : List (X × X))
  | str (segments : List (StrSegmentOf X))
  | block (stmts : List (StmtOf X)) (result : Option X)
  | operatorRef (op : BinOp)
  | handle (op : String) (handler body : X)
  | expect (e : X)
  | without (cap : String) (body : X)
  | match_ (subject : X) (arms : List (MatchArmOf X))
  | subjectlessMatch (arms : List (X × X)) (default : X)

structure Expr where
  kind : ExprKind Expr

abbrev Arg := ArgOf Expr

abbrev StrSegment := StrSegmentOf Expr

abbrev Stmt := StmtOf Expr

abbrev MatchArm := MatchArmOf Expr

structure Field where
  name : Option String
  mutable : Bool
  ty : TypeExpr
  isPublic : Bool

structure Variant where
  name : String
  fields : List Field

structure Param where
  name : String
  ty : Option TypeExpr

inductive MethodModifier
  | instance_ | mut_ | free
deriving DecidableEq

structure MethodOf (X : Type) where
  name : String
  modifier : MethodModifier
  params : List Param
  ret : Option TypeExpr
  uses : List String
  body : Option X

abbrev Method := MethodOf Expr

/-- A top-level declaration with bodies `X`. -/
inductive ItemOf (X : Type)
  | prod (name : String) (generics : List String) (fields : List Field) (isPublic : Bool)
  | sum (name : String) (generics : List String) (variants : List Variant) (isPublic : Bool)
  | func (name : String) (params : List Param) (ret : Option TypeExpr) (uses : List String) (body : X) (isPublic : Bool)
  | test (name : String) (uses : List String) (body : X)
  | contract (name : String) (generics : List String) (methods : List (MethodOf X))
  | on (target : TypeExpr) (contract : Option TypeExpr) (methods : List (MethodOf X))
  | const (name : String) (mutable : Bool) (value : X) (isPublic : Bool)
  | use (module : String) (names : Option (List String))

abbrev Item := ItemOf Expr

/-! ### One node -/

section Node

variable {X Y Z : Type}

def StrSegmentOf.map (f : X → Y) : StrSegmentOf X → StrSegmentOf Y
  | .lit text => .lit text
  | .interp e => .interp (f e)

def StrSegmentOf.children : StrSegmentOf X → List X
  | .lit _ => []
  | .interp e => [e]

def StmtOf.map (f : X → Y) : StmtOf X → StmtOf Y
  | .let_ name mutable value => .let_ name mutable (f value)
  | .assign target value => .assign (f target) (f value)
  | .use binding call => .use binding (f call)
  | .expr e => .expr (f e)

def StmtOf.children : StmtOf X → List X
  | .let_ _ _ value => [value]
  | .assign target value => [target, value]
  | .use _ call => [call]
  | .expr e => [e]

def ArgOf.map (f : X → Y) (arg : ArgOf X) : ArgOf Y := ⟨arg.label, f arg.value⟩

def MatchArmOf.map (f : X → Y) (arm : MatchArmOf X) : MatchArmOf Y := ⟨arm.pattern, arm.guard.map f, f arm.body⟩

def MatchArmOf.children (arm : MatchArmOf X) : List X := arm.guard.toList ++ [arm.body]

def ExprKind.mapChildren (f : X → Y) : ExprKind X → ExprKind Y
  | .int n => .int n
  | .float text => .float text
  | .bool b => .bool b
  | .var name => .var name
  | .selfRef => .selfRef
  | .spread base => .spread (f base)
  | .placeholder name => .placeholder name
  | .binary op left right => .binary op (f left) (f right)
  | .unary op operand => .unary op (f operand)
  | .call callee args => .call (f callee) (args.map (ArgOf.map f))
  | .field object name => .field (f object) name
  | .safeField object name => .safeField (f object) name
  | .try_ operand => .try_ (f operand)
  | .index object i => .index (f object) (f i)
  | .lambda params body => .lambda params (f body)
  | .range start stop inclusive => .range (start.map f) (stop.map f) inclusive
  | .if_ cond then_ els => .if_ (f cond) (f then_) (f els)
  | .tuple elems => .tuple (elems.map f)
  | .list elems => .list (elems.map f)
  | .map entries => .map (entries.map (Prod.map f f))
  | .str segments => .str (segments.map (StrSegmentOf.map f))
  | .block stmts result => .block (stmts.map (StmtOf.map f)) (result.map f)
  | .operatorRef op => .operatorRef op
  | .handle op handler body => .handle op (f handler) (f body)
  | .expect e => .expect (f e)
  | .without cap body => .without cap (f body)
  | .match_ subject arms => .match_ (f subject) (arms.map (MatchArmOf.map f))
  | .subjectlessMatch arms default => .subjectlessMatch (arms.map (Prod.map f f)) (f default)

/-- In the order of the source. -/
def ExprKind.children : ExprKind X → List X
  | .spread base => [base]
  | .binary _ left right => [left, right]
  | .unary _ operand => [operand]
  | .call callee args => callee :: args.map ArgOf.value
  | .field object _ => [object]
  | .safeField object _ => [object]
  | .try_ operand => [operand]
  | .index object i => [object, i]
  | .lambda _ body => [body]
  | .range start stop _ => start.toList ++ stop.toList
  | .if_ cond then_ els => [cond, then_, els]
  | .tuple elems => elems
  | .list elems => elems
  | .map entries => entries.flatMap fun entry => [entry.1, entry.2]
  | .str segments => segments.flatMap StrSegmentOf.children
  | .block stmts result => stmts.flatMap StmtOf.children ++ result.toList
  | .handle _ handler body => [handler, body]
  | .expect e => [e]
  | .without _ body => [body]
  | .match_ subject arms => subject :: arms.flatMap MatchArmOf.children
  | .subjectlessMatch arms default => (arms.flatMap fun arm => [arm.1, arm.2]) ++ [default]
  | _ => []

namespace ExprKind

theorem children_mapChildren (f : X → Y) (k : ExprKind X) : (k.mapChildren f).children = k.children.map f := by
  have hsegment : ∀ s : StrSegmentOf X, (s.map f).children = s.children.map f := fun s => by cases s <;> rfl
  have hstmt : ∀ s : StmtOf X, (s.map f).children = s.children.map f := fun s => by cases s <;> rfl
  have harm : ∀ a : MatchArmOf X, (a.map f).children = a.children.map f := fun a => by
    rcases a with ⟨p, _ | g, b⟩ <;> rfl
  cases k <;> simp [mapChildren, children, flatMap_map, map_flatMap, Function.comp_def, ArgOf.map, hsegment,
    hstmt, harm, Option.toList_map]

theorem mapChildren_mapChildren (f : X → Y) (g : Y → Z) (k : ExprKind X) :
    (k.mapChildren f).mapChildren g = k.mapChildren fun c => g (f c) := by
  have hsegment : ∀ s : StrSegmentOf X, (s.map f).map g = s.map fun c => g (f c) := fun s => by cases s <;> rfl
  have hstmt : ∀ s : StmtOf X, (s.map f).map g = s.map fun c => g (f c) := fun s => by cases s <;> rfl
  cases k <;> simp [mapChildren, Function.comp_def, ArgOf.map, MatchArmOf.map, hsegment, hstmt]

theorem mapChildren_congr {k : ExprKind X} (h : ∀ c ∈ k.children, f c = g c) : k.mapChildren f = k.mapChildren g := by
  have hoption : ∀ o : Option X, (∀ c ∈ o.toList, f c = g c) → o.map f = o.map g := fun o ho => by
    cases o with
    | none => rfl
    | some c => exact congrArg some (ho c (by simp))
  have hpair : ∀ p : X × X, f p.1 = g p.1 → f p.2 = g p.2 → p.map f f = p.map g g := fun p h₁ h₂ => Prod.ext h₁ h₂
  have harg : ∀ a : ArgOf X, f a.value = g a.value → a.map f = a.map g := fun a h => congrArg (ArgOf.mk a.label) h
  have hsegment : ∀ s : StrSegmentOf X, (∀ c ∈ s.children, f c = g c) → s.map f = s.map g := fun s hs => by
    cases s with
    | lit text => rfl
    | interp e => exact congrArg _ (hs e (by simp [StrSegmentOf.children]))
  have hstmt : ∀ s : StmtOf X, (∀ c ∈ s.children, f c = g c) → s.map f = s.map g := fun s hs => by
    cases s <;> simp only [StmtOf.children, forall_mem_cons] at hs <;> simp only [StmtOf.map, hs]
  have harm : ∀ a : MatchArmOf X, (∀ c ∈ a.children, f c = g c) → a.map f = a.map g := fun a ha => by
    obtain ⟨p, guard, b⟩ := a
    simp only [MatchArmOf.children, forall_mem_append, forall_mem_singleton] at ha
    rw [MatchArmOf.map, MatchArmOf.map, hoption guard ha.1, ha.2]
  cases k <;> simp only [children, mapChildren, forall_mem_cons, forall_mem_append,
    forall_mem_flatMap, forall_mem_map] at h ⊢
  case call callee args => rw [h.1, map_congr_left fun a ha => harg a (h.2 a ha)]
  case range start stop inclusive => rw [hoption start h.1, hoption stop h.2]
  case tuple elems => rw [map_congr_left h]
  case list elems => rw [map_congr_left h]
  case map entries => rw [map_congr_left fun p hp => hpair p (h p hp).1 (h p hp).2.1]
  case str segments => rw [map_congr_left fun s hs => hsegment s (h s hs)]
  case block stmts result => rw [map_congr_left fun s hs => hstmt s (h.1 s hs), hoption result h.2]
  case match_ subject arms => rw [h.1, map_congr_left fun a ha => harm a (h.2 a ha)]
  case subjectlessMatch arms default =>
    rw [map_congr_left fun p hp => hpair p (h.1 p hp).1 (h.1 p hp).2.1, h.2.1]
  all_goals simp only [h]

theorem mapChildren_id (k : ExprKind X) : (k.mapChildren fun c => c) = k := by
  have hsegment : (StrSegmentOf.map fun c : X => c) = id := funext fun s => by cases s <;> rfl
  have hstmt : (StmtOf.map fun c : X => c) = id := funext fun s => by cases s <;> rfl
  have harg : (ArgOf.map fun c : X => c) = id := rfl
  have harm : (MatchArmOf.map fun c : X => c) = id := funext fun a => by rcases a with ⟨p, _ | g, b⟩ <;> rfl
  cases k <;> simp [mapChildren, hsegment, hstmt, harg, harm]

end ExprKind

end Node

/-! ### Whole trees -/

namespace Expr

section Fold

variable {β : Type} (alg : ExprKind (Expr × β) → β)

mutual

/-- What `alg` makes of every node, from the leaves up. -/
def fold : Expr → β
  | ⟨k⟩ => alg (foldKind k)
termination_by structural e => e

def foldKind : ExprKind Expr → ExprKind (Expr × β)
  | .int n => .int n
  | .float text => .float text
  | .bool b => .bool b
  | .var name => .var name
  | .selfRef => .selfRef
  | .spread base => .spread (base, fold base)
  | .placeholder name => .placeholder name
  | .binary op left right => .binary op (left, fold left) (right, fold right)
  | .unary op operand => .unary op (operand, fold operand)
  | .call callee args => .call (callee, fold callee) (foldArgs args)
  | .field object name => .field (object, fold object) name
  | .safeField object name => .safeField (object, fold object) name
  | .try_ operand => .try_ (operand, fold operand)
  | .index object i => .index (object, fold object) (i, fold i)
  | .lambda params body => .lambda params (body, fold body)
  | .range start stop inclusive => .range (foldOption start) (foldOption stop) inclusive
  | .if_ cond then_ els => .if_ (cond, fold cond) (then_, fold then_) (els, fold els)
  | .tuple elems => .tuple (foldList elems)
  | .list elems => .list (foldList elems)
  | .map entries => .map (foldPairs entries)
  | .str segments => .str (foldSegments segments)
  | .block stmts result => .block (foldStmts stmts) (foldOption result)
  | .operatorRef op => .operatorRef op
  | .handle op handler body => .handle op (handler, fold handler) (body, fold body)
  | .expect e => .expect (e, fold e)
  | .without cap body => .without cap (body, fold body)
  | .match_ subject arms => .match_ (subject, fold subject) (foldArms arms)
  | .subjectlessMatch arms default => .subjectlessMatch (foldPairs arms) (default, fold default)
termination_by structural k => k

def foldOption : Option Expr → Option (Expr × β)
  | none => none
  | some e => some (e, fold e)
termination_by structural e => e

def foldList : List Expr → List (Expr × β)
  | [] => []
  | e :: es => (e, fold e) :: foldList es
termination_by structural es => es

def foldPairs : List (Expr × Expr) → List ((Expr × β) × (Expr × β))
  | [] => []
  | (a, b) :: entries => ((a, fold a), (b, fold b)) :: foldPairs entries
termination_by structural entries => entries

def foldArgs : List Arg → List (ArgOf (Expr × β))
  | [] => []
  | ⟨label, value⟩ :: args => ⟨label, (value, fold value)⟩ :: foldArgs args
termination_by structural args => args

def foldSegments : List StrSegment → List (StrSegmentOf (Expr × β))
  | [] => []
  | .lit text :: segments => .lit text :: foldSegments segments
  | .interp e :: segments => .interp (e, fold e) :: foldSegments segments
termination_by structural segments => segments

def foldStmts : List Stmt → List (StmtOf (Expr × β))
  | [] => []
  | .let_ name mutable value :: stmts => .let_ name mutable (value, fold value) :: foldStmts stmts
  | .assign target value :: stmts => .assign (target, fold target) (value, fold value) :: foldStmts stmts
  | .use binding call :: stmts => .use binding (call, fold call) :: foldStmts stmts
  | .expr e :: stmts => .expr (e, fold e) :: foldStmts stmts
termination_by structural stmts => stmts

def foldArms : List MatchArm → List (MatchArmOf (Expr × β))
  | [] => []
  | ⟨pattern, guard, body⟩ :: arms => ⟨pattern, foldOption guard, (body, fold body)⟩ :: foldArms arms
termination_by structural arms => arms

end

theorem foldOption_eq (e : Option Expr) : foldOption alg e = e.map fun e => (e, fold alg e) := by
  cases e <;> rfl

theorem foldList_eq (es : List Expr) : foldList alg es = es.map fun e => (e, fold alg e) := by
  induction es with
  | nil => rfl
  | cons e es ih => rw [foldList, ih, map_cons]

theorem foldPairs_eq (entries : List (Expr × Expr)) :
    foldPairs alg entries = entries.map (Prod.map (fun e => (e, fold alg e)) fun e => (e, fold alg e)) := by
  induction entries with
  | nil => rfl
  | cons entry entries ih => rw [foldPairs, ih, map_cons]; rfl

theorem foldArgs_eq (args : List Arg) : foldArgs alg args = args.map (ArgOf.map fun e => (e, fold alg e)) := by
  induction args with
  | nil => rfl
  | cons arg args ih => rw [foldArgs, ih, map_cons]; rfl

theorem foldSegments_eq (segments : List StrSegment) :
    foldSegments alg segments = segments.map (StrSegmentOf.map fun e => (e, fold alg e)) := by
  induction segments with
  | nil => rfl
  | cons segment segments ih => cases segment <;> rw [foldSegments, ih, map_cons] <;> rfl

theorem foldStmts_eq (stmts : List Stmt) : foldStmts alg stmts = stmts.map (StmtOf.map fun e => (e, fold alg e)) := by
  induction stmts with
  | nil => rfl
  | cons stmt stmts ih => cases stmt <;> rw [foldStmts, ih, map_cons] <;> rfl

theorem foldArms_eq (arms : List MatchArm) : foldArms alg arms = arms.map (MatchArmOf.map fun e => (e, fold alg e)) := by
  induction arms with
  | nil => rfl
  | cons arm arms ih => rw [foldArms, ih, foldOption_eq, map_cons]; rfl

theorem fold_mk (k : ExprKind Expr) : fold alg ⟨k⟩ = alg (k.mapChildren fun e => (e, fold alg e)) := by
  rw [fold]
  cases k <;> simp only [foldKind, ExprKind.mapChildren, foldOption_eq, foldList_eq, foldPairs_eq, foldArgs_eq,
    foldSegments_eq, foldStmts_eq, foldArms_eq]

end Fold

section Induction

variable {P : Expr → Prop} (step : ∀ k : ExprKind Expr, (∀ e ∈ k.children, P e) → P ⟨k⟩)
include step

set_option linter.unusedSectionVars false

mutual

/-- Over trees: a node, assuming it of the children. -/
theorem induction : ∀ e, P e
  | ⟨k⟩ => step k (inductionKind k)
termination_by structural e => e

theorem inductionKind : ∀ k : ExprKind Expr, ∀ e ∈ k.children, P e
  | .int _ => forall_mem_nil _
  | .float _ => forall_mem_nil _
  | .bool _ => forall_mem_nil _
  | .var _ => forall_mem_nil _
  | .selfRef => forall_mem_nil _
  | .spread base => forall_mem_singleton.mpr (induction base)
  | .placeholder _ => forall_mem_nil _
  | .binary _ left right => forall_mem_cons.mpr ⟨induction left, forall_mem_singleton.mpr (induction right)⟩
  | .unary _ operand => forall_mem_singleton.mpr (induction operand)
  | .call callee args => forall_mem_cons.mpr ⟨induction callee, inductionArgs args⟩
  | .field object _ => forall_mem_singleton.mpr (induction object)
  | .safeField object _ => forall_mem_singleton.mpr (induction object)
  | .try_ operand => forall_mem_singleton.mpr (induction operand)
  | .index object i => forall_mem_cons.mpr ⟨induction object, forall_mem_singleton.mpr (induction i)⟩
  | .lambda _ body => forall_mem_singleton.mpr (induction body)
  | .range start stop _ => forall_mem_append.mpr ⟨inductionOption start, inductionOption stop⟩
  | .if_ cond then_ els =>
    forall_mem_cons.mpr ⟨induction cond, forall_mem_cons.mpr ⟨induction then_, forall_mem_singleton.mpr (induction els)⟩⟩
  | .tuple elems => inductionList elems
  | .list elems => inductionList elems
  | .map entries => inductionPairs entries
  | .str segments => inductionSegments segments
  | .block stmts result => forall_mem_append.mpr ⟨inductionStmts stmts, inductionOption result⟩
  | .operatorRef _ => forall_mem_nil _
  | .handle _ handler body => forall_mem_cons.mpr ⟨induction handler, forall_mem_singleton.mpr (induction body)⟩
  | .expect e => forall_mem_singleton.mpr (induction e)
  | .without _ body => forall_mem_singleton.mpr (induction body)
  | .match_ subject arms => forall_mem_cons.mpr ⟨induction subject, inductionArms arms⟩
  | .subjectlessMatch arms default =>
    forall_mem_append.mpr ⟨inductionPairs arms, forall_mem_singleton.mpr (induction default)⟩
termination_by structural k => k

theorem inductionOption : ∀ o : Option Expr, ∀ e ∈ o.toList, P e
  | none => forall_mem_nil _
  | some e => forall_mem_singleton.mpr (induction e)
termination_by structural o => o

theorem inductionList : ∀ es : List Expr, ∀ e ∈ es, P e
  | [] => forall_mem_nil _
  | e :: es => forall_mem_cons.mpr ⟨induction e, inductionList es⟩
termination_by structural es => es

theorem inductionPairs : ∀ entries : List (Expr × Expr), ∀ e ∈ entries.flatMap fun entry => [entry.1, entry.2], P e
  | [] => forall_mem_nil _
  | (a, b) :: entries => forall_mem_append.mpr
    ⟨forall_mem_cons.mpr ⟨induction a, forall_mem_singleton.mpr (induction b)⟩, inductionPairs entries⟩
termination_by structural entries => entries

theorem inductionArgs : ∀ args : List Arg, ∀ e ∈ args.map ArgOf.value, P e
  | [] => forall_mem_nil _
  | ⟨_, value⟩ :: args => forall_mem_cons.mpr ⟨induction value, inductionArgs args⟩
termination_by structural args => args

theorem inductionSegments : ∀ segments : List StrSegment, ∀ e ∈ segments.flatMap StrSegmentOf.children, P e
  | [] => forall_mem_nil _
  | .lit _ :: segments => inductionSegments segments
  | .interp e :: segments => forall_mem_cons.mpr ⟨induction e, inductionSegments segments⟩
termination_by structural segments => segments

theorem inductionStmts : ∀ stmts : List Stmt, ∀ e ∈ stmts.flatMap StmtOf.children, P e
  | [] => forall_mem_nil _
  | .let_ _ _ value :: stmts => forall_mem_cons.mpr ⟨induction value, inductionStmts stmts⟩
  | .assign target value :: stmts => forall_mem_cons.mpr
    ⟨induction target, forall_mem_cons.mpr ⟨induction value, inductionStmts stmts⟩⟩
  | .use _ call :: stmts => forall_mem_cons.mpr ⟨induction call, inductionStmts stmts⟩
  | .expr e :: stmts => forall_mem_cons.mpr ⟨induction e, inductionStmts stmts⟩
termination_by structural stmts => stmts

theorem inductionArms : ∀ arms : List MatchArm, ∀ e ∈ arms.flatMap MatchArmOf.children, P e
  | [] => forall_mem_nil _
  | ⟨_, guard, body⟩ :: arms => forall_mem_append.mpr
    ⟨forall_mem_append.mpr ⟨inductionOption guard, forall_mem_singleton.mpr (induction body)⟩,
      inductionArms arms⟩
termination_by structural arms => arms

end

end Induction

end Expr

end SnitchOs.Stitch
