import SnitchOs.Stitch.Ast

/-!
# The core language

What lowering leaves of the syntax trees: no placeholders, operators as values, subjectless matches or `use`
statements. Functions on its trees are folds, as on the surface.
-/

namespace SnitchOs.Stitch

open List

inductive CoreStmtOf (X : Type)
  | let_ (name : String) (mutable : Bool) (value : X)
  | assign (target value : X)
  | expr (e : X)

inductive CoreExprKind (X : Type)
  | int (n : Nat)
  | float (text : String)
  | bool (b : Bool)
  | var (name : String)
  | selfRef
  | spread (base : X)
  | binary (op : BinOp) (left right : X)
  | unary (op : UnOp) (operand : X)
  | call (callee : X) (args : List (ArgOf X))
  | field (object : X) (name : String)
  | safeField (object : X) (name : String)
  | try_ (operand : X)
  | index (object i : X)
  | lambda (params : List String) (body : X)
  | range (start stop : Option X) (inclusive : Bool)
  | if_ (cond then_ els : X)
  | tuple (elems : List X)
  | list (elems : List X)
  | map (entries : List (X × X))
  | str (segments : List (StrSegmentOf X))
  | block (stmts : List (CoreStmtOf X)) (result : Option X)
  | match_ (subject : X) (arms : List (MatchArmOf X))
  | handle (op : String) (handler body : X)
  | without (cap : String) (body : X)
  | expect (e : X)

structure CoreExpr where
  kind : CoreExprKind CoreExpr

abbrev CoreArg := ArgOf CoreExpr

abbrev CoreStmt := CoreStmtOf CoreExpr

abbrev CoreMatchArm := MatchArmOf CoreExpr

abbrev CoreStrSegment := StrSegmentOf CoreExpr

abbrev CoreMethod := MethodOf CoreExpr

abbrev CoreItem := ItemOf CoreExpr

instance : Inhabited CoreExpr := ⟨⟨.tuple []⟩⟩

instance : Inhabited Expr := ⟨⟨.tuple []⟩⟩

/-! ### Folds -/

section Node

variable {X Y : Type}

def CoreStmtOf.map (f : X → Y) : CoreStmtOf X → CoreStmtOf Y
  | .let_ name mutable value => .let_ name mutable (f value)
  | .assign target value => .assign (f target) (f value)
  | .expr e => .expr (f e)

def CoreExprKind.mapChildren (f : X → Y) : CoreExprKind X → CoreExprKind Y
  | .int n => .int n
  | .float text => .float text
  | .bool b => .bool b
  | .var name => .var name
  | .selfRef => .selfRef
  | .spread base => .spread (f base)
  | .binary op left right => .binary op (f left) (f right)
  | .unary op operand => .unary op (f operand)
  | .call callee args => .call (f callee) (args.map (ArgOf.map f))
  | .field object name => .field (f object) name
  | .safeField object name => .safeField (f object) name
  | .try_ operand => .try_ (f operand)
  | .index object i => .index (f object) (f i)
  | .lambda params body => .lambda params (f body)
  | .range start stop inclusive => .range (start.map f) (stop.map f) inclusive
  | .if_ cond then_ els => .if_ (f cond) (f then_) (f els)
  | .tuple elems => .tuple (elems.map f)
  | .list elems => .list (elems.map f)
  | .map entries => .map (entries.map (Prod.map f f))
  | .str segments => .str (segments.map (StrSegmentOf.map f))
  | .block stmts result => .block (stmts.map (CoreStmtOf.map f)) (result.map f)
  | .match_ subject arms => .match_ (f subject) (arms.map (MatchArmOf.map f))
  | .handle op handler body => .handle op (f handler) (f body)
  | .without cap body => .without cap (f body)
  | .expect e => .expect (f e)

end Node

namespace CoreExpr

variable {β : Type} (alg : CoreExprKind (CoreExpr × β) → β)

mutual

def fold : CoreExpr → β
  | ⟨k⟩ => alg (foldKind k)
termination_by structural e => e

def foldKind : CoreExprKind CoreExpr → CoreExprKind (CoreExpr × β)
  | .int n => .int n
  | .float text => .float text
  | .bool b => .bool b
  | .var name => .var name
  | .selfRef => .selfRef
  | .spread base => .spread (base, fold base)
  | .binary op left right => .binary op (left, fold left) (right, fold right)
  | .unary op operand => .unary op (operand, fold operand)
  | .call callee args => .call (callee, fold callee) (foldArgs args)
  | .field object name => .field (object, fold object) name
  | .safeField object name => .safeField (object, fold object) name
  | .try_ operand => .try_ (operand, fold operand)
  | .index object i => .index (object, fold object) (i, fold i)
  | .lambda params body => .lambda params (body, fold body)
  | .range start stop inclusive => .range (foldOption start) (foldOption stop) inclusive
  | .if_ cond then_ els => .if_ (cond, fold cond) (then_, fold then_) (els, fold els)
  | .tuple elems => .tuple (foldList elems)
  | .list elems => .list (foldList elems)
  | .map entries => .map (foldPairs entries)
  | .str segments => .str (foldSegments segments)
  | .block stmts result => .block (foldStmts stmts) (foldOption result)
  | .match_ subject arms => .match_ (subject, fold subject) (foldArms arms)
  | .handle op handler body => .handle op (handler, fold handler) (body, fold body)
  | .without cap body => .without cap (body, fold body)
  | .expect e => .expect (e, fold e)
termination_by structural k => k

def foldOption : Option CoreExpr → Option (CoreExpr × β)
  | none => none
  | some e => some (e, fold e)
termination_by structural e => e

def foldList : List CoreExpr → List (CoreExpr × β)
  | [] => []
  | e :: es => (e, fold e) :: foldList es
termination_by structural es => es

def foldPairs : List (CoreExpr × CoreExpr) → List ((CoreExpr × β) × (CoreExpr × β))
  | [] => []
  | (a, b) :: entries => ((a, fold a), (b, fold b)) :: foldPairs entries
termination_by structural entries => entries

def foldArgs : List CoreArg → List (ArgOf (CoreExpr × β))
  | [] => []
  | ⟨label, value⟩ :: args => ⟨label, (value, fold value)⟩ :: foldArgs args
termination_by structural args => args

def foldSegments : List CoreStrSegment → List (StrSegmentOf (CoreExpr × β))
  | [] => []
  | .lit text :: segments => .lit text :: foldSegments segments
  | .interp e :: segments => .interp (e, fold e) :: foldSegments segments
termination_by structural segments => segments

def foldStmts : List CoreStmt → List (CoreStmtOf (CoreExpr × β))
  | [] => []
  | .let_ name mutable value :: stmts => .let_ name mutable (value, fold value) :: foldStmts stmts
  | .assign target value :: stmts => .assign (target, fold target) (value, fold value) :: foldStmts stmts
  | .expr e :: stmts => .expr (e, fold e) :: foldStmts stmts
termination_by structural stmts => stmts

def foldArms : List CoreMatchArm → List (MatchArmOf (CoreExpr × β))
  | [] => []
  | ⟨pattern, guard, body⟩ :: arms => ⟨pattern, foldOption guard, (body, fold body)⟩ :: foldArms arms
termination_by structural arms => arms

end

theorem foldOption_eq (e : Option CoreExpr) : foldOption alg e = e.map fun e => (e, fold alg e) := by
  cases e <;> rfl

theorem foldList_eq (es : List CoreExpr) : foldList alg es = es.map fun e => (e, fold alg e) := by
  induction es with
  | nil => rfl
  | cons e es ih => rw [foldList, ih, map_cons]

theorem foldPairs_eq (entries : List (CoreExpr × CoreExpr)) :
    foldPairs alg entries = entries.map (Prod.map (fun e => (e, fold alg e)) fun e => (e, fold alg e)) := by
  induction entries with
  | nil => rfl
  | cons entry entries ih => rw [foldPairs, ih, map_cons]; rfl

theorem foldArgs_eq (args : List CoreArg) : foldArgs alg args = args.map (ArgOf.map fun e => (e, fold alg e)) := by
  induction args with
  | nil => rfl
  | cons arg args ih => rw [foldArgs, ih, map_cons]; rfl

theorem foldSegments_eq (segments : List CoreStrSegment) :
    foldSegments alg segments = segments.map (StrSegmentOf.map fun e => (e, fold alg e)) := by
  induction segments with
  | nil => rfl
  | cons segment segments ih => cases segment <;> rw [foldSegments, ih, map_cons] <;> rfl

theorem foldStmts_eq (stmts : List CoreStmt) : foldStmts alg stmts = stmts.map (CoreStmtOf.map fun e => (e, fold alg e)) := by
  induction stmts with
  | nil => rfl
  | cons stmt stmts ih => cases stmt <;> rw [foldStmts, ih, map_cons] <;> rfl

theorem foldArms_eq (arms : List CoreMatchArm) : foldArms alg arms = arms.map (MatchArmOf.map fun e => (e, fold alg e)) := by
  induction arms with
  | nil => rfl
  | cons arm arms ih => rw [foldArms, ih, foldOption_eq, map_cons]; rfl

theorem fold_mk (k : CoreExprKind CoreExpr) : fold alg ⟨k⟩ = alg (k.mapChildren fun e => (e, fold alg e)) := by
  rw [fold]
  cases k <;> simp only [foldKind, CoreExprKind.mapChildren, foldOption_eq, foldList_eq, foldPairs_eq, foldArgs_eq,
    foldSegments_eq, foldStmts_eq, foldArms_eq]

end CoreExpr

end SnitchOs.Stitch
