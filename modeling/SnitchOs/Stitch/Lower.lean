import SnitchOs.Stitch.Core
import SnitchOs.Stitch.Parser

/-!
# Lowering

`lower_expr` rewrites the surface-only nodes of a tree, `to_core` reshapes the rest and panics on one that remains; a
panic is `none`. Whether a tree is lowered at all is a property of the tree alone, `lowerable`: a placeholder has to
stand in a call's argument, with no literal, lambda, block, match, handle or without between the two, and its name has
to start with a lower-case letter.
-/

namespace SnitchOs.Stitch

open List Expr
open Option (bind_some isSome_map map_some map_none any_some bind_none isSome any_none)

/-- The children, if all of them are there. -/
def ExprKind.sequence {X : Type} [Inhabited X] (k : ExprKind (Option X)) : Option (ExprKind X) :=
  if k.children.all isSome then some (k.mapChildren fun c => c.getD default) else none

/-! ### Into the core -/

def toCoreStmt : StmtOf CoreExpr → Option CoreStmt
  | .let_ name mutable value => some (.let_ name mutable value)
  | .assign target value => some (.assign target value)
  | .expr e => some (.expr e)
  | .use _ _ => none

/-- A node whose children are in the core. -/
def toCoreKind : ExprKind CoreExpr → Option (CoreExprKind CoreExpr)
  | .int n => some (.int n)
  | .float text => some (.float text)
  | .bool b => some (.bool b)
  | .var name => some (.var name)
  | .selfRef => some .selfRef
  | .spread base => some (.spread base)
  | .binary op left right => some (.binary op left right)
  | .unary op operand => some (.unary op operand)
  | .call callee args => some (.call callee args)
  | .field object name => some (.field object name)
  | .safeField object name => some (.safeField object name)
  | .try_ operand => some (.try_ operand)
  | .index object i => some (.index object i)
  | .lambda params body => some (.lambda params body)
  | .range start stop inclusive => some (.range start stop inclusive)
  | .if_ cond then_ els => some (.if_ cond then_ els)
  | .tuple elems => some (.tuple elems)
  | .list elems => some (.list elems)
  | .map entries => some (.map entries)
  | .str segments => some (.str segments)
  | .block stmts result => (stmts.mapM toCoreStmt).map fun stmts => .block stmts result
  | .match_ subject arms => some (.match_ subject arms)
  | .handle op handler body => some (.handle op handler body)
  | .without cap body => some (.without cap body)
  | .expect e => some (.expect e)
  | .placeholder _ | .operatorRef _ | .subjectlessMatch _ _ => none

def toCore : Expr → Option CoreExpr := fold fun k => do
  let k ← (k.mapChildren Prod.snd).sequence
  let k ← toCoreKind k
  some ⟨k⟩

/-! ### Placeholders -/

/-- Does the walk for placeholders look into such a node? -/
def ExprKind.entered {X : Type} : ExprKind X → Bool
  | .binary _ _ _ | .unary _ _ | .try_ _ | .spread _ | .call _ _ | .field _ _ | .safeField _ _ | .index _ _
  | .range _ _ _ | .if_ _ _ _ | .expect _ | .tuple _ | .list _ | .map _ => true
  | _ => false

/-- The parameter a placeholder stands for. -/
def placeholderParam (name : Option String) : String := "$" ++ name.getD "a"

def collectKind : ExprKind (Expr × (Expr × List String)) → Expr × List String
  | .placeholder name => (⟨.var (placeholderParam name)⟩, [placeholderParam name])
  | k =>
    if k.entered then (⟨k.mapChildren fun c => c.2.1⟩, k.children.flatMap fun c => c.2.2)
    else (⟨k.mapChildren Prod.fst⟩, [])

/-- The tree with its placeholders as variables, and the variables. -/
def collectPlaceholders : Expr → Expr × List String := fold collectKind

def placeholderLetter (name : String) : Option Char :=
  match name.toList with
  | '$' :: c :: _ => some c
  | _ => none

/-- Counted from `a`; below it the subtraction underflows. -/
def letterIndex (letter : Char) : Option Nat :=
  if 'a'.toNat ≤ letter.toNat then some (letter.toNat - 'a'.toNat) else none

/-- No parameters without placeholders; else one for every letter up to the last, `_` where it is not used. -/
def positionalParams (referenced : List String) : Option (Option (List String)) := do
  let indices ← (referenced.filterMap placeholderLetter).mapM letterIndex
  some (indices.max?.map fun last => (List.range (last + 1)).map fun index =>
    let name := "$" ++ (Char.ofNat ('a'.toNat + index)).toString
    if referenced.contains name then name else "_")

def lowerPlaceholderArg (e : Expr) : Option Expr := do
  let (body, referenced) := collectPlaceholders e
  match ← positionalParams referenced with
  | none => some body
  | some params => some ⟨.lambda params body⟩

/-! ### Desugaring -/

def operatorLambda (op : BinOp) : Expr := ⟨.lambda ["lhs", "rhs"] ⟨.binary op ⟨.var "lhs"⟩ ⟨.var "rhs"⟩⟩⟩

def useCall (call callback : Expr) : Expr :=
  match call.kind with
  | .call callee args => ⟨.call callee (args ++ [⟨none, callback⟩])⟩
  | _ => ⟨.call call [⟨none, callback⟩]⟩

/-- Each child with what it is lowered to; the target of an assignment stays as it is. -/
def lowerBlock : List (StmtOf (Expr × Option Expr)) → Option (Expr × Option Expr) → Option (List Stmt × Option Expr)
  | [], none => some ([], none)
  | [], some result => do
    let result ← result.2
    some ([], some result)
  | .use binding call :: stmts, result => do
    let (rest, restResult) ← lowerBlock stmts result
    let call ← call.2
    some ([], some (useCall call ⟨.lambda binding.toList ⟨.block rest restResult⟩⟩))
  | .let_ name mutable value :: stmts, result => do
    let value ← value.2
    let (rest, restResult) ← lowerBlock stmts result
    some (.let_ name mutable value :: rest, restResult)
  | .assign target value :: stmts, result => do
    let value ← value.2
    let (rest, restResult) ← lowerBlock stmts result
    some (.assign target.1 value :: rest, restResult)
  | .expr e :: stmts, result => do
    let e ← e.2
    let (rest, restResult) ← lowerBlock stmts result
    some (.expr e :: rest, restResult)

/-- A node whose children are lowered, not a block. -/
def desugar : ExprKind Expr → Option Expr
  | .subjectlessMatch arms default => some (arms.foldr (fun arm els => ⟨.if_ arm.1 arm.2 els⟩) default)
  | .call callee args => do
    let args ← args.mapM fun arg => (lowerPlaceholderArg arg.value).map fun value => (⟨arg.label, value⟩ : Arg)
    some ⟨.call callee args⟩
  | .operatorRef op => some (operatorLambda op)
  | k => some ⟨k⟩

def lowerKind : ExprKind (Expr × Option Expr) → Option Expr
  | .block stmts result => (lowerBlock stmts result).map fun lowered => ⟨.block lowered.1 lowered.2⟩
  | k => (k.mapChildren Prod.snd).sequence.bind desugar

def lowerExpr : Expr → Option Expr := fold lowerKind

def lowerExprToCore (e : Expr) : Option CoreExpr := do
  let e ← lowerExpr e
  toCore e

def toCoreMethod (m : Method) : Option CoreMethod :=
  match m.body with
  | none => some { m with body := none }
  | some body => (lowerExprToCore body).map fun body => { m with body := some body }

def lowerItemToCore : Item → Option CoreItem
  | .prod name generics fields isPublic => some (.prod name generics fields isPublic)
  | .sum name generics variants isPublic => some (.sum name generics variants isPublic)
  | .func name params ret uses body isPublic =>
    (lowerExprToCore body).map fun body => .func name params ret uses body isPublic
  | .test name uses body => (lowerExprToCore body).map fun body => .test name uses body
  | .contract name generics methods => (methods.mapM toCoreMethod).map fun methods => .contract name generics methods
  | .on target contract methods => (methods.mapM toCoreMethod).map fun methods => .on target contract methods
  | .const name mutable value isPublic =>
    (lowerExprToCore value).map fun value => .const name mutable value isPublic
  | .use module names => some (.use module names)

def lowerItemsToCore (items : List Item) : Option (List CoreItem) := items.mapM lowerItemToCore

/-! ### What can be lowered -/

def StmtOf.isCoreStmt {X : Type} : StmtOf X → Bool
  | .use _ _ => false
  | _ => true

def ExprKind.isCoreKind {X : Type} : ExprKind X → Bool
  | .placeholder _ | .operatorRef _ | .subjectlessMatch _ _ => false
  | .block stmts _ => stmts.all StmtOf.isCoreStmt
  | _ => true

/-- No surface-only node anywhere. -/
def isCore : Expr → Bool := fold fun k => k.isCoreKind && k.children.all Prod.snd

def pendingKind : ExprKind (Expr × List String) → List String
  | .placeholder name => [placeholderParam name]
  | .call callee _ => callee.2
  | .subjectlessMatch arms default => (arms.flatMap fun arm => arm.1.2 ++ arm.2.2) ++ default.2
  | k => if k.entered then k.children.flatMap Prod.snd else []

/-- The placeholders that an argument made of this tree would bind. -/
def pending : Expr → List String := fold pendingKind

/-- Do the placeholders have lower-case letters? -/
def lettersFit (names : List String) : Bool := (names.filterMap placeholderLetter).all fun c => 'a'.toNat ≤ c.toNat

/-- Lowerable, with no placeholder left for what is around it. -/
def closedBy (c : Expr × Bool) : Bool := c.2 && (pending c.1).isEmpty

def lowerableStmt : StmtOf (Expr × Bool) → Bool
  | .let_ _ _ value => closedBy value
  | .assign target value => isCore target.1 && closedBy value
  | .use _ call => closedBy call
  | .expr e => closedBy e

def lowerableKind : ExprKind (Expr × Bool) → Bool
  | .call callee args => callee.2 && args.all fun arg => arg.value.2 && lettersFit (pending arg.value.1)
  | .subjectlessMatch arms default => (arms.all fun arm => arm.1.2 && arm.2.2) && default.2
  | .block stmts result => stmts.all lowerableStmt && result.all closedBy
  | k => if k.entered then k.children.all Prod.snd else k.children.all closedBy

/-- Arguments bind their placeholders; behind a literal, a lambda, a block, a match, a handle or a without there may
be none left, and the target of an assignment is in the core as it stands. -/
def lowerable : Expr → Bool := fold lowerableKind

/-- As the body of a function. -/
def lowerableBody (e : Expr) : Bool := closedBy (e, lowerable e)

/-! ### The equations -/

open ExprKind

variable {k : ExprKind Expr} {α : Type} {e : Expr} {β : Type} {e' callee : Expr}
  {args : List Arg}

section Equations

variable {X Y : Type}

theorem ExprKind.entered_mapChildren (f : X → Y) (k : ExprKind X) : (k.mapChildren f).entered = k.entered := by
  cases k <;> rfl

theorem ExprKind.isCoreKind_mapChildren (f : X → Y) (k : ExprKind X) : (k.mapChildren f).isCoreKind = k.isCoreKind := by
  cases k with
  | block stmts result =>
    simp only [mapChildren, isCoreKind, all_map]
    congr 1
    funext s
    cases s <;> rfl
  | _ => rfl

theorem isCore_mk (k : ExprKind Expr) : isCore ⟨k⟩ = (k.isCoreKind && k.children.all isCore) := by
  rw [isCore, fold_mk, isCoreKind_mapChildren, children_mapChildren, all_map]
  rfl

/-- A node that lowering leaves as it is. -/
def ExprKind.plain : ExprKind X → Bool
  | .placeholder _ | .call _ _ | .subjectlessMatch _ _ | .operatorRef _ | .block _ _ => false
  | _ => true

def ExprKind.isPlaceholder : ExprKind X → Bool
  | .placeholder _ => true
  | _ => false

def ExprKind.isBlock : ExprKind X → Bool
  | .block _ _ => true
  | _ => false

theorem ExprKind.plain_mapChildren (f : X → Y) (k : ExprKind X) : (k.mapChildren f).plain = k.plain := by
  cases k <;> rfl

theorem ExprKind.isPlaceholder_mapChildren (f : X → Y) (k : ExprKind X) : (k.mapChildren f).isPlaceholder = k.isPlaceholder := by
  cases k <;> rfl

theorem isCore_call (callee : Expr) (args : List Arg) :
    isCore ⟨.call callee args⟩ = (isCore callee && args.all fun arg => isCore arg.value) := by
  rw [isCore_mk]
  simp [isCoreKind, children, Function.comp_def]

theorem isCore_if (cond then_ els : Expr) : isCore ⟨.if_ cond then_ els⟩ = (isCore cond && (isCore then_ && isCore els)) := by
  rw [isCore_mk]
  simp [isCoreKind, children]

theorem isCore_lambda (params : List String) (body : Expr) : isCore ⟨.lambda params body⟩ = isCore body := by
  rw [isCore_mk]
  simp [isCoreKind, children]

def coreStmt : Stmt → Bool
  | .let_ _ _ value => isCore value
  | .assign target value => isCore target && isCore value
  | .use _ _ => false
  | .expr e => isCore e

theorem isCore_block (stmts : List Stmt) (result : Option Expr) :
    isCore ⟨.block stmts result⟩ = (stmts.all coreStmt && result.all isCore) := by
  have hresult : result.toList.all isCore = result.all isCore := by cases result <;> simp
  rw [isCore_mk, isCoreKind, children, all_append, hresult, ← Bool.and_assoc]
  congr 1
  induction stmts with
  | nil => rfl
  | cons stmt stmts ih =>
    rw [all_cons, all_cons, flatMap_cons, all_append, ← ih]
    cases stmt <;> simp [coreStmt, StmtOf.isCoreStmt, StmtOf.children, Bool.and_left_comm, Bool.and_assoc]

theorem collectKind_eq {k : ExprKind (Expr × (Expr × List String))} (h : k.isPlaceholder = false) :
    collectKind k = if k.entered then (⟨k.mapChildren fun c => c.2.1⟩, k.children.flatMap fun c => c.2.2)
      else (⟨k.mapChildren Prod.fst⟩, []) := by
  cases k <;> first | rfl | cases h

theorem collectPlaceholders_mk (h : k.isPlaceholder = false) : collectPlaceholders ⟨k⟩ = if k.entered then
      (⟨k.mapChildren fun c => (collectPlaceholders c).1⟩, k.children.flatMap fun c => (collectPlaceholders c).2)
      else (⟨k⟩, []) := by
  rw [collectPlaceholders, fold_mk, collectKind_eq (by rw [isPlaceholder_mapChildren, h]),
    entered_mapChildren, mapChildren_mapChildren, mapChildren_mapChildren,
    children_mapChildren, flatMap_map, mapChildren_id]

theorem pendingKind_eq {k : ExprKind (Expr × List String)} (h : k.plain = true) :
    pendingKind k = if k.entered then k.children.flatMap Prod.snd else [] := by
  cases k <;> first | rfl | cases h

theorem pending_mk (h : k.plain = true) : pending ⟨k⟩ = if k.entered then k.children.flatMap pending else [] := by
  rw [pending, fold_mk, pendingKind_eq (by rw [plain_mapChildren, h]), entered_mapChildren, children_mapChildren, flatMap_map]

theorem lowerableKind_eq {k : ExprKind (Expr × Bool)} (h : k.plain = true) :
    lowerableKind k = if k.entered then k.children.all Prod.snd else k.children.all closedBy := by
  cases k <;> first | rfl | cases h

theorem lowerable_mk (h : k.plain = true) :
    lowerable ⟨k⟩ = if k.entered then k.children.all lowerable else k.children.all lowerableBody := by
  rw [lowerable, fold_mk, lowerableKind_eq (by rw [plain_mapChildren, h]), entered_mapChildren,
    children_mapChildren, all_map, all_map]
  rfl

theorem ExprKind.sequence_eq_some {X : Type} [Inhabited X] {k : ExprKind (Option X)} {k' : ExprKind X}
    (h : k.sequence = some k') : (∀ c ∈ k.children, c.isSome = true) ∧ k' = k.mapChildren fun c => c.getD default := by
  rw [sequence] at h
  split at h
  · rename_i hall
    cases h
    exact ⟨all_eq_true.mp hall, rfl⟩
  · cases h

theorem ExprKind.sequence_eq_none {X : Type} [Inhabited X] {k : ExprKind (Option X)} (h : k.sequence = none) :
    ∃ c ∈ k.children, c = none := by
  rw [sequence] at h
  split at h
  · cases h
  rename_i hall
  simpa using hall

theorem desugar_eq (h : k.plain = true) : desugar k = some ⟨k⟩ := by
  cases k <;> first | rfl | cases h

theorem lowerKind_eq {k : ExprKind (Expr × Option Expr)} (h : k.isBlock = false) :
    lowerKind k = (k.mapChildren Prod.snd).sequence.bind desugar := by
  cases k <;> first | rfl | cases h

theorem lowerExpr_mk (h : k.isBlock = false) : lowerExpr ⟨k⟩ = (k.mapChildren lowerExpr).sequence.bind desugar := by
  have hk : (k.mapChildren fun e => (e, fold lowerKind e)).isBlock = false := by
    cases k <;> first | rfl | cases h
  rw [lowerExpr, fold_mk, lowerKind_eq hk, mapChildren_mapChildren]

theorem ExprKind.isBlock_of_plain {k : ExprKind X} (h : k.plain = true) : k.isBlock = false := by
  cases k <;> first | rfl | cases h

theorem ExprKind.isCoreKind_of_plain {k : ExprKind X} (h : k.plain = true) : k.isCoreKind = true := by
  cases k <;> first | rfl | cases h

theorem ExprKind.isPlaceholder_of_plain {k : ExprKind X} (h : k.plain = true) : k.isPlaceholder = false := by
  cases k <;> first | rfl | cases h

end Equations

/-! ### Lowering a tree -/

theorem all_congr_mem {l : List α} {q : α → Bool} (h : ∀ a ∈ l, p a = q a) : l.all p = l.all q := by
  induction l with
  | nil => rfl
  | cons a l ih =>
    rw [all_cons, all_cons, h a mem_cons_self, ih fun b hb => h b (mem_cons_of_mem a hb)]

theorem all_and (l : List α) (p q : α → Bool) : (l.all fun a => p a && q a) = (l.all p && l.all q) := by
  induction l with
  | nil => rfl
  | cons a l ih =>
    rw [all_cons, all_cons, all_cons, ih]
    cases p a <;> cases q a <;> simp

theorem isEmpty_flatMap (l : List α) (f : α → List β) : (l.flatMap f).isEmpty = l.all fun a => (f a).isEmpty := by
  induction l with
  | nil => rfl
  | cons a l ih =>
    rw [flatMap_cons, all_cons, ← ih]
    cases f a <;> rfl

/-- What the walk for placeholders finds in a lowered tree, and whether there is a surface-only node left behind it. -/
structure LoweredTo (e' : Expr) (params : List String) (ok : Bool) : Prop where
  names : (collectPlaceholders e').2 = params
  body : isCore (collectPlaceholders e').1 = ok
  core : isCore e' = (ok && params.isEmpty)

abbrev LoweredAs (e e' : Expr) : Prop := LoweredTo e' (pending e) (lowerable e)

def LowerSpec (e : Expr) : Prop :=
  match lowerExpr e with
  | some e' => LoweredAs e e'
  | none => lowerable e = false

theorem LowerSpec.of_some (h : lowerExpr e = some e') (hl : LoweredAs e e') : LowerSpec e := by
  rw [LowerSpec, h]
  exact hl

theorem LowerSpec.of_none (h : lowerExpr e = none) (hl : lowerable e = false) : LowerSpec e := by
  rw [LowerSpec, h]
  exact hl

theorem LowerSpec.some {e : Expr} (hs : LowerSpec e) (h : lowerExpr e = some e') : LoweredAs e e' := by
  rw [LowerSpec, h] at hs
  exact hs

theorem LowerSpec.none (hs : LowerSpec e) (h : lowerExpr e = none) : lowerable e = false := by
  rw [LowerSpec, h] at hs
  exact hs

def lowered (e : Expr) : Expr := (lowerExpr e).getD default

theorem lowerExpr_children (ih : ∀ c ∈ k.children, LowerSpec c) :
    (∃ c ∈ k.children, lowerExpr c = none ∧ lowerable c = false) ∧ (k.mapChildren lowerExpr).sequence = none ∨
      (∀ c ∈ k.children, lowerExpr c = some (lowered c) ∧ LoweredAs c (lowered c)) ∧
        (k.mapChildren lowerExpr).sequence = some (k.mapChildren lowered) := by
  cases hseq : (k.mapChildren lowerExpr).sequence with
  | none =>
    obtain ⟨c, hc, rfl⟩ := sequence_eq_none hseq
    rw [children_mapChildren] at hc
    obtain ⟨c, hc, hnone⟩ := mem_map.mp hc
    exact .inl ⟨⟨c, hc, hnone, (ih c hc).none hnone⟩, rfl⟩
  | some k' =>
    obtain ⟨hall, rfl⟩ := sequence_eq_some hseq
    rw [children_mapChildren] at hall
    refine .inr ⟨fun c hc => ?_, by rw [mapChildren_mapChildren]; rfl⟩
    obtain ⟨e', he'⟩ := Option.isSome_iff_exists.mp (hall _ (mem_map_of_mem hc))
    have hlow : lowered c = e' := by rw [lowered, he', Option.getD_some]
    rw [hlow]
    exact ⟨he', (ih c hc).some he'⟩

theorem loweredAs_entered (hk : k.plain = true) (hentered : k.entered = true)
    (ih : ∀ c ∈ k.children, LoweredAs c (lowered c)) : LoweredAs ⟨k⟩ ⟨k.mapChildren lowered⟩ := by
  have hcollect := collectPlaceholders_mk (k := k.mapChildren lowered)
    (by rw [isPlaceholder_mapChildren, isPlaceholder_of_plain hk])
  rw [entered_mapChildren, if_pos hentered, mapChildren_mapChildren, children_mapChildren, flatMap_map] at hcollect
  have hpending : pending ⟨k⟩ = k.children.flatMap pending := by rw [pending_mk hk, if_pos hentered]
  have hlowerable : lowerable ⟨k⟩ = k.children.all lowerable := by rw [lowerable_mk hk, if_pos hentered]
  have hcoreKind := isCoreKind_of_plain hk
  constructor
  · rw [hcollect, hpending]
    exact flatMap_congr fun c hc => (ih c hc).names
  · rw [hcollect, hlowerable, isCore_mk, isCoreKind_mapChildren, hcoreKind, children_mapChildren, all_map, Bool.true_and]
    exact all_congr_mem fun c hc => (ih c hc).body
  · rw [hlowerable, hpending, isEmpty_flatMap, isCore_mk, isCoreKind_mapChildren,
      hcoreKind, children_mapChildren, all_map, Bool.true_and, ← all_and]
    exact all_congr_mem fun c hc => (ih c hc).core

theorem loweredAs_boundary (hk : k.plain = true) (hentered : k.entered = false)
    (ih : ∀ c ∈ k.children, LoweredAs c (lowered c)) : LoweredAs ⟨k⟩ ⟨k.mapChildren lowered⟩ := by
  have hcollect := collectPlaceholders_mk (k := k.mapChildren lowered)
    (by rw [isPlaceholder_mapChildren, isPlaceholder_of_plain hk])
  rw [entered_mapChildren, hentered, if_neg Bool.false_ne_true] at hcollect
  have hpending : pending ⟨k⟩ = [] := by rw [pending_mk hk, hentered, if_neg Bool.false_ne_true]
  have hlowerable : lowerable ⟨k⟩ = k.children.all lowerableBody := by
    rw [lowerable_mk hk, hentered, if_neg Bool.false_ne_true]
  have hcore : isCore ⟨k.mapChildren lowered⟩ = lowerable ⟨k⟩ := by
    rw [hlowerable, isCore_mk, isCoreKind_mapChildren, isCoreKind_of_plain hk, children_mapChildren, all_map, Bool.true_and]
    exact all_congr_mem fun c hc => (ih c hc).core
  constructor
  · rw [hcollect, hpending]
  · rw [hcollect, hcore]
  · rw [hcore, hpending, isEmpty_nil, Bool.and_true]

theorem lowerable_false (hk : k.plain = true) (hc : c ∈ k.children) (h : lowerable c = false) : lowerable ⟨k⟩ = false := by
  have hbody : lowerableBody c = false := by rw [lowerableBody, closedBy, h, Bool.false_and]
  rw [lowerable_mk hk]
  split
  · exact all_eq_false.mpr ⟨c, hc, by rw [h]; exact Bool.false_ne_true⟩
  · exact all_eq_false.mpr ⟨c, hc, by rw [hbody]; exact Bool.false_ne_true⟩

theorem lowerSpec_plain (hk : k.plain = true) (ih : ∀ c ∈ k.children, LowerSpec c) : LowerSpec ⟨k⟩ := by
  rcases lowerExpr_children ih with ⟨⟨c, hc, -, hfalse⟩, hseq⟩ | ⟨hall, hseq⟩
  · refine .of_none ?_ (lowerable_false hk hc hfalse)
    rw [lowerExpr_mk (isBlock_of_plain hk), hseq, bind_none]
  have hlower : lowerExpr ⟨k⟩ = some ⟨k.mapChildren lowered⟩ := by
    rw [lowerExpr_mk (isBlock_of_plain hk), hseq, bind_some, desugar_eq (by rw [plain_mapChildren, hk])]
  refine .of_some hlower ?_
  cases hentered : k.entered with
  | true => exact loweredAs_entered hk hentered fun c hc => (hall c hc).2
  | false => exact loweredAs_boundary hk hentered fun c hc => (hall c hc).2

/-! ### Calls -/

theorem collectPlaceholders_collected (e : Expr) :
    collectPlaceholders (collectPlaceholders e).1 = ((collectPlaceholders e).1, []) := by
  induction e using induction with
  | step k ih =>
    cases hp : k.isPlaceholder with
    | true => cases k <;> first | rfl | cases hp
    | false =>
      rw [collectPlaceholders_mk hp]
      cases hentered : k.entered with
      | false =>
        rw [if_neg Bool.false_ne_true, collectPlaceholders_mk hp, hentered, if_neg Bool.false_ne_true]
      | true =>
        rw [if_pos rfl, collectPlaceholders_mk (by rw [isPlaceholder_mapChildren, hp]),
          entered_mapChildren, hentered, if_pos rfl, mapChildren_mapChildren,
          children_mapChildren, flatMap_map]
        refine Prod.ext (congrArg mk (mapChildren_congr fun c hc => by rw [ih c hc])) ?_
        refine flatMap_eq_nil_iff.mpr fun c hc => ?_
        rw [ih c hc]

theorem mapM_letterIndex (letters : List Char) : (letters.mapM letterIndex).isSome = letters.all fun c => 'a'.toNat ≤ c.toNat := by
  induction letters with
  | nil => rfl
  | cons c letters ih =>
    rw [mapM_cons, all_cons, ← ih, letterIndex]
    split
    · rename_i hc
      rw [decide_eq_true hc]
      cases letters.mapM letterIndex <;> rfl
    · rename_i hc
      rw [decide_eq_false hc]
      rfl

theorem positionalParams_isSome (names : List String) : (positionalParams names).isSome = lettersFit names := by
  rw [positionalParams, lettersFit, ← mapM_letterIndex]
  cases (names.filterMap placeholderLetter).mapM letterIndex <;> rfl

theorem lowerPlaceholderArg_none (h : lettersFit (collectPlaceholders e).2 = false) : lowerPlaceholderArg e = none := by
  rw [← positionalParams_isSome, Option.isSome_eq_false_iff, Option.isNone_iff_eq_none] at h
  simp [lowerPlaceholderArg, h, bind, Option.bind]

theorem lowerPlaceholderArg_some (h : lettersFit (collectPlaceholders e).2 = true) :
    ∃ e', lowerPlaceholderArg e = some e' ∧ LoweredTo e' [] (isCore (collectPlaceholders e).1) := by
  rw [← positionalParams_isSome] at h
  obtain ⟨params, hparams⟩ := Option.isSome_iff_exists.mp h
  have hclean := collectPlaceholders_collected e
  simp only [lowerPlaceholderArg, hparams, bind, Option.bind]
  cases params with
  | none =>
    refine ⟨_, rfl, ?_, ?_, ?_⟩
    · rw [hclean]
    · rw [hclean]
    · rw [isEmpty_nil, Bool.and_true]
  | some params =>
    have hlambda := isCore_lambda params (collectPlaceholders e).1
    exact ⟨_, rfl, rfl, hlambda, by rw [hlambda, isEmpty_nil, Bool.and_true]⟩

theorem lowerable_call (callee : Expr) (args : List Arg) : lowerable ⟨.call callee args⟩ =
    (lowerable callee && args.all fun arg => lowerable arg.value && lettersFit (pending arg.value)) := by
  rw [lowerable, fold_mk]
  simp only [mapChildren, lowerableKind, all_map]
  rfl

def bindArgs (args : List Arg) : Option (List Arg) :=
  args.mapM fun arg => (lowerPlaceholderArg arg.value).map fun value => (⟨arg.label, value⟩ : Arg)

theorem bindArgs_lowered (ih : ∀ arg ∈ args, LoweredAs arg.value (lowered arg.value)) :
    match bindArgs (args.map (ArgOf.map lowered)) with
    | some args' => (∀ arg' ∈ args', LoweredTo arg'.value [] (isCore arg'.value)) ∧
        (args'.all fun arg' => isCore arg'.value) = args.all fun arg => lowerable arg.value && lettersFit (pending arg.value)
    | none => (args.all fun arg => lowerable arg.value && lettersFit (pending arg.value)) = false := by
  induction args with
  | nil => exact ⟨forall_mem_nil _, rfl⟩
  | cons arg args ihargs =>
    have harg := ih arg mem_cons_self
    have hrest := ihargs fun a ha => ih a (mem_cons_of_mem _ ha)
    have hcons : bindArgs ((arg :: args).map (ArgOf.map lowered)) =
        (lowerPlaceholderArg (lowered arg.value)).bind fun value =>
          (bindArgs (args.map (ArgOf.map lowered))).map fun rest => ⟨arg.label, value⟩ :: rest := by
      rw [bindArgs, map_cons, mapM_cons, ← bindArgs]
      simp only [ArgOf.map]
      cases lowerPlaceholderArg (lowered arg.value) <;> cases bindArgs (args.map (ArgOf.map lowered)) <;> rfl
    rw [hcons, all_cons]
    cases hfit : lettersFit (pending arg.value) with
    | false =>
      rw [lowerPlaceholderArg_none (by rw [harg.names, hfit]), Bool.and_false, Bool.false_and]
      rfl
    | true =>
      obtain ⟨value, hvalue, hlow⟩ := lowerPlaceholderArg_some (e := lowered arg.value) (by rw [harg.names, hfit])
      have hcore : isCore value = lowerable arg.value := by
        rw [hlow.core, harg.body, isEmpty_nil, Bool.and_true]
      rw [harg.body, ← hcore] at hlow
      rw [hvalue, bind_some, ← hcore, Bool.and_true]
      cases hbind : bindArgs (args.map (ArgOf.map lowered)) with
      | none =>
        rw [hbind] at hrest
        rw [map_none, hrest, Bool.and_false]
      | some args' =>
        rw [hbind] at hrest
        exact ⟨forall_mem_cons.mpr ⟨hlow, hrest.1⟩, by rw [all_cons, hrest.2]⟩

theorem desugar_call (callee : Expr) (args : List Arg) : desugar (.call callee args) =
    (bindArgs args).map fun args' => ⟨.call callee args'⟩ := by
  rw [desugar, ← bindArgs]
  cases bindArgs args <;> rfl

theorem loweredAs_call {args' : List Arg} (hcallee : LoweredAs callee (lowered callee))
    (hargs : ∀ arg' ∈ args', LoweredTo arg'.value [] (isCore arg'.value)) (hcore : (args'.all fun arg' => isCore arg'.value) =
      args.all fun arg => lowerable arg.value && lettersFit (pending arg.value)) :
    LoweredAs ⟨.call callee args⟩ ⟨.call (lowered callee) args'⟩ := by
  have hpending : pending ⟨.call callee args⟩ = pending callee := by rw [pending, fold_mk]; rfl
  have hbodies : (args'.all fun arg' => isCore (collectPlaceholders arg'.value).1) =
      args'.all fun arg' => isCore arg'.value := all_congr_mem fun arg' h => (hargs arg' h).body
  have hnone : (args'.flatMap fun arg' => (collectPlaceholders arg'.value).2) = [] :=
    flatMap_eq_nil_iff.mpr fun arg' h => (hargs arg' h).names
  have hcollect : collectPlaceholders ⟨.call (lowered callee) args'⟩ = _ := collectPlaceholders_mk rfl
  rw [ExprKind.entered, if_pos rfl, mapChildren, children] at hcollect
  rw [LoweredAs, hpending, lowerable_call, ← hcore]
  constructor
  · rw [hcollect, flatMap_cons, flatMap_map, hnone, append_nil, hcallee.names]
  · rw [hcollect, isCore_call, all_map, hcallee.body, ← hbodies]
    rfl
  · rw [isCore_call, hcallee.core, Bool.and_right_comm]

theorem lowerSpec_call (ih : ∀ c ∈ (call callee args).children, LowerSpec c) : LowerSpec ⟨.call callee args⟩ := by
  have hlower : lowerExpr ⟨.call callee args⟩ = _ := lowerExpr_mk rfl
  rcases lowerExpr_children ih with ⟨⟨c, hc, -, hfalse⟩, hseq⟩ | ⟨hall, hseq⟩
  · refine .of_none (by rw [hlower, hseq, bind_none]) ?_
    rw [lowerable_call]
    rcases mem_cons.mp hc with rfl | hc
    · rw [hfalse, Bool.false_and]
    obtain ⟨arg, harg, rfl⟩ := mem_map.mp hc
    rw [all_eq_false.mpr ⟨arg, harg, by rw [hfalse, Bool.false_and]; exact Bool.false_ne_true⟩, Bool.and_false]
  have hargs : ∀ arg ∈ args, LoweredAs arg.value (lowered arg.value) := fun arg harg =>
    (hall arg.value (mem_cons_of_mem _ (mem_map_of_mem harg))).2
  have hbind := bindArgs_lowered hargs
  rw [hseq, bind_some, mapChildren, desugar_call] at hlower
  cases hcases : bindArgs (args.map (ArgOf.map lowered)) with
  | none =>
    rw [hcases] at hbind
    refine .of_none (by rw [hlower, hcases, map_none]) ?_
    rw [lowerable_call, hbind, Bool.and_false]
  | some args' =>
    rw [hcases] at hbind
    refine .of_some (by rw [hlower, hcases, map_some]) ?_
    exact loweredAs_call (hall callee mem_cons_self).2 hbind.1 hbind.2

/-! ### Conditions and blocks -/

theorem loweredTo_if {cond then_ els : Expr} {p₁ p₂ p₃ : List String} (h₁ : LoweredTo cond p₁ b₁)
    (h₂ : LoweredTo then_ p₂ b₂) (h₃ : LoweredTo els p₃ b₃) :
    LoweredTo ⟨.if_ cond then_ els⟩ (p₁ ++ (p₂ ++ p₃)) (b₁ && (b₂ && b₃)) := by
  have hcollect : collectPlaceholders ⟨.if_ cond then_ els⟩ = _ := collectPlaceholders_mk rfl
  rw [ExprKind.entered, if_pos rfl, mapChildren, children] at hcollect
  constructor
  · rw [hcollect, flatMap_cons, flatMap_cons, flatMap_singleton, h₁.names, h₂.names, h₃.names]
  · rw [hcollect, isCore_if, h₁.body, h₂.body, h₃.body]
  rw [isCore_if, h₁.core, h₂.core, h₃.core]
  cases b₁ <;> cases b₂ <;> cases b₃ <;> cases p₁ <;> cases p₂ <;> cases p₃ <;> rfl

theorem lowerSpec_subjectlessMatch {default : Expr} (ih : ∀ c ∈ (subjectlessMatch arms default).children, LowerSpec c) :
    LowerSpec ⟨.subjectlessMatch arms default⟩ := by
  have hlower : lowerExpr ⟨.subjectlessMatch arms default⟩ = _ := lowerExpr_mk rfl
  have hlowerable : lowerable ⟨.subjectlessMatch arms default⟩ =
      ((arms.all fun arm => lowerable arm.1 && lowerable arm.2) && lowerable default) := by
    rw [lowerable, fold_mk]
    simp only [mapChildren, lowerableKind, all_map]
    rfl
  have hpending : pending ⟨.subjectlessMatch arms default⟩ =
      (arms.flatMap fun arm => pending arm.1 ++ pending arm.2) ++ pending default := by
    rw [pending, fold_mk]
    simp only [mapChildren, pendingKind, flatMap_map]
    rfl
  rcases lowerExpr_children ih with ⟨⟨c, hc, -, hfalse⟩, hseq⟩ | ⟨hall, hseq⟩
  · refine .of_none (by rw [hlower, hseq, bind_none]) ?_
    rw [hlowerable]
    rcases mem_append.mp hc with hc | hc
    · obtain ⟨arm, harm, hc⟩ := mem_flatMap.mp hc
      have hboth : (lowerable arm.1 && lowerable arm.2) = false := by
        rcases mem_pair.mp hc with rfl | rfl
        · rw [hfalse, Bool.false_and]
        · rw [hfalse, Bool.and_false]
      rw [all_eq_false.mpr ⟨arm, harm, by rw [hboth]; exact Bool.false_ne_true⟩, Bool.false_and]
    · rw [← mem_singleton.mp hc, hfalse, Bool.and_false]
  · rw [hseq, bind_some, mapChildren, desugar] at hlower
    refine .of_some hlower ?_
    rw [LoweredAs, hlowerable, hpending]
    simp only [children, forall_mem_append, forall_mem_flatMap, forall_mem_cons] at hall
    obtain ⟨harms, hdefault, -⟩ := hall
    clear hlower hseq ih hlowerable hpending
    induction arms with
    | nil => exact hdefault.2
    | cons arm arms ih =>
      obtain ⟨⟨h₁, h₂, -⟩, hrest⟩ := forall_mem_cons.mp harms
      rw [map_cons, foldr_cons, flatMap_cons, all_cons, append_assoc, append_assoc, Bool.and_assoc, Bool.and_assoc]
      exact loweredTo_if h₁.2 h₂.2 (ih hrest)

theorem LowerSpec.core (hs : LowerSpec e) : ((lowerExpr e).any isCore) = lowerableBody e := by
  cases h : lowerExpr e with
  | none => rw [lowerableBody, closedBy, hs.none h, Bool.false_and, any_none]
  | some e' => rw [any_some, (hs.some h).core]; rfl

theorem isCore_useCall (call callback : Expr) : isCore (useCall call callback) = (isCore call && isCore callback) := by
  obtain ⟨k⟩ := call
  cases k <;> simp [useCall, isCore_call, Bool.and_assoc]

theorem lowerBlock_spec (ih : ∀ c ∈ (block stmts result).children, LowerSpec c) :
    ((lowerBlock (stmts.map (StmtOf.map fun e => (e, lowerExpr e))) (result.map fun e => (e, lowerExpr e))).any
      fun lowered => isCore ⟨.block lowered.1 lowered.2⟩) =
      ((stmts.all fun s => lowerableStmt (s.map fun e => (e, lowerable e))) && result.all lowerableBody) := by
  simp only [children, forall_mem_append] at ih
  obtain ⟨hstmts, hresult⟩ := ih
  induction stmts with
  | nil =>
    cases result with
    | none => rw [map_nil, map_none, lowerBlock, any_some, isCore_block]; rfl
    | some e =>
      have he := (hresult e (by simp)).core
      rw [map_nil, map_some, lowerBlock, Option.all_some, ← he]
      cases lowerExpr e with
      | none => rfl
      | some e' => simp [isCore_block]
  | cons stmt stmts ihs =>
    rw [flatMap_cons, forall_mem_append] at hstmts
    have hrest := ihs hstmts.2
    rw [map_cons, all_cons, Bool.and_assoc, ← hrest]
    cases stmt with
    | let_ name mutable value | assign target value =>
      have hvalue : closedBy (value, lowerable value) = _ := (hstmts.1 value (by simp [StmtOf.children])).core.symm
      simp only [StmtOf.map, lowerableStmt, lowerBlock, hvalue]
      generalize lowerBlock (stmts.map _) _ = rest
      cases lowerExpr value <;> cases rest <;> simp [isCore_block, coreStmt, Bool.and_assoc]
    | use binding call =>
      have hcall : closedBy (call, lowerable call) = _ := (hstmts.1 call (by simp [StmtOf.children])).core.symm
      simp only [StmtOf.map, lowerableStmt, lowerBlock, hcall]
      generalize lowerBlock (stmts.map _) _ = rest
      cases lowerExpr call <;> cases rest <;> simp [isCore_block, isCore_useCall, isCore_lambda]
    | expr e =>
      have he : closedBy (e, lowerable e) = _ := (hstmts.1 e (by simp [StmtOf.children])).core.symm
      simp only [StmtOf.map, lowerableStmt, lowerBlock, he]
      generalize lowerBlock (stmts.map _) _ = rest
      cases lowerExpr e <;> cases rest <;> simp [isCore_block, coreStmt, Bool.and_assoc]

theorem lowerSpec_block (ih : ∀ c ∈ (block stmts result).children, LowerSpec c) : LowerSpec ⟨.block stmts result⟩ := by
  have hlower : lowerExpr ⟨.block stmts result⟩ = (lowerBlock (stmts.map (StmtOf.map fun e => (e, lowerExpr e)))
      (result.map fun e => (e, lowerExpr e))).map fun lowered => ⟨.block lowered.1 lowered.2⟩ := by
    rw [lowerExpr, fold_mk]
    rfl
  have hlowerable : lowerable ⟨.block stmts result⟩ = ((stmts.all fun s =>
      lowerableStmt (s.map fun e => (e, lowerable e))) && result.all lowerableBody) := by
    rw [lowerable, fold_mk]
    simp only [mapChildren, lowerableKind, all_map, Option.all_map]
    rfl
  have hpending : pending ⟨.block stmts result⟩ = [] := by rw [pending, fold_mk]; rfl
  have hspec := lowerBlock_spec ih
  rw [← hlowerable] at hspec
  cases hblock : lowerBlock (stmts.map (StmtOf.map fun e => (e, lowerExpr e))) (result.map fun e => (e, lowerExpr e)) with
  | none =>
    rw [hblock, any_none] at hspec
    exact .of_none (by rw [hlower, hblock, map_none]) hspec.symm
  | some lowered =>
    rw [hblock, any_some] at hspec
    refine .of_some (by rw [hlower, hblock, map_some]) ?_
    have hcollect : collectPlaceholders ⟨.block lowered.1 lowered.2⟩ = (⟨.block lowered.1 lowered.2⟩, []) :=
      collectPlaceholders_mk rfl
    rw [LoweredAs, hpending, ← hspec]
    exact ⟨by rw [hcollect], by rw [hcollect], by rw [isEmpty_nil, Bool.and_true]⟩

theorem lowerSpec (e : Expr) : LowerSpec e := by
  induction e using induction with
  | step k ih =>
    cases k with
    | placeholder name =>
      have hlower : lowerExpr ⟨.placeholder name⟩ = some ⟨.placeholder name⟩ := rfl
      exact .of_some hlower ⟨rfl, rfl, rfl⟩
    | call callee args => exact lowerSpec_call ih
    | subjectlessMatch arms default => exact lowerSpec_subjectlessMatch ih
    | operatorRef op =>
      have hlower : lowerExpr ⟨.operatorRef op⟩ = some (operatorLambda op) := rfl
      exact .of_some hlower ⟨rfl, rfl, rfl⟩
    | block stmts result => exact lowerSpec_block ih
    | _ => exact lowerSpec_plain rfl ih

/-! ### Into the core -/

theorem mapM_toCoreStmt (stmts : List (StmtOf CoreExpr)) : (stmts.mapM toCoreStmt).isSome = stmts.all StmtOf.isCoreStmt := by
  induction stmts with
  | nil => rfl
  | cons stmt stmts ih =>
    rw [mapM_cons, all_cons, ← ih]
    cases stmt <;> cases stmts.mapM toCoreStmt <;> rfl

theorem toCoreKind_isSome (k : ExprKind CoreExpr) : (toCoreKind k).isSome = k.isCoreKind := by
  cases k with
  | block stmts result => rw [toCoreKind, isSome_map, mapM_toCoreStmt]; rfl
  | _ => rfl

theorem toCore_mk (k : ExprKind Expr) : toCore ⟨k⟩ = ((k.mapChildren toCore).sequence.bind toCoreKind).map CoreExpr.mk := by
  rw [toCore, fold_mk, mapChildren_mapChildren, ← toCore]
  cases (k.mapChildren toCore).sequence with
  | none => rfl
  | some k' =>
    cases h : toCoreKind k' <;> simp [h]

theorem toCore_isSome (e : Expr) : (toCore e).isSome = isCore e := by
  induction e using induction with
  | step k ih =>
    have hall : (k.mapChildren toCore).children.all isSome = k.children.all isCore := by
      rw [children_mapChildren, all_map]
      exact all_congr_mem ih
    rw [toCore_mk, isCore_mk, isSome_map, ExprKind.sequence, hall]
    cases k.children.all isCore with
    | false => rw [if_neg Bool.false_ne_true, Bool.and_false]; rfl
    | true =>
      rw [if_pos rfl, bind_some, toCoreKind_isSome, isCoreKind_mapChildren, isCoreKind_mapChildren, Bool.and_true]

theorem lowerExprToCore_isSome (e : Expr) : (lowerExprToCore e).isSome = lowerableBody e := by
  rw [← (lowerSpec e).core, lowerExprToCore]
  cases lowerExpr e with
  | none => rfl
  | some e' => exact toCore_isSome e'

/-! ### Programs -/

def lowerableMethod (m : Method) : Bool := m.body.all lowerableBody

def lowerableItem : Item → Bool
  | .func _ _ _ _ body _ => lowerableBody body
  | .test _ _ body => lowerableBody body
  | .contract _ _ methods => methods.all lowerableMethod
  | .on _ _ methods => methods.all lowerableMethod
  | .const _ _ value _ => lowerableBody value
  | .prod _ _ _ _ | .sum _ _ _ _ | .use _ _ => true

theorem mapM_isSome {f : α → Option β} (h : ∀ a, (f a).isSome = p a) (l : List α) : (l.mapM f).isSome = l.all p := by
  induction l with
  | nil => rfl
  | cons a l ih =>
    rw [mapM_cons, all_cons, ← ih, ← h]
    cases f a <;> cases l.mapM f <;> rfl

theorem toCoreMethod_isSome (m : Method) : (toCoreMethod m).isSome = lowerableMethod m := by
  obtain ⟨name, modifier, params, ret, uses, body⟩ := m
  cases body with
  | none => rfl
  | some body => rw [toCoreMethod, isSome_map, lowerExprToCore_isSome]; rfl

theorem lowerItemToCore_isSome (item : Item) : (lowerItemToCore item).isSome = lowerableItem item := by
  cases item with
  | func name params ret uses body isPublic | test name uses body | const name mutable value isPublic =>
    rw [lowerItemToCore, isSome_map, lowerExprToCore_isSome, lowerableItem]
  | contract name generics methods | on target contract methods =>
    rw [lowerItemToCore, isSome_map, mapM_isSome toCoreMethod_isSome, lowerableItem]
  | _ => rfl

/-- Does lowering a source panic? `none` if the source is not a program. -/
def loweringPanics (src : String) : Option Bool :=
  match parseProgram src with
  | .ok items => some (lowerItemsToCore items).isNone
  | .error _ => none

/-- A program that is accepted is lowered without a panic exactly when every placeholder in it stands in a call's
argument that binds it, under a lower-case letter, and no target of an assignment has a surface-only form. -/
theorem lowering_total_iff (src : String) (items : List Item) (h : parseProgram src = .ok items) :
    loweringPanics src = some false ↔ ∀ item ∈ items, lowerableItem item = true := by
  rw [loweringPanics, h, Option.some_inj, lowerItemsToCore, ← Option.not_isSome, mapM_isSome lowerItemToCore_isSome,
    Bool.not_eq_false', all_eq_true]

theorem exists_ok {ε : Type} {x : Except ε α} (h : x.isOk = true) : ∃ a, x = .ok a := by
  cases x with
  | error e => cases h
  | ok a => exact ⟨a, rfl⟩

theorem lowering_total_iff_argument : ∃ items, parseProgram "main() = f($ + $b, x -> g($))" = .ok items ∧
    ∀ item ∈ items, lowerableItem item = true := by
  obtain ⟨items, h⟩ : ∃ items, parseProgram "main() = f($ + $b, x -> g($))" = .ok items :=
    exists_ok (by decide +kernel)
  exact ⟨items, h, (lowering_total_iff _ items h).mp (by decide +kernel)⟩

/-- A bare placeholder reaches `to_core`. -/
theorem lowering_panics : loweringPanics "main() = $" = some true := by
  decide +kernel

end SnitchOs.Stitch
