import SnitchOs.Stitch.Signals

/-!
# The trampoline

`Mode.direct` applies a function that calls itself in tail position like any other. The evaluator instead signals the
arguments and starts the next round. It yields what the direct evaluator yields, up to the frames, or runs into the
limit on them, as long as no call has a named or spread argument where none is allowed: in tail position such a call
evaluates the arguments in front of it twice.
-/

namespace SnitchOs.Stitch

open Calls Eval List EvalCall.Lazy World
open Mode (source)

/-! ### Worlds up to the frames -/

section Alike

variable {π : Platform} {setting : Setting} {o : WorldOp}

def Program.unframed (program : Program) : Program := { program with frames := maxCallDepth }

def World.unframed (w : World π) : World π := { w with programs := w.programs.map Program.unframed }

/-- The same but for the frames. -/
def World.Alike (w w' : World π) : Prop := w.unframed = w'.unframed

theorem World.program_unframed (w : World π) (p : Nat) : w.unframed.program p = (w.program p).unframed := by
  unfold program unframed
  rw [getD_eq_getElem?_getD, getD_eq_getElem?_getD, getElem?_map]
  cases w.programs[p]? <;> rfl

theorem World.setProgram_unframed (w : World π) (p : Nat) (program : Program) :
    (w.setProgram p program).unframed = w.unframed.setProgram p program.unframed := by
  unfold setProgram unframed
  rw [map_set]

theorem World.setProgram_alike (w : World π) {program : Program}
    (h : program.unframed = (w.program p).unframed) : World.Alike w (w.setProgram p program) := by
  unfold World.Alike
  rw [World.setProgram_unframed, h, ← World.program_unframed]
  unfold World.setProgram World.program
  have hset : w.unframed.programs.set p (w.unframed.programs.getD p ⟨[], [], 0, maxCallDepth⟩) = w.unframed.programs := by
    apply ext_getElem?
    intro i
    rw [getElem?_set]
    split
    · rename_i hi
      subst hi
      split
      · rename_i hlt
        rw [getD_eq_getElem?_getD, getElem?_eq_getElem hlt]
        rfl
      · rename_i hlt
        rw [getElem?_eq_none (Nat.le_of_not_gt hlt)]
    · rfl
  rw [hset]

theorem World.unframed_unframed (w : World π) : w.unframed.unframed = w.unframed := by
  unfold unframed
  rw [map_map]
  rfl

variable {w : World π}

theorem World.handle_unframed_of_eq
    (h : handle setting o w.unframed = ((handle setting o w).1, (handle setting o w).2.unframed)) :
    (handle setting o w.unframed).1 = (handle setting o w).1 ∧
      (handle setting o w.unframed).2.unframed = (handle setting o w).2.unframed := by
  rw [h]
  exact ⟨rfl, unframed_unframed _⟩

theorem World.handle_unframed (setting : Setting) (h : o.Quiet) (w : World π) :
    (handle setting o w.unframed).1 = (handle setting o w).1 ∧
      (handle setting o w.unframed).2.unframed = (handle setting o w).2.unframed := by
  cases o with
  | enterCall _ _ | leaveCall _ => exact h.elim
  | takeFuel p =>
    have hprogram := w.program_unframed p
    by_cases hfuel : (w.program p).fuel = 0
    · rw [takeFuel_empty setting w p hfuel, takeFuel_empty setting w.unframed p (by rw [hprogram]; exact hfuel)]
      exact ⟨rfl, w.unframed_unframed⟩
    rw [takeFuel_some setting w p hfuel, takeFuel_some setting w.unframed p (by rw [hprogram]; exact hfuel)]
    refine ⟨rfl, ?_⟩
    rw [setProgram_unframed, setProgram_unframed, w.unframed_unframed, hprogram]
    rfl
  | hasMethods p typeName =>
    refine ⟨?_, w.unframed_unframed⟩
    change ((w.unframed.program p).methods.lookup typeName).isSome = _
    rw [w.program_unframed p]
    rfl
  | lookupMethod p typeName name =>
    refine ⟨?_, w.unframed_unframed⟩
    change ((w.unframed.program p).methods.lookup typeName).bind _ = _
    rw [w.program_unframed p]
    rfl
  | fieldMutability p variant field =>
    refine ⟨?_, w.unframed_unframed⟩
    change ((w.unframed.program p).fieldMut.lookup variant).bind _ = _
    rw [w.program_unframed p]
    rfl
  | build items =>
    cases hbuild : buildEnv ambient w.nextId w.globals.length w.modules.length items with
    | none =>
      rw [build_refused setting w hbuild, build_refused setting w.unframed hbuild]
      exact ⟨rfl, w.unframed_unframed⟩
    | some loaded =>
      rw [build_added setting w hbuild, build_added setting w.unframed hbuild]
      refine ⟨?_, ?_⟩
      · simp only [add, unframed, length_map]
        rfl
      · simp [add, unframed, Function.comp_def, Program.unframed]
  | _ => exact handle_unframed_of_eq rfl

theorem World.Alike.handle (h : o.Quiet) {w' : World π} (halike : World.Alike w w') :
    (handle setting o w).1 = (handle setting o w').1 ∧ World.Alike (handle setting o w).2 (handle setting o w').2 := by
  obtain ⟨hres, hworld⟩ := handle_unframed setting h w
  obtain ⟨hres', hworld'⟩ := handle_unframed setting h w'
  unfold World.Alike at halike ⊢
  rw [← hres, ← hres', ← hworld, ← hworld', halike]
  exact ⟨rfl, rfl⟩

end Alike

/-! ### Procedures that pass exceptions on -/

/-- Not in tail position. -/
def EvalCall.NonTail : EvalCall → Prop
  | .evalTail _ _ | .body _ _ => False
  | _ => True

abbrev Passes {α : Type} (A : α → Prop) (p : Eval α) : Prop :=
  Prog.Straight WorldOp.Quiet EvalCall.NonTail (fun _ => True) A p

section Passes

variable {ctx : Ctx} {α : Type} {A : α → Prop} {p : Eval α}

theorem Stays.passes (h : Stays false ctx A p) : Passes A p := by
  refine h.mono (fun _ => WorldOp.Plain.quiet) (fun c hc => ?_) (fun _ _ => trivial) fun _ => id
  cases c with
  | evalTail e env => exact nomatch hc.1
  | body c env => exact hc
  | _ => trivial

theorem Serves.passes {Q : EvalCall → Prop} (hQ : ∀ c, Q c → c.NonTail) (h : Serves Q ctx p) : Passes Any p :=
  h.mono (fun _ => WorldOp.Plain.quiet) hQ (fun _ _ => trivial) fun _ => id

theorem EvalCall.Native.nonTail (c : EvalCall) (h : c.Native ctx arity) : c.NonTail := by
  cases c <;> trivial

theorem EvalCall.Lazy.nonTail (c : EvalCall) (h : c.Lazy) : c.NonTail := by
  cases c <;> trivial

theorem passes_call (h : c.NonTail) : @Passes c.Res Any (Prog.call c Prog.done) :=
  .invoke h fun _ => trivial

end Passes

/-- Those that neither are a tail position nor take a signal. -/
def EvalCall.Passing : EvalCall → Prop
  | .evalTail _ _ | .body _ _ | .method _ _ | .loop _ _ _ | .stage _ _ _ => False
  | _ => True

theorem bodies_passes (host : Host) (mode : Mode) (h : c.Passing) : Passes Any (bodies host mode c) := by
  cases c with
  | main ctx => exact (stays_callMain ctx).passes
  | eval e env =>
    refine .bind (A := Any) (.perform trivial fun _ => trivial) fun fuelled _ => ?_
    cases fuelled with
    | false => exact .throw trivial
    | true => exact (stays_evalKind env e.kind).passes
  | apply callee args ctx =>
    change Passes _ (applyValues host callee args ctx)
    unfold applyValues
    split
    · split
      · exact .throw trivial
      · exact passes_call trivial
    · split
      · exact .throw trivial
      · exact (serves_native ctx args _).passes EvalCall.Native.nonTail
    · exact ⟨fun _ _ => trivial, fun _ _ => trivial⟩
    · exact .throw trivial
  | assign place value env => exact (stays_assignBody place value env).passes
  | force a =>
    refine .bind (A := Any) (.perform trivial fun _ => trivial) fun state _ => ?_
    cases state with
    | forced step => exact .pure trivial
    | unforced thunk =>
      refine .bind ((serves_runThunk ⟨0, 0, [], []⟩ thunk).passes nonTail) fun step _ => ?_
      exact .bind (A := Any) (.perform trivial fun _ => trivial) fun _ _ => .pure trivial
  | toList current items => exact (serves_toListBody ⟨0, 0, [], []⟩ current items).passes nonTail
  | foldSeq current acc f ctx => exact (serves_foldSeqBody ctx current acc f ctx).passes nonTail
  | foldWhileSeq current acc f ctx => exact (serves_foldWhileSeqBody ctx current acc f ctx).passes nonTail
  | dropSeq n current => exact (serves_dropSeqBody ⟨0, 0, [], []⟩ n current).passes nonTail
  | dropWhileSeq current pred ctx => exact (serves_dropWhileSeqBody ctx current pred ctx).passes nonTail
  | filterSeq current pred ctx => exact (serves_filterSeqBody ctx current pred ctx).passes nonTail
  | _ => exact h.elim

/-! ### The relation -/

/-- A call with an argument that is named or spread where that is not allowed. -/
def Signal.Misuse : Signal → Prop
  | .fault .namedArgument | .fault .spreadArgument => True
  | _ => False

section Simulation

variable {π : Platform} {setting : Setting} {α β : Type}

/-- The evaluator runs into the limit, or ends as the direct one does. -/
abbrev Agrees (q q' : Except Signal α × World π) : Prop := Matches World.Alike (· = Signal.fault .tooDeep) q q'

/-- No such call has ended the run. -/
def Clean (r : Except Signal α) : Prop := ∀ e, r = .error e → ¬ e.Misuse

theorem Clean.of_resume {α β : Type} {r : Except Signal α} {g : α → World π → Option (Except Signal β × World π)}
    {q : Except Signal β × World π} (h : Clean q.1) (hrest : resume g (r, w) = some q) : Clean r := by
  rintro e rfl
  obtain rfl := Option.some.inj hrest
  exact h e rfl

/-- In tail position, the evaluator may also have left the rest to the next round, in which the direct one ends. -/
def TailAgrees (direct : Meaning evalInterface Signal (World π)) (env : Env) (q q' : Except Signal Value × World π) :
    Prop :=
  Agrees q q' ∨ ∃ c args w, q'.1 = .error (.tailCall args) ∧ env.self = some c ∧
    direct (.loop c args env.ctx) w = some q ∧ World.Alike w q'.2

/-- The evaluator follows the calls of the direct one. -/
structure Simulated (setting : Setting) (direct : Meaning evalInterface Signal (World π)) : Prop where
  plain : ∀ c w w' q, EvalCall.NonTail c → World.Alike w w' → direct c w = some q → Clean q.1 →
    ∃ q', evalLimit setting source c w' = some q' ∧ Agrees q q'
  tail : ∀ e env w w' q, World.Alike w w' → direct (.evalTail e env) w = some q → Clean q.1 →
    ∃ q', evalLimit setting source (.evalTail e env) w' = some q' ∧ TailAgrees direct env q q'
  body : ∀ c env w w' q, World.Alike w w' → direct (.body c env) w = some q → Clean q.1 →
    ∃ q', evalLimit setting source (.body c env) w' = some q' ∧ TailAgrees direct env q q'
  /-- A function is applied by its first round. -/
  applied : ∀ c args ctx w q, direct (.apply (.closure c) args ctx) w = some q →
    if args.length ≠ c.params.length then q = (.error (.fault (arityFault c args)), w)
    else direct (.loop c args ctx) w = some q

variable {direct : Meaning evalInterface Signal (World π)} {w w' : World π} {A : α → Prop}
  {p : Eval α} {env env₀ : Env} {host : Host} {c : ClosureData} {q : Except Signal Value × World π}
  {ctx : Ctx} {w₁ w₂ : World π}

theorem Simulated.passes (hsim : Simulated setting direct) (hp : Passes A p) (hw : World.Alike w w')
    {q : Except Signal α × World π} (hr : run (handle setting) direct p w = some q) (hclean : Clean q.1) :
    ∃ q', run (handle setting) (evalLimit setting source) p w' = some q' ∧ Agrees q q' :=
  hp.simulates (Y := Signal.Misuse) (fun _ _ _ ho hw => hw.handle ho) hsim.plain hw hr hclean

/-- The second program follows the first, up to the next round. -/
def SimTail (setting : Setting) (direct : Meaning evalInterface Signal (World π)) (env : Env) (p p' : Eval Value) :
    Prop :=
  ∀ w w' q, World.Alike w w' → run (handle setting) direct p w = some q → Clean q.1 →
    ∃ q', run (handle setting) (evalLimit setting source) p' w' = some q' ∧ TailAgrees direct env q q'

variable (hsim : Simulated setting direct)
include hsim

theorem Simulated.simTail {A : Value → Prop} {p : Eval Value} (hp : Passes A p) : SimTail setting direct env p p := by
  intro w w' q hw hr hclean
  obtain ⟨q', hr', hagrees⟩ := hsim.passes hp hw hr hclean
  exact ⟨q', hr', .inl hagrees⟩

theorem Simulated.simTail_bind (hp : Passes A p)
    (hf : ∀ a, A a → SimTail setting direct env (f a) (f' a)) : SimTail setting direct env (p >>= f) (p >>= f') := by
  intro w w' q hw hr hclean
  rw [run_bind] at hr ⊢
  obtain ⟨⟨r, w₁⟩, hfirst, hrest⟩ := Option.bind_eq_some_iff.1 hr
  obtain ⟨⟨r', w₁'⟩, hfirst', hagrees⟩ := hsim.passes hp hw hfirst (hclean.of_resume hrest)
  rw [hfirst']
  obtain ⟨e, he, htoo⟩ | ⟨hsame, hw₁⟩ := hagrees
  · obtain rfl : r' = .error e := he
    exact ⟨(.error e, w₁'), rfl, .inl (.inl ⟨e, rfl, htoo⟩)⟩
  obtain rfl : r' = r := hsame
  cases r' with
  | ok a => exact hf a (hp.run_ok _ hfirst) w₁ w₁' q hw₁ hrest hclean
  | error e =>
    obtain rfl := Option.some.inj hrest
    exact ⟨(.error e, w₁'), rfl, .inl (.inr ⟨rfl, hw₁⟩)⟩

theorem Simulated.simTail_evalTail (hctx : env'.ctx = env.ctx) (hself : env'.self = env.self) (e : CoreExpr) :
    SimTail setting direct env (evalTail e env') (evalTail e env') := by
  intro w w' q hw hr hclean
  obtain ⟨q', hr', htail⟩ := hsim.tail e env' w w' q hw (run_invoke _ hr) hclean
  refine ⟨q', ?_, ?_⟩
  · exact Option.bind_eq_some_iff.2 ⟨q', hr', rfl⟩
  unfold TailAgrees at htail ⊢
  rw [← hctx, ← hself]
  exact htail

omit hsim

/-! ### Tail positions -/

theorem passes_bind (h : env.ctx = env₀.ctx ∧ env.self = env₀.self) (name : String) (value : Value) (mutable : Bool) :
    Passes (fun env' : Env => env'.ctx = env₀.ctx ∧ env'.self = env₀.self) (env.bind name value mutable) :=
  .bind (A := Any) (.perform trivial fun _ => trivial) fun _ _ => .pure h

theorem passes_extendAll (h : env.ctx = env₀.ctx ∧ env.self = env₀.self) (bindings : List (String × Value)) :
    Passes (fun env' : Env => env'.ctx = env₀.ctx ∧ env'.self = env₀.self) (env.extendAll bindings) := by
  induction bindings generalizing env with
  | nil => exact .pure h
  | cons binding bindings ih => exact .bind (passes_bind h _ _ _) fun env' h' => ih h'

theorem passes_eval (e : CoreExpr) (env : Env) : Passes Any (eval e env) := passes_call (c := .eval e env) trivial

theorem passes_lift (r : Except Failure α) : Passes Any (lift r) := ⟨fun _ _ => trivial, fun _ _ => trivial⟩

variable (hsim : Simulated setting direct)
include hsim

theorem Simulated.simTail_evalBlock (h : env.ctx = env₀.ctx ∧ env.self = env₀.self)
    (result : Option CoreExpr) (stmts : List CoreStmt) :
    SimTail setting direct env₀ (evalBlock true result stmts env) (evalBlock true result stmts env) := by
  induction stmts generalizing env with
  | nil =>
    cases result with
    | none => exact hsim.simTail (A := Any) (.pure trivial)
    | some e => exact hsim.simTail_evalTail h.1 h.2 e
  | cons stmt stmts ih =>
    cases stmt with
    | let_ name mutable value =>
      exact hsim.simTail_bind (passes_eval _ _) fun _ _ => hsim.simTail_bind (passes_bind h _ _ _) fun _ h' => ih h'
    | expr e => exact hsim.simTail_bind (passes_eval _ _) fun _ _ => ih h
    | assign target value =>
      refine hsim.simTail_bind (passes_eval _ _) fun v _ => ?_
      exact hsim.simTail_bind (passes_call (c := .assign target v env) trivial) fun _ _ => ih h

theorem Simulated.simTail_evalMatch (subject : Value) (arms : List CoreMatchArm) :
    SimTail setting direct env (evalMatch host true subject env arms) (evalMatch host true subject env arms) := by
  induction arms with
  | nil => exact hsim.simTail (A := Any) (.throw trivial)
  | cons arm arms ih =>
    unfold evalMatch
    split
    · exact ih
    refine hsim.simTail_bind (passes_extendAll ⟨rfl, rfl⟩ _) fun bound hbound => ?_
    have hguard : Stays false bound.ctx Any (guardHolds arm.guard bound) := stays_guardHolds (.refl _) _
    refine hsim.simTail_bind hguard.passes fun holds _ => ?_
    split
    · exact hsim.simTail_evalTail hbound.1 hbound.2 _
    · exact ih

theorem Simulated.evalArgs_tailArgs (args : List CoreArg) (hw : World.Alike w w') {q : Except Signal (List Value) × World π}
    (hr : run (handle setting) direct (evalArgs env args) w = some q) (hclean : Clean q.1) :
    ∃ q', run (handle setting) (evalLimit setting source) (tailArgs env args) w' = some q' ∧
      (q'.1 = .error (.fault .tooDeep) ∨ (q'.1 = q.1.map some ∧ World.Alike q.2 q'.2)) := by
  induction args generalizing w w' q with
  | nil =>
    obtain rfl := Option.some.inj hr
    exact ⟨(.ok (some []), w'), rfl, .inr ⟨rfl, hw⟩⟩
  | cons arg args ih =>
    unfold evalArgs at hr
    unfold tailArgs
    split at hr
    · obtain rfl := Option.some.inj hr
      exact (hclean _ rfl trivial).elim
    split at hr
    · obtain rfl := Option.some.inj hr
      exact (hclean _ rfl trivial).elim
    rename_i hlabel hspread
    rw [if_neg (by simp only [Bool.or_eq_true]; exact fun h => h.elim hlabel hspread)]
    rw [run_bind] at hr ⊢
    obtain ⟨⟨r, w₁⟩, hfirst, hrest⟩ := Option.bind_eq_some_iff.1 hr
    obtain ⟨⟨r', w₁'⟩, hfirst', hagrees⟩ := hsim.passes (passes_eval _ _) hw hfirst (hclean.of_resume hrest)
    rw [hfirst']
    obtain ⟨e, he, rfl⟩ | ⟨hsame, hw₁⟩ := hagrees
    · obtain rfl : r' = _ := he
      exact ⟨_, rfl, .inl rfl⟩
    obtain rfl : r' = r := hsame
    cases r' with
    | error e =>
      obtain rfl := Option.some.inj hrest
      exact ⟨(.error e, w₁'), rfl, .inr ⟨rfl, hw₁⟩⟩
    | ok v =>
      change run _ _ (evalArgs env args >>= fun values => pure (v :: values)) w₁ = _ at hrest
      change ∃ q', run _ _ (tailArgs env args >>= fun values => pure (values.map (v :: ·))) w₁' = _ ∧ _
      rw [run_bind] at hrest ⊢
      obtain ⟨⟨rs, w₂⟩, hargs, hlast⟩ := Option.bind_eq_some_iff.1 hrest
      obtain ⟨⟨rs', w₂'⟩, hargs', hagrees'⟩ := ih hw₁ hargs (hclean.of_resume hlast)
      rw [hargs']
      obtain htoo | ⟨hsame', hw₂⟩ := hagrees'
      · obtain rfl : rs' = _ := htoo
        exact ⟨_, rfl, .inl rfl⟩
      obtain rfl : rs' = rs.map some := hsame'
      cases rs with
      | error e | ok values =>
        obtain rfl := Option.some.inj hlast
        exact ⟨_, rfl, .inr ⟨rfl, hw₂⟩⟩

theorem Simulated.simTail_self (hself : env.self = some c) (callee : Value) (args : List CoreArg) :
    SimTail setting direct env (evalCall (.closure c) args env) (tailArgs env args >>= signalTail c callee args env) := by
  intro w w' q hw hr hclean
  change run _ _ (evalArgs env args >>= fun values => apply (.closure c) values env.ctx) w = _ at hr
  rw [run_bind] at hr ⊢
  obtain ⟨⟨r, w₁⟩, hargs, hrest⟩ := Option.bind_eq_some_iff.1 hr
  obtain ⟨⟨r', w₁'⟩, hargs', hagrees⟩ := hsim.evalArgs_tailArgs args hw hargs (hclean.of_resume hrest)
  rw [hargs']
  obtain htoo | ⟨hsame, hw₁⟩ := hagrees
  · obtain rfl : r' = _ := htoo
    exact ⟨_, rfl, .inl (.inl ⟨_, rfl, rfl⟩)⟩
  obtain rfl : r' = r.map some := hsame
  cases r with
  | error e =>
    obtain rfl := Option.some.inj hrest
    exact ⟨_, rfl, .inl (.inr ⟨rfl, hw₁⟩)⟩
  | ok values =>
    have happly := hsim.applied c values env.ctx w₁ q (run_invoke _ hrest)
    change ∃ q', run _ _ (signalTail c callee args env (some values)) w₁' = some q' ∧ _
    unfold signalTail
    dsimp only
    split at happly
    · rename_i harity
      rw [if_pos harity]
      obtain rfl := happly
      exact ⟨_, rfl, .inl (.inr ⟨rfl, hw₁⟩)⟩
    · rename_i harity
      rw [if_neg harity]
      exact ⟨_, rfl, .inr ⟨c, values, w₁, rfl, hself, happly, hw₁⟩⟩

theorem Simulated.simTail_evalTailCall (env : Env) (callee : Value) (args : List CoreArg) :
    SimTail setting direct env (evalTailCall Mode.direct callee args env) (evalTailCall source callee args env) := by
  unfold evalTailCall
  cases hself : isSelfClosure env callee with
  | none => exact hsim.simTail (Stays.passes (stays_evalCall rfl callee args))
  | some c =>
    refine hsim.simTail_self ?_ callee args
    unfold isSelfClosure at hself
    split at hself
    · exact (Option.filter_eq_some_iff.1 hself).1
    · exact nomatch hself

theorem Simulated.simTail_evalTailDispatch (e : CoreExpr) (env : Env) :
    SimTail setting direct env (evalTailDispatch setting.host Mode.direct e env)
      (evalTailDispatch setting.host source e env) := by
  unfold evalTailDispatch
  split
  · split
    · exact hsim.simTail (passes_eval _ _)
    · exact hsim.simTail_bind (passes_eval _ _) fun v _ => hsim.simTail_evalTailCall env v _
  · refine hsim.simTail_bind (passes_eval _ _) fun v _ => hsim.simTail_bind (passes_lift _) fun holds _ => ?_
    split
    · exact hsim.simTail_evalTail rfl rfl _
    · exact hsim.simTail_evalTail rfl rfl _
  · exact hsim.simTail_evalBlock ⟨rfl, rfl⟩ _ _
  · exact hsim.simTail_bind (passes_eval _ _) fun v _ => hsim.simTail_evalMatch v _
  · exact hsim.simTail (passes_eval _ _)

omit hsim

/-! ### Rounds -/

/-- The weak references to the functions' tables all hold. -/
def Setting.KeepsHomes (setting : Setting) : Prop := ∀ cells table, setting.alive cells table = true

/-- The environment, with the home there. -/
def homeEnv (c : ClosureData) (args : List Value) (ctx : Ctx) : Eval Env := do
  let env ← (⟨c.upvalues.reverse, callCtx c true ctx, none⟩ : Env).extendAll (c.params.zip args)
  pure { env with self := some c }

theorem run_callEnv (hhome : setting.KeepsHomes) (calls : Meaning evalInterface Signal (World π)) (c : ClosureData)
    (args : List Value) (ctx : Ctx) (w : World π) : run (handle setting) calls (callEnv c args ctx) w =
      run (handle setting) calls (homeEnv c args ctx) w := by
  have hupgrade : (handle setting (.upgrade c.homeGlobals) w).1 = true := by
    change (_ || setting.alive w.cells c.homeGlobals) = true
    rw [hhome, Bool.or_true]
  have hrun : run (handle setting) calls (callEnv c args ctx) w =
      run (handle setting) calls
        ((⟨c.upvalues.reverse, callCtx c (handle setting (.upgrade c.homeGlobals) w).1 ctx, none⟩ : Env).extendAll
          (c.params.zip args) >>= fun env => pure { env with self := some c }) w := rfl
  rw [hrun, hupgrade]
  rfl

theorem homeEnv_straight (c : ClosureData) (args : List Value) (ctx : Ctx) :
    (homeEnv c args ctx).Straight WorldOp.Quiet (fun _ => False) (fun _ => False)
      fun env => env.self = some c ∧ env.ctx = callCtx c true ctx := by
  have hextend : ∀ (bindings : List (String × Value)) (env : Env), env.ctx = callCtx c true ctx →
      (env.extendAll bindings).Straight WorldOp.Quiet (fun _ => False) (fun _ => False)
        fun env => env.ctx = callCtx c true ctx := by
    intro bindings
    induction bindings with
    | nil => exact fun _ h => .pure h
    | cons binding bindings ih =>
      exact fun env h => .bind (.bind (.perform trivial fun _ => trivial) fun _ _ => .pure h) ih
  exact .bind (hextend _ _ rfl) fun env h => .pure ⟨rfl, h⟩

/-- The world inside a frame that is entered without a limit. -/
def enteredWorld (p : Nat) (w : World π) : World π :=
  w.setProgram p { w.program p with frames := (w.program p).frames + 1 }

theorem enteredWorld_alike (p : Nat) (w : World π) : World.Alike w (enteredWorld p w) :=
  w.setProgram_alike rfl

theorem leaveCall_alike (setting : Setting) (p : Nat) (w : World π) : World.Alike w (handle setting (.leaveCall p) w).2 :=
  w.setProgram_alike rfl

theorem run_activate_direct (calls : Meaning evalInterface Signal (World π)) (c : ClosureData) (env : Env) (ctx : Ctx)
    (w : World π) : run (handle setting) calls (activate Mode.direct c env ctx) w =
      (calls (.body c env) (enteredWorld ctx.program w)).bind fun q =>
        run (handle setting) calls (nextRound c ctx q.1) (handle setting (.leaveCall ctx.program) q.2).2 := by
  have hrun : run (handle setting) calls (activate Mode.direct c env ctx) w =
      (fun q : Bool × World π => run (handle setting) calls (if q.1 then entered c env ctx else fault .tooDeep) q.2)
        (handle setting (.enterCall ctx.program none) w) := rfl
  have hunlimited : ¬ (none : Option Nat).any (fun limit => decide (limit ≤ (w.program ctx.program).frames)) = true :=
    Bool.false_ne_true
  rfl

theorem loop_callCtx (hhome : setting.KeepsHomes) (n : Nat) (c : ClosureData) (args : List Value) (ctx : Ctx)
    (w : World π) : meaningAt setting Mode.direct n (.loop c args (callCtx c true ctx)) w =
      meaningAt setting Mode.direct n (.loop c args ctx) w := by
  induction n generalizing args w with
  | zero => rfl
  | succ n ih =>
    change run _ _ (callEnv c args (callCtx c true ctx) >>= fun env => activate Mode.direct c env (callCtx c true ctx)) w =
      run _ _ (callEnv c args ctx >>= fun env => activate Mode.direct c env ctx) w
    rw [run_bind, run_bind, run_callEnv hhome, run_callEnv hhome]
    refine Option.bind_congr fun q _ => ?_
    obtain ⟨r, w₁⟩ := q
    cases r with
    | error e => rfl
    | ok env =>
      change run _ _ (activate Mode.direct c env (callCtx c true ctx)) w₁ = run _ _ (activate Mode.direct c env ctx) w₁
      refine Option.bind_congr fun q _ => ?_
      obtain ⟨result, w₂⟩ := q
      -- the rounds differ in where the next one starts only
      obtain (f | v | next | _) | v := result
      · rfl
      · rfl
      · change (meaningAt setting Mode.direct n (.loop c next (callCtx c true ctx)) _).bind _ =
          (meaningAt setting Mode.direct n (.loop c next ctx) _).bind _
        rw [ih]
        rfl
      · rfl
      · rfl

theorem TailAgrees.mono (hle : direct.Le direct') (h : TailAgrees direct env q q') : TailAgrees direct' env q q' := by
  obtain hagrees | ⟨c, args, w, htail, hself, hloop, hw⟩ := h
  · exact .inl hagrees
  · exact .inr ⟨c, args, w, htail, hself, hle _ _ _ hloop, hw⟩

theorem bodies_direct {c : EvalCall} (h : c.Passing) : bodies host Mode.direct c = bodies host source c := by
  cases c with
  | evalTail e env | body c env | loop c args ctx => exact h.elim
  | _ => rfl

variable (hsim : Simulated setting direct)
include hsim

theorem Simulated.method {body : Expr} (hw : World.Alike w w')
    (hr : run (handle setting) direct (methodBody body env) w = some q) (hclean : Clean q.1) :
    ∃ q', run (handle setting) (evalLimit setting source) (methodBody body env) w' = some q' ∧ Agrees q q' := by
  unfold methodBody at hr ⊢
  split at hr
  · obtain rfl := Option.some.inj hr
    exact ⟨(.error .panic, w'), rfl, .inr ⟨rfl, hw⟩⟩
  obtain ⟨⟨r, w₁⟩, heval, hrest⟩ := Option.bind_eq_some_iff.1 hr
  obtain rfl := Option.some.inj hrest
  have hthrown : Clean r := by
    rintro e rfl he
    cases e with
    | fault f => exact hclean _ rfl he
    | _ => exact he
  obtain ⟨⟨r', w₁'⟩, heval', hagrees⟩ := hsim.plain _ _ _ _ (by trivial) hw heval hthrown
  refine ⟨(returned r', w₁'), Option.bind_eq_some_iff.2 ⟨(r', w₁'), heval', rfl⟩, ?_⟩
  obtain ⟨e, he, rfl⟩ | ⟨hsame, hw₁⟩ := hagrees
  · obtain rfl : r' = _ := he
    exact .inl ⟨_, rfl, rfl⟩
  · obtain rfl : r' = r := hsame
    exact .inr ⟨rfl, hw₁⟩

theorem Simulated.stage (main : Option Value) (hw : World.Alike w w')
    (hr : run (handle setting) direct (stageMain name input ctx main) w = some q) (hclean : Clean q.1) :
    ∃ q', run (handle setting) (evalLimit setting source) (stageMain name input ctx main) w' = some q' ∧ Agrees q q' := by
  cases main with
  | none =>
    obtain rfl := Option.some.inj hr
    exact ⟨_, rfl, .inr ⟨rfl, hw⟩⟩
  | some main =>
    obtain ⟨⟨r, w₁⟩, happly, hrest⟩ := Option.bind_eq_some_iff.1 hr
    obtain rfl := Option.some.inj hrest
    obtain ⟨⟨r', w₁'⟩, happly', hagrees⟩ := hsim.plain _ _ _ _ (by trivial) hw happly hclean
    refine ⟨(r', (handle setting (.finish ctx.globals) w₁').2), Option.bind_eq_some_iff.2 ⟨(r', w₁'), happly', rfl⟩, ?_⟩
    obtain htoo | ⟨hsame, hw₁⟩ := hagrees
    · exact .inl htoo
    · exact .inr ⟨hsame, (@World.Alike.handle π setting (.finish ctx.globals) _ trivial _ hw₁).2⟩

theorem Simulated.nextRound (r : Except Signal Value) (hw : World.Alike w w')
    (hr : run (handle setting) direct (nextRound c ctx r) w = some q) (hclean : Clean q.1) :
    ∃ q', run (handle setting) (evalLimit setting source) (nextRound c ctx r) w' = some q' ∧ Agrees q q' := by
  obtain (f | v | next | _) | v := r
  · obtain rfl := Option.some.inj hr
    exact ⟨_, rfl, .inr ⟨rfl, hw⟩⟩
  · obtain rfl := Option.some.inj hr
    exact ⟨_, rfl, .inr ⟨rfl, hw⟩⟩
  · obtain ⟨q', hloop, hagrees⟩ := hsim.plain _ _ _ _ (by trivial) hw (run_invoke _ hr) hclean
    exact ⟨q', Option.bind_eq_some_iff.2 ⟨q', hloop, rfl⟩, hagrees⟩
  · obtain rfl := Option.some.inj hr
    exact ⟨_, rfl, .inr ⟨rfl, hw⟩⟩
  · obtain rfl := Option.some.inj hr
    exact ⟨_, rfl, .inr ⟨rfl, hw⟩⟩

omit hsim

theorem run_activate_source (calls : Meaning evalInterface Signal (World π)) (c : ClosureData) (env : Env) (ctx : Ctx)
    (w : World π) : run (handle setting) calls (activate source c env ctx) w = some (.error (.fault .tooDeep), w) ∨
      run (handle setting) calls (activate source c env ctx) w = (calls (.body c env) (enteredWorld ctx.program w)).bind fun q =>
          run (handle setting) calls (Stitch.nextRound c ctx q.1) (handle setting (.leaveCall ctx.program) q.2).2 := by
  have hrun : run (handle setting) calls (activate source c env ctx) w =
      (fun q : Bool × World π => run (handle setting) calls (if q.1 then entered c env ctx else fault .tooDeep) q.2)
        (handle setting (.enterCall ctx.program (some maxCallDepth)) w) := rfl
  by_cases hfull : (some maxCallDepth).any (fun limit => decide (limit ≤ (w.program ctx.program).frames)) = true
  · left
    rw [hrun, enterCall_refused setting w ctx.program hfull]
    rfl
  · right
    rw [hrun, enterCall_entered setting w ctx.program hfull]
    rfl

variable (h : World.Alike w₁ w₂)
include h

theorem World.Alike.trans (h' : World.Alike w₂ w₃) : World.Alike w₁ w₃ :=
  Eq.trans h h'

theorem World.Alike.symm : World.Alike w₂ w₁ := Eq.symm h

theorem World.Alike.enter (p : Nat) : World.Alike (enteredWorld p w₁) (enteredWorld p w₂) :=
  ((enteredWorld_alike p w₁).symm.trans h).trans (enteredWorld_alike p w₂)

theorem World.Alike.leave (p : Nat) :
    World.Alike (World.handle setting (.leaveCall p) w₁).2 (World.handle setting (.leaveCall p) w₂).2 :=
  ((leaveCall_alike setting p w₁).symm.trans h).trans (leaveCall_alike setting p w₂)

omit h

theorem returned_of_fails (h : ∀ e, r = .error e → e.Fails) (calls : Meaning evalInterface Signal (World π))
    (c : ClosureData) (ctx : Ctx) (w : World π) : run (handle setting) calls (Stitch.nextRound c ctx r) w = some (r, w) := by
  obtain (f | v | next | _) | v := r
  · rfl
  · exact (h _ rfl).elim
  · exact (h _ rfl).elim
  · rfl
  · rfl

/-- A round: the body ends alike, or it leaves the rest to the next round, which the direct evaluator has run inside
this one. -/
theorem Simulated.loop (hhome : setting.KeepsHomes) (hsim : Simulated setting (@meaningAt π setting Mode.direct n))
    (hw : World.Alike w w') (hr : meaningAt setting Mode.direct (n + 1) (.loop c args ctx) w = some q)
    (hclean : Clean q.1) : ∃ q', evalLimit setting source (.loop c args ctx) w' = some q' ∧ Agrees q q' := by
  rw [evalLimit_eq]
  change run _ _ (callEnv c args ctx >>= fun env => activate Mode.direct c env ctx) w = _ at hr
  change ∃ q', run _ _ (callEnv c args ctx >>= fun env => activate source c env ctx) w' = _ ∧ _
  rw [run_bind, run_callEnv hhome] at hr ⊢
  have hstraight := homeEnv_straight c args ctx
  have hmade : ∃ env w₁, run (World.handle setting) (meaningAt setting Mode.direct n) (homeEnv c args ctx) w =
      some (.ok env, w₁) := hstraight.run_total (World.handle setting) w
  obtain ⟨env, w₁, hmade⟩ := hmade
  obtain ⟨hself, hctx⟩ := hstraight.run_ok (World.handle setting) hmade
  have hpasses : Passes _ (homeEnv c args ctx) :=
    hstraight.mono (fun _ => id) (fun _ h => h.elim) (fun _ h => h.elim) fun _ => id
  obtain ⟨⟨r', w₁'⟩, hmade', hagrees⟩ := hsim.passes hpasses hw hmade (fun _ h => nomatch h)
  change (run _ (meaningAt setting Mode.direct n) (homeEnv c args ctx) w).bind _ = _ at hr
  rw [hmade] at hr
  change run _ (meaningAt setting Mode.direct n) (activate Mode.direct c env ctx) w₁ = _ at hr
  rw [run_activate_direct] at hr
  rw [hmade']
  obtain ⟨e, he, rfl⟩ | ⟨hsame, hw₁⟩ := hagrees
  · obtain rfl : r' = _ := he
    exact ⟨_, rfl, .inl ⟨_, rfl, rfl⟩⟩
  obtain rfl : r' = _ := hsame
  change ∃ q', run _ (evalLimit setting source) (activate source c env ctx) w₁' = _ ∧ _
  obtain hrefused | hrun := run_activate_source (evalLimit setting source) c env ctx w₁'
  · exact ⟨_, hrefused, .inl ⟨_, rfl, rfl⟩⟩
  rw [hrun]
  obtain ⟨⟨r, w₂⟩, hbody, hrest⟩ := Option.bind_eq_some_iff.1 hr
  have hthrown : Clean r := by
    rintro e rfl he
    cases e with
    | fault f =>
      obtain rfl := Option.some.inj hrest
      exact hclean _ rfl he
    | _ => exact he
  obtain ⟨⟨r', w₂'⟩, hbody', htail⟩ := hsim.body c env _ _ _ (hw₁.enter ctx.program) hbody hthrown
  rw [hbody']
  obtain (⟨e, he, rfl⟩ | ⟨hsame, hw₂⟩) | ⟨c', next, w₃, hnext, hself', hloop, hw₃⟩ := htail
  · obtain rfl : r' = _ := he
    exact ⟨_, rfl, .inl ⟨_, rfl, rfl⟩⟩
  · obtain rfl : r' = r := hsame
    exact hsim.nextRound r' (hw₂.leave ctx.program) hrest hclean
  obtain rfl : r' = _ := hnext
  obtain rfl : c = c' := Option.some.inj (hself.symm.trans hself')
  rw [hctx, loop_callCtx hhome] at hloop
  have hfails : ∀ e, r = .error e → e.Fails := by
    rintro e rfl
    exact signals_meaning _ _ _ _ hloop
  rw [returned_of_fails hfails] at hrest
  obtain rfl := Option.some.inj hrest
  -- the direct run left the frame after the next round, the evaluator before it
  change ∃ q', (evalLimit setting source (.loop c next ctx) (World.handle setting (.leaveCall ctx.program) w₂').2).bind
    (fun p => some p) = _ ∧ _
  obtain ⟨q', hloop', hagrees⟩ := hsim.plain (.loop c next ctx) w₃ _ _ trivial
    (hw₃.trans (leaveCall_alike setting ctx.program w₂')) hloop hclean
  refine ⟨q', Option.bind_eq_some_iff.2 ⟨q', hloop', rfl⟩, ?_⟩
  obtain htoo | ⟨hsame, hw₄⟩ := hagrees
  · exact .inl htoo
  · exact .inr ⟨hsame, (leaveCall_alike setting ctx.program w₂).symm.trans hw₄⟩

theorem simulated_direct (hhome : setting.KeepsHomes) (n : Nat) : Simulated setting (@meaningAt π setting Mode.direct n) := by
  induction n with
  | zero =>
    exact ⟨fun _ _ _ _ _ _ h => (nomatch h), fun _ _ _ _ _ _ h => (nomatch h), fun _ _ _ _ _ _ h => (nomatch h),
      fun _ _ _ _ _ h => (nomatch h)⟩
  | succ n ih =>
    have hle : Meaning.Le (@meaningAt π setting Mode.direct n) (meaningAt setting Mode.direct (n + 1)) :=
      meaning_succ_le _ _ n
    refine ⟨fun c w w' q hc hw hr hclean => ?_, fun e env w w' q hw hr hclean => ?_,
      fun c env w w' q hw hr hclean => ?_, fun c args ctx w q hr => ?_⟩
    · by_cases hpassing : c.Passing
      · rw [evalLimit_eq, ← bodies_direct hpassing]
        exact ih.passes (bodies_passes setting.host Mode.direct hpassing) hw hr hclean
      cases c with
      | method body env =>
        rw [evalLimit_eq]
        exact ih.method hw hr hclean
      | stage name input ctx =>
        rw [evalLimit_eq]
        have hmain : (handle setting (.global ctx.globals "main") w).1 =
            (handle setting (.global ctx.globals "main") w').1 ∧ _ :=
          World.Alike.handle (o := .global ctx.globals "main") trivial hw
        change ∃ q', run _ _ (stageMain name input ctx (handle setting (.global ctx.globals "main") w').1) _ = _ ∧ _
        rw [← hmain.1]
        exact ih.stage _ hmain.2 hr hclean
      | loop c args ctx => exact ih.loop hhome hw hr hclean
      | evalTail e env | body c env => exact hc.elim
      | _ => exact (hpassing trivial).elim
    · obtain ⟨q', hr', htail⟩ := ih.simTail_evalTailDispatch e env w w' q hw hr hclean
      refine ⟨q', ?_, htail.mono hle⟩
      rw [evalLimit_eq]
      exact hr'
    · obtain ⟨q', hr', htail⟩ := ih.simTail_evalTailDispatch c.body env w w' q hw hr hclean
      refine ⟨q', ?_, htail.mono hle⟩
      rw [evalLimit_eq]
      exact hr'
    change run _ _ (applyValues setting.host (.closure c) args ctx) w = _ at hr
    unfold applyValues at hr
    dsimp only at hr
    split at hr
    · rename_i harity
      rw [if_pos harity]
      exact (Option.some.inj hr).symm
    · rename_i harity
      rw [if_neg harity]
      exact hle _ _ _ (run_invoke _ hr)

end Simulation

/-! ### Programs -/

/-- What a run that faults says, and how many events it has recorded. -/
def faultAndEvents {π : Platform} : Option (Except Signal Value × World π) → Option (String × Nat)
  | some (.error (.fault f), w) => some (f.message, w.telemetry.length)
  | _ => none

end SnitchOs.Stitch
