import SnitchOs.Stitch.Serve

/-!
# How many bodies are active

A program counts the functions it is in. The count is the number of function bodies among the pending calls, so that
at most `maxCallDepth` of them are active, and where these are all the bodies there are, one call more is the
fault. The body of a method is entered without being counted.
-/

namespace SnitchOs.Stitch

open Calls Eval Option List World Mode EvalCall Setting

/-! ### Counting -/

/-- The body of a function or of a method. -/
def EvalCall.isActive : EvalCall → Bool
  | .body _ _ | .method _ _ => true
  | _ => false

/-- The body of a function that was applied in the program. -/
def EvalCall.isBodyOf (p : Nat) : EvalCall → Bool
  | .body _ env => env.ctx.program == p
  | _ => false

section Frames

variable {π : Platform} {setting : Setting}

/-- The frames of a program, none before it is set up. -/
def World.frames (w : World π) (p : Nat) : Nat := (w.programs[p]?.map Program.frames).getD 0

/-- The frames as far as they go, none beyond the limit. -/
def World.Framed (w : World π) : Prop := ∀ p, w.frames p ≤ maxCallDepth

theorem World.program_frames {w : World π} (h : (w.program p).frames < maxCallDepth) :
    p < w.programs.length ∧ (w.program p).frames = w.frames p := by
  unfold program at h ⊢
  unfold frames
  rw [getD_eq_getElem?_getD] at h ⊢
  cases hp : w.programs[p]? with
  | none =>
    rw [hp] at h
    exact absurd h (Nat.lt_irrefl _)
  | some program => exact ⟨(List.getElem?_eq_some_iff.1 hp).1, rfl⟩

theorem World.frames_setProgram (w : World π) (p q : Nat) (program : Program) :
    (w.setProgram p program).frames q = if p = q ∧ p < w.programs.length then program.frames else w.frames q := by
  unfold setProgram frames
  dsimp only
  rw [getElem?_set]
  by_cases hpq : p = q
  · subst hpq
    by_cases hp : p < w.programs.length
    · simp [hp]
    · simp [hp]
  · simp [hpq]

section Handle

variable (setting) (w : World π) (p : Nat)

theorem World.enterCall_cases :
    (handle setting (.enterCall p (some maxCallDepth)) w = (false, w) ∧ maxCallDepth ≤ (w.program p).frames) ∨
      ∃ w', handle setting (.enterCall p (some maxCallDepth)) w = (true, w') ∧ w.frames p < maxCallDepth ∧
        ∀ q, w'.frames q = w.frames q + if p = q then 1 else 0 := by
  by_cases h : maxCallDepth ≤ (w.program p).frames
  · exact .inl ⟨enterCall_refused setting w p (decide_eq_true h), h⟩
  obtain ⟨hlt, hframes⟩ := program_frames (Nat.lt_of_not_le h)
  have hroom : ¬ (some maxCallDepth).any (fun limit => decide (limit ≤ (w.program p).frames)) = true :=
    fun hany => h (of_decide_eq_true hany)
  refine .inr ⟨_, enterCall_entered setting w p hroom, hframes ▸ Nat.lt_of_not_le h, fun q => ?_⟩
  rw [frames_setProgram]
  by_cases hq : p = q
  · subst hq
    rw [if_pos ⟨rfl, hlt⟩, if_pos rfl, hframes]
  · rw [if_neg fun hpq => hq hpq.1, if_neg hq, Nat.add_zero]

theorem World.frames_leaveCall (q : Nat) :
    (handle setting (.leaveCall p) w).2.frames q = w.frames q - if p = q then 1 else 0 := by
  change (w.setProgram p _).frames q = _
  rw [frames_setProgram]
  by_cases hq : p = q
  · subst hq
    rw [if_pos rfl]
    by_cases hlt : p < w.programs.length
    · rw [if_pos ⟨rfl, hlt⟩]
      simp [frames, program, getD_eq_getElem?_getD, getElem?_eq_getElem hlt]
    · rw [if_neg fun h => hlt h.2]
      simp [frames, getElem?_eq_none (Nat.le_of_not_gt hlt)]
  · rw [if_neg fun hpq => hq hpq.1, if_neg hq, Nat.sub_zero]

end Handle

def SameFrames (w w' : World π) : Prop := ∀ p, w'.frames p = w.frames p

/-- Everything but entering and leaving a call keeps the frames. -/
theorem World.sameFrames_handle (setting : Setting) (o : WorldOp) (w : World π) (h : o.Quiet) :
    SameFrames w (handle setting o w).2 := by
  intro p
  cases o with
  | enterCall _ _ | leaveCall _ => exact h.elim
  | takeFuel q =>
    by_cases hfuel : (w.program q).fuel = 0
    · rw [takeFuel_empty setting w q hfuel]
    rw [takeFuel_some setting w q hfuel, frames_setProgram]
    split
    · rename_i hq
      obtain ⟨rfl, hlt⟩ := hq
      simp [frames, program, getD_eq_getElem?_getD, getElem?_eq_getElem hlt]
    · rfl
  | build items =>
    cases hbuild : buildEnv ambient w.nextId w.globals.length w.modules.length items with
    | none => rw [build_refused setting w hbuild]
    | some loaded =>
      rw [build_added setting w hbuild]
      simp only [add, frames, getElem?_append]
      split
      · rfl
      rename_i hlt
      have hnone : w.programs[p]? = none := getElem?_eq_none (Nat.le_of_not_gt hlt)
      rw [hnone]
      cases hp : p - w.programs.length with
      | zero | succ _ => rfl
  | _ => rfl

/-! ### What a call does to the frames -/

variable {cs : List EvalCall}

theorem SameFrames.refl (w : World π) : SameFrames w w := fun _ => rfl

theorem SameFrames.trans (h : SameFrames w₁ w₂) (h' : SameFrames w₂ w₃) : SameFrames w₁ w₃ :=
  fun p => (h' p).trans (h p)

variable {w w' : World π}

/-- A round of a function is refused at the limit, or its body runs with one frame more. -/
theorem activate_cases (setting : Setting) (c : ClosureData) (env : Env) (ctx : Ctx) (w : World π) :
    (maxCallDepth ≤ (w.program ctx.program).frames ∧
      (∀ calls, run (handle setting) calls (activate source c env ctx) w = some (.error (.fault .tooDeep), w)) ∧
      ∀ calls c' w', ¬ Reaches (handle setting) calls (activate source c env ctx) w c' w') ∨
    ∃ w₁, w.frames ctx.program < maxCallDepth ∧ (∀ q, w₁.frames q = w.frames q + if ctx.program = q then 1 else 0) ∧
      (∀ calls, run (handle setting) calls (activate source c env ctx) w = run (handle setting) calls (entered c env ctx) w₁) ∧
      ∀ calls c' w', Reaches (handle setting) calls (activate source c env ctx) w c' w' →
        Reaches (handle setting) calls (entered c env ctx) w₁ c' w' := by
  have hrun : ∀ calls, run (handle setting) calls (activate source c env ctx) w =
      (fun q : Bool × World π => run (handle setting) calls (if q.1 then entered c env ctx else fault .tooDeep) q.2)
        (handle setting (.enterCall ctx.program (some maxCallDepth)) w) := fun _ => rfl
  have hreach : ∀ calls c' w', Reaches (handle setting) calls (activate source c env ctx) w c' w' →
      (fun q : Bool × World π =>
        Reaches (handle setting) calls (if q.1 then entered c env ctx else fault .tooDeep) q.2 c' w')
        (handle setting (.enterCall ctx.program (some maxCallDepth)) w) := fun _ _ _ h => h.of_op
  obtain ⟨hfull, hle⟩ | ⟨w₁, henter, hlt, hframes⟩ := enterCall_cases setting w ctx.program
  · refine .inl ⟨hle, fun calls => ?_, fun calls c' w' h => ?_⟩
    · rw [hrun, hfull]
      rfl
    · have hnone := hreach calls c' w' h
      rw [hfull] at hnone
      exact not_reaches_done hnone
  · rw [henter] at hrun hreach
    exact .inr ⟨w₁, hlt, hframes, hrun, hreach⟩

theorem sameFrames_leave (setting : Setting) (h₁ : ∀ q, w₁.frames q = w.frames q + if p = q then 1 else 0)
    (h₂ : SameFrames w₁ w₂) : SameFrames w (handle setting (.leaveCall p) w₂).2 := by
  intro q
  rw [frames_leaveCall, h₂ q, h₁ q, Nat.add_sub_cancel]

theorem sameFrames_run {α : Type} {p : Eval α} {r : Except Signal α} {Q : EvalCall → Prop}
    (hcalls : ∀ c w r w', Q c → calls c w = some (r, w') → SameFrames w w')
    (hp : p.Uses WorldOp.Quiet Q) (hr : run (handle setting) calls p w = some (r, w')) : SameFrames w w' :=
  hp.run_rel (handle setting) SameFrames.refl (fun _ _ _ => SameFrames.trans) (sameFrames_handle setting) hcalls hr

theorem sameFrames_loop (hcalls : ∀ c w r w', calls c w = some (r, w') → SameFrames w w') {args : List Value}
    {r : Except Signal Value} (hr : run (handle setting) calls (loopBody source c args ctx) w = some (r, w')) :
    SameFrames w w' := by
  unfold loopBody at hr
  rw [run_bind] at hr
  obtain ⟨⟨made, w₁⟩, hmade, hrest⟩ := bind_eq_some_iff.1 hr
  have hsame₁ : SameFrames w w₁ := sameFrames_run (fun _ _ _ _ h => h.elim) (callEnv_straight c args ctx).uses hmade
  refine hsame₁.trans ?_
  cases made with
  | error e =>
    obtain ⟨-, rfl⟩ := Prod.mk.inj (some.inj hrest)
    exact SameFrames.refl _
  | ok env =>
    change run _ _ (activate source c env ctx) w₁ = _ at hrest
    obtain ⟨-, hrun, -⟩ | ⟨w₂, -, hframes, hrun, -⟩ := activate_cases setting c env ctx w₁
    · rw [hrun] at hrest
      obtain ⟨-, rfl⟩ := Prod.mk.inj (some.inj hrest)
      exact SameFrames.refl _
    rw [hrun] at hrest
    obtain ⟨⟨result, w₃⟩, hbody, hrest⟩ := bind_eq_some_iff.1 hrest
    have hleft := sameFrames_leave setting hframes (hcalls _ _ _ _ hbody)
    refine hleft.trans ?_
    change run _ _ (nextRound c ctx result) _ = _ at hrest
    exact sameFrames_run (fun c w r w' _ => hcalls c w r w') (nextRound_uses c ctx result) hrest

theorem sameFrames_meaning {n : Nat} {c : EvalCall} {r : Except Signal c.Res}
    (h : meaningAt setting source n c w = some (r, w')) : SameFrames w w' := by
  induction n generalizing c w w' with
  | zero => exact nomatch h
  | succ n ih =>
    by_cases hloop : c.isLoop = false
    · exact sameFrames_run (fun _ _ _ _ _ => ih) (bodies_quietly setting.host source c hloop) h
    cases c with
    | loop c args ctx => exact sameFrames_loop (fun _ _ _ _ => ih) h
    | _ => exact absurd rfl hloop

theorem sameFrames_limit {c : EvalCall} {r : Except Signal c.Res}
    (h : evalLimit setting source c w = some (r, w')) : SameFrames w w' := by
  obtain ⟨n, hn⟩ := (limit_eq_some _ _).1 h
  exact sameFrames_meaning hn

theorem sameFrames_reaches {α : Type} {p : Eval α} {Q : EvalCall → Prop} (hp : p.Uses WorldOp.Quiet Q)
    (hr : Reaches (handle setting) (evalLimit setting source) p w c' w') : SameFrames w w' :=
  hp.reaches_rel SameFrames.refl (fun _ _ _ => SameFrames.trans) (sameFrames_handle setting)
    (fun _ _ _ _ _ => sameFrames_limit) hr

/-! ### The frames are the active bodies -/

/-- The frames of each program are the bodies among the pending calls, and no more than allowed. -/
def Counted (cs : List EvalCall) (w : World π) : Prop :=
  ∀ p, cs.countP (isBodyOf p) = w.frames p ∧ w.frames p ≤ maxCallDepth

theorem isBodyOf_of_not_body {c : EvalCall} (h : c.isBody = false) (p : Nat) : c.isBodyOf p = false := by
  cases c with
  | body _ _ => exact nomatch h
  | _ => rfl

theorem Counted.push {c : EvalCall} (hc : c.isBody = false) (hsame : SameFrames w w')
    (h : Counted cs w) : Counted (c :: cs) w' := by
  intro p
  rw [countP_cons_of_neg (by rw [isBodyOf_of_not_body hc p]; exact Bool.false_ne_true), hsame p]
  exact h p

theorem counted_reaches {c c' : EvalCall} (h : Counted (c :: cs) w)
    (hr : Reaches (handle setting) (evalLimit setting source) (bodies setting.host source c) w c' w') :
    Counted (c' :: c :: cs) w' := by
  by_cases hloop : c.isLoop = false
  · have hquiet := bodies_quietly setting.host source c hloop
    exact h.push (hquiet.reaches hr) (sameFrames_reaches hquiet hr)
  cases c with
  | loop c args ctx =>
    obtain hmake | ⟨env, w₁, hmade, hr⟩ := Reaches.of_bind hr
    · exact ((callEnv_straight c args ctx).uses.reaches hmake).elim
    have hsame₁ : SameFrames w w₁ := sameFrames_run (fun _ _ _ _ h => h.elim) (callEnv_straight c args ctx).uses hmade
    have hprogram := (callEnv_straight c args ctx).run_ok (handle setting) hmade
    obtain ⟨-, -, hnone⟩ | ⟨w₂, hroom, hframes, -, hreach⟩ := activate_cases setting c env ctx w₁
    · exact absurd hr (hnone _ _ _)
    obtain ⟨rfl, rfl⟩ | ⟨result, w₃, hbody, hr⟩ := (hreach _ _ _ hr).of_call
    · -- the body, in the frame just entered
      intro p
      obtain ⟨hcount, hle⟩ := h p
      have hbody : (body c env).isBodyOf p = (ctx.program == p) := congrArg (· == p) hprogram
      rw [hframes p, hsame₁ p, countP_cons, hcount, hbody]
      simp only [beq_iff_eq, true_and]
      split
      · rename_i hp
        subst hp
        rw [← hsame₁ ctx.program]
        exact hroom
      · exact hle
    · -- the next round, with that frame left
      have hleft := sameFrames_leave setting hframes (sameFrames_limit hbody)
      have hround := nextRound_uses c ctx result
      have hr : Reaches _ _ (nextRound c ctx result) _ _ _ := hr.of_op
      refine h.push ?_ (hsame₁.trans (hleft.trans (sameFrames_reaches hround hr)))
      have hisLoop := hround.reaches hr
      cases c' with
      | loop _ _ _ => rfl
      | _ => exact nomatch hisLoop
  | _ => exact absurd rfl hloop

theorem counted_of_pending (hc₀ : c₀.isBody = false)
    (hw₀ : ∀ p, w₀.frames p = 0) (h : EvalPending setting source c₀ w₀ cs w) : Counted cs w := by
  have hstart : Counted [] w₀ := fun p => by rw [hw₀ p]; exact ⟨rfl, Nat.zero_le _⟩
  cases cs with
  | nil => exact nomatch h
  | cons c cs =>
    exact h.rule (R := fun c cs w => Counted (c :: cs) w) (hstart.push hc₀ (SameFrames.refl w₀))
      fun _ _ _ _ _ hcounted hr => counted_reaches hcounted hr

end Frames

/-! ### Evaluations of a program -/

section Program

variable {π : Platform}

theorem frames_startProgram {platform : π.State} {w₀ : World π}
    (h : startProgram items fuel platform = some (ctx, w₀)) (p : Nat) : w₀.frames p = 0 := by
  obtain ⟨loaded, -, hadd⟩ := map_eq_some_iff.1 h
  obtain ⟨-, rfl⟩ := Prod.mk.inj hadd
  cases p <;> rfl

/-- Where only functions of one program are active, they are at most `maxCallDepth`, and when they are that many, one
application more faults. -/
theorem active_bodies_bounded (setting : Setting) {items : List Item} {fuel : Nat} {platform : π.State} {ctx : Ctx}
    {w₀ w : World π} {cs : List EvalCall} {p : Nat} (hstart : startProgram items fuel platform = some (ctx, w₀))
    (hpending : EvalPending setting source (.main ctx) w₀ cs w)
    (honly : ∀ c ∈ cs, c.isActive = true → c.isBodyOf p = true) :
    cs.countP isActive ≤ maxCallDepth ∧
      ∀ c args ctx' rest, cs = .loop c args ctx' :: rest → ctx'.program = p →
        cs.countP isActive = maxCallDepth →
        ∃ w', evalLimit setting source (.loop c args ctx') w = some (.error (.fault .tooDeep), w') := by
  have hcounted := counted_of_pending rfl (frames_startProgram hstart) hpending
  have hle : cs.countP isActive ≤ cs.countP (isBodyOf p) := countP_mono_left honly
  obtain ⟨hcount, hframes⟩ := hcounted p
  refine ⟨by omega, ?_⟩
  rintro c args ctx' rest rfl rfl hfull
  obtain ⟨env, w₁, hmade⟩ := (callEnv_straight c args ctx').run_total (handle setting) w
  have hsame : SameFrames w w₁ := sameFrames_run (fun _ _ _ _ h => h.elim) (callEnv_straight c args ctx').uses hmade
  refine ⟨w₁, ?_⟩
  rw [evalLimit_eq]
  change run _ _ (callEnv c args ctx' >>= fun env => activate source c env ctx') w = _
  rw [run_bind, hmade]
  obtain ⟨-, hrefused, -⟩ | ⟨_, hroom, -⟩ := activate_cases setting c env ctx' w₁
  · exact hrefused _
  have := hsame ctx'.program
  omega

/-- About to apply a function of the program, with as many active as are allowed and nothing else. -/
def atLimit (p : Nat) (cs : List EvalCall) : Bool :=
  match cs with
  | .loop _ _ ctx :: _ =>
    ctx.program == p && cs.countP isActive == maxCallDepth && cs.all fun c => !c.isActive || c.isBodyOf p
  | _ => false

theorem active_bodies_bounded_recursion :
    ∃ ctx w₀ c args ctx' rest w w', @startProgram nullPlatform (itemsOf "f() = 1 + f() main() = f()") unbounded () =
        some (ctx, w₀) ∧
      EvalPending plain source (.main ctx) w₀ (.loop c args ctx' :: rest) w ∧
      (loop c args ctx' :: rest).countP isActive = maxCallDepth ∧
      evalLimit plain source (.loop c args ctx') w = some (.error (.fault .tooDeep), w') := by
  have h : (@seekMain nullPlatform plain source (atLimit 0) 600
      (itemsOf "f() = 1 + f() main() = f()") unbounded ()).isSome = true := by
    decide +kernel
  obtain ⟨⟨cs, w⟩, hseek⟩ := isSome_iff_exists.1 h
  obtain ⟨ctx, w₀, hstart, hpending, hstop⟩ := pending_of_seekMain plain source hseek
  unfold atLimit at hstop
  split at hstop
  · rename_i c args ctx' rest
    simp only [Bool.and_eq_true, beq_iff_eq, List.all_eq_true] at hstop
    obtain ⟨⟨hprogram, hfull⟩, hall⟩ := hstop
    have honly : ∀ d ∈ loop c args ctx' :: rest, d.isActive = true → d.isBodyOf 0 = true := by
      intro d hd hactive
      have hor := hall d hd
      rw [hactive] at hor
      exact hor
    obtain ⟨-, hfault⟩ := active_bodies_bounded plain hstart hpending honly
    obtain ⟨w', hw'⟩ := hfault c args ctx' rest rfl hprogram hfull
    exact ⟨ctx, w₀, c, args, ctx', rest, w, w', hstart, hpending, hfull, hw'⟩
  · exact nomatch hstop

/-- The body of a method is not counted. -/
theorem method_bodies_not_counted :
    ∃ ctx w₀ cs w, @startProgram nullPlatform (itemsOf "prod P() on P \x7b f() = 1 + @.f() \x7d main() = P().f()") unbounded () =
        some (ctx, w₀) ∧
      EvalPending plain source (.main ctx) w₀ cs w ∧ maxCallDepth < cs.countP isActive := by
  have h : (@seekMain nullPlatform plain source
      (fun cs => decide (maxCallDepth < cs.countP isActive)) 400
      (itemsOf "prod P() on P \x7b f() = 1 + @.f() \x7d main() = P().f()") unbounded ()).isSome = true := by
    decide +kernel
  obtain ⟨⟨cs, w⟩, hseek⟩ := isSome_iff_exists.1 h
  obtain ⟨ctx, w₀, hstart, hpending, hstop⟩ := pending_of_seekMain plain source hseek
  exact ⟨ctx, w₀, cs, w, hstart, hpending, of_decide_eq_true hstop⟩

end Program

end SnitchOs.Stitch
