import SnitchOs.Stitch.Interp

/-!
# Exhaustive matches

The checker counts the variants that the arms of a `match` name, whatever stands in the parentheses; a match has to fit
these too. So a match that it accepts cannot fall through if nothing in the parentheses can be refused.
-/

namespace SnitchOs.Stitch

open Eval List

inductive Ty
  | int | float | bool | str | unit
  | named (name : String) (args : List Ty)
  | func (params : List Ty) (ret : Ty)
  | tuple (elems : List Ty)
  | selfTy | dyn

mutual

/-- Does the pattern catch all, and the variants it is counted for. -/
def patternCoverage : Pattern → Bool × List String
  | .wildcard | .binding _ => (true, [])
  | .constructor name _ => (false, [name])
  | .or alts => altsCoverage alts
  | _ => (false, [])
termination_by structural p => p

def altsCoverage : List Pattern → Bool × List String
  | [] => (false, [])
  | p :: ps => ((patternCoverage p).1 || (altsCoverage ps).1, (patternCoverage p).2 ++ (altsCoverage ps).2)
termination_by structural ps => ps

end

/-- The error, if there is one; `sums` has the variants of the declared sums. -/
def checkExhaustive (sums : List (String × List String)) (subject : Ty) (arms : List CoreMatchArm) : Option String :=
  match subject with
  | .named name _ =>
    match sums.lookup name with
    | none => none
    | some variants =>
      -- A guarded arm may not fire.
      let counted := (arms.filter (·.guard.isNone)).map fun arm => patternCoverage arm.pattern
      let missing := variants.filter fun v => !(counted.flatMap Prod.snd).contains v
      if counted.any Prod.fst || missing.isEmpty then none
      else some ("non-exhaustive match: missing " ++ String.intercalate ", " missing)
  | _ => none

/-! ### What is counted and what matches -/

mutual

/-- The patterns in the parentheses catch all, and are as many as the variant has fields. -/
def Plain (variants : List Variant) : Pattern → Prop
  | .constructor name args => (∀ p ∈ args, (patternCoverage p).1 = true) ∧
    ∀ v ∈ variants, v.name = name → v.fields.length = args.length
  | .or alts => PlainAlts variants alts
  | _ => True
termination_by structural p => p

def PlainAlts (variants : List Variant) : List Pattern → Prop
  | [] => True
  | p :: ps => Plain variants p ∧ PlainAlts variants ps
termination_by structural ps => ps

end

variable {host : Host} {variants : List Variant} {v : Variant} {typeName : String} {value : Value}

theorem isSome_tryMatchAny (p : Pattern) (ps : List Pattern) : (tryMatchAny host (p :: ps) value).isSome = true ↔
    (tryMatch host p value).isSome = true ∨ (tryMatchAny host ps value).isSome = true := by
  rw [tryMatchAny]
  cases tryMatch host p value <;> simp

mutual

theorem isSome_of_catchAll (value : Value) : ∀ p, (patternCoverage p).1 = true → (tryMatch host p value).isSome = true
  | .wildcard, _ | .binding _, _ => rfl
  | .or alts, h => isSome_of_altCatchesAll value alts h
termination_by structural p => p

theorem isSome_of_altCatchesAll (value : Value) : ∀ ps, (altsCoverage ps).1 = true → (tryMatchAny host ps value).isSome = true
  | p :: ps, h => by
    rw [altsCoverage, Bool.or_eq_true] at h
    exact (isSome_tryMatchAny p ps).mpr <| h.imp (isSome_of_catchAll value p) (isSome_of_altCatchesAll value ps)
termination_by structural ps => ps

end

theorem isSome_tryMatchAll (h : ∀ p ∈ ps, (patternCoverage p).1 = true) (values : List Value) :
    (tryMatchAll host ps values).isSome = true := by
  induction ps generalizing values with
  | nil => rfl
  | cons p ps ih =>
    obtain ⟨hp, hps⟩ := forall_mem_cons.mp h
    cases values with
    | nil => rfl
    | cons value values =>
      have hmatch : (tryMatch host p value).isSome = true := isSome_of_catchAll value p hp
      obtain ⟨bound, hbound⟩ := Option.isSome_iff_exists.mp hmatch
      obtain ⟨rest, hrest⟩ := Option.isSome_iff_exists.mp (ih hps values)
      simp [tryMatchAll, hbound, hrest]

mutual

theorem isSome_of_covered (hv : v ∈ variants) (hlen : fields.length = v.fields.length) : ∀ p, Plain variants p → v.name ∈ (patternCoverage p).2 →
      (tryMatch host p (.data typeName v.name fields isNative)).isSome = true
  | .constructor name args, hp, h => by
    obtain rfl := mem_singleton.mp h
    rw [tryMatch, if_neg (by simp [hlen, hp.2 v hv rfl])]
    exact isSome_tryMatchAll hp.1 _
  | .or alts, hp, h => isSome_of_altCovered hv hlen alts hp h
termination_by structural p => p

theorem isSome_of_altCovered (hv : v ∈ variants) (hlen : fields.length = v.fields.length) : ∀ ps, PlainAlts variants ps → v.name ∈ (altsCoverage ps).2 →
      (tryMatchAny host ps (.data typeName v.name fields isNative)).isSome = true
  | p :: ps, hp, h => (isSome_tryMatchAny p ps).mpr <|
    (mem_append.mp h).imp (isSome_of_covered hv hlen p hp.1) (isSome_of_altCovered hv hlen ps hp.2)
termination_by structural ps => ps

end

theorem evalMatch_of_matches (hguards : ∀ arm ∈ arms, arm.guard = none)
    (hsome : ∃ arm ∈ arms, (tryMatch host arm.pattern value).isSome = true) (tail : Bool) (env : Env) :
    ∃ arm ∈ arms, ∃ bindings, tryMatch host arm.pattern value = some bindings ∧
      evalMatch host tail value env arms = env.extendAll bindings >>= evalAt tail arm.body := by
  induction arms with
  | nil => simp at hsome
  | cons arm arms ih =>
    obtain ⟨hguard, hguards⟩ := forall_mem_cons.mp hguards
    unfold evalMatch
    cases hm : tryMatch host arm.pattern value with
    | some bindings =>
      refine ⟨arm, mem_cons_self, bindings, hm, ?_⟩
      rw [hguard]
      rfl
    | none =>
      have hrest : ∃ arm ∈ arms, (tryMatch host arm.pattern value).isSome = true := by simpa [hm] using hsome
      obtain ⟨arm, harm, hfound⟩ := ih hguards hrest
      exact ⟨arm, mem_cons_of_mem _ harm, hfound⟩

/-- The sum `Maybe` of `Some(Int)` and `None`, and a match on it with an arm for each. -/
def maybeSum : List Variant := [⟨"Some", [⟨none, false, .name "Int" [], true⟩]⟩, ⟨"None", []⟩]

def onMaybe (arg : Pattern) : List CoreMatchArm :=
  [⟨.constructor "Some" [arg], none, ⟨.bool true⟩⟩, ⟨.constructor "None" [], none, ⟨.bool false⟩⟩]

def someInt (n : Int) : Value := .data "Maybe" "Some" [(none, .int n)] false

end SnitchOs.Stitch
