import Mathlib.Data.List.Basic

/-!
# Serializers and their parsers

A writer appends to a buffer or fails, a parser takes its value off the front of its input. `Codes` says that the two
belong together: the writer takes exactly the values of `A`, what it writes is parsed back, up to `norm`, whatever
follows, and everything that parses is what it writes for the value. The rules build one pair out of others.
-/

namespace Serial

open List

variable {σ ε α γ : Type}

def Writes (x : List σ → Except ε (List σ)) (out : List σ) : Prop := ∀ buf, x buf = .ok (buf ++ out)

def Fails (x : List σ → Except ε (List σ)) : Prop := ∀ buf, ∃ e, x buf = .error e

def Reads (r : StateT (List σ) (Except ε) α) (out : List σ) (a : α) : Prop :=
  ∀ rest, r.run (out ++ rest) = .ok (a, rest)

structure Codes (A : α → Prop) (norm : α → α) (w : α → List σ → Except ε (List σ))
    (r : StateT (List σ) (Except ε) α) : Prop where
  accepted : ∀ a, A a → ∃ out, Writes (w a) out ∧ Reads r out (norm a)
  rejected : ∀ a, ¬ A a → Fails (w a)
  canonical : ∀ bytes a rest, r.run bytes = .ok (a, rest) → A a ∧ ∃ out, bytes = out ++ rest ∧ Writes (w a) out

/-! ### One after the other -/

theorem Writes.nil : Writes (fun buf : List σ => (.ok buf : Except ε (List σ))) [] :=
  fun buf => by rw [append_nil]

variable {r : StateT (List σ) (Except ε) α}
  {f : α → StateT (List σ) (Except ε) γ} {p : Nat → StateT (List σ) Option Nat}
  {a out : List σ} {as : List α} {n : Nat}
  {R S : List σ → Prop}

theorem Writes.bind (hx : Writes x a) (hy : Writes y b) : Writes (fun buf => x buf >>= y) (a ++ b) := by
  intro buf
  calc x buf >>= y = y (buf ++ a) := by rw [hx buf]; rfl
    _ = .ok (buf ++ (a ++ b)) := by rw [hy, append_assoc]

theorem Fails.bind (hx : Fails x) (y : List σ → Except ε (List σ)) : Fails (fun buf => x buf >>= y) := by
  intro buf
  obtain ⟨e, he⟩ := hx buf
  exact ⟨e, congrArg (· >>= y) he⟩

theorem Writes.bind_fails (hx : Writes x a) (hy : Fails y) : Fails (fun buf => x buf >>= y) := by
  intro buf
  obtain ⟨e, he⟩ := hy (buf ++ a)
  exact ⟨e, (congrArg (· >>= y) (hx buf)).trans he⟩

theorem Reads.pure (a : α) : Reads (Pure.pure a : StateT (List σ) (Except ε) α) [] a := fun _ => rfl

theorem Reads.bind {a : α} (hr : Reads r out a) (hf : Reads (f a) out' c) : Reads (r >>= f) (out ++ out') c := by
  intro rest
  rw [StateT.run_bind, append_assoc, hr]
  exact hf rest

theorem Reads.map {a : α} (hr : Reads r out a) (f : α → γ) : Reads (f <$> r) out (f a) := by
  intro rest
  rw [StateT.run_map, hr]
  rfl

theorem run_bind_ok (h : (r >>= f).run bytes = .ok (c, rest)) :
    ∃ a mid, r.run bytes = .ok (a, mid) ∧ (f a).run mid = .ok (c, rest) := by
  rw [StateT.run_bind] at h
  cases hr : r.run bytes with
  | error e => rw [hr] at h; cases h
  | ok p => rw [hr] at h; exact ⟨p.1, p.2, rfl, h⟩

theorem run_map_ok {f : α → γ} (h : (f <$> r).run bytes = .ok (c, rest)) : ∃ a, r.run bytes = .ok (a, rest) ∧ f a = c := by
  rw [StateT.run_map] at h
  cases hr : r.run bytes with
  | error e => rw [hr] at h; cases h
  | ok p =>
    rw [hr] at h
    cases h
    exact ⟨p.1, rfl, rfl⟩

theorem Codes.ok_iff {A : α → Prop} {norm : α → α}
    (h : Codes A norm w r) (a : α) (buf : List σ) : (∃ out, w a buf = .ok out) ↔ A a := by
  constructor
  · rintro ⟨out, hout⟩
    by_contra hA
    obtain ⟨e, he⟩ := h.rejected a hA buf
    cases hout.symm.trans he
  · intro hA
    obtain ⟨out, hw, -⟩ := h.accepted a hA
    exact ⟨_, hw buf⟩

/-! ### A value inside a larger type -/

/-- A pair for the part `view` shows of a value, and `c` puts back. -/
theorem Codes.embed {A : γ → Prop} {norm : γ → γ} {r : StateT (List σ) (Except ε) γ} (h : Codes A norm w r) (c : γ → α)
    (view : α → Option γ) {A' : α → Prop} {w' : α → List σ → Except ε (List σ)} (hview : ∀ g, view (c g) = some g)
    (hA : ∀ a, A' a ↔ ∃ g, view a = some g ∧ A g)
    (hsome : ∀ a g, view a = some g → w' a = w g ∧ norm' a = c (norm g)) (hnone : ∀ a, view a = none → Fails (w' a)) :
    Codes A' norm' w' (c <$> r) where
  accepted a ha := by
    obtain ⟨g, hg, hAg⟩ := (hA a).mp ha
    obtain ⟨out, hw, hr⟩ := h.accepted g hAg
    obtain ⟨hw', hnorm'⟩ := hsome a g hg
    exact ⟨out, hw' ▸ hw, hnorm' ▸ hr.map c⟩
  rejected a ha := by
    cases hg : view a with
    | none => exact hnone a hg
    | some g => exact (hsome a g hg).1 ▸ h.rejected g fun hAg => ha ((hA a).mpr ⟨g, hg, hAg⟩)
  canonical bytes a rest hrun := by
    obtain ⟨g, hg, rfl⟩ := run_map_ok hrun
    obtain ⟨hAg, out, hbytes, hw⟩ := h.canonical bytes g rest hg
    exact ⟨(hA _).mpr ⟨g, hview g, hAg⟩, out, hbytes, (hsome _ g (hview g)).1 ▸ hw⟩

/-! ### A check behind the parser -/

def ofOption (e : ε) : Option α → StateT (List σ) (Except ε) α
  | some a => pure a
  | none => throw e

theorem ofOption_ok {x : Option α} {a : α} (h : (ofOption e x).run bytes = .ok (a, rest)) : x = some a ∧ bytes = rest := by
  cases x with
  | none => cases h
  | some b => cases h; exact ⟨rfl, rfl⟩

/-- Values that are written as those of another type, of which only some are such values. -/
theorem Codes.checked {A : γ → Prop} {r : StateT (List σ) (Except ε) γ}
    (h : Codes A id w r) (enc : α → γ) (dec : γ → Option α) (hdec : ∀ a, dec (enc a) = some a)
    (henc : ∀ g a, dec g = some a → enc a = g) (e : ε) :
    Codes (fun a => A (enc a)) id (fun a => w (enc a)) (r >>= fun g => ofOption e (dec g)) where
  accepted a ha := by
    obtain ⟨out, hw, hr⟩ := h.accepted (enc a) ha
    refine ⟨out, hw, ?_⟩
    have hof : Reads (ofOption e (dec (enc a))) ([] : List σ) a := by
      rw [hdec]
      exact Reads.pure a
    have hread : Reads (r >>= fun g => ofOption e (dec g)) (out ++ []) a := hr.bind hof
    rwa [append_nil] at hread
  rejected a ha := h.rejected (enc a) ha
  canonical bytes a rest hrun := by
    obtain ⟨g, mid, hg, hof⟩ := run_bind_ok hrun
    obtain ⟨hsome, rfl⟩ := ofOption_ok hof
    rw [henc g a hsome]
    exact h.canonical bytes g mid hg

/-! ### Many values -/

def times (r : StateT (List σ) (Except ε) α) : Nat → StateT (List σ) (Except ε) (List α)
  | 0 => pure []
  | n + 1 => do
    let a ← r
    (a :: ·) <$> times r n

section Many

variable {A : α → Prop} {norm : α → α}

theorem Codes.accepted_list (h : Codes A norm w r) (has : ∀ a ∈ as, A a) :
    ∃ out, Writes (fun buf => as.foldlM (fun buf a => w a buf) buf) out ∧ Reads (times r as.length) out (as.map norm) := by
  induction as with
  | nil => exact ⟨[], Writes.nil, Reads.pure []⟩
  | cons a as ih =>
    obtain ⟨out, hw, hr⟩ := h.accepted a (has a mem_cons_self)
    obtain ⟨out', hw', hr'⟩ := ih fun a ha => has a (mem_cons_of_mem _ ha)
    refine ⟨out ++ out', ?_, ?_⟩
    · simp only [foldlM_cons]
      exact hw.bind hw'
    · exact hr.bind (hr'.map _)

theorem Codes.rejected_list (h : Codes A norm w r) (has : ¬ ∀ a ∈ as, A a) :
    Fails (fun buf => as.foldlM (fun buf a => w a buf) buf) := by
  induction as with
  | nil => exact absurd (fun a ha => by cases ha) has
  | cons a as ih =>
    simp only [foldlM_cons]
    by_cases ha : A a
    · obtain ⟨out, hw, -⟩ := h.accepted a ha
      refine hw.bind_fails (ih fun has' => has ?_)
      exact forall_mem_cons.mpr ⟨ha, has'⟩
    · exact (h.rejected a ha).bind _

theorem Codes.canonical_list (h : Codes A norm w r) (hrun : (times r n).run bytes = .ok (as, rest)) :
    as.length = n ∧ (∀ a ∈ as, A a) ∧
      ∃ out, bytes = out ++ rest ∧ Writes (fun buf => as.foldlM (fun buf a => w a buf) buf) out := by
  induction n generalizing bytes as with
  | zero =>
    cases hrun
    exact ⟨rfl, fun a ha => (by cases ha), [], rfl, Writes.nil⟩
  | succ n ih =>
    obtain ⟨a, mid, ha, hrun⟩ := run_bind_ok hrun
    obtain ⟨as, has, rfl⟩ := run_map_ok hrun
    obtain ⟨hAa, out, rfl, hw⟩ := h.canonical _ _ _ ha
    obtain ⟨rfl, hAas, out', rfl, hw'⟩ := ih has
    refine ⟨rfl, forall_mem_cons.mpr ⟨hAa, hAas⟩, out ++ out', (append_assoc _ _ _).symm, ?_⟩
    simp only [foldlM_cons]
    exact hw.bind hw'

end Many

/-! ### A buffer of fixed size

The writer overwrites from a position on, and says where it stopped; past the end of the buffer it has no result.
-/

/-- In a buffer of `n` places: what it leaves there instead is one of the `R`. -/
def Puts (n : Nat) (p : Nat → StateT (List σ) Option Nat) (R : List σ → Prop) : Prop :=
  ∀ buf pos pos' buf', buf.length = n → pos ≤ n → (p pos).run buf = some (pos', buf') →
    ∃ out, R out ∧ pos' = pos + out.length ∧ pos' ≤ n ∧ buf' = buf.take pos ++ out ++ buf.drop pos'

theorem Puts.length (h : Puts n p R) (hbuf : buf.length = n) (hpos : pos ≤ n)
    (hrun : (p pos).run buf = some (pos', buf')) : buf'.length = n := by
  obtain ⟨out, -, rfl, hle, rfl⟩ := h buf pos pos' buf' hbuf hpos hrun
  simp only [length_append, length_take, length_drop]
  omega

theorem Puts.mono (h : Puts n p R) (hRS : ∀ out, out.length ≤ n → R out → S out) : Puts n p S := by
  intro buf pos pos' buf' hbuf hpos hrun
  obtain ⟨out, hR, hpos', hle, hbuf'⟩ := h buf pos pos' buf' hbuf hpos hrun
  exact ⟨out, hRS out (by omega) hR, hpos', hle, hbuf'⟩

theorem Puts.pure (n : Nat) : Puts n (σ := σ) Pure.pure (· = []) := by
  intro buf pos pos' buf' hbuf hpos hrun
  cases hrun
  exact ⟨[], rfl, rfl, hpos, by simp⟩

theorem Puts.bind (hp : Puts n p R)
    (hq : Puts n q S) : Puts n (fun pos => p pos >>= q) fun out => ∃ a b, out = a ++ b ∧ R a ∧ S b := by
  intro buf pos pos' buf' hbuf hpos hrun
  rw [StateT.run_bind] at hrun
  obtain ⟨⟨mid, buf₁⟩, hfirst, hsecond⟩ := Option.bind_eq_some_iff.mp hrun
  have hbuf₁ := hp.length hbuf hpos hfirst
  obtain ⟨a, hR, rfl, hmid, rfl⟩ := hp buf pos mid buf₁ hbuf hpos hfirst
  obtain ⟨b, hS, rfl, hle, rfl⟩ := hq _ _ pos' buf' hbuf₁ hmid hsecond
  refine ⟨a ++ b, ⟨a, b, rfl, hR, hS⟩, by rw [length_append]; omega, hle, ?_⟩
  have hfront : (buf.take pos ++ a).length = pos + a.length := by
    rw [length_append, length_take, hbuf, Nat.min_eq_left hpos]
  have hback : (buf.take pos ++ a ++ buf.drop (pos + a.length)).drop (pos + a.length + b.length) =
      buf.drop (pos + a.length + b.length) := by
    rw [drop_append, drop_eq_nil_of_le (by omega), hfront, nil_append, drop_drop]
    congr 1
    omega
  rw [take_left' hfront, hback, append_assoc (buf.take pos) a b]

end Serial
