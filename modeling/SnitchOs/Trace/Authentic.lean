import SnitchOs.Kernel.Own
import SnitchOs.Lib.Log
import SnitchOs.Trace.Carried
import SnitchOs.Trace.Span

/-!
# Traces no process can forge

What the wire has to show: a process ends only its own innermost open span, once, and hangs spans only under its own
open ones or under what a message brought it. The kernel does not keep this by itself. It restores whatever parent
`SpanClose` names, so a process moves its cursor where it likes, and after a `Receive` the cursor is a span of the
sender, which the receiver may close. The trace is authentic in runs in which an accepted `SpanClose` hands back what
`SpanOpen` gave out, and no message brings a task a span of its own.
-/

namespace SnitchOs.Trace

open Cap Ipc Kernel Function List Label

variable {n : Nat}

/-! ### Reading the wire -/

/-- The spans task `t` has started for `o` and nobody has ended, innermost first. -/
def openSpans (wire : List Emission) (t : TaskId) (o : Origin) : List SpanOpen :=
  wire.foldl (fun spans e =>
    match e.frame with
    | .spanStart id parent _ _ => if e.task = t ∧ e.origin = o then ⟨id, parent⟩ :: spans else spans
    | .spanEnd id => spans.filter (·.id ≠ id)
    | _ => spans) []

/-- A message brought span `s` to task `t`. -/
def Brought (wire : List Emission) (t : TaskId) (s : SpanId) : Prop :=
  ∃ e ∈ wire, ∃ sender, e.frame = .message sender t s

/-- What an emission may be, after `pre`. -/
def Fair (pre : List Emission) (e : Emission) : Prop :=
  match e.frame with
  | .spanStart _ parent _ _ =>
    parent = 0 ∨ (∃ s ∈ openSpans pre e.task e.origin, s.id = parent) ∨ Brought pre e.task parent
  | .spanEnd id =>
    e.origin = .process →
      (∃ s, (openSpans pre e.task .process).head? = some s ∧ s.id = id) ∧ ∀ e' ∈ pre, e'.ends ≠ some id
  | _ => True

/-- Every frame is fair given those before it. -/
def Authentic (wire : List Emission) : Prop := Log.EachAfter Fair wire

variable {e : Emission} {s : SpanOpen} {t : TaskId} {guards : TaskId → List SpanOpen}

section Reading

theorem openSpans_start (s : SpanOpen) (nameId : StringId) (u : TaskId) :
    openSpans (wire ++ [⟨.spanStart s.id s.parent nameId u, t', o'⟩]) t o =
      if t' = t ∧ o' = o then s :: openSpans wire t o else openSpans wire t o := by
  rw [openSpans, foldl_append]
  rfl

theorem openSpans_end (id : SpanId) :
    openSpans (wire ++ [⟨.spanEnd id, t', o'⟩]) t o = (openSpans wire t o).filter (·.id ≠ id) := by
  rw [openSpans, foldl_append]
  rfl

theorem openSpans_other (hs : e.starts = none) (he : e.ends = none) : openSpans (wire ++ [e]) t o = openSpans wire t o := by
  obtain ⟨frame, u, p⟩ := e
  cases frame with
  | spanStart => cases hs
  | spanEnd => cases he
  | _ =>
    rw [openSpans, foldl_append]
    rfl

theorem mem_of_some {α : Type} {a : α} {f : Emission → Option α} (h : f e = none)
    (hm : e' ∈ wire ++ [e]) (hf : f e' = some a) : e' ∈ wire := by
  rcases mem_append.mp hm with hm | hm
  · exact hm
  rw [mem_singleton.mp hm, h] at hf
  cases hf

theorem start_of_mem_openSpans (hs : s ∈ openSpans wire t o) : ∃ e ∈ wire, e.task = t ∧ e.origin = o ∧ e.starts = some s := by
  induction wire using List.reverseRecOn with
  | nil => cases hs
  | append_singleton wire e ih =>
    have hold : s ∈ openSpans wire t o → ∃ e' ∈ wire ++ [e], e'.task = t ∧ e'.origin = o ∧ e'.starts = some s := by
      intro hs
      obtain ⟨e', he', hprops⟩ := ih hs
      exact ⟨e', mem_append_left _ he', hprops⟩
    obtain ⟨frame, u, p⟩ := e
    cases frame with
    | spanStart id parent nameId v =>
      rw [openSpans_start ⟨id, parent⟩] at hs
      split at hs
      · next hto =>
        rcases mem_cons.mp hs with rfl | hs
        · exact ⟨_, mem_append_right _ mem_cons_self, hto.1, hto.2, rfl⟩
        · exact hold hs
      · exact hold hs
    | spanEnd id =>
      rw [openSpans_end] at hs
      exact hold (mem_filter.mp hs).1
    | stringRegister | message | syscallRefused =>
      rw [openSpans_other rfl rfl] at hs
      exact hold hs

end Reading

/-! ### Cursors -/

/-- `c` is no span of `t`'s own, but one it may hang spans under. -/
def Foreign (wire : List Emission) (t : TaskId) (c : SpanId) : Prop :=
  (∀ e ∈ wire, e.task = t → ∀ s, e.starts = some s → s.id ≠ c) ∧ (c = 0 ∨ Brought wire t c)

/-- `c` is the innermost of the open spans `l`, or foreign. -/
def Top (wire : List Emission) (t : TaskId) (l : List SpanOpen) (c : SpanId) : Prop :=
  (∃ s, l.head? = some s ∧ s.id = c) ∨ Foreign wire t c

/-- Each open span hangs under the next one out, or under a foreign one. -/
def Linked (wire : List Emission) (t : TaskId) : List SpanOpen → Prop
  | [] => True
  | s :: rest => Top wire t rest s.parent ∧ Linked wire t rest

section Cursors

theorem Foreign.concat (hf : Foreign wire t c) (he : e.task = t → ∀ s, e.starts = some s → s.id ≠ c) :
    Foreign (wire ++ [e]) t c := by
  refine ⟨fun e' he' => ?_, hf.2.imp_right fun ⟨e', he', hm⟩ => ⟨e', mem_append_left _ he', hm⟩⟩
  rcases mem_append.mp he' with he' | he'
  · exact hf.1 e' he'
  rw [mem_singleton.mp he']
  exact he

theorem Top.concat (ht : Top wire t l c) (he : e.task = t → ∀ s, e.starts = some s → s.id ≠ c) : Top (wire ++ [e]) t l c :=
  ht.imp_right fun hf => hf.concat he

theorem Linked.concat (hl : Linked wire t l)
    (he : ∀ s ∈ l, e.task = t → ∀ s', e.starts = some s' → s'.id ≠ s.parent) : Linked (wire ++ [e]) t l := by
  induction l with
  | nil => trivial
  | cons s rest ih =>
    exact ⟨hl.1.concat (he s mem_cons_self), ih hl.2 fun s' hs' => he s' (mem_cons_of_mem _ hs')⟩

end Cursors

/-- For whom a task opens spans. -/
def originOf (n : Nat) (t : TaskId) : Origin := if t < n then .kernel else .process

theorem originOf_process (ht : n ≤ t) : originOf n t = .process := if_neg (Nat.not_lt.mpr ht)

theorem originOf_kernel (ht : t < n) : originOf n t = .kernel := if_pos ht

/-! ### The invariant -/

structure Nested (m : Tracing n) : Prop where
  own : OwnTasks m.kernel
  carried : ∀ s, m.kernel.Carries s → s.toNat < m.nextId
  cursor_lt : ∀ t, (m.cursor t).toNat < m.nextId
  started : ∀ e ∈ m.wire, ∀ s, e.starts = some s →
    s.id ≠ 0 ∧ s.id.toNat < m.nextId ∧ s.parent.toNat < m.nextId ∧ e.origin = originOf n e.task
  ended : ∀ e ∈ m.wire, ∀ id, e.ends = some id → id.toNat < m.nextId
  unique : ∀ e ∈ m.wire, ∀ e' ∈ m.wire, ∀ s s', e.starts = some s → e'.starts = some s' → s.id = s'.id → e = e'
  guards : ∀ t, m.guards t = openSpans m.wire t .kernel
  nodup : ∀ t o, ((openSpans m.wire t o).map SpanOpen.id).Nodup
  alive : ∀ t o, ∀ s ∈ openSpans m.wire t o, ∀ e ∈ m.wire, e.ends ≠ some s.id
  top : ∀ t, Top m.wire t (openSpans m.wire t (originOf n t)) (m.cursor t)
  linked : ∀ t, Linked m.wire t (openSpans m.wire t (originOf n t))
  authentic : Authentic m.wire

namespace Nested

variable {m : Tracing n}

variable (hn : Nested m)
include hn

theorem origin_of_mem (hs : s ∈ openSpans m.wire t o) : o = originOf n t := by
  obtain ⟨e, he, rfl, rfl, hstart⟩ := start_of_mem_openSpans hs
  exact (hn.started e he s hstart).2.2.2

theorem parent_lt (hs : s ∈ openSpans m.wire t o) : s.parent.toNat < m.nextId := by
  obtain ⟨e, he, -, -, hstart⟩ := start_of_mem_openSpans hs
  exact (hn.started e he s hstart).2.2.1

theorem id_lt (hs : s ∈ openSpans m.wire t o) : s.id.toNat < m.nextId := by
  obtain ⟨e, he, -, -, hstart⟩ := start_of_mem_openSpans hs
  exact (hn.started e he s hstart).2.1

theorem cursor_update_lt (hc : c.toNat < b) (hb : m.nextId ≤ b) (u : TaskId) : (update m.cursor t c u).toNat < b := by
  by_cases hu : u = t
  · rwa [hu, update_self]
  rw [update_of_ne hu]
  exact Nat.lt_of_lt_of_le (hn.cursor_lt u) hb

theorem withKernel {k : State n} (hown : OwnTasks k)
    (hcarried : ∀ s, k.Carries s → s.toNat < m.nextId) : Nested { m with kernel := k } :=
  { hn with own := hown, carried := hcarried }

theorem emit (hs : e.starts = none) (he : e.ends = none) {names : TaskId → SpanNameTable} {count : StringId} :
    Nested { m with spanNames := names, internCount := count, wire := m.wire ++ [e] } := by
  have hopen : ∀ t o, openSpans (m.wire ++ [e]) t o = openSpans m.wire t o := fun t o => openSpans_other hs he
  have hnot : ∀ {t : TaskId} {c : SpanId}, e.task = t → ∀ s, e.starts = some s → s.id ≠ c := by
    intro t c _ s hs'
    exact absurd (hs.symm.trans hs') (Option.some_ne_none _).symm
  refine ⟨hn.own, hn.carried, hn.cursor_lt, fun e' hm s hs' => hn.started e' (mem_of_some hs hm hs') s hs',
    fun e' hm id hid => hn.ended e' (mem_of_some he hm hid) id hid,
    fun e₁ h₁ e₂ h₂ s s' hs₁ hs₂ => hn.unique e₁ (mem_of_some hs h₁ hs₁) e₂ (mem_of_some hs h₂ hs₂) s s' hs₁ hs₂,
    fun t => (hn.guards t).trans (hopen t _).symm, fun t o => ?_, fun t o s hs' e' hm hid => ?_, fun t => ?_,
    fun t => ?_, hn.authentic.concat ?_⟩
  · rw [hopen]
    exact hn.nodup t o
  · rw [hopen] at hs'
    exact hn.alive t o s hs' e' (mem_of_some he hm hid) hid
  · rw [hopen]
    exact (hn.top t).concat hnot
  · rw [hopen]
    exact (hn.linked t).concat fun _ _ => hnot
  obtain ⟨frame, u, p⟩ := e
  cases frame with
  | spanStart => cases hs
  | spanEnd => cases he
  | _ => trivial

theorem registerName (t : TaskId) (name : String) : Nested (m.registerName t name) :=
  hn.emit rfl rfl

theorem deliver (t : TaskId) (d : Delivered) (hlt : d.parent.toNat < m.nextId)
    (hforeign : ∀ e ∈ m.wire, e.task = t → ∀ s, e.starts = some s → s.id ≠ d.parent) : Nested (m.deliver t d) := by
  have hn' : Nested (m.emit (.message d.sender t d.parent) t .process) := hn.emit rfl rfl
  refine { hn' with
    cursor_lt := hn.cursor_update_lt hlt (Nat.le_refl _)
    top := fun u => ?_ }
  by_cases hu : u = t
  · subst hu
    have hc : (m.deliver u d).cursor u = d.parent := update_self ..
    rw [hc]
    exact .inr ⟨fun e he ht s hs => hforeign e (mem_of_some rfl he hs) ht s hs,
      .inr ⟨_, mem_append_right _ mem_cons_self, d.sender, rfl⟩⟩
  · have hc : (m.deliver t d).cursor u = m.cursor u := update_of_ne hu ..
    rw [hc]
    exact hn'.top u

theorem openSpan (hlt : m.nextId < 2 ^ 64) (ht : originOf n t = o) (nameId : StringId)
    (hguards : ∀ u, guards u = if t = u ∧ o = .kernel then m.fresh t :: m.guards u else m.guards u) :
    Nested { m.openSpan t o nameId with guards } := by
  have hid : (m.fresh t).id.toNat = m.nextId := UInt64.toNat_ofNat_of_lt' hlt
  have hnew : ∀ {c : SpanId}, c.toNat < m.nextId → (m.fresh t).id ≠ c := by
    rintro c hc rfl
    exact absurd hid (Nat.ne_of_lt hc)
  have hopen : ∀ u p, openSpans (m.openSpan t o nameId).wire u p =
      if t = u ∧ o = p then m.fresh t :: openSpans m.wire u p else openSpans m.wire u p := fun u p =>
    openSpans_start (m.fresh t) nameId t
  have hmem : ∀ {e : Emission}, e ∈ (m.openSpan t o nameId).wire →
      e ∈ m.wire ∨ e = ⟨.spanStart (m.fresh t).id (m.fresh t).parent nameId t, t, o⟩ := fun hm => by
    simpa [Tracing.openSpan, Tracing.emit] using hm
  have hlt' : ∀ {a : Nat}, a < m.nextId → a < m.nextId + 1 := Nat.lt_succ_of_lt
  have hfresh : ∀ {u : TaskId} {c : SpanId}, c.toNat < m.nextId → t = u → ∀ s : SpanOpen,
      some (m.fresh t) = some s → s.id ≠ c := by
    intro u c hc _ s hs
    rw [← Option.some.inj hs]
    exact hnew hc
  refine ⟨hn.own, fun s hs => hlt' (hn.carried s hs),
    hn.cursor_update_lt (hid ▸ Nat.lt_succ_self _) (Nat.le_succ _), fun e he s hs => ?_, fun e he id hide => ?_,
    fun e he e' he' s s' hs hs' hss => ?_, fun u => ?_, fun u p => ?_, fun u p s hs e he => ?_, fun u => ?_,
    fun u => ?_, hn.authentic.concat ?_⟩
  · rcases hmem he with he | rfl
    · obtain ⟨h0, h1, h2, h3⟩ := hn.started e he s hs
      exact ⟨h0, hlt' h1, hlt' h2, h3⟩
    · obtain rfl := Option.some.inj hs
      have h0 : (0 : SpanId).toNat < m.nextId := Nat.lt_of_le_of_lt (Nat.zero_le _) (hn.cursor_lt t)
      exact ⟨hnew h0, by rw [hid]; exact Nat.lt_succ_self _, hlt' (hn.cursor_lt t), ht.symm⟩
  · rcases hmem he with he | rfl
    · exact hlt' (hn.ended e he id hide)
    · cases hide
  · rcases hmem he with he | rfl <;> rcases hmem he' with he' | rfl
    · exact hn.unique e he e' he' s s' hs hs' hss
    · obtain rfl := Option.some.inj hs'
      exact absurd hss.symm (hnew (hn.started e he s hs).2.1)
    · obtain rfl := Option.some.inj hs
      exact absurd hss (hnew (hn.started e' he' s' hs').2.1)
    · rfl
  · refine (hguards u).trans ?_
    rw [hopen, hn.guards u]
  · rw [hopen]
    split
    · rw [map_cons, nodup_cons]
      refine ⟨fun hm => ?_, hn.nodup u p⟩
      obtain ⟨s, hs, hse⟩ := mem_map.mp hm
      exact hnew (hn.id_lt hs) hse.symm
    · exact hn.nodup u p
  · rw [hopen] at hs
    have he : e ∈ m.wire ∨ e.ends = none := (hmem he).imp_right fun h => by rw [h]; rfl
    rcases he with he | he
    · split at hs
      · rcases mem_cons.mp hs with rfl | hs
        · exact fun hide => absurd (hn.ended e he _ hide) (by rw [hid]; exact Nat.lt_irrefl _)
        · exact hn.alive u p s hs e he
      · exact hn.alive u p s hs e he
    · rw [he]
      exact fun h => by cases h
  · rw [hopen]
    by_cases hu : t = u
    · subst hu
      rw [if_pos ⟨rfl, ht.symm⟩]
      exact .inl ⟨m.fresh t, rfl, (update_self (f := m.cursor) ..).symm⟩
    · rw [if_neg fun h => hu h.1]
      have hc : (m.openSpan t o nameId).cursor u = m.cursor u := update_of_ne (Ne.symm hu) ..
      rw [hc]
      exact (hn.top u).concat fun h => absurd h hu
  · rw [hopen]
    have hl : Linked (m.openSpan t o nameId).wire u (openSpans m.wire u (originOf n u)) :=
      (hn.linked u).concat fun s hs => hfresh (hn.parent_lt hs)
    by_cases hu : t = u
    · subst hu
      rw [if_pos ⟨rfl, ht.symm⟩]
      exact ⟨(hn.top t).concat (hfresh (hn.cursor_lt t)), hl⟩
    · rw [if_neg fun h => hu h.1]
      exact hl
  · -- the parent is the cursor
    have htop := hn.top t
    rw [ht] at htop
    rcases htop with ⟨s, hs, hc⟩ | ⟨-, hc⟩
    · exact .inr (.inl ⟨s, mem_of_mem_head? hs, hc⟩)
    · exact hc.imp_right .inr

theorem closeSpan {rest : List SpanOpen} (hs : openSpans m.wire t o = s :: rest)
    (hguards : ∀ u, guards u = if t = u ∧ o = .kernel then rest else m.guards u) : Nested { m.closeSpan t o s with guards } := by
  have hmem : s ∈ openSpans m.wire t o := hs ▸ mem_cons_self
  have ht := hn.origin_of_mem hmem
  obtain ⟨e₀, he₀, het, heo, hstart⟩ := start_of_mem_openSpans hmem
  have hnodup := hn.nodup t o
  rw [hs, map_cons, nodup_cons] at hnodup
  -- nobody else has a span of that id
  have hopen : ∀ u p, openSpans (m.closeSpan t o s).wire u p =
      if t = u ∧ o = p then rest else openSpans m.wire u p := by
    intro u p
    refine (openSpans_end s.id).trans ?_
    split
    · next h =>
      obtain ⟨rfl, rfl⟩ := h
      rw [hs, filter_cons_of_neg (by simp), filter_eq_self]
      intro s' hs'
      simpa using fun he : s'.id = s.id => hnodup.1 (mem_map.mpr ⟨s', hs', he⟩)
    · next h =>
      rw [filter_eq_self]
      intro s' hs'
      obtain ⟨e', he', het', heo', hstart'⟩ := start_of_mem_openSpans hs'
      refine decide_eq_true fun he => h ?_
      obtain rfl := hn.unique e' he' e₀ he₀ s' s hstart' hstart he
      exact ⟨het.symm.trans het', heo.symm.trans heo'⟩
  have hsub : ∀ {u p s'}, s' ∈ openSpans (m.closeSpan t o s).wire u p → s' ∈ openSpans m.wire u p := by
    intro u p s' hs'
    rw [hopen] at hs'
    split at hs'
    · next h =>
      obtain ⟨rfl, rfl⟩ := h
      exact hs ▸ mem_cons_of_mem _ hs'
    · exact hs'
  have hwire : ∀ {e : Emission}, e ∈ (m.closeSpan t o s).wire → e ∈ m.wire ∨ e = ⟨.spanEnd s.id, t, o⟩ := fun hm => by
    simpa [Tracing.closeSpan, Tracing.emit] using hm
  have hold : ∀ {e : Emission} {s' : SpanOpen}, e ∈ (m.closeSpan t o s).wire → e.starts = some s' → e ∈ m.wire :=
    mem_of_some rfl
  have hlinked := hn.linked t
  rw [← ht, hs] at hlinked
  refine ⟨hn.own, hn.carried, hn.cursor_update_lt (hn.parent_lt hmem) (Nat.le_refl _),
    fun e he s' hs' => hn.started e (hold he hs') s' hs', fun e he id hid => ?_,
    fun e he e' he' s₁ s₂ h₁ h₂ => hn.unique e (hold he h₁) e' (hold he' h₂) s₁ s₂ h₁ h₂, fun u => ?_,
    fun u p => ?_, fun u p s' hs' e he hid => ?_, fun u => ?_, fun u => ?_, hn.authentic.concat fun hp => ?_⟩
  · rcases hwire he with he | rfl
    · exact hn.ended e he id hid
    obtain rfl := Option.some.inj hid
    exact hn.id_lt hmem
  · refine (hguards u).trans ?_
    rw [hopen, hn.guards u]
  · rw [hopen]
    split
    · exact hnodup.2
    · exact hn.nodup u p
  · rcases hwire he with he | rfl
    · exact hn.alive u p s' (hsub hs') e he hid
    have hfil : s' ∈ (openSpans m.wire u p).filter (·.id ≠ s.id) := openSpans_end s.id ▸ hs'
    have hne := (mem_filter.mp hfil).2
    exact absurd (Option.some.inj hid).symm (by simpa using hne)
  · rw [hopen]
    by_cases hu : t = u
    · subst hu
      rw [if_pos ⟨rfl, ht⟩]
      have hc : (m.closeSpan t o s).cursor t = s.parent := update_self ..
      rw [hc]
      exact hlinked.1.concat fun _ s' hs' => by cases hs'
    · rw [if_neg fun h => hu h.1]
      have hc : (m.closeSpan t o s).cursor u = m.cursor u := update_of_ne (Ne.symm hu) ..
      rw [hc]
      exact (hn.top u).concat fun h => absurd h hu
  · rw [hopen]
    have hnot : ∀ (s' : SpanOpen) (c : SpanId), (⟨.spanEnd s.id, t, o⟩ : Emission).starts = some s' → s'.id ≠ c :=
      fun s' c hs' => by cases hs'
    split
    · next h =>
      obtain ⟨rfl, -⟩ := h
      exact hlinked.2.concat fun s' _ _ s₂ => hnot s₂ s'.parent
    · exact (hn.linked u).concat fun s' _ _ s₂ => hnot s₂ s'.parent
  · simp only at hp
    subst hp
    exact ⟨⟨s, by rw [hs]; rfl, rfl⟩, hn.alive t _ s hmem⟩

end Nested

/-! ### Runs -/

/-- A `SpanClose` the kernel accepts hands back the id and the parent that a `SpanOpen` of the caller
gave out. -/
def closesOwn (m : Tracing n) : Label n → Bool
  | .spanClose h id parent =>
    m.cursor (m.current h) != id ||
      m.wire.any fun e => e.task == m.current h && e.origin == .process && e.starts == some ⟨id, parent⟩
  | _ => true

/-- The span a message brings is not one the receiver opened itself. -/
def receivesForeign (m : Tracing n) : Label n → Bool
  | .kernel l =>
    (received m.kernel l).all fun d => m.wire.all fun e =>
      e.task != m.current l.hart || e.starts.all (·.id != d.parent)
  | _ => true

/-- Span ids have not run out. -/
def idsLeft (m : Tracing n) (_ : Label n) : Bool := m.nextId < 2 ^ 64

namespace Nested

theorem kernelStep (hn : Nested m) (hok : receivesForeign m (.kernel l) = true)
    (hs : m.step (.kernel l) = some m') : Nested m' := by
  obtain ⟨k, hk, rfl⟩ := Option.map_eq_some_iff.mp hs
  have hspan : ∀ s, (withSpan (m.cursor (m.current l.hart)) l).span = some s → s = m.cursor (m.current l.hart) := by
    intro s hs
    unfold withSpan at hs
    split at hs
    · exact (Option.some.inj hs).symm
    · exact (Option.some.inj hs).symm
    next hsend hcall =>
    unfold Kernel.Label.span at hs
    split at hs
    · exact absurd rfl (hsend _ _ _ _)
    · exact absurd rfl (hcall _ _ _ _)
    · cases hs
  have hcarried : ∀ s, k.Carries s → s.toNat < m.nextId := by
    intro s hc
    rcases State.carries_step hk hc with hc | rfl | hc
    · exact hn.carried s hc
    · exact Nat.lt_of_le_of_lt (Nat.zero_le _) (hn.cursor_lt 0)
    rw [hspan s hc]
    exact hn.cursor_lt _
  have hn' := hn.withKernel (hn.own.step hk) hcarried
  cases hd : received m.kernel l with
  | none => simpa [hd] using hn'
  | some d =>
    refine hn'.deliver _ d (hn.carried _ ?_) fun e he ht s hstart => ?_
    · -- the message was on its way
      cases l with
      | run h now =>
        simp only [received] at hd
        split at hd
        · next d' rest ht =>
          cases hd
          exact .inr ⟨_, _, by rw [ht]; exact mem_cons_self, rfl⟩
        · cases hd
      | _ => cases hd
    · simp only [receivesForeign, hd, Option.all_some, all_eq_true] at hok
      simpa [ht, hstart] using hok e he

theorem step (hn : Nested m) {l : Label n} (hclose : closesOwn m l = true) (hrecv : receivesForeign m l = true)
    (hids : idsLeft m l = true) (hs : m.step l = some m') : Nested m' := by
  have hlt : m.nextId < 2 ^ 64 := of_decide_eq_true hids
  have hrefuse : ∀ t call reason, Nested (m.refuse t call reason) := fun t call reason => hn.emit rfl rfl
  have hsame : ∀ (m : Tracing n) (t u : TaskId) (l : List SpanOpen),
      m.guards u = if t = u ∧ Origin.process = .kernel then l else m.guards u := fun m t u l => by simp
  cases l with
  | kernel l => exact hn.kernelStep hrecv hs
  | spanOpen h handle name =>
    obtain ⟨hc, hm⟩ := Option.ite_none_right_eq_some.mp hs
    cases hm
    have hproc := originOf_process (hn.own.le_of_isProcess (Bool.and_eq_true_iff.mp hc).2)
    unfold Tracing.handleSpanOpen
    split
    · exact hrefuse _ _ _
    split
    · exact hrefuse _ _ _
    split
    · exact hrefuse _ _ _
    · exact hrefuse _ _ _
    split
    · next hopen =>
      unfold Tracing.spanOpenBounded at hopen
      split at hopen
      · cases hopen
        exact hn.openSpan hlt hproc _ fun u => hsame m _ u _
      split at hopen
      · cases hopen
      cases hopen
      exact (hn.registerName _ _).openSpan hlt hproc _ fun u => hsame m _ u _
    · exact hrefuse _ _ _
  | spanClose h id parent =>
    obtain ⟨hc, hm⟩ := Option.ite_none_right_eq_some.mp hs
    cases hm
    have hproc := originOf_process (hn.own.le_of_isProcess (Bool.and_eq_true_iff.mp hc).2)
    unfold Tracing.handleSpanClose
    split
    · next hclosed =>
      unfold Tracing.spanCloseChecked at hclosed
      split at hclosed
      · cases hclosed
      next hcur =>
      cases hclosed
      have hcur : m.cursor (m.current h) = id := by simpa using hcur
      simp only [closesOwn, hcur, bne_self_eq_false, Bool.false_or, any_eq_true, Bool.and_eq_true, beq_iff_eq] at hclose
      obtain ⟨e, he, ⟨het, heo⟩, hstart⟩ := hclose
      -- the cursor is a span of the caller's own, hence its innermost open one
      have htop := hn.top (m.current h)
      rw [hproc, hcur] at htop
      obtain ⟨s, hs, hsid⟩ := htop.resolve_right fun hf => hf.1 e he het _ hstart rfl
      obtain ⟨rest, hopen⟩ := head?_eq_some_iff.mp hs
      obtain ⟨e', he', -, -, hstart'⟩ := start_of_mem_openSpans (hopen ▸ mem_cons_self (a := s))
      obtain rfl := hn.unique e' he' e he s _ hstart' hstart hsid
      obtain rfl := Option.some.inj (hstart'.symm.trans hstart)
      exact hn.closeSpan hopen fun u => hsame m _ u _
    · exact hrefuse _ _ _
  | spanStart h nameId =>
    obtain ⟨hc, hm⟩ := Option.ite_none_right_eq_some.mp hs
    cases hm
    have hker := originOf_kernel (of_decide_eq_true (Bool.and_eq_true_iff.mp hc).2)
    refine hn.openSpan hlt hker nameId fun u => ?_
    by_cases hu : u = m.current h
    · simp [hu]
    · simp [hu, Ne.symm hu]
  | spanDrop h =>
    obtain ⟨hc, hm⟩ := Option.ite_none_right_eq_some.mp hs
    unfold Tracing.dropGuard at hm
    split at hm
    · cases hm
    next span rest hg =>
    cases hm
    have hopen : openSpans m.wire (m.current h) .kernel = span :: rest := (hn.guards _).symm.trans hg
    refine hn.closeSpan hopen fun u => ?_
    by_cases hu : u = m.current h
    · simp [hu]
    · simp [hu, Ne.symm hu]

end Nested

theorem boot_nested (b : Boot n) : Nested (boot b) where
  own := b.ownTasks
  carried := fun s hs => by
    rcases hs with ⟨ep, t, d, hd, -⟩ | ⟨t, sec, hm, -⟩
    · cases hd
    · cases hm
  cursor_lt := fun _ => Nat.one_pos
  started := fun e he => by cases he
  ended := fun e he => by cases he
  unique := fun e he => by cases he
  guards := fun _ => rfl
  nodup := fun _ _ => nodup_nil
  alive := fun _ _ s hs => by cases hs
  top := fun _ => .inr ⟨fun e he => (not_mem_nil he).elim, .inl rfl⟩
  linked := fun _ => trivial
  authentic := .nil

/-- In every run in which accepted closes hand back what `SpanOpen` gave out, no message brings a task a
span of its own, and the ids last. -/
theorem wire_authentic_of_closesOwn {b : Boot n} {m : Tracing n}
    (hrun : Runs.Reaches Tracing.step (fun m l => closesOwn m l && receivesForeign m l && idsLeft m l)
      (boot b) m) : Authentic m.wire := by
  have hn : Nested m := by
    refine hrun.invariant (I := Nested) (boot_nested b) fun m l m' hn hok hs => ?_
    simp only [Bool.and_eq_true] at hok
    exact hn.step hok.1.1 hok.1.2 hok.2 hs
  exact hn.authentic

/-- One hart; process `1` may call endpoint `0` and process `2` serves it. -/
def traceBoot : Boot 1 where
  procs := [
    (0, { slots := [⟨0, .persistent, some ⟨.spanSink, .emit⟩, 1, 0⟩,
      ⟨0, .persistent, some ⟨.endpoint 0 0, .send⟩, 2, 0⟩] }),
    (0, { slots := [⟨0, .persistent, some ⟨.spanSink, .emit⟩, 3, 0⟩,
      ⟨0, .persistent, some ⟨.endpoint 0 0, .recv⟩, 4, 0⟩] })]
  noReply := by simp
  endpoints := 1
  nextCapId := 5

def sections (k : Nat) : List (Label 1) := .replicate k (.kernel (.run 0 0))

/-- The server waits; process `1` calls it inside a span. The server handles the call in a span of its
own and replies. -/
def tracedCall : List (Label 1) :=
  kernel (.yield 0) :: sections 1 ++ kernel (.syscall 0 (.receive (.new 1 0))) :: sections 3 ++
    kernel (.yield 0) :: sections 1 ++
    [spanOpen 0 (.new 0 0) (.name "request"), kernel (.syscall 0 (.call (.new 1 0) (.replicate 4 0) 0))] ++
    sections 6 ++ [spanOpen 0 (.new 0 0) (.name "handle"), spanClose 0 2 1,
      kernel (.syscall 0 (.reply (.new 2 0) (.replicate 4 0) none))] ++ sections 3 ++
    kernel (.syscall 0 .yield) :: sections 2 ++ [spanClose 0 1 0]

theorem wire_authentic_of_closesOwn_tracedCall :
    ∃ m, Runs.Reaches Tracing.step (fun m l => closesOwn m l && receivesForeign m l && idsLeft m l)
        (boot traceBoot) m ∧
      m.wire.filterMap Emission.starts = [⟨1, 0⟩, ⟨2, 1⟩] ∧ m.wire.filterMap Emission.ends = [2, 1] ∧
      Authentic m.wire := by
  obtain ⟨m, hrun, hstarts, hends⟩ : ∃ m, Runs.Reaches Tracing.step
      (fun m l => closesOwn m l && receivesForeign m l && idsLeft m l) (boot traceBoot) m ∧
      m.wire.filterMap Emission.starts = [⟨1, 0⟩, ⟨2, 1⟩] ∧ m.wire.filterMap Emission.ends = [2, 1] :=
    Runs.exists_reaches tracedCall (by decide +kernel)
  exact ⟨m, hrun, hstarts, hends, wire_authentic_of_closesOwn hrun⟩

/-- The hart's own task opens span `1`. Process `2` opens span `2`, closes it with `1` for its parent,
opens span `3`, closes that one and then span `1`. -/
def forgedClose : List (Label 1) :=
  spanStart 0 7 :: kernel (.yield 0) :: sections 1 ++
    [spanOpen 0 (.new 0 0) (.name "a"), spanClose 0 2 1, spanOpen 0 (.new 0 0) (.name "a"),
      spanClose 0 3 1, spanClose 0 1 0]

/-- A process hangs a span under one of the kernel, and ends the kernel's. -/
theorem kernel_span_forged :
    ∃ m, Runs.Reaches Tracing.step (fun _ _ => True) (boot traceBoot) m ∧
      m.wire = [⟨.spanStart 1 0 7 0, 0, .kernel⟩, ⟨.stringRegister 0 "a", 2, .process⟩,
        ⟨.spanStart 2 0 0 2, 2, .process⟩, ⟨.spanEnd 2, 2, .process⟩, ⟨.spanStart 3 1 0 2, 2, .process⟩,
        ⟨.spanEnd 3, 2, .process⟩, ⟨.spanEnd 1, 2, .process⟩] ∧
      m.guards 0 = [⟨1, 0⟩] ∧ ¬ Authentic m.wire := by
  obtain ⟨m, hrun, hwire, hguards⟩ : ∃ m, Runs.Reaches Tracing.step (fun _ _ => True) (boot traceBoot) m ∧
      m.wire = [⟨.spanStart 1 0 7 0, 0, .kernel⟩, ⟨.stringRegister 0 "a", 2, .process⟩,
        ⟨.spanStart 2 0 0 2, 2, .process⟩, ⟨.spanEnd 2, 2, .process⟩, ⟨.spanStart 3 1 0 2, 2, .process⟩,
        ⟨.spanEnd 3, 2, .process⟩, ⟨.spanEnd 1, 2, .process⟩] ∧ m.guards 0 = [⟨1, 0⟩] :=
    Runs.exists_reaches forgedClose (by decide +kernel)
  refine ⟨m, hrun, hwire, hguards, fun ha => ?_⟩
  obtain ⟨⟨s, hs, -⟩, -⟩ := ha [⟨.spanStart 1 0 7 0, 0, .kernel⟩, ⟨.stringRegister 0 "a", 2, .process⟩,
    ⟨.spanStart 2 0 0 2, 2, .process⟩, ⟨.spanEnd 2, 2, .process⟩, ⟨.spanStart 3 1 0 2, 2, .process⟩,
    ⟨.spanEnd 3, 2, .process⟩] ⟨.spanEnd 1, 2, .process⟩ [] hwire rfl
  simp [openSpans] at hs

end SnitchOs.Trace
