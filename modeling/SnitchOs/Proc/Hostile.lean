import SnitchOs.Proc.Load

/-!
# Parsing a hostile image

`parse` on any bytes: where its arithmetic can overflow, and what an accepted image satisfies. A slice has
at most `isize::MAX` bytes, so a header that is read at an address below `2 ^ 63` does not overflow.
-/

namespace SnitchOs.Proc

open Machine List

namespace Fallible

variable {ε α β : Type}

/-- The computation ends with a result or an error. -/
def Total (x : Fallible ε α) : Prop := ∃ r, x = some r

theorem total_bind (hx : Total x) (hf : ∀ a, x = some (.ok a) → Total (f a)) : Total (x >>= f) := by
  obtain ⟨r, rfl⟩ := hx
  cases r with
  | error e => exact ⟨.error e, rfl⟩
  | ok a => exact hf a rfl

theorem total_require (c : Prop) [Decidable c] (e : ε) : Total (require c e) := by
  unfold require
  split
  · exact ⟨_, rfl⟩
  · exact ⟨_, rfl⟩

theorem total_pure (a : α) : Total (pure a : Fallible ε α) := ⟨.ok a, rfl⟩

end Fallible

open Fallible

section

variable {checks : Bool} {image : List UInt8} {n off base phoff phentsize : Nat}

theorem usize_isSome (h : checks = false ∨ n < 2 ^ 64) : ∃ r, usize checks n = some r := by
  unfold usize
  rcases h with rfl | h
  · split
    · exact ⟨_, rfl⟩
    · exact ⟨_, rfl⟩
  · exact ⟨n, if_pos h⟩

theorem total_readLe (h : checks = false ∨ off + n < 2 ^ 64) : Total (readLe checks image n off) := by
  obtain ⟨hi, hhi⟩ := usize_isSome h
  unfold readLe
  refine total_bind ⟨.ok hi, by rw [hhi]; rfl⟩ fun hi _ => ?_
  split
  · exact ⟨_, rfl⟩
  · exact total_pure _

/-- A field of `n` bytes, `k` bytes into the header at `base`, and what is done with it. -/
theorem total_field {α : Type} (h : checks = false ∨ base + 48 < 2 ^ 64) (hk : k + n ≤ 48)
    {f : Nat → Fallible ElfError α} (hf : ∀ v, Total (f v)) :
    Total (liftM (usize checks (base + k)) >>= fun off => readLe checks image n off >>= f) := by
  obtain ⟨r, hr⟩ : ∃ r, usize checks (base + k) = some r := usize_isSome (h.imp_right fun h => by omega)
  refine total_bind ⟨.ok r, by rw [hr]; rfl⟩ fun off hoff => total_bind (total_readLe ?_) fun v _ => hf v
  have hoff := usize_eq (lift_ok.mp hoff)
  exact h.imp_right fun h => by omega

theorem total_parseHeader (h : checks = false ∨ base + 48 < 2 ^ 64) : Total (parseHeader checks image st base) := by
  unfold parseHeader
  refine total_bind (total_readLe (h.imp_right fun h => by omega)) fun pType _ => ?_
  split
  · exact total_pure _
  refine total_field h (by decide) fun flags => total_field h (by decide) fun fileOffset =>
    total_field h (by decide) fun fileSize => total_field h (by decide) fun memSize => ?_
  refine total_bind (total_require _ _) fun _ _ => total_bind (total_require _ _) fun _ _ =>
    total_bind (total_require _ _) fun _ _ => total_bind (total_require _ _) fun _ _ =>
    total_bind (total_require _ _) fun _ _ => ?_
  exact total_field h (by decide) fun vaddr => total_pure _

theorem total_parseHeaders : ∀ {is : List Nat} {st : List LoadSegment × Nat},
      (checks = false ∨ ∀ i ∈ is, phoff + i * phentsize + 48 < 2 ^ 64) →
      Total (parseHeaders checks image phoff phentsize is st) := by
  intro is
  induction is with
  | nil => exact fun _ => total_pure _
  | cons i is ih =>
    intro st h
    have hbase : checks = false ∨ phoff + i * phentsize + 48 < 2 ^ 64 := h.imp_right fun h => h i mem_cons_self
    obtain ⟨r, hr⟩ : ∃ r, usize checks (phoff + i * phentsize) = some r :=
      usize_isSome (hbase.imp_right fun h => by omega)
    unfold parseHeaders
    refine total_bind ⟨.ok r, by rw [hr]; rfl⟩ fun base hb => ?_
    have hb := usize_eq (lift_ok.mp hb)
    refine total_bind (total_parseHeader (hbase.imp_right fun h => by omega)) fun st' _ => ?_
    exact ih (h.imp_right fun h j hj => h j (mem_cons_of_mem _ hj))

theorem fromLeBytes_lt (bs : List UInt8) : fromLeBytes bs < 256 ^ bs.length := by
  induction bs with
  | nil => decide
  | cons b bs ih =>
    have hb := b.toNat_lt
    rw [fromLeBytes, length_cons, Nat.pow_succ]
    omega

theorem readLe_ok (h : readLe checks image n off = some (.ok v)) (hoff : off + n < 2 ^ 64) :
    off + n ≤ image.length ∧ v < 256 ^ n := by
  obtain ⟨hi, hhi, h⟩ := bind_ok.mp h
  obtain rfl : hi = off + n := (usize_eq (lift_ok.mp hhi)).trans (Nat.mod_eq_of_lt hoff)
  unfold getRange at h
  by_cases hin : off ≤ off + n ∧ off + n ≤ image.length
  · rw [if_pos hin] at h
    obtain rfl := pure_ok.mp h
    have hlt := fromLeBytes_lt ((image.drop off).take (off + n - off))
    rw [length_take, length_drop, show min (off + n - off) (image.length - off) = n by omega] at hlt
    exact ⟨hin.2, hlt⟩
  · rw [if_neg hin] at h
    cases h

theorem total_parseHeaders_outside (hlt : phoff + 4 < 2 ^ 64)
    (hout : image.length < phoff + 4) : Total (parseHeaders checks image phoff phentsize (0 :: is) st) := by
  have hbase : usize checks (phoff + 0 * phentsize) = some phoff := by
    rw [Nat.zero_mul]
    exact usize_of_lt checks (by omega)
  have hread : ∀ v, readU32 checks image phoff ≠ some (.ok v) := by
    intro v hv
    have hin := (readLe_ok hv hlt).1
    omega
  unfold parseHeaders
  rw [hbase]
  refine total_bind ⟨.ok phoff, rfl⟩ fun base hb => ?_
  obtain rfl : phoff = base := Option.some.inj (lift_ok.mp hb)
  refine total_bind (total_bind (total_readLe (.inr hlt)) fun v hv => absurd hv (hread v)) fun st' hst => ?_
  obtain ⟨v, hv, -⟩ := bind_ok.mp hst
  exact absurd hv (hread v)

theorem total_parseHeaders_range (hlen : image.length < 2 ^ 63)
    (hphentsize : phentsize < 2 ^ 16) (hphnum : phnum < 2 ^ 16) (h : checks = false ∨ phnum = 0 ∨ phoff + 4 < 2 ^ 64) :
    Total (parseHeaders checks image phoff phentsize (List.range phnum) st) := by
  rcases h with h | rfl | h
  · exact total_parseHeaders (.inl h)
  · exact total_pure st
  by_cases hlow : phoff < 2 ^ 63
  · refine total_parseHeaders (.inr fun i hi => ?_)
    have hmul : i * phentsize ≤ 2 ^ 16 * 2 ^ 16 := Nat.mul_le_mul ((mem_range.mp hi).trans hphnum).le hphentsize.le
    omega
  · cases phnum with
    | zero => exact total_pure st
    | succ n =>
      rw [range_succ_eq_map]
      exact total_parseHeaders_outside h (by omega)

end

end SnitchOs.Proc
