/- digest: How long an SDRAM access takes when its host waits for the one before, and what becomes
   of the bound when the tick outgrows its type. -/

import NpSim.Mem.SdramHistory

set_option autoImplicit false
set_option relaxedAutoImplicit false

namespace NpSim.Mem.Sdram

/-- The last access of the host has completed when `a` is made, as the model told the host. -/
def Completed (ratio : Nat) (calls : List Call) (a : Access) : Prop :=
  ∀ pre p mid, calls = pre ++ .access p :: mid → p.host = a.host →
    (∀ b, .access b ∈ mid → b.host ≠ a.host) →
    p.tick + ((run ratio pre).access ratio p).1 ≤ a.tick

/-- The device tick at which the controller of its host can begin with `a`. -/
def startAt (ratio : Nat) (m : SdramModel) (a : Access) : Int :=
  max (a.dev ratio : Int) (m.ctrlFreeAt a.host)

/-- Neither the narrowing of the tick nor `int` arithmetic is at its limit when `a` is made. -/
structure InRange (ratio : Nat) (m : SdramModel) (a : Access) : Prop where
  tick : a.tick < 2 ^ 32
  completion : startAt ratio m a + (2 * a.bstLen + 6 : Nat) < 2 ^ 31
  refresh : (a.dev ratio / refreshPeriod + 1) * refreshPeriod < 2 ^ 31
  latency : ratio * (startAt ratio m a - a.dev ratio + (2 * a.bstLen + 6 : Nat)) < 2 ^ 31

/-- Every access is of a word at least, and in range in the state in which it is made. -/
def Ranged (ratio : Nat) (calls : List Call) : Prop :=
  ∀ pre a post, calls = pre ++ .access a :: post → 1 ≤ a.bstLen ∧ InRange ratio (run ratio pre) a

private theorem cycles_le (ratio : Nat) (past : List Access) (a : Access) :
    cycles ratio past a ≤ 2 * a.bstLen + 6 := by
  unfold cycles
  have hbase : (if a.isWrite then 0 else 2) ≤ 2 := by split <;> decide
  have hextra : (outcome ratio past a).extra ≤ 4 := by
    cases outcome ratio past a <;> decide
  omega

private theorem freeAt_cases (ratio : Nat) (calls : List Call) (h : Nat) :
    freeAt ratio (since calls) h = 0 ∨ ∃ pre p mid, calls = pre ++ .access p :: mid ∧ p.host = h ∧
      (∀ b, .access b ∈ mid → b.host ≠ h) ∧
      freeAt ratio (since calls) h = freeAt ratio (p :: since pre) p.host := by
  induction calls using List.reverseRecOn with
  | nil => exact .inl rfl
  | append_singleton calls c ih =>
    rw [since_append]
    cases c with
    | reset => exact .inl rfl
    | access b =>
      by_cases hb : b.host = h
      · exact .inr ⟨calls, b, [], rfl, hb, (fun x hx => by cases hx), by rw [hb]⟩
      · have hsame : freeAt ratio (b :: since calls) h = freeAt ratio (since calls) h :=
          if_neg hb
        dsimp only
        rw [hsame]
        rcases ih with ih | ⟨pre, p, mid, rfl, hp, hmid, hf⟩
        · exact .inl ih
        · refine .inr ⟨pre, p, mid ++ [.access b], by simp, hp, fun x hx => ?_, hf⟩
          rcases List.mem_append.mp hx with hx | hx
          · exact hmid x hx
          · cases List.mem_singleton.mp hx
            exact hb

theorem Legal.take (rest : List Call) {ratio : Nat} {calls : List Call}
    (h : Legal ratio (calls ++ rest)) :
    Legal ratio calls := by
  induction rest using List.reverseRecOn with
  | nil => rwa [List.append_nil] at h
  | append_singleton rest c ih =>
    rw [← List.append_assoc] at h
    exact ih h.front

private theorem freeAt_le_of_completed {ratio : Nat} (hr : 0 < ratio) {calls : List Call}
    {a : Access} (h : Legal ratio calls) (hdone : Completed ratio calls a) :
    freeAt ratio (since calls) a.host ≤ a.dev ratio := by
  rcases freeAt_cases ratio calls a.host with h0 | ⟨pre, p, mid, heq, hhost, hmid, hf⟩
  · rw [h0]
    exact Nat.zero_le _
  · have hlast := hdone pre p mid heq hhost hmid
    have hlegal : Legal ratio (pre ++ [.access p]) := by
      refine Legal.take mid ?_
      rwa [List.append_assoc, List.singleton_append, ← heq]
    rw [access_latency hlegal] at hlast
    rw [hf, freeAt_self]
    unfold latency at hlast
    have hdiv := Nat.div_le_div_right (c := ratio) hlast
    rw [Nat.add_mul_div_left _ _ hr] at hdiv
    change p.dev ratio + _ ≤ a.dev ratio at hdiv
    omega

private theorem startAt_eq {ratio : Nat} {past : List Access} {m : SdramModel} (a : Access)
    (h : Refines ratio past m) :
    startAt ratio m a = (max (a.dev ratio) (freeAt ratio past a.host) : Nat) := by
  unfold startAt
  rw [h.free]
  omega

private theorem InRange.fits {ratio : Nat} {past : List Access} {m : SdramModel} {a : Access}
    (h : InRange ratio m a) (hm : Refines ratio past m) : Fits ratio past a := by
  have hcyc := cycles_le ratio past a
  have hcomp := h.completion
  have hlat := h.latency
  rw [startAt_eq a hm] at hcomp hlat
  have hdev : a.dev ratio ≤ max (a.dev ratio) (freeAt ratio past a.host) := le_max_left ..
  refine ⟨h.tick, ?_, h.refresh, ?_⟩
  · rw [freeAt_self]
    omega
  · rw [← Nat.cast_sub hdev, ← Nat.cast_add, ← Nat.cast_mul] at hlat
    refine lt_of_le_of_lt (Nat.mul_le_mul_left ratio (Nat.add_le_add_left hcyc _)) ?_
    exact_mod_cast hlat

/-- In a sequence in range every access fits. -/
theorem legal_of_ranged {ratio : Nat} {calls : List Call}
    (hsorted : (calls.filterMap Call.tick?).Pairwise (· ≤ ·)) (hin : Ranged ratio calls) :
    Legal ratio calls := by
  induction calls using List.reverseRecOn with
  | nil => exact legal_nil ratio
  | append_singleton calls c ih =>
    rw [List.filterMap_append, List.pairwise_append] at hsorted
    have hfront : Legal ratio calls := by
      refine ih hsorted.1 fun pre a post heq => ?_
      exact hin pre a (post ++ [c]) (by rw [heq, List.append_assoc]; rfl)
    refine hfront.snoc fun a ha => ?_
    subst ha
    obtain ⟨hlen, hrange⟩ := hin calls a [] rfl
    refine ⟨hlen, fun t ht => ?_, hrange.fits (run_refines hfront)⟩
    exact hsorted.2.2 t ht a.tick (by simp [Call.tick?])

/-- An access that comes after the completion of the last access of its host takes no longer than
its own cycles, as long as ticks and `int` values are in range; the other accesses may overlap. -/
theorem latency_bounded {ratio : Nat} (hr : 0 < ratio) {calls : List Call}
    (hsorted : (calls.filterMap Call.tick?).Pairwise (· ≤ ·)) (hin : Ranged ratio calls)
    {pre post : List Call} {a : Access} (heq : calls = pre ++ .access a :: post)
    (hdone : Completed ratio pre a) :
    ((run ratio pre).access ratio a).1 ≤ ratio * (2 * a.bstLen + 2 + 4) := by
  have h : Legal ratio (pre ++ [.access a]) := by
    refine Legal.take post ?_
    rw [List.append_assoc, List.singleton_append, ← heq]
    exact legal_of_ranged hsorted hin
  have hfree := freeAt_le_of_completed hr h.front hdone
  rw [access_latency h]
  unfold latency
  rw [max_eq_left hfree, Nat.sub_self, Nat.zero_add]
  exact Nat.mul_le_mul_left _ (cycles_le ratio (since pre) a)

private theorem Ranged.snoc {ratio : Nat} {calls : List Call} {a : Access} (h : Ranged ratio calls)
    (ha : 1 ≤ a.bstLen ∧ InRange ratio (run ratio calls) a) :
    Ranged ratio (calls ++ [.access a]) := by
  intro pre b post heq
  rcases split_concat heq with ⟨rfl, hb⟩ | ⟨post', hl⟩
  · cases hb
    exact ha
  · exact h pre b post' hl

private theorem completed_of_last {ratio : Nat} {pre mid : List Call} {p a : Access}
    (hp : p.host = a.host) (hmid : ∀ b, .access b ∈ mid → b.host ≠ a.host)
    (hdone : p.tick + ((run ratio pre).access ratio p).1 ≤ a.tick) :
    Completed ratio (pre ++ .access p :: mid) a := by
  intro pre' p' mid' heq hp' hmid'
  rcases List.append_eq_append_iff.mp heq with ⟨l, rfl, hl⟩ | ⟨l, rfl, hl⟩
  · cases l with
    | nil =>
      cases hl
      rw [List.append_nil]
      exact hdone
    | cons x l =>
      cases hl
      exact absurd hp' (hmid p' (List.mem_append_right _ List.mem_cons_self))
  · cases l with
    | nil =>
      cases hl
      rw [List.append_nil] at hdone
      exact hdone
    | cons x l =>
      cases hl
      exact absurd hp (hmid' p (List.mem_append_right _ List.mem_cons_self))

/-- Two reads of host 0, and between them two of host 1 that overlap. -/
private def overlapped : List Call :=
  [.access (read4 0x80000000 100), .access { read4 0x80001000 110 with hostId := 1 },
    .access { read4 0x80002000 115 with hostId := 1 }]

/-- The second read of host 0 comes after the completion of the first one. -/
theorem latency_bounded_hit :
    ((run 10 overlapped).access 10 (read4 0x80000010 230)).1 ≤ 140 := by
  have h₀ : Ranged 10 [] := fun pre a post h => absurd h (by simp)
  have h₁ := h₀.snoc (a := read4 0x80000000 100) ⟨by decide, by decide, by decide, by decide,
    by decide⟩
  have h₂ := h₁.snoc (a := { read4 0x80001000 110 with hostId := 1 }) ⟨by decide, by decide,
    by decide, by decide, by decide⟩
  have h₃ := h₂.snoc (a := { read4 0x80002000 115 with hostId := 1 }) ⟨by decide, by decide,
    by decide, by decide, by decide⟩
  have h₄ := h₃.snoc (a := read4 0x80000010 230) ⟨by decide, by decide, by decide, by decide,
    by decide⟩
  have hdone : Completed 10 overlapped (read4 0x80000010 230) := by
    refine @completed_of_last 10 [] _ _ _ rfl (fun b hb => ?_) (by decide)
    simp only [List.mem_cons, Call.access.injEq, List.not_mem_nil, or_false] at hb
    rcases hb with rfl | rfl <;> decide
  exact latency_bounded (by decide) (by decide) h₄ rfl hdone

/-- The tick of the second read has lost its upper half: the controller seems busy until the
completion of the first one, which is long past. -/
theorem latency_wraps : ¬∀ (ratio : Nat) (calls : List Call) (a : Access), 0 < ratio →
    ((calls ++ [Call.access a]).filterMap Call.tick?).Pairwise (· ≤ ·) →
    (∀ t ∈ (calls ++ [Call.access a]).filterMap Call.tick?, t < 2 ^ 64) →
    Completed ratio calls a →
    ((run ratio calls).access ratio a).1 ≤ ratio * (2 * a.bstLen + 2 + 4) := by
  intro h
  have := h 10 [.access (read4 0x80000000 1000)] (read4 0x80000010 (2 ^ 32 + 100)) (by decide)
    (by decide) (by decide)
    (@completed_of_last 10 [] [] _ _ rfl (fun b hb => by cases hb) (by decide))
  exact absurd this (by decide)

end NpSim.Mem.Sdram
