/- digest: What the core waits for: instruction fetches in the order of their requests, and at most
   one data access. -/

import NpSim.Pipe.Breakdown
import NpSim.Pipe.Scoreboard

set_option autoImplicit false
set_option relaxedAutoImplicit false

namespace NpSim.Pipe

open NpSim.Lib.Partial Relation

/-- The addresses whose flag says that their response is wanted. -/
def claimed : List Bool → List Addr → List Addr
  | false :: flags, a :: reqs => a :: claimed flags reqs
  | true :: flags, _ :: reqs => claimed flags reqs
  | _, _ => []

theorem claimed_append {flags : List Bool} {reqs : List Addr} (h : flags.length = reqs.length)
    (flags' : List Bool) (reqs' : List Addr) :
    claimed (flags ++ flags') (reqs ++ reqs') = claimed flags reqs ++ claimed flags' reqs' := by
  induction flags generalizing reqs with
  | nil =>
    cases List.eq_nil_of_length_eq_zero h.symm
    rfl
  | cons b flags ih =>
    cases reqs with
    | nil => cases h
    | cons a reqs =>
      have ih := ih (Nat.succ.inj h)
      cases b with
      | false => exact congrArg (a :: ·) ih
      | true => exact ih

theorem claimed_orphans (flags : List Bool) (reqs : List Addr) :
    claimed (flags.map fun _ => true) reqs = [] := by
  induction flags generalizing reqs with
  | nil => rfl
  | cons b flags ih =>
    cases reqs with
    | nil => rfl
    | cons a reqs => exact ih reqs

/-- The fetches in flight have the addresses `reqs`, oldest first: each has its flag, and the ones
that are no orphans belong, in order, to the entries of `queue` that wait, its last ones. -/
structure Paired (queue : List Transaction) (flags : List Bool) (reqs : List Addr) : Prop where
  length : flags.length = reqs.length
  claims : ∃ done wait, queue = done ++ wait ∧ (∀ x ∈ done, x.waitMem = false) ∧
    (∀ x ∈ wait, x.waitMem = true) ∧ claimed flags reqs = wait.map (·.traceInst.pc)

namespace Paired

variable {queue : List Transaction} {flags : List Bool} {reqs : List Addr}

theorem nil : Paired [] [] [] :=
  ⟨rfl, [], [], rfl, by simp, by simp, rfl⟩

theorem orphan (h : Paired queue flags reqs) (a : Addr) :
    Paired queue (flags ++ [true]) (reqs ++ [a]) := by
  obtain ⟨done, wait, hq, hd, hw, hc⟩ := h.claims
  refine ⟨by simp [h.length], done, wait, hq, hd, hw, ?_⟩
  rw [claimed_append h.length, hc]
  exact List.append_nil _

theorem request (h : Paired queue flags reqs) {y : Transaction} (hy : y.waitMem = true) :
    Paired (queue ++ [y]) (flags ++ [false]) (reqs ++ [y.traceInst.pc]) := by
  obtain ⟨done, wait, hq, hd, hw, hc⟩ := h.claims
  refine ⟨by simp [h.length], done, wait ++ [y], by rw [hq, List.append_assoc], hd, ?_, ?_⟩
  · intro x hx
    rcases List.mem_append.mp hx with hx | hx
    · exact hw x hx
    · rw [List.mem_singleton.mp hx]
      exact hy
  · rw [claimed_append h.length, hc, List.map_append]
    rfl

theorem flush (h : Paired queue flags reqs) : Paired [] (flags.map fun _ => true) reqs :=
  ⟨by rw [List.length_map, h.length], [], [], rfl, by simp, by simp, claimed_orphans flags reqs⟩

theorem head {p : Transaction} {rest new : List Transaction} (h : Paired (p :: rest) flags reqs)
    (hp : p.waitMem = false) (hn : ∀ x ∈ new, x.waitMem = false) :
    Paired (new ++ rest) flags reqs := by
  obtain ⟨done, wait, hq, hd, hw, hc⟩ := h.claims
  cases done with
  | nil =>
    have hmem : p ∈ wait := by
      rw [← List.nil_append wait, ← hq]
      exact List.mem_cons_self
    rw [hw p hmem] at hp
    cases hp
  | cons d done =>
    rw [List.cons_append, List.cons.injEq] at hq
    refine ⟨h.length, new ++ done, wait, by rw [hq.2, List.append_assoc], ?_, hw, hc⟩
    intro x hx
    rcases List.mem_append.mp hx with hx | hx
    · exact hn x hx
    · exact hd x (List.mem_cons_of_mem d hx)

theorem ignore {b : Addr} (h : Paired queue (true :: flags) (b :: reqs)) :
    Paired queue flags reqs := by
  obtain ⟨done, wait, hq, hd, hw, hc⟩ := h.claims
  exact ⟨Nat.succ.inj h.length, done, wait, hq, hd, hw, hc⟩

private theorem answerFirst_append {done wait : List Transaction} {y : Transaction}
    (hd : ∀ x ∈ done, x.waitMem = false) (hy : y.waitMem = true) :
    Pipeline.answerFirst (done ++ y :: wait) =
      some (done ++ { y with waitMem := false } :: wait) := by
  induction done with
  | nil =>
    unfold Pipeline.answerFirst
    exact if_pos hy
  | cons d done ih =>
    have hd0 := hd d List.mem_cons_self
    rw [List.cons_append, Pipeline.answerFirst, if_neg (by rw [hd0]; decide),
      ih fun x hx => hd x (List.mem_cons_of_mem d hx)]
    rfl

theorem respond {a : Addr} (h : Paired queue (false :: flags) (a :: reqs)) :
    ∃ done y wait, queue = done ++ y :: wait ∧ (∀ x ∈ done, x.waitMem = false) ∧
      y.waitMem = true ∧ y.traceInst.pc = a ∧
      Pipeline.answerFirst queue = some (done ++ { y with waitMem := false } :: wait) ∧
      Paired (done ++ { y with waitMem := false } :: wait) flags reqs := by
  obtain ⟨done, wait, hq, hd, hw, hc⟩ := h.claims
  cases wait with
  | nil => cases hc
  | cons y wait =>
    have hy := hw y List.mem_cons_self
    simp only [claimed, List.map_cons, List.cons.injEq] at hc
    refine ⟨done, y, wait, hq, hd, hy, hc.1.symm, by rw [hq, answerFirst_append hd hy],
      Nat.succ.inj h.length, done ++ [{ y with waitMem := false }], wait, ?_, ?_, ?_, hc.2⟩
    · rw [List.append_assoc]
      rfl
    · intro x hx
      rcases List.mem_append.mp hx with hx | hx
      · exact hd x hx
      · rw [List.mem_singleton.mp hx]
    · exact fun x hx => hw x (List.mem_cons_of_mem y hx)

end Paired

/-- A transaction that waits for memory is in Execute, with the Memory slot empty. -/
def Settled (slot : PipeStage → Option Transaction) : Prop :=
  ∀ s x, slot s = some x → x.waitMem = true → s = .execute ∧ slot .memory = none

namespace Settled

variable {slot : PipeStage → Option Transaction}

theorem init : Settled fun _ => none := by
  intro s x hx
  cases hx

theorem clear (h : Settled slot) (s : PipeStage) : Settled (Function.update slot s none) := by
  intro t x hx hw
  by_cases ht : t = s
  · rw [ht, Function.update_self] at hx
    cases hx
  · rw [Function.update_of_ne ht] at hx
    obtain ⟨he, hm⟩ := h t x hx hw
    refine ⟨he, ?_⟩
    by_cases hms : PipeStage.memory = s
    · rw [hms, Function.update_self]
    · rw [Function.update_of_ne hms]
      exact hm

/-- A transaction that does not wait may enter a slot; the Memory slot only while Execute is
empty. -/
theorem put (h : Settled slot) {s : PipeStage} {y : Transaction} (hy : y.waitMem = false)
    (hs : s = .memory → slot .execute = none) : Settled (Function.update slot s (some y)) := by
  intro t x hx hw
  by_cases ht : t = s
  · rw [ht, Function.update_self] at hx
    cases hx
    rw [hw] at hy
    cases hy
  · rw [Function.update_of_ne ht] at hx
    obtain ⟨rfl, hm⟩ := h t x hx hw
    refine ⟨rfl, ?_⟩
    by_cases hms : PipeStage.memory = s
    · rw [hs hms.symm] at hx
      cases hx
    · rw [Function.update_of_ne hms]
      exact hm

theorem wait (h : Settled slot) (hm : slot .memory = none) (y : Transaction) :
    Settled (Function.update slot .execute (some y)) := by
  intro t x hx hw
  have hm' : Function.update slot .execute (some y) .memory = none := by
    rw [Function.update_of_ne (by decide)]
    exact hm
  by_cases ht : t = .execute
  · exact ⟨ht, hm'⟩
  · rw [Function.update_of_ne ht] at hx
    exact ⟨(h t x hx hw).1, hm'⟩

theorem of_ne (h : Settled slot) {s : PipeStage} {x : Transaction} (hs : s ≠ .execute)
    (hx : slot s = some x) : x.waitMem = false := by
  rcases Bool.eq_false_or_eq_true x.waitMem with hw | hw
  · exact absurd (h s x hx hw).1 hs
  · exact hw

end Settled

end NpSim.Pipe
