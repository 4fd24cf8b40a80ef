/- digest: The target a branch unit predicts, read off the calls that led to its state. -/

import NpSim.Branch.Predictors
import NpSim.Lib.BoundedStack
import Mathlib.Data.List.Induction

set_option autoImplicit false
set_option relaxedAutoImplicit false

namespace NpSim.Branch

open NpSim.Lib

/-- A call on the branch unit. -/
inductive Call
  | update (pc : Addr) (taken : Bool) (target : Addr) (isCall isRet btbHit : Bool)
      (pred : BranchResult) (mispred : Bool)
  | clear (pc : Addr)
  | predict (pc : Addr)

namespace BranchUnit

variable {P : BranchParams}

def call (u : BranchUnit P) : Call → BranchUnit P
  | .update pc taken target isCall isRet btbHit pred mispred =>
    u.update pc taken target isCall isRet btbHit pred mispred
  | .clear pc => u.clearBtbEntry pc
  | .predict pc => (u.predict pc).2

def after (P : BranchParams) (calls : List Call) : BranchUnit P := calls.foldl call {}

theorem after_append (calls : List Call) (c : Call) :
    after P (calls ++ [c]) = (after P calls).call c := by
  unfold after
  rw [List.foldl_append]
  rfl

end BranchUnit

namespace BTBParams

variable (B : BTBParams)

def writes (i : Nat) : Call → Bool
  | .update pc taken .. => taken && B.index pc == i
  | .clear pc => B.index pc == i
  | .predict _ => false

def lastWrite (i : Nat) (calls : List Call) : Option Call := calls.reverse.find? (B.writes i)

/-- What a call leaves on the bounded stack of return addresses. -/
def resolve {n : Nat} (s : BoundedStack Addr n) : Call → BoundedStack Addr n
  | .update pc _ _ isCall isRet .. =>
    let s := if isCall then s.push (pc + 4) else s
    if isRet then s.pop else s
  | _ => s

/-- The return addresses of the resolved calls. -/
def returns (n : Nat) (calls : List Call) : BoundedStack Addr n :=
  calls.foldl resolve BoundedStack.empty

/-- The target predicted for `pc` after `calls`, and whether the prediction redirects: `taken` is
the direction. -/
def redirect (n : Nat) (calls : List Call) (pc : Addr) (taken : Bool) : Addr × Bool :=
  match B.lastWrite (B.index pc) calls with
  | some (.update pc' _ target _ isRet ..) =>
    if B.tag pc' = B.tag pc then
      match (returns n calls).top with
      | some top => if isRet ∧ target ≠ 0 then (top, top != 0) else (target, taken && target != 0)
      | none => (target, taken && target != 0)
    else (0, false)
  | _ => (0, false)

def entry : Option Call → BTBEntry
  | some (.update pc _ target _ isRet ..) =>
    { pcTag := B.tag pc, target := target, valid := true, type := if isRet then 1 else 0 }
  | _ => {}

theorem lastWrite_append (i : Nat) (calls : List Call) (c : Call) :
    B.lastWrite i (calls ++ [c]) = if B.writes i c then some c else B.lastWrite i calls := by
  unfold lastWrite
  rw [List.reverse_append]
  change (c :: calls.reverse).find? (B.writes i) = _
  rw [List.find?_cons]
  cases B.writes i c <;> rfl

theorem returns_append (n : Nat) (calls : List Call) (c : Call) :
    returns n (calls ++ [c]) = resolve (returns n calls) c := by
  unfold returns
  rw [List.foldl_append]
  rfl

def unit (bpu : BranchPred) (depth : Nat) : BranchParams :=
  { bpu := bpu, btb := B.compressed, rasDepth := depth }

theorem index_lt (pc : Addr) : B.index pc < 1 <<< B.entriesPow2 := by
  have hpos : 0 < 1 <<< B.entriesPow2 := by
    rw [Nat.one_shiftLeft]
    exact Nat.two_pow_pos _
  have hle : B.index pc ≤ indexMask B.entriesPow2 := Nat.and_le_right
  unfold indexMask at hle
  omega

end BTBParams

namespace BranchUnit

variable {B : BTBParams} {bpu : BranchPred} {n : Nat}

def table (u : BranchUnit (B.unit bpu n)) : Nat → BTBEntry := u.btb

/-- The buffer holds what the last write of each index left there, the ring the resolved
calls. -/
structure Tracks (calls : List Call) (u : BranchUnit (B.unit bpu n)) : Prop where
  entry : ∀ i, u.table i = B.entry (B.lastWrite i calls)
  ras : ∃ s, u.ras = some s ∧ BoundedStack.Ring s.stack s.tos s.cnt (BTBParams.returns n calls)

theorem tracks_init (hn : 0 < n) : Tracks [] ({} : BranchUnit (B.unit bpu n)) := by
  constructor
  · intro i
    rfl
  · refine ⟨ReturnAddrStack.new n, ?_, ?_⟩
    · change (if 0 < n then some (ReturnAddrStack.new n) else none) = _
      rw [if_pos hn]
    · exact BoundedStack.ring_empty List.length_replicate hn

private theorem table_write {table : Nat → BTBEntry} {calls : List Call} {c : Call} {j : Nat}
    {e : BTBEntry} (h : ∀ i, table i = B.entry (B.lastWrite i calls))
    (hw : ∀ i, B.writes i c = (j == i)) (he : e = B.entry (some c)) (i : Nat) :
    Function.update table j e i = B.entry (B.lastWrite i (calls ++ [c])) := by
  rw [B.lastWrite_append, hw]
  by_cases hi : i = j
  · subst hi
    rw [Function.update_self, beq_self_eq_true, if_pos rfl, he]
  · rw [Function.update_of_ne hi, h]
    have hne : (j == i) = false := by
      rw [beq_eq_false_iff_ne]
      exact fun hji => hi hji.symm
    rw [hne]
    rfl

private theorem table_keep {table : Nat → BTBEntry} {calls : List Call} {c : Call}
    (h : ∀ i, table i = B.entry (B.lastWrite i calls)) (hw : ∀ i, B.writes i c = false)
    (i : Nat) : table i = B.entry (B.lastWrite i (calls ++ [c])) := by
  rw [B.lastWrite_append, hw]
  exact h i

private theorem table_update (u : BranchUnit (B.unit bpu n)) (pc target : Addr)
    (isCall isRet btbHit : Bool) (pred : BranchResult) (mispred : Bool) :
    (u.update pc true target isCall isRet btbHit pred mispred).table =
      Function.update u.table (B.index pc)
        { pcTag := B.tag pc, target := target, valid := true
          type := if isRet then 1 else 0 } := by
  refine (if_pos (B.index_lt pc)).trans ?_
  change Function.update (Function.update u.table (B.index pc) _) (B.index pc) _ = _
  rw [Function.update_idem]
  change Function.update u.table (B.index pc)
    { Function.update u.table (B.index pc) _ (B.index pc) with type := _ } = _
  rw [Function.update_self]

private theorem ring_push {s : ReturnAddrStack} {r : BoundedStack Addr n} (a : Addr)
    (h : BoundedStack.Ring s.stack s.tos s.cnt r) :
    BoundedStack.Ring (s.push a).stack (s.push a).tos (s.push a).cnt (r.push a) := by
  have hp := h.push a
  simp only [ReturnAddrStack.push, h.length]
  exact hp

private theorem ring_pop {s : ReturnAddrStack} {r : BoundedStack Addr n}
    (h : BoundedStack.Ring s.stack s.tos s.cnt r) :
    BoundedStack.Ring s.pop.stack s.pop.tos s.pop.cnt r.pop := by
  by_cases hc : 0 < s.cnt
  · have hp := h.pop hc
    simp only [ReturnAddrStack.pop, if_pos hc, h.length]
    exact hp
  · have hpop : s.pop = s := by
      unfold ReturnAddrStack.pop
      rw [if_neg hc]
    have hnil : r.items = [] := by
      apply List.eq_nil_of_length_eq_zero
      have := h.count
      omega
    have hr : r.pop = r := by
      unfold BoundedStack.pop
      cases r with
      | mk items bound =>
        change items = [] at hnil
        subst hnil
        rfl
    rw [hpop, hr]
    exact h

private theorem ring_resolve {ras : ReturnAddrStack} {r : BoundedStack Addr n}
    (h : BoundedStack.Ring ras.stack ras.tos ras.cnt r) (pc : Addr) (isCall isRet : Bool) :
    let s := if isCall then ras.push (pc + 4) else ras
    let s := if isRet then s.pop else s
    let r := if isCall then r.push (pc + 4) else r
    let r := if isRet then r.pop else r
    BoundedStack.Ring s.stack s.tos s.cnt r := by
  intro s₁ s₂ r₁ r₂
  have h₁ : BoundedStack.Ring s₁.stack s₁.tos s₁.cnt r₁ := by
    cases isCall with
    | false => exact h
    | true => exact ring_push (pc + 4) h
  cases isRet with
  | false => exact h₁
  | true => exact ring_pop h₁

theorem Tracks.update {calls : List Call} {u : BranchUnit (B.unit bpu n)} (h : Tracks calls u)
    (pc : Addr) (taken : Bool) (target : Addr) (isCall isRet btbHit : Bool)
    (pred : BranchResult) (mispred : Bool) :
    Tracks (calls ++ [.update pc taken target isCall isRet btbHit pred mispred])
      (u.update pc taken target isCall isRet btbHit pred mispred) := by
  constructor
  · cases taken with
    | false => exact table_keep h.entry fun _ => rfl
    | true =>
      intro i
      rw [table_update]
      exact table_write (c := .update pc true target isCall isRet btbHit pred mispred)
        h.entry (fun i => Bool.true_and (B.index pc == i)) rfl i
  · obtain ⟨ras, hras, hr⟩ := h.ras
    have hmap : (u.update pc taken target isCall isRet btbHit pred mispred).ras =
        u.ras.map fun s =>
          let s := if isCall then s.push (pc + 4) else s
          if isRet then s.pop else s := by
      cases taken <;> rfl
    refine ⟨_, hmap.trans (congrArg _ hras), ?_⟩
    rw [BTBParams.returns_append]
    exact ring_resolve hr pc isCall isRet

theorem Tracks.clear {calls : List Call} {u : BranchUnit (B.unit bpu n)} (h : Tracks calls u)
    (pc : Addr) : Tracks (calls ++ [.clear pc]) (u.clearBtbEntry pc) := by
  constructor
  · exact table_write (c := .clear pc) h.entry (fun _ => rfl) rfl
  · rw [BTBParams.returns_append]
    exact h.ras

theorem Tracks.predict {calls : List Call} {u : BranchUnit (B.unit bpu n)} (h : Tracks calls u)
    (pc : Addr) : Tracks (calls ++ [.predict pc]) (u.predict pc).2 := by
  constructor
  · exact table_keep (c := .predict pc) h.entry fun _ => rfl
  · rw [BTBParams.returns_append]
    exact h.ras

theorem tracks_after (hn : 0 < n) (calls : List Call) :
    Tracks calls (after (B.unit bpu n) calls) := by
  induction calls using List.reverseRecOn with
  | nil => exact tracks_init hn
  | append_singleton calls c ih =>
    rw [after_append]
    cases c with
    | update pc taken target isCall isRet btbHit pred mispred =>
      exact ih.update pc taken target isCall isRet btbHit pred mispred
    | clear pc => exact ih.clear pc
    | predict pc => exact ih.predict pc

theorem Tracks.btbTarget {calls : List Call} {u : BranchUnit (B.unit bpu n)}
    (h : Tracks calls u) (hdff : B.sramDff = true) (pc : Addr) :
    u.btbTarget pc =
      if (B.entry (B.lastWrite (B.index pc) calls)).valid &&
          (B.entry (B.lastWrite (B.index pc) calls)).pcTag == B.tag pc then
        (B.entry (B.lastWrite (B.index pc) calls)).target
      else 0 := by
  rw [← h.entry]
  have hc : (B.unit bpu n).btb.hasRwConflict = false := by
    change (!B.sramDff) = false
    rw [hdff]
    rfl
  unfold BranchUnit.btbTarget
  rw [hc]
  rfl

theorem Tracks.rasOverride {calls : List Call} {u : BranchUnit (B.unit bpu n)}
    (h : Tracks calls u) (pc target : Addr) (taken : Bool) :
    u.rasOverride pc target taken =
      match (BTBParams.returns n calls).top with
      | some top =>
        if target ≠ 0 ∧ (B.entry (B.lastWrite (B.index pc) calls)).type = 1 then (top, true)
        else (target, taken)
      | none => (target, taken) := by
  obtain ⟨ras, hras, hr⟩ := h.ras
  have htype : (B.unit bpu n).btb.entryType u.btb (btbIndex (B.unit bpu n) pc) =
      (B.entry (B.lastWrite (B.index pc) calls)).type := by
    rw [← h.entry]
    exact if_pos (B.index_lt pc)
  unfold BranchUnit.rasOverride
  rw [hras]
  dsimp only
  rw [htype]
  by_cases hc : 0 < ras.cnt
  · have htop := hr.top hc
    have hlt : ras.tos < ras.stack.length := by
      rw [hr.length]
      exact hr.tos_lt
    have hcell : ras.stack[ras.tos]? = some ras.top := by
      unfold ReturnAddrStack.top
      rw [if_pos hc, List.getD_eq_getElem?_getD, List.getElem?_eq_getElem hlt]
      rfl
    have hvalid : ras.valid = true := decide_eq_true hc
    have hand : (target ≠ 0 ∧ (B.entry (B.lastWrite (B.index pc) calls)).type = 1 ∧
        ras.valid = true) ↔
        (target ≠ 0 ∧ (B.entry (B.lastWrite (B.index pc) calls)).type = 1) := by
      rw [hvalid]
      exact ⟨fun hx => ⟨hx.1, hx.2.1⟩, fun hx => ⟨hx.1, hx.2, rfl⟩⟩
    rw [htop, hcell, if_congr hand rfl rfl]
  · have hvalid : ras.valid = false := decide_eq_false hc
    have hnone : (BTBParams.returns n calls).top = none := by
      have hl := hr.count
      have hnil : (BTBParams.returns n calls).items = [] :=
        List.eq_nil_of_length_eq_zero (by omega)
      unfold BoundedStack.top
      rw [hnil]
      rfl
    rw [hvalid, hnone]
    exact if_neg fun hx => Bool.noConfusion hx.2.2

/-- What the target buffer and the override make of a direction is what the history makes of it. -/
theorem Tracks.redirect {calls : List Call} {u : BranchUnit (B.unit bpu n)} (h : Tracks calls u)
    (hdff : B.sramDff = true) (pc : Addr) (taken : Bool) :
    ((u.rasOverride pc (u.btbTarget pc) taken).1,
      (u.rasOverride pc (u.btbTarget pc) taken).2 &&
        (u.rasOverride pc (u.btbTarget pc) taken).1 != 0) = B.redirect n calls pc taken := by
  rw [h.rasOverride, h.btbTarget hdff]
  unfold BTBParams.redirect
  cases B.lastWrite (B.index pc) calls with
  | none => cases (BTBParams.returns n calls).top <;> simp [BTBParams.entry]
  | some c =>
    cases c with
    | clear pc' => cases (BTBParams.returns n calls).top <;> simp [BTBParams.entry]
    | predict pc' => cases (BTBParams.returns n calls).top <;> simp [BTBParams.entry]
    | update pc' tk target isCall isRet btbHit pred mispred =>
      by_cases htag : B.tag pc' = B.tag pc
      · cases (BTBParams.returns n calls).top with
        | none => simp [BTBParams.entry, htag]
        | some top =>
          cases isRet with
          | false => simp [BTBParams.entry, htag]
          | true => by_cases ht : target = 0#32 <;> simp [BTBParams.entry, htag, ht]
      · cases (BTBParams.returns n calls).top <;> simp [BTBParams.entry, htag]

/-- The prediction made after `calls` is the one their history gives. -/
theorem redirect_refines (B : BTBParams) (hdff : B.sramDff = true) (bpu : BranchPred) {n : Nat}
    (hn : 0 < n) (calls : List Call) (pc : Addr) :
    let u := after (B.unit bpu n) calls
    let r := (u.predict pc).1
    (r.predTarget, r.willRedirect) =
      B.redirect n calls pc (bpu.predict u.bpu pc (u.btbTarget pc)).1.taken := by
  intro u r
  exact (tracks_after hn calls).redirect hdff pc _

section

private def small : BTBParams := { entriesPow2 := 4 }

/-- Two calls from `pc` and the return of the second, whose target is `target`. -/
private def visits (pc target : Addr) : List Call :=
  [.update pc true 0x200 true false true {} false,
    .update 0x104 true 0x200 true false true {} false,
    .update 0x208 true target false true true {} false]

theorem redirect_refines_return :
    let u := after (small.unit alwaysTaken 2) (visits 0x300 0x108)
    ((u.predict 0x208).1.predTarget, (u.predict 0x208).1.willRedirect) =
      small.redirect 2 (visits 0x300 0x108) 0x208 true :=
  redirect_refines small rfl alwaysTaken (by decide) (visits 0x300 0x108) 0x208

/-- The stack is not empty, and the return is not redirected to its top: not when its own target
was zero, nor when the top is. -/
theorem return_not_redirected :
    (small.lastWrite (small.index 0x208) (visits 0x300 0) =
        some (.update 0x208 true 0 false true true {} false) ∧
      (BTBParams.returns 2 (visits 0x300 0)).top = some 0x304 ∧
      ((after (small.unit alwaysTaken 2) (visits 0x300 0)).predict 0x208).1.predTarget = 0 ∧
      ((after (small.unit alwaysTaken 2) (visits 0x300 0)).predict 0x208).1.willRedirect =
        false) ∧
    small.lastWrite (small.index 0x208) (visits 0xfffffffc 0x108) =
        some (.update 0x208 true 0x108 false true true {} false) ∧
      (BTBParams.returns 2 (visits 0xfffffffc 0x108)).top = some 0 ∧
      ((after (small.unit alwaysTaken 2) (visits 0xfffffffc 0x108)).predict
        0x208).1.willRedirect = false := by
  refine ⟨⟨rfl, ?_, ?_, ?_⟩, rfl, ?_, ?_⟩ <;> decide

end

end BranchUnit

end NpSim.Branch
