/- digest: Returns of well-nested calls are predicted to the instruction after their call. -/

import NpSim.Branch.Targets
import NpSim.Lib.Nesting

set_option autoImplicit false
set_option relaxedAutoImplicit false

namespace NpSim.Branch

open NpSim.Lib

namespace Call

/-- What `update` does to the return stack: a call pushes, a return pops, and a call that is also
a return does both. -/
def ops : Call → List (Option Addr)
  | .update pc _ _ isCall isRet .. =>
    (if isCall then [some (pc + 4)] else []) ++ (if isRet then [none] else [])
  | _ => []

/-- The returns of `calls` match their calls, and at most `d` calls are open at any time. -/
def Nested (d : Nat) (calls : List Call) : Prop := BoundedStack.Nested d (calls.flatMap ops)

end Call

namespace BTBParams

variable (B : BTBParams) {n : Nat}

private theorem resolve_run (s : BoundedStack Addr n) (c : Call) : resolve s c = s.run c.ops := by
  cases c with
  | update pc taken target isCall isRet btbHit pred mispred =>
    cases isCall <;> cases isRet <;> rfl
  | clear pc => rfl
  | predict pc => rfl

private theorem resolve_foldl (calls : List Call) (s : BoundedStack Addr n) :
    calls.foldl resolve s = s.run (calls.flatMap Call.ops) := by
  induction calls generalizing s with
  | nil => rfl
  | cons c calls ih =>
    rw [List.foldl_cons, ih, resolve_run, List.flatMap_cons, BoundedStack.run_append]

/-- The newest return address of an open call stays on top while the calls resolved after it are
nested less deep than the stack. -/
theorem returns_top {d : Nat} (hd : d < n) (before inner : List Call)
    (hinner : Call.Nested d inner) (pc : Addr) (c : Call) (hc : c.ops = [some (pc + 4)]) :
    (returns n (before ++ c :: inner)).top = some (pc + 4) := by
  have hrun : returns n (before ++ c :: inner) =
      ((returns n before).push (pc + 4)).run (inner.flatMap Call.ops) := by
    change (before ++ c :: inner).foldl resolve BoundedStack.empty = _
    rw [List.foldl_append, List.foldl_cons, resolve_foldl inner, resolve_run, hc]
    rfl
  obtain ⟨hkept, _⟩ := BoundedStack.Nested.run hinner ((returns n before).push (pc + 4))
  rw [← hrun] at hkept
  obtain ⟨rest, hrest⟩ := hkept
  obtain ⟨k, hk⟩ : ∃ k, n - d = k + 1 := Nat.exists_eq_succ_of_ne_zero (by omega)
  obtain ⟨m, hm⟩ : ∃ m, n = m + 1 := Nat.exists_eq_succ_of_ne_zero (by omega)
  have hpush : ((returns n before).push (pc + 4)).items =
      (pc + 4) :: (returns n before).items.take m := by
    change ((pc + 4) :: (returns n before).items).take n = _
    rw [hm, List.take_succ_cons]
  rw [hpush, hk, List.take_succ_cons] at hrest
  change (returns n (before ++ c :: inner)).items.head? = _
  rw [← hrest]
  rfl

end BTBParams

namespace BranchUnit

variable {B : BTBParams} {bpu : BranchPred} {n d : Nat}

/-- A return that the target buffer knows is predicted to the instruction after its call, whatever
the direction predictor says, once the call is resolved and the calls resolved since are nested
less deep than the return stack. -/
theorem return_to_caller (hdff : B.sramDff = true) (hd : d < n) (before inner : List Call)
    (hinner : Call.Nested d inner) (pc ret pc' target' : Addr) (call written : Call)
    (hcall : call.ops = [some (pc + 4)])
    (hwritten : B.lastWrite (B.index ret) (before ++ call :: inner) = some written)
    (hret : ∃ taken isCall btbHit pred mispred,
      written = .update pc' taken target' isCall true btbHit pred mispred)
    (htag : B.tag pc' = B.tag ret) (htarget : target' ≠ 0) :
    let u := after (B.unit bpu n) (before ++ call :: inner)
    (u.predict ret).1.predTarget = pc + 4 ∧ (u.predict ret).1.willRedirect = (pc + 4 != 0) := by
  intro u
  have hn : 0 < n := Nat.lt_of_le_of_lt (Nat.zero_le d) hd
  have hredirect : ((u.predict ret).1.predTarget, (u.predict ret).1.willRedirect) = _ :=
    (tracks_after hn (before ++ call :: inner)).redirect hdff ret _
  obtain ⟨taken, isCall, btbHit, pred, mispred, rfl⟩ := hret
  have hfrom : ∀ direction, B.redirect n (before ++ call :: inner) ret direction =
      (pc + 4, pc + 4 != 0) := by
    intro direction
    unfold BTBParams.redirect
    rw [hwritten, BTBParams.returns_top hd before inner hinner pc call hcall]
    dsimp only
    rw [if_pos htag, if_pos ⟨rfl, htarget⟩]
  have heq := hredirect.trans (hfrom _)
  constructor
  · exact congrArg Prod.fst heq
  · exact congrArg Prod.snd heq

section

private def sixteen : BTBParams := { entriesPow2 := 4 }

private def callFrom (pc target : Addr) : Call := .update pc true target true false true {} false

private def returnTo (target : Addr) : Call :=
  .update 0x208 true target false true true {} false

/-- The function at `0x200` calls itself: its outer return is predicted to the outer caller,
though the target buffer holds the inner one. -/
theorem return_to_caller_recursive :
    let u := after (sixteen.unit noBPU 2)
      ([] ++ callFrom 0x300 0x200 :: [callFrom 0x200 0x200, returnTo 0x204])
    (u.predict 0x208).1.predTarget = 0x300 + 4 ∧
      (u.predict 0x208).1.willRedirect = ((0x300 : Addr) + 4 != 0) :=
  return_to_caller rfl (by decide : 1 < 2) [] [callFrom 0x200 0x200, returnTo 0x204]
    (.frame (0x200 + 4) (.nil 0) (.nil 1)) 0x300 0x208 0x208 0x204 (callFrom 0x300 0x200)
    (returnTo 0x204) rfl rfl ⟨true, false, true, {}, false, rfl⟩ rfl (by decide)

end

end BranchUnit

end NpSim.Branch
