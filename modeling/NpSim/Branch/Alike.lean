/- digest: Two branch units that predict alike: they differ in their counters, and in the port of a
   target buffer whose port nothing contends for. -/

import NpSim.Branch.BranchUnit

set_option autoImplicit false
set_option relaxedAutoImplicit false

namespace NpSim.Branch.BranchUnit

variable {P : BranchParams} {u v : BranchUnit P}

/-- Two marks of the write port are the same: the index of a mark that is not set does not matter.
-/
def SameMark (set set' : Bool) (idx idx' : Nat) : Prop := set = set' ∧ (set = true → idx = idx')

/-- The units predict alike, now and after the same updates. -/
structure Alike (u v : BranchUnit P) : Prop where
  bpu : u.bpu = v.bpu
  btb : u.btb = v.btb
  ras : u.ras = v.ras
  bypassed : P.btb.hasRwConflict = true →
    SameMark u.bypassValid v.bypassValid u.bypassIdx v.bypassIdx
  written : P.btb.hasRwConflict = true →
    SameMark u.btbWrittenThisTick v.btbWrittenThisTick u.btbWrittenIdx v.btbWrittenIdx

namespace Alike

theorem refl (u : BranchUnit P) : Alike u u :=
  ⟨rfl, rfl, rfl, fun _ => ⟨rfl, fun _ => rfl⟩, fun _ => ⟨rfl, fun _ => rfl⟩⟩

private theorem sameMark_trans {a b c : Bool} {i j k : Nat} (h : SameMark a b i j)
    (h' : SameMark b c j k) : SameMark a c i k :=
  ⟨h.1.trans h'.1, fun ha => (h.2 ha).trans (h'.2 (h.1 ▸ ha))⟩

theorem trans {w : BranchUnit P} (h : Alike u v) (h' : Alike v w) : Alike u w :=
  ⟨h.bpu.trans h'.bpu, h.btb.trans h'.btb, h.ras.trans h'.ras,
    fun hc => sameMark_trans (h.bypassed hc) (h'.bypassed hc),
    fun hc => sameMark_trans (h.written hc) (h'.written hc)⟩

theorem stats (h : Alike u v) (s s' : BPStats) :
    Alike { u with stats := s } { v with stats := s' } :=
  ⟨h.bpu, h.btb, h.ras, h.bypassed, h.written⟩

theorem btbTarget (h : Alike u v) (pc : Addr) : u.btbTarget pc = v.btbTarget pc := by
  unfold BranchUnit.btbTarget
  rw [h.btb]
  cases hc : P.btb.hasRwConflict with
  | false => rfl
  | true =>
    obtain ⟨hset, hidx⟩ := h.bypassed hc
    rw [← hset]
    cases hv : u.bypassValid with
    | false => rfl
    | true => rw [hidx hv]

theorem rasOverride (h : Alike u v) (pc target : Addr) (taken : Bool) :
    u.rasOverride pc target taken = v.rasOverride pc target taken := by
  unfold BranchUnit.rasOverride
  rw [h.ras, h.btb]

theorem predict (h : Alike u v) (pc : Addr) :
    (u.predict pc).1 = (v.predict pc).1 ∧ Alike (u.predict pc).2 (v.predict pc).2 := by
  unfold BranchUnit.predict
  dsimp only
  rw [h.btbTarget, h.bpu, h.rasOverride]
  exact ⟨rfl, rfl, h.btb, h.ras, h.bypassed, h.written⟩

theorem predictAtFetch (h : Alike u v) (pc : Addr) (isBranch : Bool) :
    (u.predictAtFetch pc isBranch).1 = (v.predictAtFetch pc isBranch).1 ∧
      Alike (u.predictAtFetch pc isBranch).2 (v.predictAtFetch pc isBranch).2 := by
  cases isBranch with
  | true => exact (h.stats _ _).predict pc
  | false => exact ⟨rfl, h⟩

theorem judge (h : Alike u v) (realTaken : Bool) (realTarget : Addr) (pred : BranchResult) :
    Alike (u.judge realTaken realTarget pred).2 (v.judge realTaken realTarget pred).2 :=
  h.stats _ _

theorem beginTick (h : Alike u v) : Alike u.beginTick v.beginTick :=
  ⟨h.bpu, h.btb, h.ras, h.written, fun _ => ⟨rfl, nofun⟩⟩

theorem clearBtbEntry (h : Alike u v) (pc : Addr) :
    Alike (u.clearBtbEntry pc) (v.clearBtbEntry pc) :=
  ⟨h.bpu, congrArg (P.btb.clearEntry · pc) h.btb, h.ras, h.bypassed, fun _ => ⟨rfl, fun _ => rfl⟩⟩

theorem updateBtb (h : Alike u v) (pc : Addr) (taken : Bool) (target : Addr) (isRet : Bool) :
    Alike (u.updateBtb pc taken target isRet) (v.updateBtb pc taken target isRet) := by
  cases taken with
  | false => exact h
  | true =>
    refine ⟨h.bpu, ?_, h.ras, h.bypassed, fun _ => ⟨rfl, fun _ => rfl⟩⟩
    exact congrArg (fun s => P.btb.setEntryType (P.btb.update s pc target) _ _) h.btb

theorem update (h : Alike u v) (pc : Addr) (taken : Bool) (target : Addr)
    (isCall isRet btbHit : Bool) (pred : BranchResult) (mispred : Bool) :
    Alike (u.update pc taken target isCall isRet btbHit pred mispred)
      (v.update pc taken target isCall isRet btbHit pred mispred) := by
  unfold BranchUnit.update
  dsimp only
  rw [h.bpu]
  generalize (if mispred then _ else _ : P.bpu.State) = s
  have hs : Alike { u with bpu := s } { v with bpu := s } :=
    ⟨rfl, h.btb, h.ras, h.bypassed, h.written⟩
  have hb := hs.updateBtb pc taken target isRet
  refine ⟨hb.bpu, hb.btb, ?_, hb.bypassed, hb.written⟩
  unfold updateRas
  dsimp only
  rw [hb.ras]

end Alike

/-- No write of the target buffer is marked. -/
def Unmarked (u : BranchUnit P) : Prop := u.btbWrittenThisTick = false ∧ u.bypassValid = false

theorem beginTick_alike (h : P.btb.hasRwConflict = true → u.Unmarked) : Alike u u.beginTick :=
  ⟨rfl, rfl, rfl,
    fun hc => ⟨(h hc).2.trans (h hc).1.symm, fun hv => absurd hv (by rw [(h hc).2]; exact nofun)⟩,
    fun hc => ⟨(h hc).1, fun hv => absurd hv (by rw [(h hc).1]; exact nofun)⟩⟩

theorem predict_stats (hs : u.stats = v.stats) (pc : Addr) :
    (u.predict pc).2.stats = (v.predict pc).2.stats :=
  congrArg (fun s : BPStats => { s with accesses := s.accesses + 1 }) hs

theorem predictAtFetch_stats (hs : u.stats = v.stats) (pc : Addr) (isBranch : Bool) :
    (u.predictAtFetch pc isBranch).2.stats = (v.predictAtFetch pc isBranch).2.stats := by
  cases isBranch with
  | true =>
    exact predict_stats (congrArg (fun s => { s with brAccesses := s.brAccesses + 1 }) hs) pc
  | false => exact hs

theorem judge_stats (hs : u.stats = v.stats) (realTaken : Bool) (realTarget : Addr)
    (pred : BranchResult) : (u.judge realTaken realTarget pred).2.stats =
      (v.judge realTaken realTarget pred).2.stats := by
  unfold judge
  dsimp only
  rw [hs]

theorem update_stats (pc : Addr) (taken : Bool) (target : Addr) (isCall isRet btbHit : Bool)
    (pred : BranchResult) (mispred : Bool) :
    (u.update pc taken target isCall isRet btbHit pred mispred).stats = u.stats := by
  cases taken <;> rfl

end NpSim.Branch.BranchUnit
