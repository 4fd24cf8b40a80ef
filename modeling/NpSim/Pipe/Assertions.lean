/- digest: No handler of the core stops at an assertion of a handshake, and which requests an update
   leaves to be carried out. -/

import NpSim.Pipe.Contracts

set_option autoImplicit false
set_option relaxedAutoImplicit false

namespace NpSim

/-- The assertions that guard the handshakes between core, caches and memory, with those of the
fetch queue and of the scheduler. -/
def Fault.Handshake : Fault → Prop
  | .slotOccupied | .notShifted | .frontOccupied | .notWaiting | .portBusy | .replayInvalid
  | .fillNotFound | .orphanEmpty | .noWaitingEntry | .lsuSlot | .queueFull | .scheduleInPast => True
  | _ => False

/-- A fault of another kind. -/
abbrev Fault.Other (f : Fault) : Prop := ¬f.Handshake

end NpSim

namespace NpSim.Pipe.Pipeline

open NpSim.Lib.Partial NpSim.Lib.Contract

variable {K : PipelineParams} {now : Nat} {c c' : Pipeline K}

private theorem tick_lt_succ (now : Nat) : (now : Tick) ≤ ((now + 1 : Nat) : Tick) := by
  exact_mod_cast Nat.le_succ now

theorem schedule_meets (i : PipeStage) {w : Tick} (h : (now : Tick) ≤ w) :
    Meets Fault.Other (fun _ => True) (c.schedule now i w) :=
  Meets.require h trivial

theorem asyncSchedule_meets (i : PipeStage) {w : Tick} (h : (now : Tick) ≤ w) :
    Meets Fault.Other (fun _ => True) (c.asyncSchedule now i w) :=
  (schedule_meets i h).bind fun _ _ _ => trivial

private theorem require_other {p : Prop} [Decidable p] {f : Fault} (hf : f.Other) :
    Meets Fault.Other (fun _ => True) (require p f) := by
  unfold require
  split
  · exact trivial
  · exact hf

private theorem regAt_meets (r : Nat) : Meets Fault.Other (fun _ => True) (c.regAt r) := by
  unfold regAt
  split
  · exact trivial
  · exact id

private theorem srcReady_meets (inst : TraceInst) :
    Meets Fault.Other (fun _ => True) (c.srcReady inst) :=
  (regAt_meets inst.srcReg0).bind fun _ _ _ =>
    (regAt_meets inst.srcReg1).bind fun _ _ _ => trivial

private theorem setReg_meets (r : Nat) (w : Tick) :
    Meets Fault.Other (fun _ => True) (c.setReg r w) := by
  unfold setReg
  split
  · exact trivial
  · exact (require_other id).bind fun _ _ _ => trivial

private theorem retryDecode_meets (now : Nat) :
    Meets Fault.Other (fun _ => True) (c.retryDecode now) := by
  unfold retryDecode
  split
  · exact trivial
  · split
    · refine (srcReady_meets _).bind fun ready _ _ => ?_
      split
      · exact schedule_meets .decode (tick_lt_succ now)
      · exact schedule_meets .decode (not_le.mp ‹_›).le
    · exact trivial

private theorem updateRegTime_meets (now rd : Nat) (w : Tick) :
    Meets Fault.Other (fun _ => True) (c.updateRegTime now rd w) :=
  (setReg_meets rd w).bind fun _ _ _ => (retryDecode_meets now).bind fun _ _ _ =>
    (require_other id).bind fun _ _ _ => trivial

private theorem doFetch1_meets (hs : c.simPipe .fetch = none) :
    Meets Fault.Other (fun _ => True) (c.doFetch1 now) := by
  unfold doFetch1
  split
  · exact schedule_meets .fetch le_top
  · split
    · exact schedule_meets .fetch le_top
    · split
      · exact schedule_meets .fetch (tick_lt_succ now)
      · exact Meets.require hs trivial

private theorem stallDecode_meets {w : Tick} (h : (now : Tick) ≤ w) :
    Meets Fault.Other (fun _ => True) (c.stallDecode now w) :=
  schedule_meets .decode h

private theorem passDecode_meets (tr : Transaction) :
    Meets Fault.Other (fun _ => True) (c.passDecode now tr) :=
  (schedule_meets .decode (tick_lt_succ now)).bind fun _ _ _ =>
    (setReg_meets _ _).bind fun _ _ _ => trivial

private theorem ahead (now : Nat) (w : Tick) :
    (now : Tick) ≤ if w ≤ now then ((now + 1 : Nat) : Tick) else w := by
  split
  · exact tick_lt_succ now
  · exact (not_le.mp ‹_›).le

private theorem decodeWaw_meets (tr : Transaction) :
    Meets Fault.Other (fun _ => True) (c.decodeWaw now tr) := by
  unfold decodeWaw
  dsimp only
  split
  · exact (regAt_meets _).bind fun w _ _ => stallDecode_meets (ahead now w)
  · exact passDecode_meets tr

private theorem doDecode_meets : Meets Fault.Other (fun _ => True) (c.doDecode now) := by
  unfold doDecode
  split
  · exact id
  · rename_i tr _
    dsimp only
    split
    · exact schedule_meets .decode (tick_lt_succ now)
    · split
      · exact stallDecode_meets (ahead now _)
      · refine (srcReady_meets _).bind fun ready _ _ => ?_
        split
        · exact stallDecode_meets (le_of_lt ‹_›)
        · exact decodeWaw_meets tr

private theorem doExecute_meets : Meets Fault.Other (fun _ => True) (c.doExecute now) := by
  unfold doExecute
  refine (require_other id).bind fun _ _ _ => ?_
  split
  · exact id
  · rename_i tr _
    dsimp only
    split
    · exact trivial
    · refine Meets.bind (Q := fun _ => True) ?_ fun d _ _ =>
        schedule_meets .execute (tick_lt_succ now)
      unfold forward
      split
      · split
        · exact updateRegTime_meets now _ _
        · exact updateRegTime_meets now _ _
      · exact trivial

private theorem issueMext_meets (s : PipeStage) (lat : Nat) (tr : Transaction) :
    Meets Fault.Other (fun _ => True) (c.issueMext now s lat tr) := by
  have hlat : (now : Tick) ≤ ((now + lat : Nat) : Tick) := by
    exact_mod_cast Nat.le_add_right now lat
  unfold issueMext
  exact (updateRegTime_meets now _ _).bind fun _ _ _ => (schedule_meets s hlat).bind fun _ _ _ =>
    (asyncSchedule_meets .writeBack hlat).bind fun _ _ _ => trivial

private theorem doMulExt_meets : Meets Fault.Other (fun _ => True) (c.doMulExt now) := by
  unfold doMulExt
  refine (require_other id).bind fun _ _ _ => ?_
  split
  · exact id
  · dsimp only
    split
    · exact trivial
    · exact issueMext_meets .intMulExt mulLat _

private theorem doDivExt_meets : Meets Fault.Other (fun _ => True) (c.doDivExt now) := by
  unfold doDivExt
  refine (require_other id).bind fun _ _ _ => ?_
  split
  · exact id
  · dsimp only
    split
    · exact trivial
    · exact issueMext_meets .intDivExt divLat _

private theorem noteLoad_meets (tr : Transaction) :
    Meets Fault.Other (fun _ => True) (c.noteLoad now tr) := by
  unfold noteLoad
  split
  · exact updateRegTime_meets now _ _
  · exact trivial

private theorem passMemory_meets (tr : Transaction) :
    Meets Fault.Other (fun _ => True) (c.passMemory now tr) :=
  (schedule_meets .memory (tick_lt_succ now)).bind fun _ _ _ => trivial

private theorem sendLsuReq_meets (ports : Ports) (tr : Transaction) (op : MemRWOpt) :
    Meets Fault.Other (fun _ => True) (c.sendLsuReq now ports tr op) := by
  unfold sendLsuReq
  dsimp only
  refine (schedule_meets .memory le_top).bind fun _ _ _ => ?_
  generalize (if op = .write then (if usesNc K tr.traceInst then ports.nc else ports.dmem).2
    else (if usesNc K tr.traceInst then ports.nc else ports.dmem).1) = ready
  cases ready with
  | true => exact trivial
  | false => exact trivial

private theorem doMemory_meets (ports : Ports) :
    Meets Fault.Other (fun _ => True) (c.doMemory now ports) := by
  unfold doMemory
  split
  · exact id
  · rename_i tr _
    dsimp only
    split
    · split
      · exact (noteLoad_meets _).bind fun _ _ _ => passMemory_meets _
      · exact schedule_meets .memory le_top
    · split
      · exact schedule_meets .memory (by exact_mod_cast Nat.le_add_right now K.mmioLat)
      · split
        · exact sendLsuReq_meets ports tr .read
        · split
          · exact (sendLsuReq_meets ports tr .write).bind fun _ _ _ =>
              schedule_meets .memory le_top
          · exact passMemory_meets tr

private theorem doWriteback_meets : Meets Fault.Other (fun _ => True) (c.doWriteback now) := by
  unfold doWriteback
  split
  · exact schedule_meets .writeBack ((tick_lt_succ now).trans (le_max_right ..))
  · split
    · exact id
    · exact schedule_meets .writeBack (tick_lt_succ now)

theorem runStage_meets (ports : Ports) (i : PipeStage) :
    Meets Fault.Other (fun _ => True) (runStage now ports c i) := by
  unfold runStage
  split
  · rename_i due
    cases i with
    | fetch => exact doFetch1_meets due.1
    | decode => exact doDecode_meets
    | execute => exact doExecute_meets
    | intMulExt => exact doMulExt_meets
    | intDivExt => exact doDivExt_meets
    | memory => exact doMemory_meets ports
    | writeBack => exact doWriteback_meets
  · exact trivial

theorem doUpdate_meets (ports : Ports) :
    Meets Fault.Other (fun _ => True) (c.doUpdate now ports) := by
  unfold doUpdate
  split
  · unfold updateImpl
    refine Meets.bind (Q := fun _ => True) ?_ fun _ _ _ => trivial
    exact Meets.foldlM (I := fun _ _ => True) (fun i _ d _ => runStage_meets ports i) trivial
  · exact trivial

theorem feedInst_meets (ready : Bool) (inst : TraceInst) :
    Meets Fault.Other (fun _ => True) (c.feedInst now ready inst) :=
  (require_other id).bind fun _ _ _ => trivial

theorem handleLsuResp_meets {tr : Transaction} (he : c.simPipe .execute = some tr)
    (hw : tr.waitMem = true) (hm : c.simPipe .memory = none) :
    Meets Fault.Other (fun _ => True) (c.handleLsuResp now) := by
  unfold handleLsuResp
  rw [he]
  dsimp only
  refine Meets.require ⟨hw, hm⟩ ((noteLoad_meets _).bind fun d _ _ => ?_)
  refine Meets.bind (Q := fun _ => True) ?_ fun _ _ _ =>
    (asyncSchedule_meets .memory (tick_lt_succ now)).bind fun _ _ _ => trivial
  unfold rawAfterResp
  split
  · exact trivial
  · exact (srcReady_meets _).bind fun _ _ _ => trivial

theorem ackMemAvail_meets (a : AckTrans) :
    Meets Fault.Other (fun _ => True) (c.ackMemAvail now a) := by
  unfold ackMemAvail
  split
  · exact asyncSchedule_meets .fetch (le_refl _)
  · split
    · split
      · split
        · exact asyncSchedule_meets .memory (le_refl _)
        · exact trivial
      · exact trivial
    · exact id

/-- At most one data access, on a port that is ready for it. -/
inductive DataAsked (K : PipelineParams) (ports : Ports) : List PortCall → Prop
  | none : DataAsked K ports []
  | one (inst : TraceInst) (op : MemRWOpt) (h : portReady K ports inst op = true) :
      DataAsked K ports [lsuCall K inst op]

/-- What an update may ask of the ports: a data access, and then at most one fetch from a ready
cache. -/
inductive Asked (K : PipelineParams) (ports : Ports) : List PortCall → Prop
  | data {l : List PortCall} (h : DataAsked K ports l) : Asked K ports l
  | fetch {l : List PortCall} (h : DataAsked K ports l) (addr : Addr) (hr : ports.imem = true) :
      Asked K ports (l ++ [.fetch addr])

theorem doFetch0_asked {ports : Ports} (h : DataAsked K ports c.calls) :
    Asked K ports (c.doFetch0 now ports.imem).calls := by
  have hend : c.endWrongPath.calls = c.calls := by
    unfold endWrongPath
    split <;> rfl
  rcases doFetch0_cases now ports.imem c with ⟨_, he⟩ | ⟨_, he, _⟩ | ⟨_, hr, _, he⟩ |
    ⟨_, hr, _, _, _, _, he⟩ | ⟨_, hr, _, _, ⟨_, he⟩ | ⟨x, _, _, he⟩⟩
  · rw [he]
    exact .data h
  · rw [he]
    exact .data h
  · rw [he]
    exact .fetch h _ hr
  · obtain ⟨b, a, f, heq, _⟩ := fetchWrongPath_eq now c
    rw [he, heq]
    exact .fetch h _ hr
  · rw [he, hend]
    exact .data h
  · obtain ⟨y, b, a, f, ps, n, heq, _⟩ := fetchReal_eq now x c.endWrongPath
    rw [he, heq]
    change Asked K ports (c.endWrongPath.calls ++ _)
    rw [hend]
    exact .fetch h _ hr

private theorem flushIf_calls (b : Bool) (now : Nat) (c : Pipeline K) :
    (c.flushIf b now).calls = c.calls := by
  cases b <;> rfl

private theorem mext_calls {s : PipeStage} {lat : Nat} (h : MextCases now c c' s lat) :
    c'.calls = c.calls := by
  obtain ⟨x, _, _, ⟨_, rfl⟩ | ⟨b, l, d, _, rfl, rfl⟩⟩ := h
  · rfl
  · exact flushIf_calls _ now _

private theorem stage_calls {ports : Ports} {i : PipeStage} (hi : i ≠ .memory)
    (h : stageHandler now ports i c = .ok c') : c'.calls = c.calls := by
  cases i with
  | fetch =>
    rcases doFetch1_cases h with ⟨_, rfl⟩ | ⟨p, rest, _, _, _, rfl⟩ |
      ⟨p, rest, _, _, _, _, rfl⟩ <;> rfl
  | decode =>
    obtain ⟨x, a, _, _, ⟨_, rfl⟩ | ⟨w, _, _, _, rfl⟩ | ⟨_, rfl⟩⟩ := doDecode_cases h <;> rfl
  | execute =>
    obtain ⟨x, _, _, ⟨_, rfl⟩ | ⟨b, l, d, _, rfl, rfl⟩⟩ := doExecute_cases h
    · rfl
    · exact flushIf_calls _ now _
  | intMulExt => exact mext_calls (doMulExt_cases h)
  | intDivExt => exact mext_calls (doDivExt_cases h)
  | memory => exact absurd rfl hi
  | writeBack => rcases doWriteback_cases h with ⟨_, rfl⟩ | ⟨_, _, _, _, _, rfl⟩ <;> rfl

private theorem doMemory_asked {ports : Ports} (hc : c.calls = [])
    (h : c.doMemory now ports = .ok c') : DataAsked K ports c'.calls := by
  obtain ⟨x, _, ⟨_, _, rfl⟩ | ⟨_, _, rfl⟩ | ⟨_, _, rfl⟩ | ⟨op, _, _, _, hr, rfl⟩ |
    ⟨_, _, _, _, _, rfl⟩ | ⟨_, _, _, rfl⟩⟩ := doMemory_cases h
  · exact hc ▸ .none
  · exact hc ▸ .none
  · exact hc ▸ .none
  · change DataAsked K ports (c.calls ++ [lsuCall K x.traceInst op])
    rw [hc]
    exact .one x.traceInst op hr
  · exact hc ▸ .none
  · exact hc ▸ .none

private theorem stages_asked {ports : Ports} {l : List PipeStage} (hl : l.Nodup)
    (hc : DataAsked K ports c.calls) (hm : .memory ∈ l → c.calls = [])
    (h : l.foldlM (runStage now ports) c = .ok c') : DataAsked K ports c'.calls := by
  induction l generalizing c with
  | nil =>
    cases h
    exact hc
  | cons i l ih =>
    simp only [List.foldlM_cons] at h
    obtain ⟨d, hd, hrun⟩ := bind_eq_ok.mp h
    obtain ⟨hi, hrest⟩ := List.nodup_cons.mp hl
    unfold runStage at hd
    split at hd
    · by_cases him : i = .memory
      · subst him
        exact ih hrest (doMemory_asked (hm List.mem_cons_self) hd) (fun hx => absurd hx hi) hrun
      · have hcalls := stage_calls him hd
        refine ih hrest (hcalls ▸ hc) (fun hx => ?_) hrun
        exact hcalls.trans (hm (List.mem_cons_of_mem i hx))
    · cases hd
      exact ih hrest hc (fun hx => hm (List.mem_cons_of_mem i hx)) hrun

/-- What an update asks of the ports, they are ready for. -/
theorem doUpdate_asked {ports : Ports} (hc : c.calls = [])
    (h : c.doUpdate now ports = .ok c') : Asked K ports c'.calls := by
  unfold doUpdate at h
  split at h
  · unfold updateImpl at h
    obtain ⟨d, hd, h⟩ := bind_eq_ok.mp h
    cases h
    have hnone : DataAsked K ports c.calls := hc ▸ .none
    have hnodup : PipeStage.reverseOrder.Nodup := by decide
    exact doFetch0_asked (c := d) (stages_asked (c := { c with bpu := c.bpu.beginTick })
      hnodup hnone (fun _ => hc) hd)
  · cases h
    exact .data (hc ▸ .none)

theorem feedInst_asked (ports : Ports) {inst : TraceInst} (hc : c.calls = [])
    (h : c.feedInst now ports.imem inst = .ok c') : Asked K ports c'.calls := by
  unfold feedInst at h
  obtain ⟨_, h⟩ := require_bind_eq_ok.mp h
  cases h
  exact doFetch0_asked (hc ▸ .none)

end NpSim.Pipe.Pipeline
