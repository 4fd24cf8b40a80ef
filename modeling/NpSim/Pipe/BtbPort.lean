/- digest: The single port of the target buffer: every prediction sees exactly the write of the tick
   before it, as long as the core is updated in the tick after a write. -/

import NpSim.Pipe.Misprediction
import NpSim.Pipe.Order

set_option autoImplicit false
set_option relaxedAutoImplicit false

namespace NpSim.Branch.BranchUnit

variable {P : BranchParams}

/-- The single port is taken: the prediction for `pc` misses the target buffer. -/
def forced (pc : Addr) (u : BranchUnit P) : Bool :=
  P.btb.hasRwConflict && u.bypassValid && btbIndex P pc != u.bypassIdx

theorem btbTarget_eq (pc : Addr) (u : BranchUnit P) :
    u.btbTarget pc = if u.forced pc then 0 else P.btb.lookup u.btb pc := rfl

/-- Without a target there is nothing for the return stack to override and nowhere to go. -/
theorem predict_of_miss {pc : Addr} {u : BranchUnit P} (h : u.btbTarget pc = 0) :
    (u.predict pc).1.predTarget = 0 ∧ (u.predict pc).1.willRedirect = false := by
  have hras : ∀ taken, u.rasOverride pc 0 taken = (0, taken) := by
    intro taken
    unfold rasOverride
    split
    · rfl
    · exact if_neg fun hx => hx.1 rfl
  unfold predict
  dsimp only
  rw [h, hras]
  exact ⟨rfl, Bool.and_false _⟩

/-- The write registers and the bypass registers. -/
def port (u : BranchUnit P) : (Bool × Nat) × Bool × Nat :=
  ((u.btbWrittenThisTick, u.btbWrittenIdx), u.bypassValid, u.bypassIdx)

theorem predict_port (pc : Addr) (u : BranchUnit P) : (u.predict pc).2.port = u.port := rfl

theorem predictAtFetch_port (pc : Addr) (b : Bool) (u : BranchUnit P) :
    (u.predictAtFetch pc b).2.port = u.port := by
  cases b <;> rfl

end NpSim.Branch.BranchUnit

namespace NpSim.Pipe

open NpSim.Lib.Partial NpSim.Branch

variable {K : PipelineParams}

namespace Event

def tick : Event K → Nat
  | .take t _ _ | .wrong t _ _ | .flush t _ | .write t _ => t

/-- The prediction made at an event: its tick, its address and the unit that makes it. -/
def query : Event K → Option (Nat × Addr × BranchUnit K.branch)
  | .take t y u => if y.traceInst.isBranch then some (t, y.traceInst.pc, u) else none
  | .wrong t pc u => some (t, pc, u)
  | .flush .. | .write .. => none

end Event

/-- The target buffer is written in the tick before `t`, at another index than that of `pc`. -/
def Conflict (l : List (Event K)) (t : Nat) (pc : Addr) : Prop :=
  ∃ w pc', .write w pc' ∈ l ∧ w + 1 = t ∧
    BranchUnit.btbIndex K.branch pc' ≠ BranchUnit.btbIndex K.branch pc

/-- A pair of registers holds the write of the tick before `n`, if there is one. -/
structure Latch (l : List (Event K)) (n : Nat) (r : Bool × Nat) : Prop where
  written : r.1 = true → ∃ w pc, .write w pc ∈ l ∧ w + 1 = n
  holds : ∀ w pc, .write w pc ∈ l → w + 1 = n →
    r.1 = true ∧ BranchUnit.btbIndex K.branch pc = r.2

theorem Latch.forced_iff {l : List (Event K)} {n : Nat} {u : BranchUnit K.branch}
    (h : Latch l n u.port.2) (hb : K.branch.btb.hasRwConflict = true) (pc : Addr) :
    u.forced pc = true ↔ Conflict l n pc := by
  unfold BranchUnit.forced
  rw [hb, Bool.true_and, Bool.and_eq_true, bne_iff_ne]
  constructor
  · rintro ⟨hv, hne⟩
    obtain ⟨w, pc', hw, hn⟩ := h.written hv
    have hi := (h.holds w pc' hw hn).2
    exact ⟨w, pc', hw, hn, fun he => hne (he.symm.trans hi)⟩
  · rintro ⟨w, pc', hw, hn, hne⟩
    obtain ⟨hv, hi⟩ := h.holds w pc' hw hn
    exact ⟨hv, fun he => hne (hi.trans he.symm)⟩

theorem Latch.append {l l' : List (Event K)} {n : Nat} {r : Bool × Nat} (h : Latch l n r)
    (hl : ∀ w pc, .write w pc ∈ l' → w + 1 ≠ n) : Latch (l ++ l') n r := by
  refine ⟨fun hr => ?_, fun w pc hw hn => ?_⟩
  · obtain ⟨w, pc, hw, hn⟩ := h.written hr
    exact ⟨w, pc, List.mem_append_left _ hw, hn⟩
  · rcases List.mem_append.mp hw with hw | hw
    · exact h.holds w pc hw hn
    · exact absurd hn (hl w pc hw)

/-- Before tick `n`: every prediction so far was right about the port, and the write registers hold
the write of the last tick. -/
structure PortSound (n : Nat) (c : Pipeline K) : Prop where
  dated : ∀ e ∈ c.events, e.tick < n
  sound : ∀ e ∈ c.events, ∀ t pc u, e.query = some (t, pc, u) →
    (u.forced pc = true ↔ Conflict c.events t pc)
  made : ∀ t y u, .take t y u ∈ c.events → y.traceInst.isBranch = true →
    y.brPred = (u.predict y.traceInst.pc).1
  latch : Latch c.events n c.bpu.port.1

/-- In tick `n`: the bypass registers hold the write of the tick before. -/
def Bypassed (n : Nat) (c : Pipeline K) : Prop := Latch c.events n c.bpu.port.2

/-- Neither the registers nor the record change. -/
structure SamePort (c c' : Pipeline K) : Prop where
  port : c'.bpu.port = c.bpu.port
  events : c'.events = c.events

theorem SamePort.trans {c d e : Pipeline K} (h : SamePort c d) (h' : SamePort d e) :
    SamePort c e :=
  ⟨h'.port.trans h.port, h'.events.trans h.events⟩

theorem PortSound.congr {n : Nat} {c c' : Pipeline K} (h : PortSound n c) (hs : SamePort c c') :
    PortSound n c' := by
  obtain ⟨hd, hq, hm, hl⟩ := h
  rw [← hs.events] at hd hq hm hl
  rw [← hs.port] at hl
  exact ⟨hd, hq, hm, hl⟩

theorem Bypassed.congr {n : Nat} {c c' : Pipeline K} (h : Bypassed n c) (hs : SamePort c c') :
    Bypassed n c' := by
  unfold Bypassed at h ⊢
  rw [hs.events, hs.port]
  exact h

theorem PortSound.append {n : Nat} {c c' : Pipeline K} (h : PortSound (n + 1) c)
    {l : List (Event K)} (he : c'.events = c.events ++ l) (hl : ∀ e ∈ l, e.tick = n)
    (hq : ∀ e ∈ l, ∀ t pc u, e.query = some (t, pc, u) →
      (u.forced pc = true ↔ Conflict c.events n pc))
    (hm : ∀ t y u, .take t y u ∈ l → y.traceInst.isBranch = true →
      y.brPred = (u.predict y.traceInst.pc).1)
    (hw : Latch c'.events (n + 1) c'.bpu.port.1) : PortSound (n + 1) c' := by
  have htick : ∀ e ∈ c.events ++ l, e.tick ≤ n := by
    intro e hmem
    rcases List.mem_append.mp hmem with hmem | hmem
    · exact Nat.lt_succ_iff.mp (h.dated e hmem)
    · exact (hl e hmem).le
  have hquery : ∀ e : Event K, ∀ t pc u, e.query = some (t, pc, u) → e.tick = t := by
    intro e t pc u hx
    cases e with
    | take t' y u' =>
      simp only [Event.query] at hx
      split at hx
      · cases hx
        rfl
      · cases hx
    | wrong t' pc' u' =>
      cases hx
      rfl
    | flush t' y => cases hx
    | write t' pc' => cases hx
  -- a write of tick `n` conflicts with no prediction made up to tick `n`
  have hconf : ∀ t ≤ n, ∀ pc, Conflict (c.events ++ l) t pc ↔ Conflict c.events t pc := by
    intro t ht pc
    constructor
    · rintro ⟨w, pc', hmem, hwt, hne⟩
      rcases List.mem_append.mp hmem with hmem | hmem
      · exact ⟨w, pc', hmem, hwt, hne⟩
      · have := hl _ hmem
        simp only [Event.tick] at this
        omega
    · rintro ⟨w, pc', hmem, hwt, hne⟩
      exact ⟨w, pc', List.mem_append_left _ hmem, hwt, hne⟩
  refine ⟨?_, ?_, ?_, hw⟩
  · intro e hmem
    rw [he] at hmem
    exact Nat.lt_succ_of_le (htick e hmem)
  · intro e hmem t pc u hx
    rw [he] at hmem ⊢
    have ht := hquery e t pc u hx
    have hle := htick e hmem
    rw [hconf t (ht ▸ hle)]
    rcases List.mem_append.mp hmem with hmem | hmem
    · exact h.sound e hmem t pc u hx
    · have := hl e hmem
      rw [← ht, this]
      exact hq e hmem t pc u hx
  · intro t y u hmem hb
    rw [he] at hmem
    rcases List.mem_append.mp hmem with hmem | hmem
    · exact h.made t y u hmem hb
    · exact hm t y u hmem hb

namespace Pipeline

variable {now : Nat} {c c' : Pipeline K}

theorem portSound_beginTick (h : PortSound now c) :
    let d : Pipeline K := { c with bpu := c.bpu.beginTick }
    PortSound (now + 1) d ∧ Bypassed now d ∧ d.bpu.btbWrittenThisTick = false := by
  refine ⟨⟨fun e he => (h.dated e he).trans (Nat.lt_succ_self now), h.sound, h.made, ?_⟩, h.latch,
    rfl⟩
  refine ⟨(fun hr => by cases hr), fun w pc hw hn => ?_⟩
  have := h.dated _ hw
  simp only [Event.tick] at this
  omega

theorem portSound_idle (h : PortSound now c) (hw : c.bpu.btbWrittenThisTick = false) :
    PortSound (now + 1) c := by
  refine ⟨fun e he => (h.dated e he).trans (Nat.lt_succ_self now), h.sound, h.made, ?_⟩
  refine ⟨fun hr => absurd (hw.symm.trans hr) (by decide), fun w pc hm hn => ?_⟩
  have := h.dated _ hm
  simp only [Event.tick] at this
  omega

/-- A resolved branch writes its own entry when it is taken, and flushes when it is mispredicted. -/
private theorem mem_resolution {x : Transaction} {e : Event K} (h : e ∈ resolution now x) :
    e = .write now x.traceInst.pc ∧ (x.traceInst.isBranch && x.traceInst.brTaken) = true ∨
      e = .flush now x := by
  unfold resolution at h
  split at h
  · rename_i hb
    rcases List.mem_append.mp h with h | h <;> split at h
    · rename_i ht
      rw [hb, ht]
      exact .inl ⟨List.mem_singleton.mp h, rfl⟩
    · cases h
    · exact .inr (List.mem_singleton.mp h)
    · cases h
  · cases h

theorem doExecute_port (hp : c.bets.Plain) (h : c.doExecute now = .ok c')
    (hs : PortSound (now + 1) c) (hb : Bypassed now c) (hw : c.bpu.btbWrittenThisTick = false) :
    PortSound (now + 1) c' ∧ Bypassed now c' ∧ (c'.bpu.btbWrittenThisTick = true →
      c'.stageUpdate .execute = ((now + 1 : Nat) : Tick)) := by
  obtain ⟨x, hx, _, ⟨_, rfl⟩ | ⟨b, l, d, he, hflush, hc'⟩⟩ := doExecute_cases h
  · exact ⟨hs, hb, fun hw' => absurd (hw.symm.trans hw') (by decide)⟩
  have hun : Unpredicted x := by
    intro hbr
    refine hp x.strip ?_ hbr
    rw [head_line hx]
    exact List.mem_cons_self
  have hev := doExecute_events h hx he hun
  have hbpu := doExecute_bpu h hx he hun
  have hport : c'.bpu.port = if x.traceInst.isBranch && x.traceInst.brTaken then
      ((true, BranchUnit.btbIndex K.branch x.traceInst.pc), c.bpu.port.2) else c.bpu.port := by
    rw [hbpu]
    unfold resolveBranch
    dsimp only
    cases hbr : x.traceInst.isBranch with
    | false => rfl
    | true =>
      rw [if_pos rfl, Bool.true_and]
      cases ht : x.traceInst.brTaken <;> cases x.brMispred <;> rfl
  have hnone : ∀ w pc, .write w pc ∈ c.events → w + 1 ≠ now + 1 := by
    intro w pc hm hn
    exact absurd (hw.symm.trans (hs.latch.holds w pc hm hn).1) (by decide)
  have htick : ∀ e ∈ resolution (K := K) now x, e.tick = now := by
    intro e hmem
    rcases mem_resolution hmem with ⟨rfl, _⟩ | rfl <;> rfl
  have hwrite : ∀ w pc, .write w pc ∈ resolution (K := K) now x →
      pc = x.traceInst.pc ∧ (x.traceInst.isBranch && x.traceInst.brTaken) = true := by
    intro w pc hmem
    rcases mem_resolution hmem with ⟨he, ht⟩ | he
    · cases he
      exact ⟨rfl, ht⟩
    · cases he
  refine ⟨hs.append hev htick ?_ ?_ ?_, ?_, ?_⟩
  · intro e hmem t pc u hq
    rcases mem_resolution hmem with ⟨rfl, _⟩ | rfl <;> cases hq
  · intro t y u hmem
    rcases mem_resolution hmem with ⟨he, _⟩ | he <;> cases he
  · rw [hev, hport]
    cases hbt : x.traceInst.isBranch && x.traceInst.brTaken with
    | false =>
      refine hs.latch.append ?_
      intro w pc hmem
      rw [(hwrite w pc hmem).2] at hbt
      cases hbt
    | true =>
      refine ⟨fun _ => ⟨now, x.traceInst.pc, List.mem_append_right _ ?_, rfl⟩, ?_⟩
      · obtain ⟨hbr, ht⟩ := Bool.and_eq_true_iff.mp hbt
        unfold resolution
        rw [if_pos hbr, if_pos ht]
        exact List.mem_append_left _ List.mem_cons_self
      · intro w pc hmem hn
        rcases List.mem_append.mp hmem with hmem | hmem
        · exact absurd hn (hnone w pc hmem)
        · rw [(hwrite w pc hmem).1]
          exact ⟨rfl, rfl⟩
  · unfold Bypassed
    have hport₂ : c'.bpu.port.2 = c.bpu.port.2 := by
      rw [hport]
      split <;> rfl
    rw [hev, hport₂]
    refine hb.append ?_
    intro w pc hmem
    have := htick _ hmem
    simp only [Event.tick] at this
    omega
  · intro _
    rw [hc']
    dsimp only
    rw [Function.update_self]

private theorem unpredicted_decode (hp : c.bets.Plain) {x : Transaction}
    (hx : c.simPipe .decode = some x) : Unpredicted x := by
  intro hbr
  refine hp x.strip ?_ hbr
  rw [head_line hx]
  exact List.mem_cons_self

private theorem stage_samePort {i : PipeStage} {ports : Ports} (hp : c.bets.Plain)
    (hi : i ≠ .execute) (h : stageHandler now ports i c = .ok c') : SamePort c c' := by
  cases i with
  | fetch =>
    rcases doFetch1_cases h with ⟨_, rfl⟩ | ⟨p, rest, _, _, _, rfl⟩ | ⟨p, rest, _, _, _, _, rfl⟩ <;>
      exact ⟨rfl, rfl⟩
  | decode =>
    obtain ⟨x, a, _, _, ⟨_, rfl⟩ | ⟨w, _, _, _, rfl⟩ | ⟨_, rfl⟩⟩ := doDecode_cases h <;>
      exact ⟨rfl, rfl⟩
  | execute => exact absurd rfl hi
  | intMulExt =>
    obtain ⟨x, hx, _⟩ := doMulExt_cases h
    have hun := unpredicted_decode hp hx
    exact ⟨congrArg _ (doMulExt_bpu h hx hun), doMulExt_events h hx hun⟩
  | intDivExt =>
    obtain ⟨x, hx, _⟩ := doDivExt_cases h
    have hun := unpredicted_decode hp hx
    exact ⟨congrArg _ (doDivExt_bpu h hx hun), doDivExt_events h hx hun⟩
  | memory =>
    obtain ⟨x, _, ⟨_, _, rfl⟩ | ⟨_, _, rfl⟩ | ⟨_, _, rfl⟩ | ⟨op, _, _, _, _, rfl⟩ |
      ⟨op, _, _, _, _, rfl⟩ | ⟨_, _, _, rfl⟩⟩ := doMemory_cases h <;> exact ⟨rfl, rfl⟩
  | writeBack =>
    rcases doWriteback_cases h with ⟨_, rfl⟩ | ⟨s, x, cause, _, _, rfl⟩ <;> exact ⟨rfl, rfl⟩

private theorem stage_execute {i : PipeStage} {ports : Ports} (hi : i = .decode ∨ i = .fetch)
    (h : runStage now ports c i = .ok c') :
    c'.stageUpdate .execute = c.stageUpdate .execute := by
  have hd : PipeStage.execute ≠ .decode := by decide
  have hf : PipeStage.execute ≠ .fetch := by decide
  unfold runStage at h
  split at h
  · rcases hi with rfl | rfl
    · obtain ⟨x, a, _, _, ⟨_, rfl⟩ | ⟨w, _, _, _, rfl⟩ | ⟨_, rfl⟩⟩ := doDecode_cases h <;>
      · dsimp only
        rw [Function.update_of_ne hd]
    · rcases doFetch1_cases h with ⟨_, rfl⟩ | ⟨p, rest, _, _, _, rfl⟩ |
        ⟨p, rest, _, _, _, _, rfl⟩
      · dsimp only
        rw [Function.update_of_ne hf]
      · dsimp only
        rw [Function.update_of_ne hf]
      · rfl
  · cases h
    rfl

/-- What an update knows of the target buffer between two stages: nothing is written before
Execute, and a write schedules Execute for the next tick. -/
structure Underway (n : Nat) (c : Pipeline K) : Prop where
  disciplined : c.flow.Conserved
  plain : c.bets.Plain
  sound : PortSound (n + 1) c
  bypassed : Bypassed n c

private theorem runStage_underway {i : PipeStage} {ports : Ports} (hi : i ≠ .execute)
    (hc : Underway now c) (h : runStage now ports c i = .ok c') :
    Underway now c' ∧ SamePort c c' := by
  unfold runStage at h
  split at h
  · rename_i due
    have hstep : CoreStep now c c' := .stage i ports due h
    have hsame := stage_samePort hc.plain hi h
    refine ⟨⟨?_, ?_, hc.sound.congr hsame, hc.bypassed.congr hsame⟩, hsame⟩
    · exact invariant_of_run (I := fun f : Flow => f.Conserved)
        (fun f g hmv hf => hmv.conserved hf) hc.disciplined (coreStep_flow hstep)
    · exact invariant_of_run (I := fun s : Bets K => s.Plain)
        (fun a b hmv hab => hmv.plain_of hab) hc.plain
        (coreStep_bets hc.disciplined.disciplined hc.plain hstep)
  · cases h
    exact ⟨hc, rfl, rfl⟩

private theorem runStages_underway {l : List PipeStage} {ports : Ports}
    (hl : PipeStage.execute ∉ l) (hc : Underway now c)
    (h : l.foldlM (runStage now ports) c = .ok c') : Underway now c' ∧ SamePort c c' := by
  induction l generalizing c with
  | nil =>
    cases h
    exact ⟨hc, rfl, rfl⟩
  | cons i l ih =>
    simp only [List.foldlM_cons] at h
    obtain ⟨d, hd, h⟩ := bind_eq_ok.mp h
    have hne : i ≠ .execute := by
      rintro rfl
      exact hl List.mem_cons_self
    obtain ⟨hcd, hs⟩ := runStage_underway hne hc hd
    obtain ⟨hcc, hs'⟩ := ih (fun hm => hl (List.mem_cons_of_mem _ hm)) hcd h
    exact ⟨hcc, hs.trans hs'⟩

private theorem runExecute_underway {ports : Ports} (hc : Underway now c)
    (hw : c.bpu.btbWrittenThisTick = false) (h : runStage now ports c .execute = .ok c') :
    Underway now c' ∧ (c'.bpu.btbWrittenThisTick = true →
      c'.stageUpdate .execute = ((now + 1 : Nat) : Tick)) := by
  unfold runStage at h
  split at h
  · rename_i due
    have hstep : CoreStep now c c' := .stage .execute ports due h
    obtain ⟨hs, hb, he⟩ := doExecute_port hc.plain h hc.sound hc.bypassed hw
    refine ⟨⟨?_, ?_, hs, hb⟩, he⟩
    · exact invariant_of_run (I := fun f : Flow => f.Conserved)
        (fun f g hmv hf => hmv.conserved hf) hc.disciplined (coreStep_flow hstep)
    · exact invariant_of_run (I := fun s : Bets K => s.Plain)
        (fun a b hmv hab => hmv.plain_of hab) hc.plain
        (coreStep_bets hc.disciplined.disciplined hc.plain hstep)
  · cases h
    exact ⟨hc, fun hw' => absurd (hw.symm.trans hw') (by decide)⟩

/-- The seven stages: Execute alone may write, and then it is scheduled for the next tick. -/
private theorem stages_underway {ports : Ports} (hc : Underway now c)
    (hw : c.bpu.btbWrittenThisTick = false)
    (h : PipeStage.reverseOrder.foldlM (runStage now ports) c = .ok c') :
    Underway now c' ∧ (c'.bpu.btbWrittenThisTick = true →
      c'.stageUpdate .execute = ((now + 1 : Nat) : Tick)) := by
  have hsplit : PipeStage.reverseOrder =
      [.writeBack, .memory, .intDivExt, .intMulExt] ++ .execute :: [.decode, .fetch] := rfl
  rw [hsplit, List.foldlM_append] at h
  obtain ⟨d, hd, h⟩ := bind_eq_ok.mp h
  obtain ⟨hcd, hsd⟩ := runStages_underway (by decide) hc hd
  have hwd : d.bpu.btbWrittenThisTick = false :=
    (congrArg (fun p => p.1.1) hsd.port).trans hw
  rw [List.foldlM_cons] at h
  obtain ⟨e, he, h⟩ := bind_eq_ok.mp h
  obtain ⟨hce, hwe⟩ := runExecute_underway hcd hwd he
  obtain ⟨hcc, hsc⟩ := runStages_underway (by decide) hce h
  have hup : c'.stageUpdate .execute = e.stageUpdate .execute := by
    simp only [List.foldlM_cons, List.foldlM_nil] at h
    obtain ⟨f, hf, h⟩ := bind_eq_ok.mp h
    obtain ⟨g, hg, h⟩ := bind_eq_ok.mp h
    cases h
    exact (stage_execute (.inr rfl) hg).trans (stage_execute (.inl rfl) hf)
  refine ⟨hcc, fun hw' => ?_⟩
  rw [hup]
  exact hwe ((congrArg (fun p => p.1.1) hsc.port).symm.trans hw')

theorem judgeFetch_port (inst : TraceInst) (u : BranchUnit K.branch) :
    (judgeFetch inst u).2.2.port = u.port :=
  BranchUnit.predictAtFetch_port inst.pc inst.isBranch u

private theorem fetchReal_port (x : Transaction) (hs : PortSound (now + 1) c)
    (hb : Bypassed now c) (hr : K.branch.btb.hasRwConflict = true) :
    PortSound (now + 1) (c.fetchReal now x) ∧ Bypassed now (c.fetchReal now x) := by
  have hport : (c.fetchReal now x).bpu.port = c.bpu.port := judgeFetch_port ..
  obtain ⟨y, hy⟩ : ∃ y, (c.fetchReal now x).events = c.events ++ [.take now y c.bpu] ∧
      (y.traceInst.isBranch = true → y.brPred = (c.bpu.predict y.traceInst.pc).1) := by
    refine ⟨_, rfl, fun hbr => ?_⟩
    have hbr' : x.traceInst.isBranch = true := hbr
    change (judgeFetch x.traceInst c.bpu).1 = _
    unfold judgeFetch BranchUnit.predictAtFetch
    rw [if_pos hbr']
    rfl
  obtain ⟨hev, hmade⟩ := hy
  have hnw : ∀ w pc, Event.write w pc ∉ [Event.take now y c.bpu] := by
    intro w pc hm
    cases List.mem_singleton.mp hm
  refine ⟨hs.append hev ?_ ?_ ?_ ?_, ?_⟩
  · intro e he
    rw [List.mem_singleton.mp he]
    rfl
  · intro e he t pc u hq
    rw [List.mem_singleton.mp he] at hq
    simp only [Event.query] at hq
    split at hq
    · cases hq
      exact hb.forced_iff hr _
    · cases hq
  · intro t z u hm hbr
    cases List.mem_singleton.mp hm
    exact hmade hbr
  · rw [hev, hport]
    exact hs.latch.append fun w pc hm => absurd hm (hnw w pc)
  · unfold Bypassed
    rw [hev, hport]
    exact Latch.append hb fun w pc hm => absurd hm (hnw w pc)

private theorem fetchWrongPath_port (hs : PortSound (now + 1) c) (hb : Bypassed now c)
    (hr : K.branch.btb.hasRwConflict = true) :
    PortSound (now + 1) (c.fetchWrongPath now) ∧ Bypassed now (c.fetchWrongPath now) := by
  have hport : (c.fetchWrongPath now).bpu.port = c.bpu.port := BranchUnit.predict_port ..
  have hev : (c.fetchWrongPath now).events =
      c.events ++ [.wrong now c.fetch.wrongPathPc c.bpu] := rfl
  have hnw : ∀ w pc, Event.write w pc ∉ [Event.wrong now c.fetch.wrongPathPc c.bpu] := by
    intro w pc hm
    cases List.mem_singleton.mp hm
  refine ⟨hs.append hev ?_ ?_ ?_ ?_, ?_⟩
  · intro e he
    rw [List.mem_singleton.mp he]
    rfl
  · intro e he t pc u hq
    rw [List.mem_singleton.mp he] at hq
    cases hq
    exact hb.forced_iff hr _
  · intro t z u hm
    cases List.mem_singleton.mp hm
  · rw [hev, hport]
    exact hs.latch.append fun w pc hm => absurd hm (hnw w pc)
  · unfold Bypassed
    rw [hev, hport]
    exact Latch.append hb fun w pc hm => absurd hm (hnw w pc)

private theorem endWrongPath_samePort (c : Pipeline K) : SamePort c c.endWrongPath := by
  unfold endWrongPath
  split <;> exact ⟨rfl, rfl⟩

/-- `do_fetch_0` predicts only while the instruction cache is ready. -/
theorem doFetch0_port (ready : Bool) (hs : PortSound (now + 1) c)
    (hb : ready = true → Bypassed now c) (hr : K.branch.btb.hasRwConflict = true) :
    PortSound (now + 1) (c.doFetch0 now ready) ∧
      (Bypassed now c → Bypassed now (c.doFetch0 now ready)) := by
  rcases doFetch0_cases now ready c with ⟨_, he⟩ | ⟨_, he, _⟩ | ⟨_, _, _, he⟩ |
    ⟨_, hready, _, _, _, _, he⟩ | ⟨_, hready, _, _, ⟨_, he⟩ | ⟨x, _, _, he⟩⟩ <;> rw [he]
  · exact ⟨hs.congr ⟨rfl, rfl⟩, fun h => h.congr ⟨rfl, rfl⟩⟩
  · exact ⟨hs, id⟩
  · exact ⟨hs.congr ⟨rfl, rfl⟩, fun h => h.congr ⟨rfl, rfl⟩⟩
  · obtain ⟨hs', hb'⟩ := fetchWrongPath_port hs (hb hready) hr
    exact ⟨hs', fun _ => hb'⟩
  · exact ⟨hs.congr (endWrongPath_samePort c), fun h => h.congr (endWrongPath_samePort c)⟩
  · have hsame := endWrongPath_samePort c
    obtain ⟨hs', hb'⟩ := fetchReal_port x (hs.congr hsame) ((hb hready).congr hsame) hr
    exact ⟨hs', fun _ => hb'⟩

theorem doFetch0_bpuPort (now : Nat) (ready : Bool) (c : Pipeline K) :
    (c.doFetch0 now ready).bpu.port = c.bpu.port := by
  have hend := (endWrongPath_samePort c).port
  rcases doFetch0_cases now ready c with ⟨_, he⟩ | ⟨_, he, _⟩ | ⟨_, _, _, he⟩ |
    ⟨_, _, _, _, _, _, he⟩ | ⟨_, _, _, _, ⟨_, he⟩ | ⟨x, _, _, he⟩⟩ <;> rw [he]
  · rfl
  · exact BranchUnit.predict_port ..
  · exact hend
  · exact (judgeFetch_port ..).trans hend

theorem doFetch0_calcNxtupd (now : Nat) (ready : Bool) (c : Pipeline K) :
    (c.doFetch0 now ready).calcNxtupd = c.calcNxtupd := by
  have hend : c.endWrongPath.calcNxtupd = c.calcNxtupd := by
    unfold endWrongPath
    split <;> rfl
  rcases doFetch0_cases now ready c with ⟨_, he⟩ | ⟨_, he, _⟩ | ⟨_, _, _, he⟩ |
    ⟨_, _, _, _, _, _, he⟩ | ⟨_, _, _, _, ⟨_, he⟩ | ⟨x, _, _, he⟩⟩ <;> rw [he]
  · rfl
  · rfl
  · exact hend
  · exact hend

theorem doFetch0_stageUpdate (ready : Bool) (c : Pipeline K) :
    (c.doFetch0 now ready).stageUpdate = c.stageUpdate := by
  have hend : c.endWrongPath.stageUpdate = c.stageUpdate := by
    unfold endWrongPath
    split <;> rfl
  rcases doFetch0_cases now ready c with ⟨_, he⟩ | ⟨_, he, _⟩ | ⟨_, _, _, he⟩ |
    ⟨_, _, _, _, _, _, he⟩ | ⟨_, _, _, _, ⟨_, he⟩ | ⟨x, _, _, he⟩⟩ <;> rw [he]
  · rfl
  · rfl
  · exact hend
  · exact hend

theorem nextStage_le {i : PipeStage} (h : (now : Tick) < c.stageUpdate i) :
    c.nextStage now ≤ c.stageUpdate i := by
  have hfold : ∀ (l : List PipeStage) (m : Tick), (i ∈ l ∨ m ≤ c.stageUpdate i) →
      l.foldl (fun m i => if (now : Tick) < c.stageUpdate i then min m (c.stageUpdate i) else m)
        m ≤ c.stageUpdate i := by
    intro l
    induction l with
    | nil =>
      intro m hm
      exact hm.resolve_left (by simp)
    | cons j l ih =>
      intro m hm
      rw [List.foldl_cons]
      apply ih
      rcases hm with hm | hm
      · rcases List.mem_cons.mp hm with rfl | hm
        · rw [if_pos h]
          exact .inr (min_le_right _ _)
        · exact .inl hm
      · refine .inr ?_
        split
        · exact (min_le_left _ _).trans hm
        · exact hm
  refine hfold _ _ (.inl ?_)
  cases i <;> decide

theorem calcSched_le {i : PipeStage} (h : c.stageUpdate i = ((now + 1 : Nat) : Tick)) :
    (c.calcSched now).calcNxtupd ≤ ((now + 1 : Nat) : Tick) := by
  have hlt : (now : Tick) < c.stageUpdate i := by
    rw [h]
    exact_mod_cast Nat.lt_succ_self now
  have hnext : min (c.nextStage now) c.mmioRespTick ≤ ((now + 1 : Nat) : Tick) :=
    (min_le_left _ _).trans (h ▸ nextStage_le hlt)
  unfold calcSched
  dsimp only
  split
  · exact min_le_right _ _
  · exact hnext

/-- Between two updates: the record is right up to tick `n`, and a write wakes the core. -/
structure Watched (n : Nat) (c : Pipeline K) : Prop where
  sound : PortSound n c
  wakes : c.bpu.btbWrittenThisTick = true → c.calcNxtupd ≤ (n : Tick)

/-- An update predicts with the write of the tick before, and wakes the core after a write. -/
theorem updateImpl_port {ports : Ports} (hf : c.flow.Conserved) (hp : c.bets.Plain)
    (hs : PortSound now c) (hr : K.branch.btb.hasRwConflict = true)
    (h : c.updateImpl now ports = .ok c') : Watched (now + 1) c' ∧ Bypassed now c' := by
  unfold updateImpl at h
  obtain ⟨d, hd, h⟩ := bind_eq_ok.mp h
  cases h
  obtain ⟨hs', hb', hw'⟩ := portSound_beginTick hs
  have hund : Underway now { c with bpu := c.bpu.beginTick } := ⟨hf, hp, hs', hb'⟩
  obtain ⟨hcd, hwake⟩ := stages_underway hund hw' hd
  obtain ⟨hsound, hby⟩ := doFetch0_port ports.imem hcd.sound (fun _ => hcd.bypassed) hr
  refine ⟨⟨hsound.congr ⟨rfl, rfl⟩, fun hw => ?_⟩, (hby hcd.bypassed).congr ⟨rfl, rfl⟩⟩
  apply calcSched_le (i := .execute)
  rw [doFetch0_stageUpdate]
  exact hwake ((congrArg (fun p => p.1.1) (doFetch0_bpuPort now _ d)).symm.trans hw)

/-- Outside its updates the core makes no prediction and is only woken earlier. -/
structure Resting (c c' : Pipeline K) : Prop where
  same : SamePort c c'
  avail : c'.instAvail = true → c.instAvail = true
  wake : c'.calcNxtupd ≤ c.calcNxtupd

theorem Resting.refl (c : Pipeline K) : Resting c c := ⟨⟨rfl, rfl⟩, id, le_rfl⟩

theorem Resting.trans {d : Pipeline K} (h : Resting c c') (h' : Resting c' d) : Resting c d :=
  ⟨h.same.trans h'.same, h.avail ∘ h'.avail, h'.wake.trans h.wake⟩

theorem Watched.resting {n : Nat} (h : Watched n c) (hr : Resting c c') : Watched n c' :=
  ⟨h.sound.congr hr.same, fun hw =>
    hr.wake.trans (h.wakes ((congrArg (fun p => p.1.1) hr.same.port).symm.trans hw))⟩

theorem Watched.doFetch0 {ready : Bool} (h : Watched (now + 1) c)
    (hb : ready = true → Bypassed now c) (hr : K.branch.btb.hasRwConflict = true) :
    Watched (now + 1) (c.doFetch0 now ready) := by
  refine ⟨(doFetch0_port _ h.sound hb hr).1, fun hw => ?_⟩
  rw [doFetch0_calcNxtupd]
  exact h.wakes ((congrArg (fun p => p.1.1) (doFetch0_bpuPort now ready c)).symm.trans hw)

theorem recvMemResp_resting {t : CpuTrans} (h : c.recvMemResp now t = .ok c') : Resting c c' := by
  rcases recvMemResp_cases h with ⟨_, _, h⟩ | ⟨_, h⟩
  · obtain ⟨b, rest, _, ⟨_, rfl⟩ | ⟨q, _, _, rfl⟩⟩ := handleIfuResp_cases h
    · exact ⟨⟨rfl, rfl⟩, id, le_rfl⟩
    · exact ⟨⟨rfl, rfl⟩, id, min_le_left _ _⟩
  · obtain ⟨x, a, _, _, _, _, rfl⟩ := handleLsuResp_cases h
    exact ⟨⟨rfl, rfl⟩, id, min_le_left _ _⟩

theorem ackMemAvail_resting {a : AckTrans} (h : c.ackMemAvail now a = .ok c') :
    Resting c c' ∧ (a.id = 0 → c'.calcNxtupd ≤ (now : Tick)) := by
  rcases ackMemAvail_cases h with ⟨_, rfl⟩ | ⟨hi, ⟨x, _, _, _, rfl⟩ | ⟨_, rfl⟩⟩
  · exact ⟨⟨⟨rfl, rfl⟩, id, min_le_left _ _⟩, fun _ => min_le_right _ _⟩
  · exact ⟨⟨⟨rfl, rfl⟩, id, min_le_left _ _⟩, fun _ => min_le_right _ _⟩
  · refine ⟨.refl _, fun h0 => ?_⟩
    rcases hi with hi | hi <;> rw [hi] at h0 <;> cases h0

theorem doFetch0_taken {ready : Bool} (hin : c.inputBuffer.isSome = true)
    (h : (c.doFetch0 now ready).instAvail = true) :
    ∃ addr, (c.doFetch0 now ready).calls = c.calls ++ [.fetch addr] := by
  have hnone : (c.doFetch0 now ready).inputBuffer = none := by
    unfold instAvail at h
    exact Option.isNone_iff_eq_none.mp (Bool.and_eq_true_iff.mp h).1
  have hend : c.endWrongPath.inputBuffer = c.inputBuffer ∧
      c.endWrongPath.calls = c.calls := by
    unfold endWrongPath
    split <;> exact ⟨rfl, rfl⟩
  have hkept : ∀ d : Pipeline K, d.inputBuffer = c.inputBuffer → d.inputBuffer = none → False := by
    intro d hd hn
    rw [← hd, hn] at hin
    cases hin
  rcases doFetch0_cases now ready c with ⟨_, he⟩ | ⟨_, he, _⟩ | ⟨_, _, _, he⟩ |
    ⟨_, _, _, _, _, _, he⟩ | ⟨_, _, _, _, ⟨_, he⟩ | ⟨x, _, _, he⟩⟩ <;> rw [he] at hnone ⊢
  · exact (hkept _ rfl hnone).elim
  · exact (hkept _ rfl hnone).elim
  · exact (hkept _ rfl hnone).elim
  · exact (hkept _ rfl hnone).elim
  · exact (hkept _ hend.1 hnone).elim
  · refine ⟨x.traceInst.pc, ?_⟩
    change c.endWrongPath.calls ++ _ = _
    rw [hend.2]

theorem CoreReachable.plain {s : Clocked K} (h : CoreReachable s) : s.core.bets.Plain := by
  refine h.bets_invariant (I := Bets.Plain) ?_ fun _ _ hm _ hp => hm.plain_of hp
  intro x hx
  cases hx

end Pipeline

end NpSim.Pipe
