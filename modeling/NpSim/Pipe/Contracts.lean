/- digest: The contracts of the core: no handler stops at an assertion, and what each call does to
   what the core waits for. -/

import NpSim.Lib.Contract
import NpSim.Pipe.Demand

set_option autoImplicit false
set_option relaxedAutoImplicit false

namespace NpSim.Pipe

open NpSim.Lib.Partial NpSim.Lib.Contract Relation

namespace Flow

/-- The placeholders in the front end read no register. -/
def Blank (f : Flow) : Prop :=
  ∀ x ∈ f.front, x.isWrongPath = true → x.traceInst.srcReg0 = 0 ∧ x.traceInst.srcReg1 = 0

private theorem Blank.of_front {f g : Flow} (h : f.Blank)
    (hg : ∀ x ∈ g.front, ∃ y ∈ f.front, x.traceInst = y.traceInst ∧
      x.isWrongPath = y.isWrongPath) : g.Blank := by
  intro x hx hw
  obtain ⟨y, hy, ht, hi⟩ := hg x hx
  rw [ht]
  exact h y hy (hi ▸ hw)

private theorem Blank.append {f g : Flow} (h : f.Blank) {y : Transaction}
    (hg : g.front = f.front ++ [y])
    (hy : y.isWrongPath = true → y.traceInst.srcReg0 = 0 ∧ y.traceInst.srcReg1 = 0) :
    g.Blank := by
  intro x hx
  rw [hg, List.mem_append] at hx
  rcases hx with hx | hx
  · exact h x hx
  · rw [List.mem_singleton.mp hx]
    exact hy

private theorem mem_of_answerFirst {l q : List Transaction} (h : Pipeline.answerFirst l = some q)
    {x : Transaction} (hx : x ∈ q) :
    ∃ y ∈ l, x.traceInst = y.traceInst ∧ x.isWrongPath = y.isWrongPath := by
  induction l generalizing q with
  | nil => cases h
  | cons z zs ih =>
    unfold Pipeline.answerFirst at h
    split at h
    · cases h
      rcases List.mem_cons.mp hx with rfl | hx
      · exact ⟨z, List.mem_cons_self, rfl, rfl⟩
      · exact ⟨x, List.mem_cons_of_mem z hx, rfl, rfl⟩
    · obtain ⟨r, hr, rfl⟩ := Option.map_eq_some_iff.mp h
      rcases List.mem_cons.mp hx with rfl | hx
      · exact ⟨x, List.mem_cons_self, rfl, rfl⟩
      · obtain ⟨y, hy, he⟩ := ih hr hx
        exact ⟨y, List.mem_cons_of_mem z hy, he⟩

private theorem mem_front {f : Flow} {x : Transaction} :
    x ∈ f.front ↔ f.slot .fetch = some x ∨ x ∈ f.queue := by
  rw [front, List.mem_append, Option.mem_toList]

private theorem Blank.keep {f g : Flow} (h : f.Blank) (hs : g.slot .fetch = f.slot .fetch)
    (hq : g.queue = f.queue) : g.Blank := by
  refine h.of_front fun x hx => ⟨x, ?_, rfl, rfl⟩
  rw [mem_front, hs, hq] at hx
  exact mem_front.mpr hx

private theorem Blank.sub {f g : Flow} (h : f.Blank) (hs : g.slot .fetch = none)
    (hq : ∀ x ∈ g.queue, x ∈ f.queue) : g.Blank := by
  refine h.of_front fun x hx => ⟨x, ?_, rfl, rfl⟩
  rw [mem_front, hs] at hx
  exact mem_front.mpr (.inr (hq x (hx.resolve_left fun hn => by cases hn)))

theorem Move.blank {f g : Flow} (hm : Move f g) (hd : f.Disciplined) (h : f.Blank) : g.Blank := by
  cases hm with
  | buffer inst hin => exact h.keep rfl rfl
  | earlyFetch pc => exact h.keep rfl rfl
  | wrongFetch pc hw hf =>
    exact h.append (y := .wrongPath pc) (List.append_assoc ..).symm fun _ => ⟨rfl, rfl⟩
  | endWrong hw hf => exact h.keep rfl rfl
  | realFetch x y hin hw hy =>
    refine h.append (y := y) (List.append_assoc ..).symm fun hwp => ?_
    obtain ⟨_, _, _, rfl⟩ := hy.same
    have hreal := (hd.input x hin).1
    rw [hreal] at hwp
    cases hwp
  | hold p rest n hq hp =>
    refine h.of_front fun x hx => ?_
    rcases mem_front.mp hx with hx | hx
    · exact ⟨x, mem_front.mpr (.inl hx), rfl, rfl⟩
    · rcases List.mem_cons.mp hx with rfl | hx
      · exact ⟨p, mem_front.mpr (.inr (hq ▸ List.mem_cons_self)), rfl, rfl⟩
      · exact ⟨x, mem_front.mpr (.inr (hq ▸ List.mem_cons_of_mem p hx)), rfl, rfl⟩
  | enter p rest hq hp hs =>
    refine h.of_front fun x hx => ⟨x, mem_front.mpr (.inr ?_), rfl, rfl⟩
    rw [hq]
    rcases mem_front.mp hx with hx | hx
    · dsimp only at hx
      rw [Function.update_self] at hx
      cases hx
      exact List.mem_cons_self
    · exact List.mem_cons_of_mem p hx
  | orphanResp rest ho => exact h.keep rfl rfl
  | resp rest q ho hq =>
    refine h.of_front fun x hx => ?_
    rcases mem_front.mp hx with hx | hx
    · exact ⟨x, mem_front.mpr (.inl hx), rfl, rfl⟩
    · obtain ⟨y, hy, he⟩ := mem_of_answerFirst hq hx
      exact ⟨y, mem_front.mpr (.inr hy), he⟩
  | drop x hx hw =>
    refine h.sub ?_ fun _ hy => hy
    dsimp only
    rw [Function.update_self]
  | pass x hx hw hdec hm hwaw =>
    refine h.sub ?_ fun _ hy => hy
    dsimp only
    rw [Function.update_of_ne (by decide), Function.update_self]
  | issue s x now b hx hs hu hb hb' =>
    have hf := hu.behind_decode.1
    have hslot : ∀ k : PipeStage → Option Transaction, Function.update
        (Function.update k .decode none) s (some { x with execAt := now }) .fetch = k .fetch := by
      intro k
      rw [Function.update_of_ne hf.symm, Function.update_of_ne (by decide)]
    cases b with
    | false => exact h.keep (hslot _) rfl
    | true =>
      have hflush : f.flushed.slot .fetch = none := by
        unfold flushed
        dsimp only
        rw [Function.update_self]
      exact h.sub ((hslot _).trans hflush) fun y hy => by cases hy
  | wait x hx hw =>
    refine h.keep ?_ rfl
    dsimp only
    rw [Function.update_of_ne (by decide)]
  | toMemory x w hx hmem =>
    refine h.keep ?_ rfl
    dsimp only
    rw [Function.update_of_ne (by decide), Function.update_of_ne (by decide)]
  | commit s x hx hs =>
    refine h.keep ?_ rfl
    have hf : PipeStage.fetch ≠ s := by cases hs <;> decide
    dsimp only
    rw [Function.update_of_ne hf]
  | sent => exact h.keep rfl rfl

end Flow

namespace Pipeline

variable {K : PipelineParams} {now : Nat} {c c' : Pipeline K}

theorem putReg_zero (g : Nat → Tick) (r : Nat) (w : Tick) : putReg g r w 0 = g 0 := by
  by_cases h : r = 0
  · rw [putReg, if_pos h]
  · exact putReg_of_ne fun he => h he.symm

private theorem forwarded_zero (inst : TraceInst) (g : Nat → Tick) :
    forwarded now inst g 0 = g 0 := by
  unfold forwarded
  split
  · exact putReg_zero ..
  · rfl

private theorem responded_zero (inst : TraceInst) (g : Nat → Tick) :
    responded now inst g 0 = g 0 := by
  unfold responded
  split
  · exact putReg_zero ..
  · rfl

/-- Register zero is always ready, and only a transaction in Execute waits. -/
structure Sane (c : Pipeline K) : Prop where
  zero : c.regReady 0 = 0
  settled : Settled c.simPipe

private theorem flushIf_sane (now : Nat) (h : Sane c) (b : Bool) : Sane (c.flushIf b now) := by
  cases b with
  | false => exact h
  | true => exact ⟨h.zero, h.settled.clear .fetch⟩

theorem doFetch0_sane (h : Sane c) (ready : Bool) : Sane (c.doFetch0 now ready) := by
  have hend : Sane c.endWrongPath := by
    unfold endWrongPath
    split <;> exact ⟨h.zero, h.settled⟩
  rcases doFetch0_cases now ready c with ⟨_, he⟩ | ⟨_, he, _⟩ | ⟨_, _, _, he⟩ |
    ⟨_, _, _, _, _, _, he⟩ | ⟨_, _, _, _, ⟨_, he⟩ | ⟨x, _, _, he⟩⟩
  · rw [he]
    exact ⟨h.zero, h.settled⟩
  · rw [he]
    exact ⟨h.zero, h.settled⟩
  · rw [he]
    exact ⟨h.zero, h.settled⟩
  · obtain ⟨b, a, f, heq, _⟩ := fetchWrongPath_eq now c
    rw [he, heq]
    exact ⟨h.zero, h.settled⟩
  · rw [he]
    exact ⟨hend.zero, hend.settled⟩
  · obtain ⟨y, b, a, f, ps, n, heq, _⟩ := fetchReal_eq now x c.endWrongPath
    rw [he, heq]
    exact ⟨hend.zero, hend.settled⟩

private theorem doDecode_sane (h : Sane c) (hx : c.doDecode now = .ok c') : Sane c' := by
  obtain ⟨x, a, hf, _, ⟨_, rfl⟩ | ⟨w, _, _, _, rfl⟩ | ⟨_, rfl⟩⟩ := doDecode_cases hx
  · exact ⟨h.zero, h.settled.clear .fetch⟩
  · exact ⟨h.zero, h.settled⟩
  · exact ⟨(putReg_zero ..).trans h.zero, (h.settled.clear .fetch).put
      (h.settled.of_ne (by decide) hf) fun hm => by cases hm⟩

private theorem doExecute_sane (h : Sane c) (hx : c.doExecute now = .ok c') : Sane c' := by
  obtain ⟨x, hd, _, ⟨_, rfl⟩ | ⟨b, l, d, _, rfl, rfl⟩⟩ := doExecute_cases hx
  · exact ⟨h.zero, h.settled⟩
  · have hf := flushIf_sane now (c := { c with bpu := b, events := l })
      ⟨h.zero, h.settled⟩
      x.brMispred
    have hw : x.waitMem = false := h.settled.of_ne (by decide) hd
    exact ⟨(forwarded_zero ..).trans hf.zero,
      (hf.settled.clear .decode).put hw fun hm => by cases hm⟩

private theorem mext_sane (h : Sane c) {s : PipeStage} {lat : Nat} (hs : s ≠ .memory)
    (hx : MextCases now c c' s lat) : Sane c' := by
  obtain ⟨x, hd, _, ⟨_, rfl⟩ | ⟨b, l, d, _, rfl, rfl⟩⟩ := hx
  · exact ⟨h.zero, h.settled⟩
  · have hf := flushIf_sane now (c := { c with bpu := b, events := l })
      ⟨h.zero, h.settled⟩
      (!x.traceInst.isBranch && x.brMispred)
    have hw : x.waitMem = false := h.settled.of_ne (by decide) hd
    exact ⟨(putReg_zero ..).trans hf.zero,
      (hf.settled.clear .decode).put hw fun hm => absurd hm hs⟩

private theorem toMemory_settled (h : Settled c.simPipe) {y : Transaction}
    (hy : y.waitMem = false) :
    Settled (Function.update (Function.update c.simPipe .execute none) .memory (some y)) :=
  (h.clear .execute).put hy fun _ => Function.update_self ..

private theorem doMemory_sane (h : Sane c) {ports : Ports} (hm : c.simPipe .memory = none)
    (hx : c.doMemory now ports = .ok c') : Sane c' := by
  obtain ⟨x, he, ⟨_, _, rfl⟩ | ⟨_, _, rfl⟩ | ⟨_, _, rfl⟩ | ⟨op, _, _, _, _, rfl⟩ |
    ⟨_, _, _, _, _, rfl⟩ | ⟨hw, _, _, rfl⟩⟩ := doMemory_cases hx
  · exact ⟨(responded_zero ..).trans h.zero, toMemory_settled h.settled rfl⟩
  · exact ⟨h.zero, h.settled⟩
  · exact ⟨h.zero, h.settled.wait hm _⟩
  · exact ⟨h.zero, h.settled.wait hm _⟩
  · exact ⟨h.zero, h.settled⟩
  · exact ⟨h.zero, toMemory_settled h.settled hw⟩

theorem stageHandler_sane {i : PipeStage} {ports : Ports} (due : c.stageDue now i) (h : Sane c)
    (hx : stageHandler now ports i c = .ok c') : Sane c' := by
  cases i with
  | fetch =>
    rcases doFetch1_cases hx with ⟨_, rfl⟩ | ⟨p, rest, _, _, _, rfl⟩ |
      ⟨p, rest, _, hp, _, _, rfl⟩
    · exact ⟨h.zero, h.settled⟩
    · exact ⟨h.zero, h.settled⟩
    · exact ⟨h.zero, h.settled.put hp fun hm => by cases hm⟩
  | decode => exact doDecode_sane h hx
  | execute => exact doExecute_sane h hx
  | intMulExt => exact mext_sane h (by decide) (doMulExt_cases hx)
  | intDivExt => exact mext_sane h (by decide) (doDivExt_cases hx)
  | memory => exact doMemory_sane h due.1 hx
  | writeBack =>
    rcases doWriteback_cases hx with ⟨_, rfl⟩ | ⟨s, x, cause, _, _, rfl⟩
    · exact ⟨h.zero, h.settled⟩
    · exact ⟨h.zero, h.settled.clear s⟩

theorem recvMemResp_sane {t : CpuTrans} (h : Sane c) (hx : c.recvMemResp now t = .ok c') :
    Sane c' := by
  rcases recvMemResp_cases hx with ⟨_, _, hx⟩ | ⟨_, hx⟩
  · obtain ⟨b, rest, _, ⟨_, rfl⟩ | ⟨q, _, _, rfl⟩⟩ := handleIfuResp_cases hx
    · exact ⟨h.zero, h.settled⟩
    · exact ⟨h.zero, h.settled⟩
  · obtain ⟨x, a, _, _, _, _, rfl⟩ := handleLsuResp_cases hx
    exact ⟨(responded_zero ..).trans h.zero, toMemory_settled h.settled rfl⟩

theorem coreStep_sane (h : CoreStep now c c') (hs : Sane c) : Sane c' := by
  cases h with
  | beginTick => exact ⟨hs.zero, hs.settled⟩
  | stage i ports due h => exact stageHandler_sane due hs h
  | fetch0 ready => exact doFetch0_sane hs ready
  | sched => exact ⟨hs.zero, hs.settled⟩
  | resp t h => exact recvMemResp_sane hs h
  | ack a h =>
    rcases ackMemAvail_cases h with ⟨_, rfl⟩ | ⟨_, ⟨x, _, _, _, rfl⟩ | ⟨_, rfl⟩⟩
    · exact ⟨hs.zero, hs.settled⟩
    · exact ⟨hs.zero, hs.settled⟩
    · exact ⟨hs.zero, hs.settled⟩
  | buffer inst h => exact ⟨hs.zero, hs.settled⟩
  | drain => exact ⟨hs.zero, hs.settled⟩
  | reset => exact ⟨hs.zero, hs.settled⟩
  | sent => exact ⟨hs.zero, hs.settled⟩

/-- The open core keeps register zero ready and its transactions settled. -/
theorem CoreReachable.sane {s : Clocked K} (h : CoreReachable s) : Sane s.core :=
  h.invariant (I := fun s => Sane s.core) (fun _ => ⟨rfl, .init⟩)
    (fun _ _ _ hc hs => coreStep_sane hc hs) fun _ _ hs => hs

theorem CoreReachable.blank {s : Clocked K} (h : CoreReachable s) : s.core.flow.Blank := by
  have hI : s.core.flow.Conserved ∧ s.core.flow.Blank := by
    refine h.flow_invariant (I := fun f => f.Conserved ∧ f.Blank)
      ⟨Flow.conserved_init, fun x hx => by cases hx⟩ ?_
    rintro f g hm ⟨hc, hb⟩
    exact ⟨hm.conserved hc, hm.blank hc.disciplined hb⟩
  exact hI.2

end Pipeline

end NpSim.Pipe
