/- digest: The next update of the core against its stages: after an update no stage but Decode comes
   due without it, and what happens between two updates keeps this, data responses apart. -/

import NpSim.Pipe.BtbPort
import NpSim.Pipe.Deadline
import NpSim.Pipe.Idle

set_option autoImplicit false
set_option relaxedAutoImplicit false

namespace NpSim.Pipe

open NpSim.Lib.Partial

/-- The slots that stage `i` fills or empties. -/
def PipeStage.slots : PipeStage → List PipeStage
  | .fetch => [.fetch]
  | .decode => [.fetch, .decode]
  | .execute => [.fetch, .decode, .execute]
  | .intMulExt => [.fetch, .decode, .intMulExt]
  | .intDivExt => [.fetch, .decode, .intDivExt]
  | .memory => [.execute, .memory]
  | .writeBack => [.memory, .intMulExt, .intDivExt]

/-- The stages that stage `i` schedules. -/
def PipeStage.clocks : PipeStage → List PipeStage
  | .fetch => [.fetch]
  | .decode => [.decode]
  | .execute => [.decode, .execute]
  | .intMulExt => [.decode, .intMulExt, .writeBack]
  | .intDivExt => [.decode, .intDivExt, .writeBack]
  | .memory => [.memory]
  | .writeBack => [.writeBack]

namespace Pipeline

variable {K : PipelineParams} {now : Nat} {c c' d : Pipeline K} {ports : Ports}
  {i j : PipeStage} {l : List PipeStage}

private theorem ne_of_two {a b : PipeStage} (h : j ∉ [a, b]) : j ≠ a ∧ j ≠ b :=
  ⟨List.ne_of_not_mem_cons h, fun e => h (e ▸ List.mem_cons_of_mem _ List.mem_cons_self)⟩

private theorem ne_of_three {a b e : PipeStage} (h : j ∉ [a, b, e]) : j ≠ a ∧ j ≠ b ∧ j ≠ e :=
  ⟨List.ne_of_not_mem_cons h, ne_of_two (List.not_mem_of_not_mem_cons h)⟩

private theorem legacyMmio_false (hnc : K.hasNc = true) (inst : TraceInst) :
    legacyMmio K inst = false := by
  unfold legacyMmio
  rw [hnc]
  exact Bool.and_false _

private theorem flushIf_clock (b : Bool) : (c.flushIf b now).stageUpdate = c.stageUpdate := by
  cases b <;> rfl

private theorem mext_frame {s : PipeStage} {lat : Nat} (h : MextCases now c c' s lat) :
    (∀ j, j ∉ [.fetch, .decode, s] → c'.simPipe j = c.simPipe j) ∧
      ∀ j, j ∉ [.decode, s, .writeBack] → c'.stageUpdate j = c.stageUpdate j := by
  obtain ⟨x, _, _, ⟨_, rfl⟩ | ⟨b, l, d, _, rfl, rfl⟩⟩ := h
  · exact ⟨fun _ _ => rfl, fun _ _ => rfl⟩
  refine ⟨fun j hj => ?_, fun j hj => ?_⟩
  · obtain ⟨hf, hd, hs⟩ := ne_of_three hj
    dsimp only [mextIssued]
    rw [Function.update_of_ne hs, Function.update_of_ne hd]
    exact flushIf_slot _ hf
  · obtain ⟨hd, hs, hw⟩ := ne_of_three hj
    dsimp only [mextIssued]
    rw [Function.update_of_ne hw, Function.update_of_ne hs, retried_of_ne hd, flushIf_clock]

theorem stage_frame (hnc : K.hasNc = true) (h : stageHandler now ports i c = .ok c') :
    (∀ j, j ∉ i.slots → c'.simPipe j = c.simPipe j) ∧
      ∀ j, j ∉ i.clocks → c'.stageUpdate j = c.stageUpdate j := by
  cases i with
  | fetch =>
    rcases doFetch1_cases h with ⟨_, rfl⟩ | ⟨p, rest, _, _, _, rfl⟩ | ⟨p, rest, _, _, _, _, rfl⟩
    · exact ⟨fun _ _ => rfl, fun j hj => Function.update_of_ne (List.ne_of_not_mem_cons hj) ..⟩
    · exact ⟨fun _ _ => rfl, fun j hj => Function.update_of_ne (List.ne_of_not_mem_cons hj) ..⟩
    · exact ⟨fun j hj => Function.update_of_ne (List.ne_of_not_mem_cons hj) .., fun _ _ => rfl⟩
  | decode =>
    obtain ⟨x, a, _, _, ⟨_, rfl⟩ | ⟨w, _, _, _, rfl⟩ | ⟨_, rfl⟩⟩ := doDecode_cases h
    · exact ⟨fun j hj => Function.update_of_ne (ne_of_two hj).1 ..,
        fun j hj => Function.update_of_ne (List.ne_of_not_mem_cons hj) ..⟩
    · exact ⟨fun _ _ => rfl, fun j hj => Function.update_of_ne (List.ne_of_not_mem_cons hj) ..⟩
    · refine ⟨fun j hj => ?_, fun j hj => Function.update_of_ne (List.ne_of_not_mem_cons hj) ..⟩
      obtain ⟨hf, hd⟩ := ne_of_two hj
      dsimp only
      rw [Function.update_of_ne hd, Function.update_of_ne hf]
  | execute =>
    obtain ⟨x, _, _, ⟨_, rfl⟩ | ⟨b, l, d, _, rfl, rfl⟩⟩ := doExecute_cases h
    · exact ⟨fun _ _ => rfl, fun _ _ => rfl⟩
    refine ⟨fun j hj => ?_, fun j hj => ?_⟩
    · obtain ⟨hf, hd, he⟩ := ne_of_three hj
      dsimp only
      rw [Function.update_of_ne he, Function.update_of_ne hd]
      exact flushIf_slot _ hf
    · obtain ⟨hd, he⟩ := ne_of_two hj
      dsimp only
      rw [Function.update_of_ne he]
      split
      · rw [retried_of_ne hd, flushIf_clock]
      · rw [flushIf_clock]
  | intMulExt => exact mext_frame (doMulExt_cases h)
  | intDivExt => exact mext_frame (doDivExt_cases h)
  | memory =>
    obtain ⟨x, _, ⟨_, hl, rfl⟩ | ⟨_, _, rfl⟩ | ⟨_, hl, rfl⟩ | ⟨op, _, _, _, _, rfl⟩ |
      ⟨op, _, _, _, _, rfl⟩ | ⟨_, _, _, rfl⟩⟩ := doMemory_cases h
    · rw [legacyMmio_false hnc] at hl
      cases hl
    · exact ⟨fun _ _ => rfl, fun j hj => Function.update_of_ne (List.ne_of_not_mem_cons hj) ..⟩
    · rw [legacyMmio_false hnc] at hl
      cases hl
    · exact ⟨fun j hj => Function.update_of_ne (ne_of_two hj).1 ..,
        fun j hj => Function.update_of_ne (List.ne_of_not_mem_cons hj) ..⟩
    · exact ⟨fun _ _ => rfl, fun j hj => Function.update_of_ne (List.ne_of_not_mem_cons hj) ..⟩
    · refine ⟨fun j hj => ?_, fun j hj => Function.update_of_ne (List.ne_of_not_mem_cons hj) ..⟩
      obtain ⟨he, hm⟩ := ne_of_two hj
      dsimp only
      rw [Function.update_of_ne hm, Function.update_of_ne he]
  | writeBack =>
    rcases doWriteback_cases h with ⟨_, rfl⟩ | ⟨s, x, cause, hs, hx, rfl⟩
    · exact ⟨fun _ _ => rfl, fun j hj => Function.update_of_ne (List.ne_of_not_mem_cons hj) ..⟩
    · refine ⟨fun j hj => ?_, fun j hj => Function.update_of_ne (List.ne_of_not_mem_cons hj) ..⟩
      have hsrc : s ∈ PipeStage.writeBack.slots := by
        rcases commitSource_cases now c with ⟨hc, _⟩ | ⟨hc, _⟩ | ⟨t, hc, _, _, _, ht⟩ <;>
          rw [hc] at hs
        · cases hs
        · cases hs
          exact List.mem_cons_self
        · cases hs
          rcases ht with ⟨rfl, _⟩ | ⟨rfl, _⟩ <;> decide
      have hne : j ≠ s := by
        rintro rfl
        exact hj hsrc
      dsimp only
      rw [Function.update_of_ne hne]

private theorem now_lt_succ (now : Nat) : (now : Tick) < ((now + 1 : Nat) : Tick) := by
  exact_mod_cast Nat.lt_succ_self now

private theorem now_lt_add (now : Nat) {k : Nat} (hk : 0 < k) :
    (now : Tick) < ((now + k : Nat) : Tick) := by
  exact_mod_cast Nat.lt_add_of_pos_right hk

private theorem later (hnc : K.hasNc = true) (hi : i = .writeBack ∨ i = .memory)
    (h : stageHandler now ports i c = .ok c') : (now : Tick) < c'.stageUpdate i := by
  rcases hi with rfl | rfl
  · rcases doWriteback_cases h with ⟨_, rfl⟩ | ⟨s, x, cause, _, _, rfl⟩
    · dsimp only
      rw [Function.update_self]
      exact (now_lt_succ now).trans_le (le_max_right _ _)
    · dsimp only
      rw [Function.update_self]
      exact now_lt_succ now
  · obtain ⟨x, _, ⟨_, hl, rfl⟩ | ⟨_, _, rfl⟩ | ⟨_, hl, rfl⟩ | ⟨op, _, _, _, _, rfl⟩ |
      ⟨op, _, _, _, _, rfl⟩ | ⟨_, _, _, rfl⟩⟩ := doMemory_cases h
    · rw [legacyMmio_false hnc] at hl
      cases hl
    · dsimp only
      rw [Function.update_self]
      exact ENat.natCast_lt_top now
    · rw [legacyMmio_false hnc] at hl
      cases hl
    · dsimp only
      rw [Function.update_self]
      exact ENat.natCast_lt_top now
    · dsimp only
      rw [Function.update_self]
      exact ENat.natCast_lt_top now
    · dsimp only
      rw [Function.update_self]
      exact now_lt_succ now

private theorem filled (hnc : K.hasNc = true) (hi : i = .memory ∨ i = .execute ∨ i = .decode)
    (hfree : c.simPipe i = none) (h : stageHandler now ports i c = .ok c') :
    c'.simPipe i = none ∨ c'.stageUpdate i = ((now + 1 : Nat) : Tick) := by
  rcases hi with rfl | rfl | rfl
  · have hslot : ∀ x, Function.update c.simPipe .execute x .memory = none := fun x =>
      (Function.update_of_ne (by decide) ..).trans hfree
    obtain ⟨x, _, ⟨_, hl, rfl⟩ | ⟨_, _, rfl⟩ | ⟨_, hl, rfl⟩ | ⟨op, _, _, _, _, rfl⟩ |
      ⟨op, _, _, _, _, rfl⟩ | ⟨_, _, _, rfl⟩⟩ := doMemory_cases h
    · rw [legacyMmio_false hnc] at hl
      cases hl
    · exact .inl hfree
    · rw [legacyMmio_false hnc] at hl
      cases hl
    · exact .inl (hslot (some { x with waitMem := true }))
    · exact .inl hfree
    · refine .inr ?_
      dsimp only
      rw [Function.update_self]
  · obtain ⟨x, _, _, ⟨_, rfl⟩ | ⟨b, l, d, _, rfl, rfl⟩⟩ := doExecute_cases h
    · exact .inl hfree
    · refine .inr ?_
      dsimp only
      rw [Function.update_self]
  · have hslot : Function.update c.simPipe .fetch none .decode = none :=
      (Function.update_of_ne (by decide) ..).trans hfree
    obtain ⟨x, a, _, _, ⟨_, rfl⟩ | ⟨w, _, _, _, rfl⟩ | ⟨_, rfl⟩⟩ := doDecode_cases h
    · exact .inl hslot
    · exact .inl hfree
    · refine .inr ?_
      dsimp only
      rw [Function.update_self]

private theorem readyTick_frame (hi : ¬i.IsUnit) (h : stageHandler now ports i c = .ok c')
    (u : PipeStage) : c'.readyTick u = c.readyTick u := by
  cases i with
  | fetch =>
    rcases doFetch1_cases h with ⟨_, rfl⟩ | ⟨p, rest, _, _, _, rfl⟩ | ⟨p, rest, _, _, _, _, rfl⟩ <;>
      rfl
  | decode =>
    obtain ⟨x, a, _, _, ⟨_, rfl⟩ | ⟨w, _, _, _, rfl⟩ | ⟨_, rfl⟩⟩ := doDecode_cases h <;> rfl
  | execute =>
    obtain ⟨x, _, _, ⟨_, rfl⟩ | ⟨b, l, d, _, rfl, rfl⟩⟩ := doExecute_cases h
    · rfl
    · cases x.brMispred <;> rfl
  | intMulExt => exact absurd (.inl rfl) hi
  | intDivExt => exact absurd (.inr rfl) hi
  | memory =>
    obtain ⟨x, _, ⟨_, _, rfl⟩ | ⟨_, _, rfl⟩ | ⟨_, _, rfl⟩ | ⟨op, _, _, _, _, rfl⟩ |
      ⟨op, _, _, _, _, rfl⟩ | ⟨_, _, _, rfl⟩⟩ := doMemory_cases h <;> rfl
  | writeBack => rcases doWriteback_cases h with ⟨_, rfl⟩ | ⟨s, x, cause, _, _, rfl⟩ <;> rfl

/-- The schedule of WriteBack and the units are the same. -/
private def SameUnits (c d : Pipeline K) : Prop :=
  d.stageUpdate .writeBack = c.stageUpdate .writeBack ∧
    ∀ u, u.IsUnit → d.simPipe u = c.simPipe u ∧ d.readyTick u = c.readyTick u

private theorem bypass (hnc : K.hasNc = true) (hi : i ≠ .writeBack)
    (h : stageHandler now ports i c = .ok c') :
    SameUnits c c' ∨ (now : Tick) < c'.stageUpdate .writeBack := by
  have hmext : ∀ s lat, 0 < lat → MextCases now c c' s lat →
      SameUnits c c' ∨ (now : Tick) < c'.stageUpdate .writeBack := by
    rintro s lat hlat ⟨x, _, _, ⟨_, rfl⟩ | ⟨b, l, d, _, rfl, rfl⟩⟩
    · exact .inl ⟨rfl, fun _ _ => ⟨rfl, rfl⟩⟩
    · refine .inr ?_
      dsimp only [mextIssued]
      rw [Function.update_self]
      exact now_lt_add now hlat
  by_cases hu : i.IsUnit
  · rcases hu with rfl | rfl
    · exact hmext _ _ (by decide) (doMulExt_cases h)
    · exact hmext _ _ (by decide) (doDivExt_cases h)
  · obtain ⟨hs, hc⟩ := stage_frame hnc h
    have hready := readyTick_frame hu h
    have hout : PipeStage.writeBack ∉ i.clocks ∧
        PipeStage.intMulExt ∉ i.slots ∧ PipeStage.intDivExt ∉ i.slots := by
      cases i with
      | fetch => decide
      | decode => decide
      | execute => decide
      | intMulExt => exact absurd (.inl rfl) hu
      | intDivExt => exact absurd (.inr rfl) hu
      | memory => decide
      | writeBack => exact absurd rfl hi
    refine .inl ⟨hc _ hout.1, fun u hu' => ⟨?_, hready u⟩⟩
    rcases hu' with rfl | rfl
    · exact hs _ hout.2.1
    · exact hs _ hout.2.2

/-- From tick `n` on, no stage but Decode comes due before the next update, unless it passes by what
is in Decode. -/
def Covered (n : Nat) (c : Pipeline K) : Prop :=
  ∀ T, n ≤ T → ∀ i, i ≠ .decode → c.stageDue T i →
    c.calcNxtupd ≤ (T : Tick) ∨ c.stageUpdate .decode ≤ (T : Tick) ∧ c.passesBy i = true

/-- The slots, the schedule and the units are the same. -/
structure SameStages (c d : Pipeline K) : Prop where
  slots : d.simPipe = c.simPipe
  clocks : d.stageUpdate = c.stageUpdate
  mul : d.mulReadyTick = c.mulReadyTick
  div : d.divReadyTick = c.divReadyTick

namespace SameStages

theorem due (h : SameStages c d) {T : Nat} (hd : d.stageDue T i) : c.stageDue T i := by
  unfold stageDue prevStageValid at hd ⊢
  rw [← h.slots, ← h.clocks, ← h.mul, ← h.div]
  exact hd

theorem passesBy (h : SameStages c d) (i : PipeStage) : d.passesBy i = c.passesBy i := by
  unfold Pipeline.passesBy
  rw [h.slots]

theorem covered {n : Nat} (h : SameStages c d) (hw : d.calcNxtupd ≤ c.calcNxtupd)
    (hc : Covered n c) : Covered n d := by
  intro T hT i hi hdue
  rw [h.passesBy, h.clocks]
  exact (hc T hT i hi (h.due hdue)).imp_left hw.trans

end SameStages

/-- A data response has moved its load or store to the Memory slot in tick `n`. -/
structure Answered (n : Nat) (c : Pipeline K) : Prop where
  slot : (c.simPipe .memory).isSome = true
  clock : c.stageUpdate .memory = ((n + 1 : Nat) : Tick)
  wake : c.calcNxtupd ≤ ((n + 1 : Nat) : Tick)

/-- Before the core's turn in tick `n`. -/
def Awaited (n : Nat) (c : Pipeline K) : Prop := Covered n c ∨ Answered n c

theorem Covered.of_due {n : Nat} (h : c.calcNxtupd ≤ (n : Tick)) : Covered n c := by
  intro T hT i _ _
  exact .inl (h.trans (by exact_mod_cast hT))

theorem Answered.covered {n : Nat} (h : Answered n c) : Covered (n + 1) c := .of_due h.wake

theorem Covered.later {m n : Nat} (h : Covered m c) (hmn : m ≤ n) : Covered n c :=
  fun T hT => h T (hmn.trans hT)

theorem Awaited.same {n : Nat} (h : Awaited n c) (hs : SameStages c d)
    (hw : d.calcNxtupd ≤ c.calcNxtupd) : Awaited n d := by
  refine h.imp (hs.covered hw) fun ha => ⟨?_, ?_, hw.trans ha.wake⟩
  · rw [hs.slots]
    exact ha.slot
  · rw [hs.clocks]
    exact ha.clock

/-- A response keeps the stages covered, or is answered in this tick. -/
theorem Covered.recvMemResp {m n : Nat} {t : CpuTrans} (h : Covered m c)
    (hx : c.recvMemResp n t = .ok c') : Covered m c' ∨ Answered n c' := by
  rcases recvMemResp_cases hx with ⟨_, _, hx⟩ | ⟨_, hx⟩
  · refine .inl ?_
    obtain ⟨b, rest, _, ⟨_, rfl⟩ | ⟨q, _, _, rfl⟩⟩ := handleIfuResp_cases hx
    · exact SameStages.covered ⟨rfl, rfl, rfl, rfl⟩ le_rfl h
    · intro T hT i hi hdue
      by_cases hf : i = .fetch
      · subst hf
        refine .inl ((min_le_right _ _).trans ?_)
        have := hdue.2.2
        dsimp only at this
        rw [Function.update_self] at this
        exact this
      · have hold : c.stageDue T i := by
          refine ⟨hdue.1, ?_, ?_⟩
          · have := hdue.2.1
            cases i <;> exact this
          · have := hdue.2.2
            dsimp only at this
            rw [Function.update_of_ne hf] at this
            exact this
        refine (h T hT i hi hold).imp (min_le_left _ _).trans fun hp => ⟨?_, hp.2⟩
        dsimp only
        rw [Function.update_of_ne (by decide)]
        exact hp.1
  · obtain ⟨x, a, _, _, _, _, rfl⟩ := handleLsuResp_cases hx
    refine .inr ⟨?_, ?_, min_le_right _ _⟩
    · dsimp only
      rw [Function.update_self]
      rfl
    · dsimp only
      rw [Function.update_self]

theorem Answered.recvMemResp {n : Nat} {t : CpuTrans} (h : Answered n c)
    (hx : c.recvMemResp n t = .ok c') : Answered n c' := by
  rcases recvMemResp_cases hx with ⟨_, _, hx⟩ | ⟨_, hx⟩
  · obtain ⟨b, rest, _, ⟨_, rfl⟩ | ⟨q, _, _, rfl⟩⟩ := handleIfuResp_cases hx
    · exact ⟨h.slot, h.clock, h.wake⟩
    · refine ⟨h.slot, ?_, (min_le_left _ _).trans h.wake⟩
      dsimp only
      rw [Function.update_of_ne (by decide)]
      exact h.clock
  · obtain ⟨x, a, _, _, _, _, rfl⟩ := handleLsuResp_cases hx
    refine ⟨?_, ?_, min_le_right _ _⟩
    · dsimp only
      rw [Function.update_self]
      rfl
    · dsimp only
      rw [Function.update_self]

theorem Awaited.recvMemResp {n : Nat} {t : CpuTrans} (h : Awaited n c)
    (hx : c.recvMemResp n t = .ok c') : Awaited n c' :=
  h.elim (·.recvMemResp hx) fun ha => .inr (ha.recvMemResp hx)

theorem Awaited.ackMemAvail {n : Nat} {a : AckTrans} (h : Awaited n c)
    (hx : c.ackMemAvail n a = .ok c') : Awaited n c' := by
  rcases ackMemAvail_cases hx with ⟨_, rfl⟩ | ⟨_, ⟨x, _, _, _, rfl⟩ | ⟨_, rfl⟩⟩
  · exact .inl (.of_due (min_le_right _ _))
  · exact .inl (.of_due (min_le_right _ _))
  · exact h

end Pipeline

end NpSim.Pipe
