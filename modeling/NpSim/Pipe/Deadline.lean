/- digest: The next update of WriteBack, shared by the Memory slot and the two M-extension units. -/

import NpSim.Pipe.Breakdown
import NpSim.Pipe.Order

set_option autoImplicit false
set_option relaxedAutoImplicit false

namespace NpSim.Pipe

open NpSim.Lib.Partial NpSim.Lib.Bypass Relation

def PipeStage.IsUnit (s : PipeStage) : Prop := s = .intMulExt ∨ s = .intDivExt

namespace Flow

theorem InOrder.units_free {f : Flow} (ho : f.InOrder) (hd : f.Disciplined) {x : Transaction}
    (hx : f.slot .decode = some x) (hs : x.traceInst.extOp ≠ Trace.ExtNone) {s : PipeStage}
    (hu : s.IsUnit) : f.slot s = none := by
  have hnil := ho.ordered.head_slow x.tag (by simp [Flow.lanes, hx]) hs
  cases hy : f.slot s with
  | none => rfl
  | some y =>
    have hmem : y.tag ∈ f.lanes.units := by
      have hreal := tags_real (hd.settled s y (by rcases hu with rfl | rfl <;> decide) hy).2
      rcases hu with rfl | rfl
      · refine List.mem_append_left _ ?_
        rw [hy, Option.toList_some, hreal]
        exact List.mem_singleton_self _
      · refine List.mem_append_right _ ?_
        rw [hy, Option.toList_some, hreal]
        exact List.mem_singleton_self _
    rw [hnil] at hmem
    cases hmem

end Flow

namespace Pipeline

variable {K : PipelineParams} {now : Nat} {c c' : Pipeline K}

/-- `mul_ready_tick_` or `div_ready_tick_` -/
def readyTick (c : Pipeline K) (s : PipeStage) : Nat :=
  if s = .intMulExt then c.mulReadyTick else c.divReadyTick

/-- What a step does to the next update of WriteBack and to the units. -/
inductive UnitStep (now : Nat) (c c' : Pipeline K) : Prop
  | keep (next : c'.stageUpdate .writeBack = c.stageUpdate .writeBack)
      (units : ∀ s, s.IsUnit → c'.simPipe s = c.simPipe s ∧ c'.readyTick s = c.readyTick s)
  | issue (s : PipeStage) (x : Transaction) (unit : s.IsUnit)
      (decode : c.simPipe .decode = some x) (slow : x.traceInst.extOp ≠ Trace.ExtNone)
      (slot : (c'.simPipe s).isSome = true)
      (next : c'.stageUpdate .writeBack = (c'.readyTick s : Tick))
      (units : ∀ t, t.IsUnit → t ≠ s → c'.simPipe t = c.simPipe t)
  | retire (due : c.stageUpdate .writeBack ≤ now)
      (next : c'.stageUpdate .writeBack ≤ ((now + 1 : Nat) : Tick))
      (units : ∀ s, s.IsUnit → (c'.simPipe s).isSome = true →
        (c.simPipe s).isSome = true ∧ c'.readyTick s = c.readyTick s)

private theorem keep_of (hs : c'.stageUpdate .writeBack = c.stageUpdate .writeBack)
    (hp : ∀ s, s ≠ .fetch → s ≠ .decode → s ≠ .execute → s ≠ .memory → c'.simPipe s = c.simPipe s)
    (hm : c'.mulReadyTick = c.mulReadyTick) (hv : c'.divReadyTick = c.divReadyTick) :
    UnitStep now c c' := by
  refine .keep hs fun s hu => ⟨?_, ?_⟩
  · rcases hu with rfl | rfl
    · exact hp _ (by decide) (by decide) (by decide) (by decide)
    · exact hp _ (by decide) (by decide) (by decide) (by decide)
  · unfold readyTick
    rw [hm, hv]

private theorem flushIf_keep (b : Bool) (now : Nat) (c : Pipeline K) :
    (c.flushIf b now).stageUpdate = c.stageUpdate ∧
      (∀ s, s ≠ .fetch → (c.flushIf b now).simPipe s = c.simPipe s) ∧
      (c.flushIf b now).mulReadyTick = c.mulReadyTick ∧
      (c.flushIf b now).divReadyTick = c.divReadyTick := by
  cases b with
  | false => exact ⟨rfl, fun _ _ => rfl, rfl, rfl⟩
  | true => exact ⟨rfl, fun s hs => Function.update_of_ne hs .., rfl, rfl⟩

private theorem mext_unit {s : PipeStage} {lat : Nat} (hu : s.IsUnit)
    (h : MextCases now c c' s lat) : UnitStep now c c' := by
  obtain ⟨x, hx, _, ⟨_, rfl⟩ | ⟨b, l, d, he, rfl, rfl⟩⟩ := h
  · exact .keep rfl fun _ _ => ⟨rfl, rfl⟩
  · obtain ⟨_, hslots, _, _⟩ := flushIf_keep (!x.traceInst.isBranch && x.brMispred) now
      ({ c with bpu := b, events := l } : Pipeline K)
    have hslow : x.traceInst.extOp ≠ Trace.ExtNone := by
      cases he with
      | mul hop => rcases hop with hop | hop <;> rw [hop] <;> decide
      | div hop => rcases hop with hop | hop <;> rw [hop] <;> decide
    refine .issue s x hu hx hslow ?_ ?_ fun t ht hts => ?_
    · dsimp only [mextIssued]
      rw [Function.update_self]
      rfl
    · dsimp only [mextIssued]
      rw [Function.update_self]
      rcases hu with rfl | rfl <;> rfl
    · dsimp only [mextIssued]
      have hf : t ≠ .fetch := by rcases ht with rfl | rfl <;> decide
      have hd : t ≠ .decode := by rcases ht with rfl | rfl <;> decide
      rw [Function.update_of_ne hts, Function.update_of_ne hd]
      exact hslots t hf

private theorem retryTick_soon (hm : c.simPipe .memory = none)
    (hv : c.prevStageValid now .writeBack = true) :
    c.retryTick now ≤ ((now + 1 : Nat) : Tick) := by
  simp only [prevStageValid, hm, Option.isSome_none, Bool.false_or, Bool.or_eq_true,
    Bool.and_eq_true, decide_eq_true_eq] at hv
  unfold retryTick
  refine max_le ?_ le_rfl
  have hnow : ((now : Nat) : Tick) ≤ ((now + 1 : Nat) : Tick) := by exact_mod_cast Nat.le_succ now
  rcases hv with ⟨hs, hr⟩ | ⟨hs, hr⟩
  · have hr' : (c.mulReadyTick : Tick) ≤ (now : Tick) := by exact_mod_cast hr
    simp only [hs, if_true]
    exact (min_le_right _ _).trans (hr'.trans hnow)
  · have hr' : (c.divReadyTick : Tick) ≤ (now : Tick) := by exact_mod_cast hr
    simp only [hs, if_true]
    split
    · exact (min_le_left _ _).trans ((min_le_right _ _).trans (hr'.trans hnow))
    · exact (min_le_right _ _).trans (hr'.trans hnow)

private theorem doWriteback_unit (due : c.stageDue now .writeBack)
    (h : c.doWriteback now = .ok c') : UnitStep now c c' := by
  rcases doWriteback_cases h with ⟨hs, rfl⟩ | ⟨s, x, cause, hs, hx, rfl⟩
  · have hm : c.simPipe .memory = none := by
      rcases commitSource_cases now c with ⟨_, hm⟩ | ⟨hc, _⟩ | ⟨t, hc, _⟩
      · exact hm
      · rw [hc] at hs
        cases hs
      · rw [hc] at hs
        cases hs
    refine .retire due.2.2 ?_ fun t _ ht => ⟨ht, rfl⟩
    dsimp only
    rw [Function.update_self]
    exact retryTick_soon hm due.2.1
  · refine .retire due.2.2 ?_ fun t _ ht => ⟨?_, rfl⟩
    · dsimp only
      rw [Function.update_self]
    · dsimp only at ht
      by_cases hts : t = s
      · rw [hts, Function.update_self] at ht
        cases ht
      · rwa [Function.update_of_ne hts] at ht

private theorem responded_wb (now : Nat) (inst : TraceInst) (c : Pipeline K) :
    respondedStages now inst c .writeBack = c.stageUpdate .writeBack := by
  unfold respondedStages
  split
  · exact retried_of_ne (by decide)
  · rfl

private theorem slots_keep {a b : PipeStage} {x y : Option Transaction} (ha : ¬a.IsUnit)
    (hb : ¬b.IsUnit) {s : PipeStage} (hu : s.IsUnit) :
    Function.update (Function.update c.simPipe a x) b y s = c.simPipe s := by
  have hsb : s ≠ b := fun e => hb (e ▸ hu)
  have hsa : s ≠ a := fun e => ha (e ▸ hu)
  rw [Function.update_of_ne hsb, Function.update_of_ne hsa]

theorem doFetch0_unit (ready : Bool) : UnitStep now c (c.doFetch0 now ready) := by
  have hend : c.endWrongPath.stageUpdate = c.stageUpdate ∧ c.endWrongPath.simPipe = c.simPipe ∧
      c.endWrongPath.mulReadyTick = c.mulReadyTick ∧
      c.endWrongPath.divReadyTick = c.divReadyTick := by
    unfold endWrongPath
    split <;> exact ⟨rfl, rfl, rfl, rfl⟩
  obtain ⟨hs, hp, hm, hd⟩ := hend
  rcases doFetch0_cases now ready c with ⟨_, h⟩ | ⟨_, h, _⟩ | ⟨_, _, _, h⟩ |
    ⟨_, _, _, _, _, _, h⟩ | ⟨_, _, _, _, ⟨_, h⟩ | ⟨x, _, _, h⟩⟩
  · rw [h]
    exact .keep rfl fun _ _ => ⟨rfl, rfl⟩
  · rw [h]
    exact .keep rfl fun _ _ => ⟨rfl, rfl⟩
  · rw [h]
    exact .keep rfl fun _ _ => ⟨rfl, rfl⟩
  · obtain ⟨b, a, f, heq, _⟩ := fetchWrongPath_eq now c
    rw [h, heq]
    exact .keep rfl fun _ _ => ⟨rfl, rfl⟩
  · rw [h]
    exact keep_of (congrFun hs _) (fun s _ _ _ _ => congrFun hp s) hm hd
  · obtain ⟨y, b, a, f, ps, n, heq, _⟩ := fetchReal_eq now x c.endWrongPath
    rw [h, heq]
    exact keep_of (congrFun hs _) (fun s _ _ _ _ => congrFun hp s) hm hd

theorem stageHandler_unit {i : PipeStage} {ports : Ports} (due : c.stageDue now i)
    (h : stageHandler now ports i c = .ok c') : UnitStep now c c' := by
  have hfetch : ¬PipeStage.fetch.IsUnit := fun h => by rcases h with h | h <;> cases h
  have hdecode : ¬PipeStage.decode.IsUnit := fun h => by rcases h with h | h <;> cases h
  have hexecute : ¬PipeStage.execute.IsUnit := fun h => by rcases h with h | h <;> cases h
  have hmemory : ¬PipeStage.memory.IsUnit := fun h => by rcases h with h | h <;> cases h
  cases i with
  | fetch =>
    rcases doFetch1_cases h with ⟨_, rfl⟩ | ⟨p, rest, _, _, _, rfl⟩ | ⟨p, rest, _, _, _, _, rfl⟩
    · exact .keep rfl fun _ _ => ⟨rfl, rfl⟩
    · exact .keep rfl fun _ _ => ⟨rfl, rfl⟩
    · exact keep_of rfl (fun s hf _ _ _ => Function.update_of_ne hf ..) rfl rfl
  | decode =>
    obtain ⟨x, a, _, _, ⟨_, rfl⟩ | ⟨w, _, _, _, rfl⟩ | ⟨_, rfl⟩⟩ := doDecode_cases h
    · exact keep_of rfl (fun s hf _ _ _ => Function.update_of_ne hf ..) rfl rfl
    · exact .keep rfl fun _ _ => ⟨rfl, rfl⟩
    · exact .keep rfl fun _ hu => ⟨slots_keep hfetch hdecode hu, rfl⟩
  | execute =>
    obtain ⟨x, _, _, ⟨_, rfl⟩ | ⟨b, l, d, _, rfl, rfl⟩⟩ := doExecute_cases h
    · exact .keep rfl fun _ _ => ⟨rfl, rfl⟩
    · obtain ⟨hs, hp, hm, hd⟩ :=
        flushIf_keep x.brMispred now ({ c with bpu := b, events := l } : Pipeline K)
      refine keep_of ?_ ?_ hm hd
      · dsimp only
        rw [Function.update_of_ne (by decide)]
        split
        · rw [retried_of_ne (by decide), hs]
        · rw [hs]
      · intro s hf hdec he _
        dsimp only
        rw [Function.update_of_ne he, Function.update_of_ne hdec]
        exact hp s hf
  | intMulExt => exact mext_unit (.inl rfl) (doMulExt_cases h)
  | intDivExt => exact mext_unit (.inr rfl) (doDivExt_cases h)
  | memory =>
    obtain ⟨x, _, ⟨_, _, rfl⟩ | ⟨_, _, rfl⟩ | ⟨_, _, rfl⟩ | ⟨op, _, _, _, _, rfl⟩ |
      ⟨_, _, _, _, _, rfl⟩ | ⟨_, _, _, rfl⟩⟩ := doMemory_cases h
    · refine .keep ?_ fun _ hu => ⟨slots_keep hexecute hmemory hu, rfl⟩
      dsimp only
      rw [Function.update_of_ne (by decide)]
      exact responded_wb now x.traceInst c
    · exact .keep rfl fun _ _ => ⟨rfl, rfl⟩
    · exact keep_of rfl (fun s _ _ he _ => Function.update_of_ne he ..) rfl rfl
    · exact keep_of rfl (fun s _ _ he _ => Function.update_of_ne he ..) rfl rfl
    · exact .keep rfl fun _ _ => ⟨rfl, rfl⟩
    · exact .keep rfl fun _ hu => ⟨slots_keep hexecute hmemory hu, rfl⟩
  | writeBack => exact doWriteback_unit due h

theorem recvMemResp_unit {t : CpuTrans} (h : c.recvMemResp now t = .ok c') :
    UnitStep now c c' := by
  have hexecute : ¬PipeStage.execute.IsUnit := fun h => by rcases h with h | h <;> cases h
  have hmemory : ¬PipeStage.memory.IsUnit := fun h => by rcases h with h | h <;> cases h
  rcases recvMemResp_cases h with ⟨_, _, h⟩ | ⟨_, h⟩
  · obtain ⟨b, rest, _, ⟨_, rfl⟩ | ⟨q, _, _, rfl⟩⟩ := handleIfuResp_cases h <;>
      exact .keep rfl fun _ _ => ⟨rfl, rfl⟩
  · obtain ⟨x, a, _, _, _, _, rfl⟩ := handleLsuResp_cases h
    refine .keep ?_ fun _ hu => ⟨slots_keep hexecute hmemory hu, rfl⟩
    dsimp only
    rw [Function.update_of_ne (by decide)]
    exact responded_wb now x.traceInst c

theorem coreStep_unit (h : CoreStep now c c') : UnitStep now c c' := by
  cases h with
  | beginTick => exact .keep rfl fun _ _ => ⟨rfl, rfl⟩
  | stage i ports due h => exact stageHandler_unit due h
  | fetch0 ready => exact doFetch0_unit ready
  | sched => exact .keep rfl fun _ _ => ⟨rfl, rfl⟩
  | resp t h => exact recvMemResp_unit h
  | ack a h =>
    rcases ackMemAvail_cases h with ⟨_, rfl⟩ | ⟨_, ⟨x, _, _, _, rfl⟩ | ⟨_, rfl⟩⟩ <;>
      exact .keep rfl fun _ _ => ⟨rfl, rfl⟩
  | buffer inst h => exact .keep rfl fun _ _ => ⟨rfl, rfl⟩
  | drain => exact .keep rfl fun _ _ => ⟨rfl, rfl⟩
  | reset => exact .keep rfl fun _ _ => ⟨rfl, rfl⟩
  | sent => exact .keep rfl fun _ _ => ⟨rfl, rfl⟩

/-- WriteBack is updated at the next tick, or waits for an occupied unit; an occupied unit that is
not done yet is what WriteBack waits for. -/
structure Deadline (s : Clocked K) : Prop where
  soon : s.core.stageUpdate .writeBack ≤ ((s.now + 1 : Nat) : Tick) ∨
    ∃ u, u.IsUnit ∧ (s.core.simPipe u).isSome = true ∧
      s.core.stageUpdate .writeBack = (s.core.readyTick u : Tick)
  kept : ∀ u, u.IsUnit → (s.core.simPipe u).isSome = true →
    s.core.stageUpdate .writeBack = (s.core.readyTick u : Tick) ∨ s.core.readyTick u ≤ s.now

theorem UnitStep.deadline (hu : UnitStep now c c') (hc : c.flow.Conserved) (ho : c.flow.InOrder)
    (h : Deadline ⟨now, c⟩) : Deadline ⟨now, c'⟩ := by
  obtain ⟨hsoon, hkept⟩ := h
  dsimp only at hsoon hkept
  cases hu with
  | keep next units =>
    refine ⟨?_, ?_⟩
    · dsimp only
      rw [next]
      refine hsoon.imp id ?_
      rintro ⟨u, hu, hs, hw⟩
      obtain ⟨hslot, hready⟩ := units u hu
      exact ⟨u, hu, hslot ▸ hs, hready ▸ hw⟩
    · intro u hu hs
      obtain ⟨hslot, hready⟩ := units u hu
      dsimp only at hs ⊢
      rw [hslot] at hs
      rw [next, hready]
      exact hkept u hu hs
  | issue s x unit decode slow slot next units =>
    have hfree : ∀ u, u.IsUnit → c.simPipe u = none := fun u hu =>
      ho.units_free hc.disciplined (x := x) decode slow hu
    refine ⟨.inr ⟨s, unit, slot, next⟩, ?_⟩
    intro u hu hs
    dsimp only at hs
    by_cases hus : u = s
    · rw [hus]
      exact .inl next
    · rw [units u hu hus, hfree u hu] at hs
      cases hs
  | retire due next units =>
    refine ⟨.inl next, ?_⟩
    intro u hu hs
    obtain ⟨hs', hready⟩ := units u hu hs
    dsimp only
    rw [hready]
    refine .inr ?_
    rcases hkept u hu hs' with hw | hw
    · rw [hw] at due
      exact_mod_cast due
    · exact hw

theorem CoreReachable.deadline {s : Clocked K} (h : CoreReachable s) : Deadline s := by
  have hall : (s.core.flow.Conserved ∧ s.core.flow.InOrder) ∧ Deadline s := by
    refine h.invariant
      (I := fun s => (s.core.flow.Conserved ∧ s.core.flow.InOrder) ∧ Deadline s) ?_ ?_ ?_
    · intro nxt
      refine ⟨⟨Flow.conserved_init, Flow.inOrder_init⟩, .inl zero_le, ?_⟩
      intro u _ hs
      cases hs
    · rintro now c c' hstep ⟨⟨hc, ho⟩, hd⟩
      refine ⟨invariant_of_run (I := fun f : Flow => f.Conserved ∧ f.InOrder)
        (fun f g hm hI => ⟨hm.conserved hI.1, hm.inOrder hI.1.disciplined hI.2⟩) ⟨hc, ho⟩
        (coreStep_flow hstep), (coreStep_unit hstep).deadline hc ho hd⟩
    · rintro now c ⟨hf, hsoon, hkept⟩
      refine ⟨hf, ?_, fun u hu hs => ?_⟩
      · refine hsoon.imp (fun hw => hw.trans ?_) id
        exact_mod_cast Nat.le_succ (now + 1)
      · exact (hkept u hu hs).imp id fun hr => hr.trans (Nat.le_succ now)
  exact hall.2

/-- The next update of WriteBack is at most one tick away unless a unit has further to go. -/
theorem Deadline.writeBack_soon {s : Clocked K} (h : Deadline s) :
    s.core.stageUpdate .writeBack ≤ ((s.now + 1 : Nat) : Tick) ↔
      ∀ u, u.IsUnit → (s.core.simPipe u).isSome = true → s.core.readyTick u ≤ s.now + 1 := by
  constructor
  · intro hw u hu hs
    rcases h.kept u hu hs with hr | hr
    · rw [hr] at hw
      exact_mod_cast hw
    · exact hr.trans (Nat.le_succ s.now)
  · intro hall
    rcases h.soon with hw | ⟨u, hu, hs, hw⟩
    · exact hw
    · rw [hw]
      exact_mod_cast hall u hu hs

private theorem commits_of_late (h : ReflTransGen (CoreStep now) c c')
    (hw : (now : Tick) < c.stageUpdate .writeBack) :
    c'.commits = c.commits ∧ (now : Tick) < c'.stageUpdate .writeBack := by
  induction h with
  | refl => exact ⟨rfl, hw⟩
  | tail _ hstep ih =>
    obtain ⟨hc, hw⟩ := ih
    rcases coreStep_acct hstep with ⟨_, hl, hn⟩ | ⟨_, _, hdue, _, _, _⟩ | ⟨_, hl, hn⟩
    · refine ⟨hl.trans hc, ?_⟩
      rcases hn with hn | hn
      · rwa [hn]
      · exact lt_of_lt_of_le (by exact_mod_cast Nat.lt_succ_self now) hn
    · exact absurd hw (not_lt.mpr hdue)
    · exact ⟨hl.trans hc, by rwa [hn]⟩

private theorem commits_mono (h : ReflTransGen (CoreStep now) c c') : c.commits <+: c'.commits := by
  induction h with
  | refl => exact List.prefix_refl _
  | tail _ hstep ih =>
    rcases coreStep_acct hstep with ⟨_, hl, _⟩ | ⟨_, _, _, _, hl, _⟩ | ⟨_, hl, _⟩
    · rwa [hl]
    · rw [hl]
      exact ih.trans (List.prefix_append _ _)
    · rwa [hl]

/-- An update commits the transaction in Memory exactly when WriteBack is due. -/
theorem update_commits {ports : Ports} {x : Transaction} (hidle : c.simPipe .writeBack = none)
    (hx : c.simPipe .memory = some x) (h : c.updateImpl now ports = .ok c') :
    (∃ stats, c.commits ++ [⟨x, now, stats⟩] <+: c'.commits) ↔
      c.stageUpdate .writeBack ≤ now := by
  constructor
  · rintro ⟨stats, hp⟩
    by_contra hlate
    have hc := (commits_of_late (updateImpl_steps h) (not_le.mp hlate)).1
    rw [hc] at hp
    have := hp.length_le
    rw [List.length_append, List.length_singleton] at this
    omega
  · intro hdue
    unfold updateImpl at h
    obtain ⟨d, hd, h⟩ := bind_eq_ok.mp h
    cases h
    simp only [PipeStage.reverseOrder, List.foldlM_cons] at hd
    obtain ⟨e, he, hd⟩ := bind_eq_ok.mp hd
    have hrun := runStages_steps [.memory, .intDivExt, .intMulExt, .execute, .decode, .fetch] hd
    have hall := (hrun.tail (.fetch0 ports.imem)).tail .sched
    have hdue' : ({ c with bpu := c.bpu.beginTick } : Pipeline K).stageDue now .writeBack :=
      ⟨hidle, by simp [prevStageValid, hx], hdue⟩
    unfold runStage at he
    rw [if_pos hdue'] at he
    have hsrc : ({ c with bpu := c.bpu.beginTick } : Pipeline K).commitSource now =
        some .memory := by
      unfold commitSource
      simp [hx]
    rcases doWriteback_cases he with ⟨hs, _⟩ | ⟨s, y, cause, hs, hy, rfl⟩
    · rw [hsrc] at hs
      cases hs
    · rw [hsrc] at hs
      cases hs
      cases hx.symm.trans hy
      exact ⟨_, commits_mono hall⟩

end Pipeline

end NpSim.Pipe
