/- digest: The register scoreboard: `reg_ready_` against the youngest writer in the slots, and the
   passes of Decode. -/

import NpSim.Pipe.Order

set_option autoImplicit false
set_option relaxedAutoImplicit false

namespace NpSim.Pipe

open NpSim.Lib.Partial NpSim.Lib.Bypass Relation

/-- The tick from which the result of a transaction can be read: its completion in the unit of an
M-extension instruction, two ticks after the data of a load or the execution of a branch, the
execution of anything else. -/
def Transaction.resultAt (x : Transaction) : Tick :=
  if x.traceInst.extOp = Trace.IntMulH ∨ x.traceInst.extOp = Trace.IntMulL then
    x.execAt + (Pipeline.mulLat : Tick)
  else if x.traceInst.extOp = Trace.IntDiv ∨ x.traceInst.extOp = Trace.IntRem then
    x.execAt + (Pipeline.divLat : Tick)
  else if x.traceInst.memOp = Trace.MemLoad then x.respAt + (2 : Tick)
  else if x.traceInst.isBranch then x.execAt + (2 : Tick)
  else x.execAt

theorem Transaction.resultAt_top {x : Transaction} (he : x.execAt = infTime)
    (hr : x.respAt = infTime) : x.resultAt = infTime := by
  unfold resultAt
  rw [he, hr]
  simp

theorem Transaction.resultAt_congr {x y : Transaction} (ht : y.traceInst = x.traceInst)
    (he : y.execAt = x.execAt)
    (hr : x.traceInst.memOp = Trace.MemLoad → y.respAt = x.respAt) : y.resultAt = x.resultAt := by
  unfold resultAt
  rw [ht, he]
  split
  · rfl
  · split
    · rfl
    · split
      · rename_i hl
        rw [hr hl]
      · rfl

namespace Sighting

/-- `y` is an older transaction in flight that writes `r`. -/
def OlderWriter (e : Sighting) (r : Nat) (y : Transaction) : Prop :=
  y ∈ e.issued ∧ y.seq < e.trans.seq ∧ y.traceInst.dstReg = r

/-- Every source of the transaction has been produced: the youngest older writer of it in flight
has its result. -/
def NoRaw (e : Sighting) : Prop :=
  ∀ r, r ≠ 0 → r = e.trans.traceInst.srcReg0 ∨ r = e.trans.traceInst.srcReg1 →
    ∀ y, e.OlderWriter r y → (∀ z, e.OlderWriter r z → z.seq ≤ y.seq) → y.resultAt ≤ e.tick

/-- Every younger writer in flight of the destination waits in Decode and satisfies `p`. -/
def Alone (p : Transaction → Prop) (e : Sighting) : Prop :=
  ∀ y ∈ e.issued, e.trans.seq < y.seq → y.traceInst.dstReg = e.trans.traceInst.dstReg →
    y.traceInst.dstReg ≠ 0 → y.execAt = infTime ∧ p y

end Sighting

namespace Flow

/-- The history marks: nothing in the front end has executed, nothing in Execute has its data, and
what is in a unit has executed. -/
structure Stamped (f : Flow) : Prop where
  front : ∀ x ∈ f.input.toList ++ f.line, x.execAt = infTime ∧ x.respAt = infTime
  execute : ∀ x, f.slot .execute = some x → x.respAt = infTime
  units : ∀ s x, s = .intMulExt ∨ s = .intDivExt → f.slot s = some x → x.execAt ≠ infTime

theorem stamped_init : init.Stamped := by
  constructor <;> simp [init, line, front]

private theorem answerFirst_stamps {l q : List Transaction}
    (h : Pipeline.answerFirst l = some q) {x : Transaction} (hx : x ∈ q) :
    ∃ y ∈ l, x.execAt = y.execAt ∧ x.respAt = y.respAt := by
  induction l generalizing q with
  | nil => cases h
  | cons z zs ih =>
    unfold Pipeline.answerFirst at h
    split at h
    · cases h
      rcases List.mem_cons.mp hx with rfl | hx
      · exact ⟨z, List.mem_cons_self, rfl, rfl⟩
      · exact ⟨x, List.mem_cons_of_mem z hx, rfl, rfl⟩
    · obtain ⟨r, hr, rfl⟩ := Option.map_eq_some_iff.mp h
      rcases List.mem_cons.mp hx with rfl | hx
      · exact ⟨x, List.mem_cons_self, rfl, rfl⟩
      · obtain ⟨y, hy, he⟩ := ih hr hx
        exact ⟨y, List.mem_cons_of_mem z hy, he⟩

private theorem mem_line {f : Flow} {x : Transaction} :
    x ∈ f.line ↔ f.slot .decode = some x ∨ f.slot .fetch = some x ∨ x ∈ f.queue := by
  simp [line, Flow.front]

theorem Stamped.input {f : Flow} (h : f.Stamped) :
    ∀ x ∈ f.input.toList, x.execAt = infTime ∧ x.respAt = infTime :=
  fun x hx => h.front x (List.mem_append_left _ hx)

theorem Stamped.decode {f : Flow} (h : f.Stamped) :
    ∀ x, f.slot .decode = some x → x.execAt = infTime ∧ x.respAt = infTime :=
  fun x hx => h.front x (List.mem_append_right _ (mem_line.mpr (.inl hx)))

theorem Stamped.fetch {f : Flow} (h : f.Stamped) :
    ∀ x, f.slot .fetch = some x → x.execAt = infTime ∧ x.respAt = infTime :=
  fun x hx => h.front x (List.mem_append_right _ (mem_line.mpr (.inr (.inl hx))))

theorem Stamped.queue {f : Flow} (h : f.Stamped) :
    ∀ x ∈ f.queue, x.execAt = infTime ∧ x.respAt = infTime :=
  fun x hx => h.front x (List.mem_append_right _ (mem_line.mpr (.inr (.inr hx))))

private theorem Stamped.of_places {g : Flow}
    (hi : ∀ x ∈ g.input.toList, x.execAt = infTime ∧ x.respAt = infTime)
    (hd : ∀ x, g.slot .decode = some x → x.execAt = infTime ∧ x.respAt = infTime)
    (hf : ∀ x, g.slot .fetch = some x → x.execAt = infTime ∧ x.respAt = infTime)
    (hq : ∀ x ∈ g.queue, x.execAt = infTime ∧ x.respAt = infTime)
    (he : ∀ x, g.slot .execute = some x → x.respAt = infTime)
    (hu : ∀ s x, s = .intMulExt ∨ s = .intDivExt → g.slot s = some x → x.execAt ≠ infTime) :
    g.Stamped := by
  refine ⟨fun x hx => ?_, he, hu⟩
  rcases List.mem_append.mp hx with hx | hx
  · exact hi x hx
  · rcases mem_line.mp hx with hx | hx | hx
    · exact hd x hx
    · exact hf x hx
    · exact hq x hx

private theorem Stamped.refront {f g : Flow} (h : f.Stamped)
    (hi : ∀ x ∈ g.input.toList, x.execAt = infTime ∧ x.respAt = infTime)
    (hd : ∀ x, g.slot .decode = some x → x.execAt = infTime ∧ x.respAt = infTime)
    (hf : ∀ x, g.slot .fetch = some x → x.execAt = infTime ∧ x.respAt = infTime)
    (hq : ∀ x ∈ g.queue, x.execAt = infTime ∧ x.respAt = infTime)
    (hs : ∀ s, s = .execute ∨ s = .intMulExt ∨ s = .intDivExt → g.slot s = f.slot s) :
    g.Stamped := by
  refine .of_places hi hd hf hq (fun x hx => ?_) fun s x hu hx => ?_
  · exact h.execute x (hs .execute (.inl rfl) ▸ hx)
  · exact h.units s x hu (hs s (.inr hu) ▸ hx)

private theorem Stamped.reback {f g : Flow} (h : f.Stamped) (hi : g.input = f.input)
    (hq : g.queue = f.queue)
    (hs : ∀ s, s = .decode ∨ s = .fetch → g.slot s = f.slot s)
    (he : ∀ x, g.slot .execute = some x → x.respAt = infTime)
    (hu : ∀ s x, s = .intMulExt ∨ s = .intDivExt → g.slot s = some x → x.execAt ≠ infTime) :
    g.Stamped :=
  .of_places (hi ▸ h.input) (hs .decode (.inl rfl) ▸ h.decode) (hs .fetch (.inr rfl) ▸ h.fetch)
    (hq ▸ h.queue) he hu

private theorem Stamped.pushed {f : Flow} (h : f.Stamped) {y : Transaction}
    (hy : y.execAt = infTime ∧ y.respAt = infTime) :
    ∀ x ∈ f.queue ++ [y], x.execAt = infTime ∧ x.respAt = infTime := by
  intro x hx
  rcases List.mem_append.mp hx with hx | hx
  · exact h.queue x hx
  · cases List.mem_singleton.mp hx
    exact hy

private theorem Stamped.realFetch {f : Flow} (h : f.Stamped) {x y : Transaction}
    (hin : f.input = some x) (hy : Pipeline.Fetched x y) :
    Flow.Stamped { f.request x.traceInst.pc false with
      input := none, queue := f.queue ++ [y], wrongPath := y.brMispred } := by
  obtain ⟨hold, pred, miss, rfl⟩ := hy.same
  have hx : x.execAt = infTime ∧ x.respAt = infTime := h.input x (by simp [hin])
  exact h.refront (fun z hz => nomatch hz) h.decode h.fetch (h.pushed hx) fun _ _ => rfl

private theorem Stamped.hold {f : Flow} (h : f.Stamped) {p : Transaction}
    {rest : List Transaction} {n : Nat} (hq : f.queue = p :: rest) :
    Flow.Stamped { f with queue := { p with bpMetaHold := n } :: rest } := by
  refine h.refront h.input h.decode h.fetch (fun x hx => ?_) fun _ _ => rfl
  rcases List.mem_cons.mp hx with rfl | hx
  · exact h.queue p (hq ▸ List.mem_cons_self)
  · exact h.queue x (hq ▸ List.mem_cons_of_mem p hx)

private theorem Stamped.enter {f : Flow} (h : f.Stamped) {p : Transaction}
    {rest : List Transaction} (hq : f.queue = p :: rest) :
    Flow.Stamped { f with
      queue := rest, slot := Function.update f.slot .fetch (some p) } := by
  refine h.refront h.input h.decode (fun x hx => ?_) (fun x hx => ?_) fun s hs => ?_
  · cases hx
    exact h.queue p (hq ▸ List.mem_cons_self)
  · exact h.queue x (hq ▸ List.mem_cons_of_mem p hx)
  · rcases hs with rfl | rfl | rfl <;> rfl

private theorem Stamped.resp {f : Flow} (h : f.Stamped) {rest : List Bool}
    {q : List Transaction} (hq : Pipeline.answerFirst f.queue = some q) :
    Flow.Stamped { f with orphans := rest, queue := q } := by
  refine h.refront h.input h.decode h.fetch (fun x hx => ?_) fun _ _ => rfl
  obtain ⟨y, hy, he, hr⟩ := answerFirst_stamps hq hx
  rw [he, hr]
  exact h.queue y hy

private theorem Stamped.drop {f : Flow} (h : f.Stamped) :
    Flow.Stamped { f with slot := Function.update f.slot .fetch none } := by
  refine h.refront h.input h.decode (fun y hy => nomatch hy) h.queue fun s hs => ?_
  rcases hs with rfl | rfl | rfl <;> rfl

private theorem Stamped.pass {f : Flow} (h : f.Stamped) {x : Transaction}
    (hx : f.slot .fetch = some x) :
    Flow.Stamped { f with
      slot := Function.update (Function.update f.slot .fetch none) .decode (some x) } := by
  refine h.refront h.input (fun y hy => ?_) (fun y hy => nomatch hy) h.queue fun s hs => ?_
  · cases hy
    exact h.fetch x hx
  · rcases hs with rfl | rfl | rfl <;> rfl

theorem Stamped.flushedIf {f : Flow} (h : f.Stamped) (b : Bool) : (f.flushedIf b).Stamped := by
  cases b with
  | false => exact h
  | true =>
    refine .of_places h.input (fun x hx => ?_) (fun x hx => nomatch hx) (fun x hx => nomatch hx)
      (fun x hx => ?_) fun s x hs hx => ?_
    · exact h.decode x ((f.flushed_slot (by decide)).symm.trans hx)
    · exact h.execute x ((f.flushed_slot (by decide)).symm.trans hx)
    · refine h.units s x hs ((f.flushed_slot ?_).symm.trans hx)
      rcases hs with rfl | rfl <;> decide

private theorem Stamped.issue {f : Flow} (h : f.Stamped) {s : PipeStage} {x : Transaction}
    (now : Nat) (hx : x.execAt = infTime ∧ x.respAt = infTime) (hu : ExecUnit s x.traceInst.extOp) :
    Flow.Stamped { f with
      slot := Function.update (Function.update f.slot .decode none) s
        (some { x with execAt := now }) } := by
  obtain ⟨hsd, hsf⟩ := hu.behind_decode
  refine .of_places h.input (fun y hy => ?_) (fun y hy => ?_) h.queue (fun y hy => ?_)
    fun t y ht hy => ?_
  · dsimp only at hy
    rw [Function.update_of_ne hsf.symm, Function.update_self] at hy
    cases hy
  · dsimp only at hy
    rw [Function.update_of_ne hsd.symm, Function.update_of_ne (by decide)] at hy
    exact h.fetch y hy
  · dsimp only at hy
    by_cases he : s = .execute
    · rw [he, Function.update_self] at hy
      cases hy
      exact hx.2
    · rw [Function.update_of_ne (Ne.symm he), Function.update_of_ne (by decide)] at hy
      exact h.execute y hy
  · dsimp only at hy
    by_cases he : t = s
    · rw [he, Function.update_self] at hy
      cases hy
      exact ENat.natCast_ne_top now
    · have htd : t ≠ .decode := by rcases ht with rfl | rfl <;> decide
      rw [Function.update_of_ne he, Function.update_of_ne htd] at hy
      exact h.units t y ht hy

private theorem Stamped.wait {f : Flow} (h : f.Stamped) {x : Transaction}
    (hx : f.slot .execute = some x) :
    Flow.Stamped { f with
      slot := Function.update f.slot .execute (some { x with waitMem := true }) } := by
  refine h.reback rfl rfl (fun s hs => ?_) (fun y hy => ?_) fun t y ht hy => ?_
  · rcases hs with rfl | rfl <;> rfl
  · cases hy
    exact h.execute x hx
  · refine h.units t y ht ?_
    rcases ht with rfl | rfl <;> exact hy

private theorem Stamped.toMemory {f : Flow} (h : f.Stamped) (x : Transaction) :
    Flow.Stamped { f with
      slot := Function.update (Function.update f.slot .execute none) .memory (some x) } := by
  refine h.reback rfl rfl (fun s hs => ?_) (fun y hy => nomatch hy) fun t y ht hy => ?_
  · rcases hs with rfl | rfl <;> rfl
  · refine h.units t y ht ?_
    rcases ht with rfl | rfl <;> exact hy

private theorem Stamped.commit {f : Flow} (h : f.Stamped) {s : PipeStage} (hs : f.Source s)
    (n : Nat) (commits : List Transaction) :
    Flow.Stamped { f with
      slot := Function.update f.slot s none, ongoing := n, commits := commits } := by
  refine h.reback rfl rfl (fun t ht => ?_) (fun y hy => ?_) fun t y ht hy => ?_
  · cases hs <;> rcases ht with rfl | rfl <;> rfl
  · refine h.execute y ?_
    cases hs <;> exact hy
  · refine h.units t y ht ?_
    by_cases he : t = s
    · rw [he] at hy
      exact absurd hy (by simp)
    · exact (Function.update_of_ne he _ _).symm.trans hy

theorem Move.stamped {f g : Flow} (hm : Move f g) (h : f.Stamped) : g.Stamped := by
  cases hm with
  | buffer inst hin =>
    refine h.refront (fun x hx => ?_) h.decode h.fetch h.queue fun _ _ => rfl
    cases List.mem_singleton.mp hx
    exact ⟨rfl, rfl⟩
  | earlyFetch pc => exact ⟨h.front, h.execute, h.units⟩
  | wrongFetch pc _ _ =>
    exact h.refront h.input h.decode h.fetch (h.pushed ⟨rfl, rfl⟩) fun _ _ => rfl
  | endWrong _ _ => exact ⟨h.front, h.execute, h.units⟩
  | realFetch x y hin _ hy => exact h.realFetch hin hy
  | hold p rest n hq _ => exact h.hold hq
  | enter p rest hq _ _ => exact h.enter hq
  | orphanResp rest _ => exact ⟨h.front, h.execute, h.units⟩
  | resp rest q _ hq => exact h.resp hq
  | drop x _ _ => exact h.drop
  | pass x hx _ _ _ _ => exact h.pass hx
  | issue s x now b hx _ hu _ _ => exact (h.flushedIf b).issue now (h.decode x hx) hu
  | wait x hx _ => exact h.wait hx
  | toMemory x w _ _ => exact h.toMemory _
  | commit s x _ hs => exact h.commit hs _ _
  | sent => exact ⟨h.front, h.execute, h.units⟩

theorem Move.fed_prefix {f g : Flow} (hm : Move f g) : f.fed <+: g.fed := by
  cases hm with
  | buffer inst _ => exact List.prefix_append ..
  | issue s x now b _ _ _ _ _ =>
    cases b with
    | false => exact List.prefix_rfl
    | true => exact List.prefix_rfl
  | _ => exact List.prefix_rfl

structure Writes (slot : PipeStage → Option Transaction) (r : Nat) (s : PipeStage)
    (y : Transaction) : Prop where
  settled : s ≠ .fetch
  at_slot : slot s = some y
  dst : y.traceInst.dstReg = r

/-- `y` is the youngest one that writes `r`. -/
structure Youngest (slot : PipeStage → Option Transaction) (r : Nat) (s : PipeStage)
    (y : Transaction) : Prop where
  writes : Writes slot r s y
  last : ∀ t z, Writes slot r t z → z.seq ≤ y.seq

variable {slot slot' : PipeStage → Option Transaction} {r : Nat} {s : PipeStage}
  {x x' y : Transaction}

private theorem Writes.congr (h : Writes slot r s y) (hs : ∀ t, t ≠ .fetch → slot' t = slot t) :
    Writes slot' r s y :=
  ⟨h.settled, (hs s h.settled).trans h.at_slot, h.dst⟩

theorem Youngest.congr (h : Youngest slot' r s y) (hs : ∀ t, t ≠ .fetch → slot' t = slot t) :
    Youngest slot r s y :=
  ⟨h.writes.congr fun t ht => (hs t ht).symm, fun t z hz => h.last t z (hz.congr hs)⟩

theorem Youngest.insert {a : PipeStage} (ha : a ≠ .fetch) (hfree : slot a = none)
    (h : Youngest (Function.update slot a (some x)) r s y) :
    s = a ∧ y = x ∧ x.traceInst.dstReg = r ∨
      s ≠ a ∧ Youngest slot r s y ∧ (x.traceInst.dstReg = r → x.seq ≤ y.seq) := by
  have hx : x.traceInst.dstReg = r → Writes (Function.update slot a (some x)) r a x := fun hd =>
    ⟨ha, Function.update_self .., hd⟩
  have hy := h.writes.at_slot
  by_cases hs : s = a
  · rw [hs, Function.update_self] at hy
    cases Option.some.inj hy
    exact .inl ⟨hs, rfl, h.writes.dst⟩
  · rw [Function.update_of_ne hs] at hy
    refine .inr ⟨hs, ⟨⟨h.writes.settled, hy, h.writes.dst⟩, fun t z hz => h.last t z ?_⟩,
      fun hd => h.last a x (hx hd)⟩
    have ht : t ≠ a := by
      rintro rfl
      exact absurd (hfree.symm.trans hz.at_slot) (by simp)
    exact ⟨hz.settled, (Function.update_of_ne ht _ _).trans hz.at_slot, hz.dst⟩

theorem Youngest.remove {a : PipeStage} (hx : slot a = some x)
    (hold : x.traceInst.dstReg = r → x.seq ≤ y.seq)
    (h : Youngest (Function.update slot a none) r s y) : s ≠ a ∧ Youngest slot r s y := by
  have hy := h.writes.at_slot
  have hs : s ≠ a := by
    rintro rfl
    rw [Function.update_self] at hy
    cases hy
  rw [Function.update_of_ne hs] at hy
  refine ⟨hs, ⟨h.writes.settled, hy, h.writes.dst⟩, fun t z hz => ?_⟩
  by_cases ht : t = a
  · rw [ht] at hz
    cases Option.some.inj (hx.symm.trans hz.at_slot)
    exact hold hz.dst
  · exact h.last t z ⟨hz.settled, (Function.update_of_ne ht _ _).trans hz.at_slot, hz.dst⟩

/-- The youngest writer after `x` moved from slot `a` to `b` and became `x'`. -/
theorem Youngest.relocate {a b : PipeStage} (ha : a ≠ .fetch) (hb : b ≠ .fetch)
    (hx : slot a = some x) (hfree : a = b ∨ slot b = none) (hseq : x'.seq = x.seq)
    (hinst : x'.traceInst = x.traceInst)
    (h : Youngest (Function.update (Function.update slot a none) b (some x')) r s y) :
    s = b ∧ y = x' ∧ Youngest slot r a x ∨ s ≠ a ∧ s ≠ b ∧ Youngest slot r s y := by
  have hfree' : Function.update slot a none b = none := by
    rcases hfree with rfl | hf
    · exact Function.update_self ..
    · by_cases hab : b = a
      · rw [hab]
        exact Function.update_self ..
      · rw [Function.update_of_ne hab]
        exact hf
  rcases h.insert hb hfree' with ⟨hs, rfl, hd⟩ | ⟨hs, hy, hle⟩
  · refine .inl ⟨hs, rfl, ⟨ha, hx, hinst ▸ hd⟩, fun t z hz => ?_⟩
    by_cases hta : t = a
    · rw [hta] at hz
      cases Option.some.inj (hx.symm.trans hz.at_slot)
      exact Nat.le_refl _
    · have htb : t ≠ b := by
        rintro rfl
        rcases hfree with hf | hf
        · exact hta hf.symm
        · exact absurd (hf.symm.trans hz.at_slot) (by simp)
      rw [← hseq]
      refine h.last t z ⟨hz.settled, ?_, hz.dst⟩
      rw [Function.update_of_ne htb, Function.update_of_ne hta]
      exact hz.at_slot
  · rw [hseq, hinst] at hle
    obtain ⟨hsa, hy⟩ := hy.remove hx hle
    exact .inr ⟨hsa, hs, hy⟩

theorem InOrder.seq_lt_decode {f : Flow} (ho : f.InOrder) (hd : f.Disciplined)
    (hx : f.slot .decode = some x) (hs : s ≠ .fetch) (hs' : s ≠ .decode)
    (hy : f.slot s = some y) : y.seq < x.seq := by
  have htag : ∀ {t z}, t ≠ .fetch → f.slot t = some z → z.tag ∈ tags (f.slot t).toList :=
    fun {t z} ht hz => by
      rw [hz, Option.toList_some, tags_real (hd.settled t z ht hz).2]
      exact List.mem_singleton_self _
  have hfront : x.tag ∈ f.lanes.front := by
    simp only [lanes, List.mem_append]
    exact .inl (.inl (.inl (htag (by decide) hx)))
  have hlane := ho.ordered.lane
  rw [List.pairwise_append] at hlane
  cases s with
  | fetch => exact absurd rfl hs
  | decode => exact absurd rfl hs'
  | execute =>
    exact hlane.2.2 y.tag (List.mem_append_right _ (htag (by decide) hy)) x.tag hfront
  | memory =>
    exact hlane.2.2 y.tag (List.mem_append_left _ (htag (by decide) hy)) x.tag hfront
  | intMulExt =>
    exact ho.ordered.units_front y.tag (List.mem_append_left _ (htag (by decide) hy)) x.tag hfront
  | intDivExt =>
    exact ho.ordered.units_front y.tag (List.mem_append_right _ (htag (by decide) hy)) x.tag hfront
  | writeBack => exact absurd (ho.idle.symm.trans hy) (by simp)

theorem InOrder.seq_lt_unit {f : Flow} (ho : f.InOrder) (hd : f.Disciplined)
    (hx : f.slot .execute = some x) (hs : s = .intMulExt ∨ s = .intDivExt)
    (hy : f.slot s = some y) (h0 : x.traceInst.dstReg ≠ 0)
    (he : x.traceInst.dstReg = y.traceInst.dstReg) : x.seq < y.seq := by
  have htag : ∀ {t z}, t ≠ .fetch → f.slot t = some z → z.tag ∈ tags (f.slot t).toList :=
    fun {t z} ht hz => by
      rw [hz, Option.toList_some, tags_real (hd.settled t z ht hz).2]
      exact List.mem_singleton_self _
  have hunit : y.tag ∈ f.lanes.units := by
    rcases hs with rfl | rfl
    · exact List.mem_append_left _ (htag (by decide) hy)
    · exact List.mem_append_right _ (htag (by decide) hy)
  exact ho.ordered.tail_clash y.tag hunit x.tag
    (List.mem_append_right _ (htag (by decide) hx)) ⟨h0, he⟩

theorem InOrder.execute_plain {f : Flow} (ho : f.InOrder) (hd : f.Disciplined)
    (hx : f.slot .execute = some x) : x.traceInst.extOp = Trace.ExtNone := by
  have hmem : x.tag ∈ f.lanes.tail := by
    refine List.mem_append_right _ ?_
    rw [hx, Option.toList_some, tags_real (hd.settled _ x (by decide) hx).2]
    exact List.mem_singleton_self _
  exact not_not.mp (ho.ordered.tail_fast x.tag hmem)

/-- Writers of one register commit in order: what is still in flight is younger. -/
theorem InOrder.seq_lt_held {f : Flow} (ho : f.InOrder) (hc : f.Conserved)
    (hx : x ∈ f.commits) (hs : s ≠ .fetch) (hy : f.slot s = some y)
    (h0 : x.traceInst.dstReg ≠ 0) (he : x.traceInst.dstReg = y.traceInst.dstReg) :
    x.seq < y.seq := by
  have htag : y.tag ∈ tags (f.slot s).toList := by
    rw [hy, Option.toList_some, tags_real (hc.disciplined.settled s y hs hy).2]
    exact List.mem_singleton_self _
  have hheld : y.tag ∈ f.lanes.tail ++ f.lanes.front ++ f.lanes.units := by
    simp only [lanes, List.mem_append]
    cases s with
    | fetch => exact absurd rfl hs
    | decode => exact .inl (.inr (.inl (.inl (.inl htag))))
    | execute => exact .inl (.inl (.inr htag))
    | memory => exact .inl (.inl (.inl htag))
    | intMulExt => exact .inr (.inl htag)
    | intDivExt => exact .inr (.inr htag)
    | writeBack => exact absurd (ho.idle.symm.trans hy) (by simp)
  have hlog : x.tag ∈ f.lanes.log := by
    rw [hc.log_eq]
    exact List.mem_map_of_mem hx
  exact ho.ordered.log_held x.tag hlog y.tag hheld (.inr (.inr ⟨h0, he⟩))

end Flow

namespace Pipeline

variable {K : PipelineParams} {now : Nat} {c c' : Pipeline K}

theorem mem_issued {y : Transaction} : y ∈ c.issued ↔ ∃ s, s ≠ .fetch ∧ c.simPipe s = some y := by
  simp only [issued, List.mem_filterMap]
  constructor
  · rintro ⟨s, hs, hy⟩
    refine ⟨s, ?_, hy⟩
    rintro rfl
    simp at hs
  · rintro ⟨s, hs, hy⟩
    refine ⟨s, ?_, hy⟩
    cases s with
    | fetch => exact absurd rfl hs
    | _ => decide

/-- What a step of the core does to the slots behind Fetch, to `reg_ready_` and to the logs. -/
inductive Change (now : Nat) (c c' : Pipeline K) : Prop
  | same (slots : ∀ s, s ≠ .fetch → c'.simPipe s = c.simPipe s)
      (regs : c'.regReady = c.regReady) (passes : c'.passes = c.passes)
      (loads : c'.loads = c.loads)
  | pass (x : Transaction) (fetch : c.simPipe .fetch = some x) (free : c.simPipe .decode = none)
      (ready : max (c.regReady x.traceInst.srcReg0) (c.regReady x.traceInst.srcReg1) ≤ now)
      (slots : ∀ s, s ≠ .fetch →
        c'.simPipe s = Function.update c.simPipe .decode (some x) s)
      (regs : c'.regReady = putReg c.regReady x.traceInst.dstReg infTime)
      (passes : c'.passes = c.passes ++ [⟨x, now, c.issued⟩]) (loads : c'.loads = c.loads)
  | issue (s : PipeStage) (x x' : Transaction) (decode : c.simPipe .decode = some x)
      (free : c.simPipe s = none) (unit : Flow.ExecUnit s x.traceInst.extOp)
      (stamp : x' = { x with execAt := now })
      (slots : ∀ t, t ≠ .fetch → c'.simPipe t =
        Function.update (Function.update c.simPipe .decode none) s (some x') t)
      (regs : c'.regReady = if s = .execute then forwarded now x.traceInst c.regReady
        else putReg c.regReady x.traceInst.dstReg x'.resultAt)
      (passes : c'.passes = c.passes) (loads : c'.loads = c.loads)
  | move (s : PipeStage) (x x' : Transaction) (execute : c.simPipe .execute = some x)
      (settled : s ≠ .fetch ∧ s ≠ .decode) (free : .execute = s ∨ c.simPipe s = none)
      (tag : x'.tag = x.tag) (result : x'.resultAt = x.resultAt)
      (slots : ∀ t, t ≠ .fetch → c'.simPipe t =
        Function.update (Function.update c.simPipe .execute none) s (some x') t)
      (regs : c'.regReady = c.regReady) (passes : c'.passes = c.passes)
      (loads : c'.loads = c.loads)
  | respond (x x' : Transaction) (execute : c.simPipe .execute = some x)
      (free : c.simPipe .memory = none) (load : x.traceInst.memOp = Trace.MemLoad)
      (stamp : x' = { x with waitMem := false, respAt := now })
      (slots : ∀ t, t ≠ .fetch → c'.simPipe t =
        Function.update (Function.update c.simPipe .execute none) .memory (some x') t)
      (regs : c'.regReady = putReg c.regReady x.traceInst.dstReg ((now + 2 : Nat) : Tick))
      (passes : c'.passes = c.passes)
      (loads : c'.loads = c.loads ++ [⟨x', now, (c.setSlot .execute (some x')).issued⟩])
  | commit (s : PipeStage) (x : Transaction) (settled : s ≠ .fetch) (slot : c.simPipe s = some x)
      (commits : x ∈ c'.flow.commits)
      (slots : ∀ t, t ≠ .fetch → c'.simPipe t = Function.update c.simPipe s none t)
      (regs : c'.regReady = c.regReady) (passes : c'.passes = c.passes)
      (loads : c'.loads = c.loads)

private theorem flushIf_keeps (b : Bool) (now : Nat) (c : Pipeline K) :
    (∀ s, s ≠ .fetch → (c.flushIf b now).simPipe s = c.simPipe s) ∧
      (c.flushIf b now).regReady = c.regReady ∧ (c.flushIf b now).passes = c.passes ∧
      (c.flushIf b now).loads = c.loads := by
  cases b with
  | false => exact ⟨fun _ _ => rfl, rfl, rfl, rfl⟩
  | true => exact ⟨fun s hs => Function.update_of_ne hs .., rfl, rfl, rfl⟩

private theorem doFetch0_change (now : Nat) (ready : Bool) (c : Pipeline K) :
    Change now c (c.doFetch0 now ready) := by
  have hend : ∀ d : Pipeline K, d.simPipe = c.simPipe → d.regReady = c.regReady →
      d.passes = c.passes → d.loads = c.loads → Change now c d := fun d h1 h2 h3 h4 =>
    .same (fun s _ => by rw [h1]) h2 h3 h4
  have hwrong : c.endWrongPath.simPipe = c.simPipe ∧ c.endWrongPath.regReady = c.regReady ∧
      c.endWrongPath.passes = c.passes ∧ c.endWrongPath.loads = c.loads := by
    unfold endWrongPath
    split <;> exact ⟨rfl, rfl, rfl, rfl⟩
  obtain ⟨h1, h2, h3, h4⟩ := hwrong
  rcases doFetch0_cases now ready c with ⟨_, h⟩ | ⟨_, h, _⟩ | ⟨_, _, _, h⟩ |
    ⟨_, _, _, _, _, _, h⟩ | ⟨_, _, _, _, hrest⟩
  · exact hend _ (by rw [h]) (by rw [h]) (by rw [h]) (by rw [h])
  · exact hend _ (by rw [h]) (by rw [h]) (by rw [h]) (by rw [h])
  · rw [h]
    exact hend _ rfl rfl rfl rfl
  · obtain ⟨b, a, f, heq, _⟩ := fetchWrongPath_eq now c
    rw [h, heq]
    exact hend _ rfl rfl rfl rfl
  · rcases hrest with ⟨_, h⟩ | ⟨x, _, _, h⟩
    · rw [h]
      exact hend _ h1 h2 h3 h4
    · obtain ⟨y, b, a, f, ps, n, heq, _⟩ := fetchReal_eq now x c.endWrongPath
      rw [h, heq]
      exact hend _ h1 h2 h3 h4

private theorem doFetch1_change (h : c.doFetch1 now = .ok c') : Change now c c' := by
  rcases doFetch1_cases h with ⟨_, rfl⟩ | ⟨p, rest, _, _, _, rfl⟩ | ⟨p, rest, _, _, _, _, rfl⟩
  · exact .same (fun _ _ => rfl) rfl rfl rfl
  · exact .same (fun _ _ => rfl) rfl rfl rfl
  · exact .same (fun s hs => Function.update_of_ne hs ..) rfl rfl rfl

private theorem doDecode_change (h : c.doDecode now = .ok c') (hd : c.simPipe .decode = none) :
    Change now c c' := by
  obtain ⟨x, a, hx, _, ⟨_, rfl⟩ | ⟨w, _, _, _, rfl⟩ | ⟨hp, rfl⟩⟩ := doDecode_cases h
  · exact .same (fun s hs => Function.update_of_ne hs ..) rfl rfl rfl
  · exact .same (fun _ _ => rfl) rfl rfl rfl
  · refine .pass x hx hd hp.ready (fun s hs => ?_) rfl rfl rfl
    by_cases hs' : s = .decode
    · rw [hs']
      dsimp only
      rw [Function.update_self, Function.update_self]
    · dsimp only
      rw [Function.update_of_ne hs', Function.update_of_ne hs, Function.update_of_ne hs']

private theorem issue_slots {d : Pipeline K} {s : PipeStage} {x : Transaction}
    (hd : ∀ t, t ≠ .fetch → d.simPipe t = c.simPipe t) (t : PipeStage) (ht : t ≠ .fetch) :
    Function.update (Function.update d.simPipe .decode none) s (some x) t =
      Function.update (Function.update c.simPipe .decode none) s (some x) t := by
  by_cases hs : t = s
  · rw [hs, Function.update_self, Function.update_self]
  · rw [Function.update_of_ne hs, Function.update_of_ne hs]
    by_cases hdec : t = .decode
    · rw [hdec, Function.update_self, Function.update_self]
    · rw [Function.update_of_ne hdec, Function.update_of_ne hdec, hd t ht]

private theorem doExecute_change (h : c.doExecute now = .ok c') (hs : c.simPipe .execute = none) :
    Change now c c' := by
  obtain ⟨x, hx, _, ⟨_, rfl⟩ | ⟨b, l, d, he, rfl, rfl⟩⟩ := doExecute_cases h
  · exact .same (fun _ _ => rfl) rfl rfl rfl
  · obtain ⟨h1, h2, h3, h4⟩ :=
      flushIf_keeps x.brMispred now ({ c with bpu := b, events := l } : Pipeline K)
    refine .issue .execute x { x with execAt := now } hx hs (he ▸ .alu) rfl
      (fun t ht => issue_slots h1 t ht) ?_ h3 h4
    rw [if_pos rfl]
    dsimp only
    rw [h2]

private theorem mext_change {s : PipeStage} {lat : Nat} (h : MextCases now c c' s lat)
    (hs : c.simPipe s = none) : Change now c c' := by
  obtain ⟨x, hx, _, ⟨_, rfl⟩ | ⟨b, l, d, he, rfl, rfl⟩⟩ := h
  · exact .same (fun _ _ => rfl) rfl rfl rfl
  · have hu : Flow.ExecUnit s x.traceInst.extOp ∧ s ≠ .execute ∧
        ({ x with execAt := now } : Transaction).resultAt = ((now + lat : Nat) : Tick) := by
      unfold Transaction.resultAt
      dsimp only
      cases he with
      | mul hop =>
        refine ⟨.mul hop, by decide, ?_⟩
        rw [if_pos hop]
        push_cast
        rfl
      | div hop =>
        refine ⟨.div hop, by decide, ?_⟩
        rw [if_neg (by rcases hop with hop | hop <;> rw [hop] <;> decide), if_pos hop]
        push_cast
        rfl
    obtain ⟨h1, h2, h3, h4⟩ := flushIf_keeps (!x.traceInst.isBranch && x.brMispred) now
      ({ c with bpu := b, events := l } : Pipeline K)
    refine .issue s x { x with execAt := now } hx hs hu.1 rfl
      (fun t ht => issue_slots h1 t ht) ?_ h3 h4
    rw [if_neg hu.2.1, hu.2.2]
    unfold mextIssued
    dsimp only
    rw [h2]

private theorem answer_change {x : Transaction} (hx : c.simPipe .execute = some x)
    (hm : c.simPipe .memory = none)
    (slots : c'.simPipe = Function.update (Function.update c.simPipe .execute none) .memory
      (some { x with waitMem := false, respAt := now }))
    (regs : c'.regReady = responded now x.traceInst c.regReady) (passes : c'.passes = c.passes)
    (loads : c'.loads = (c.setSlot .execute (some { x with
      waitMem := false, respAt := now })).noted now { x with waitMem := false, respAt := now }) :
    Change now c c' := by
  unfold responded at regs
  unfold noted at loads
  dsimp only at loads
  by_cases hl : x.traceInst.memOp = Trace.MemLoad
  · rw [if_pos hl] at regs loads
    exact .respond x _ hx hm hl rfl (fun t _ => congrFun slots t) regs passes loads
  · rw [if_neg hl] at regs loads
    refine .move .memory x { x with waitMem := false, respAt := now } hx (by decide) (.inr hm) rfl
      ?_ (fun t _ => congrFun slots t) regs passes loads
    exact Transaction.resultAt_congr rfl rfl fun hc => absurd hc hl

private theorem update_execute (x : Transaction) :
    Function.update c.simPipe .execute (some x) =
      Function.update (Function.update c.simPipe .execute none) .execute (some x) :=
  (Function.update_idem ..).symm

private theorem doMemory_change {ports : Ports} (h : c.doMemory now ports = .ok c')
    (hs : c.simPipe .memory = none) : Change now c c' := by
  have hwait : ∀ (x : Transaction) (d : Pipeline K), c.simPipe .execute = some x →
      d.simPipe = Function.update c.simPipe .execute (some { x with waitMem := true }) →
      d.regReady = c.regReady → d.passes = c.passes → d.loads = c.loads → Change now c d :=
    fun x d hx h1 h2 h3 h4 => by
      rw [update_execute] at h1
      exact .move .execute x { x with waitMem := true } hx (by decide) (.inl rfl) rfl rfl
        (fun t _ => congrFun h1 t) h2 h3 h4
  obtain ⟨x, hx, ⟨_, _, rfl⟩ | ⟨_, _, rfl⟩ | ⟨_, _, rfl⟩ | ⟨op, _, _, _, _, rfl⟩ |
    ⟨_, _, _, _, _, rfl⟩ | ⟨_, _, _, rfl⟩⟩ := doMemory_cases h
  · exact answer_change hx hs rfl rfl rfl rfl
  · exact .same (fun _ _ => rfl) rfl rfl rfl
  · exact hwait x _ hx rfl rfl rfl rfl
  · exact hwait x _ hx rfl rfl rfl rfl
  · exact .same (fun _ _ => rfl) rfl rfl rfl
  · exact .move .memory x x hx (by decide) (.inr hs) rfl rfl (fun _ _ => rfl) rfl rfl rfl

private theorem doWriteback_change (h : c.doWriteback now = .ok c') : Change now c c' := by
  rcases doWriteback_cases h with ⟨_, rfl⟩ | ⟨s, x, cause, hs, hx, rfl⟩
  · exact .same (fun _ _ => rfl) rfl rfl rfl
  · have hne : s ≠ .fetch := by
      rcases commitSource_cases now c with ⟨hc, _⟩ | ⟨hc, _⟩ |
        ⟨s', hc, _, _, _, ⟨rfl, _⟩ | ⟨rfl, _⟩⟩ <;> rw [hc] at hs <;> cases hs <;> decide
    exact .commit s x hne hx (by simp [flow]) (fun _ _ => rfl) rfl rfl rfl

theorem coreStep_change (h : CoreStep now c c') : Change now c c' := by
  cases h with
  | beginTick => exact .same (fun _ _ => rfl) rfl rfl rfl
  | stage i ports due h =>
    cases i with
    | fetch => exact doFetch1_change h
    | decode => exact doDecode_change h due.1
    | execute => exact doExecute_change h due.1
    | intMulExt => exact mext_change (doMulExt_cases h) due.1
    | intDivExt => exact mext_change (doDivExt_cases h) due.1
    | memory => exact doMemory_change h due.1
    | writeBack => exact doWriteback_change h
  | fetch0 ready => exact doFetch0_change now ready c
  | sched => exact .same (fun _ _ => rfl) rfl rfl rfl
  | resp t h =>
    rcases recvMemResp_cases h with ⟨_, _, h⟩ | ⟨_, h⟩
    · obtain ⟨b, rest, _, ⟨_, rfl⟩ | ⟨q, _, _, rfl⟩⟩ := handleIfuResp_cases h
      · exact .same (fun _ _ => rfl) rfl rfl rfl
      · exact .same (fun _ _ => rfl) rfl rfl rfl
    · obtain ⟨x, a, hx, _, hm, _, rfl⟩ := handleLsuResp_cases h
      exact answer_change hx hm rfl rfl rfl rfl
  | ack a h =>
    rcases ackMemAvail_cases h with ⟨_, rfl⟩ | ⟨_, ⟨x, _, _, _, rfl⟩ | ⟨_, rfl⟩⟩ <;>
      exact .same (fun _ _ => rfl) rfl rfl rfl
  | buffer inst h => exact .same (fun _ _ => rfl) rfl rfl rfl
  | drain => exact .same (fun _ _ => rfl) rfl rfl rfl
  | reset => exact .same (fun _ _ => rfl) rfl rfl rfl
  | sent => exact .same (fun _ _ => rfl) rfl rfl rfl

/-- The scoreboard: `reg_ready_` carries the result time of the youngest writer behind Fetch, up to
a writer in Decode that satisfies `p`; and no instruction has passed Decode too early. -/
structure Scoreboard (p : Transaction → Prop) (c : Pipeline K) : Prop where
  carries : ∀ r s y, r ≠ 0 → Flow.Youngest c.simPipe r s y →
    s = .decode ∧ p y ∨ c.regReady r = y.resultAt
  passes : ∀ e ∈ c.passes, e.NoRaw

/-- What is known of a state before a step. -/
structure Known (c : Pipeline K) : Prop where
  conserved : c.flow.Conserved
  inOrder : c.flow.InOrder
  stamped : c.flow.Stamped
  fed : ∀ inst ∈ c.fed, inst.RV32IM

theorem Known.rv32im (h : Known c) {s : PipeStage} {x : Transaction} (hs : s ≠ .fetch)
    (hx : c.simPipe s = some x) : x.traceInst.RV32IM :=
  h.fed x.traceInst (List.mem_of_getElem? (h.conserved.fed_of_slot hs hx))

theorem putReg_of_ne {g : Nat → Tick} {r rd : Nat} {w : Tick} (h : r ≠ rd) :
    putReg g rd w r = g r := by
  unfold putReg
  split
  · rfl
  · exact Function.update_of_ne h ..

theorem putReg_self {g : Nat → Tick} {r : Nat} {w : Tick} (h : r ≠ 0) : putReg g r w r = w := by
  unfold putReg
  rw [if_neg h, Function.update_self]

private theorem extNone_of_execute {op : Nat} (h : Flow.ExecUnit .execute op) :
    op = Trace.ExtNone := by
  cases h
  rfl

/-- The register write of an issue: the result time of the issued instruction, but for loads and
stores, which write nothing. -/
private theorem issued_reg {s : PipeStage} {x x' : Transaction} (hrv : x.traceInst.RV32IM)
    (hu : Flow.ExecUnit s x.traceInst.extOp) (h0 : x.traceInst.dstReg ≠ 0)
    (stamp : x' = { x with execAt := now }) (g : Nat → Tick) :
    (if s = .execute then forwarded now x.traceInst g
      else putReg g x.traceInst.dstReg x'.resultAt) x.traceInst.dstReg = x'.resultAt ∨
    x.traceInst.memOp = Trace.MemLoad ∧ s = .execute := by
  by_cases hs : s = .execute
  · rw [if_pos hs]
    rcases hrv.memOp with hm | hm | hm
    · refine .inl ?_
      have hext : x.traceInst.extOp = Trace.ExtNone := extNone_of_execute (hs ▸ hu)
      rw [forwarded, if_pos hm, putReg_self h0, forwardTick, stamp]
      unfold Transaction.resultAt
      dsimp only
      rw [hext, hm]
      by_cases hb : x.traceInst.isBranch = true
      · simp [hb, h0, Trace.ExtNone, Trace.IntMulH, Trace.IntMulL, Trace.IntDiv, Trace.IntRem]
      · simp [hb, Trace.ExtNone, Trace.IntMulH, Trace.IntMulL, Trace.IntDiv, Trace.IntRem]
    · exact .inr ⟨hm, hs⟩
    · exact absurd (hrv.store hm) h0
  · rw [if_neg hs, putReg_self h0]
    exact .inl rfl

private theorem issued_reg_of_ne {s : PipeStage} {x : Transaction} {r : Nat} {w : Tick}
    (h : r ≠ x.traceInst.dstReg) (g : Nat → Tick) :
    (if s = .execute then forwarded now x.traceInst g
      else putReg g x.traceInst.dstReg w) r = g r := by
  split
  · unfold forwarded
    split
    · exact putReg_of_ne h
    · rfl
  · exact putReg_of_ne h

private theorem Scoreboard.carries_pass {p : Transaction → Prop} (hb : Scoreboard p c)
    (hc : Known c) {x : Transaction} (fetch : c.simPipe .fetch = some x)
    (free : c.simPipe .decode = none) {r : Nat} {s : PipeStage} {y : Transaction} (h0 : r ≠ 0)
    (hy : Flow.Youngest (Function.update c.simPipe .decode (some x)) r s y)
    (hlt : s ≠ .decode → y.seq < x.seq) :
    s = .decode ∧ p y ∨ putReg c.regReady x.traceInst.dstReg infTime r = y.resultAt := by
  rcases hy.insert (by decide) free with ⟨hs, rfl, hd⟩ | ⟨hs, hold, hle⟩
  · obtain ⟨he, hr⟩ := hc.stamped.fetch y fetch
    rw [← hd, putReg_self (hd ▸ h0), Transaction.resultAt_top he hr]
    exact .inr rfl
  · have hne : r ≠ x.traceInst.dstReg := fun he => absurd (hle he.symm) (by have := hlt hs; omega)
    rw [putReg_of_ne hne]
    exact hb.carries r s y h0 hold

/-- The destination of an issued load keeps the value it had in Decode, without a result. -/
private theorem Scoreboard.carries_issued {p : Transaction → Prop}
    (hp : ∀ y, p y → y.traceInst.memOp ≠ Trace.MemLoad) (hb : Scoreboard p c) (hc : Known c)
    {a : PipeStage} {x x' : Transaction} (decode : c.simPipe .decode = some x)
    (unit : Flow.ExecUnit a x.traceInst.extOp) (stamp : x' = { x with execAt := now })
    (h0 : x.traceInst.dstReg ≠ 0)
    (hold : Flow.Youngest c.simPipe x.traceInst.dstReg .decode x) :
    (if a = .execute then forwarded now x.traceInst c.regReady
      else putReg c.regReady x.traceInst.dstReg x'.resultAt) x.traceInst.dstReg =
      x'.resultAt := by
  rcases issued_reg (hc.rv32im (by decide) decode) unit h0 stamp c.regReady with hreg | ⟨hl, ha⟩
  · exact hreg
  · rw [if_pos ha, forwarded, if_neg (by rw [hl]; decide)]
    rcases hb.carries _ _ x h0 hold with ⟨_, hpx⟩ | hreg
    · exact absurd hl (hp x hpx)
    · obtain ⟨he, hr⟩ := hc.stamped.decode x decode
      have hext : x.traceInst.extOp = Trace.ExtNone := extNone_of_execute (ha ▸ unit)
      refine hreg.trans ?_
      rw [Transaction.resultAt_top he hr, stamp]
      unfold Transaction.resultAt
      dsimp only
      rw [hext, hl, hr]
      rfl

private theorem Scoreboard.carries_issue {p : Transaction → Prop}
    (hp : ∀ y, p y → y.traceInst.memOp ≠ Trace.MemLoad) (hb : Scoreboard p c) (hc : Known c)
    {a : PipeStage} {x x' : Transaction} (decode : c.simPipe .decode = some x)
    (free : c.simPipe a = none) (unit : Flow.ExecUnit a x.traceInst.extOp)
    (stamp : x' = { x with execAt := now }) {r : Nat} {s : PipeStage} {y : Transaction}
    (h0 : r ≠ 0)
    (hy : Flow.Youngest (Function.update (Function.update c.simPipe .decode none) a (some x'))
      r s y) :
    s = .decode ∧ p y ∨ (if a = .execute then forwarded now x.traceInst c.regReady
      else putReg c.regReady x.traceInst.dstReg x'.resultAt) r = y.resultAt := by
  have hsd := unit.behind_decode
  rcases hy.relocate (by decide) hsd.1 decode (.inr free) (by rw [stamp]) (by rw [stamp]) with
    ⟨_, rfl, hold⟩ | ⟨hsd', _, hold⟩
  · have hr := hold.writes.dst
    subst hr
    exact .inr (hb.carries_issued hp hc decode unit stamp h0 hold)
  · have hlt := hc.inOrder.seq_lt_decode hc.conserved.disciplined decode hold.writes.settled
      hsd' hold.writes.at_slot
    have hne : r ≠ x.traceInst.dstReg := fun he =>
      absurd (hold.last .decode x ⟨by decide, decode, he.symm⟩) (by omega)
    rw [issued_reg_of_ne hne]
    exact hb.carries r s y h0 hold

private theorem Scoreboard.carries_move {p : Transaction → Prop} (hb : Scoreboard p c)
    {a : PipeStage} {x x' : Transaction} (execute : c.simPipe .execute = some x)
    (settled : a ≠ .fetch) (free : .execute = a ∨ c.simPipe a = none) (tag : x'.tag = x.tag)
    (result : x'.resultAt = x.resultAt) {r : Nat} {s : PipeStage} {y : Transaction} (h0 : r ≠ 0)
    (hy : Flow.Youngest (Function.update (Function.update c.simPipe .execute none) a (some x'))
      r s y) :
    s = .decode ∧ p y ∨ c.regReady r = y.resultAt := by
  rcases hy.relocate (by decide) settled execute free (congrArg Tag.seq tag)
      (congrArg Tag.inst tag) with ⟨_, rfl, hold⟩ | ⟨_, _, hold⟩
  · rw [result]
    exact .inr ((hb.carries r _ x h0 hold).resolve_left fun hx => by cases hx.1)
  · exact hb.carries r s y h0 hold

/-- The youngest writer of the register of a load in Execute, if it is another one, is younger and
waits in Decode or is in a unit. -/
private theorem Known.younger_writer (hc : Known c) {x y : Transaction}
    (execute : c.simPipe .execute = some x) (h0 : x.traceInst.dstReg ≠ 0) {s : PipeStage}
    (hse : s ≠ .execute) (hsm : s ≠ .memory)
    (hold : Flow.Youngest c.simPipe x.traceInst.dstReg s y) :
    x.seq < y.seq ∧ (s = .decode ∨ s = .intMulExt ∨ s = .intDivExt) := by
  have hplace : s = .decode ∨ s = .intMulExt ∨ s = .intDivExt := by
    cases s with
    | fetch => exact absurd rfl hold.writes.settled
    | execute => exact absurd rfl hse
    | memory => exact absurd rfl hsm
    | writeBack => exact absurd (hc.inOrder.idle.symm.trans hold.writes.at_slot) (by simp)
    | decode => exact .inl rfl
    | intMulExt => exact .inr (.inl rfl)
    | intDivExt => exact .inr (.inr rfl)
  refine ⟨?_, hplace⟩
  rcases hplace with rfl | hunit
  · exact hc.inOrder.seq_lt_decode hc.conserved.disciplined hold.writes.at_slot (by decide)
      (by decide) execute
  · exact hc.inOrder.seq_lt_unit hc.conserved.disciplined execute hunit hold.writes.at_slot h0
      hold.writes.dst.symm

private theorem Scoreboard.carries_respond {p : Transaction → Prop} (hb : Scoreboard p c)
    (hc : Known c) {x x' : Transaction} (execute : c.simPipe .execute = some x)
    (free : c.simPipe .memory = none) (load : x.traceInst.memOp = Trace.MemLoad)
    (stamp : x' = { x with waitMem := false, respAt := now })
    (halone : Sighting.Alone p ⟨x', now, (c.setSlot .execute (some x')).issued⟩)
    {r : Nat} {s : PipeStage} {y : Transaction} (h0 : r ≠ 0)
    (hy : Flow.Youngest (Function.update (Function.update c.simPipe .execute none) .memory
      (some x')) r s y) :
    s = .decode ∧ p y ∨
      putReg c.regReady x.traceInst.dstReg ((now + 2 : Nat) : Tick) r = y.resultAt := by
  have hseq : x'.seq = x.seq := by rw [stamp]
  have hinst : x'.traceInst = x.traceInst := by rw [stamp]
  by_cases hr : r = x.traceInst.dstReg
  · subst hr
    rw [putReg_self h0]
    rcases hy.relocate (by decide) (by decide) execute (.inr free) hseq hinst with
      ⟨_, rfl, _⟩ | ⟨hse, hsm, hold⟩
    · have hplain := hc.inOrder.execute_plain hc.conserved.disciplined execute
      refine .inr ?_
      rw [stamp]
      unfold Transaction.resultAt
      dsimp only
      rw [hplain, load]
      push_cast
      rfl
    · -- a younger writer of the same register: the load must have found it in Decode
      obtain ⟨hlt, hplace⟩ := hc.younger_writer execute h0 hse hsm hold
      have hissued : y ∈ (c.setSlot .execute (some x')).issued :=
        mem_issued.mpr ⟨s, hold.writes.settled,
          (Function.update_of_ne hse ..).trans hold.writes.at_slot⟩
      obtain ⟨hexec, hpy⟩ := halone y hissued (hseq ▸ hlt)
        (hold.writes.dst.trans (congrArg _ hinst).symm) (hold.writes.dst.symm ▸ h0)
      rcases hplace with hd | hunit
      · exact .inl ⟨hd, hpy⟩
      · exact absurd hexec (hc.stamped.units s y hunit hold.writes.at_slot)
  · rw [putReg_of_ne hr]
    rcases hy.relocate (by decide) (by decide) execute (.inr free) hseq hinst with
      ⟨_, _, hold⟩ | ⟨_, _, hold⟩
    · exact absurd hold.writes.dst.symm hr
    · exact hb.carries r s y h0 hold

private theorem Change.carries {p : Transaction → Prop}
    (hp : ∀ y, p y → y.traceInst.memOp ≠ Trace.MemLoad) (h : Change now c c') (hc : Known c)
    (hc' : c'.flow.Conserved) (ho' : c'.flow.InOrder) (halone : ∀ e ∈ c'.loads, e.Alone p)
    (hb : Scoreboard p c) : ∀ r s y, r ≠ 0 → Flow.Youngest c'.simPipe r s y →
      s = .decode ∧ p y ∨ c'.regReady r = y.resultAt := by
  intro r s y h0 hy
  cases h with
  | same slots regs passes loads =>
    rw [regs]
    exact hb.carries r s y h0 (hy.congr slots)
  | pass x fetch free ready slots regs passes loads =>
    have hdec : c'.simPipe .decode = some x := by
      rw [slots .decode (by decide), Function.update_self]
    rw [regs]
    exact hb.carries_pass hc fetch free h0 (hy.congr slots) fun hs =>
      ho'.seq_lt_decode hc'.disciplined hdec hy.writes.settled hs hy.writes.at_slot
  | issue a x x' decode free unit stamp slots regs passes loads =>
    rw [regs]
    exact hb.carries_issue hp hc decode free unit stamp h0 (hy.congr slots)
  | move a x x' execute settled free tag result slots regs passes loads =>
    rw [regs]
    exact hb.carries_move execute settled.1 free tag result h0 (hy.congr slots)
  | respond x x' execute free load stamp slots regs passes loads =>
    have hmem : (⟨x', now, (c.setSlot .execute (some x')).issued⟩ : Sighting) ∈ c'.loads := by
      rw [loads]
      exact List.mem_append_right _ (List.mem_singleton_self _)
    rw [regs]
    exact hb.carries_respond hc execute free load stamp (halone _ hmem) h0 (hy.congr slots)
  | commit a x settled slot commits slots regs passes loads =>
    have hle : x.traceInst.dstReg = r → x.seq ≤ y.seq := fun hd =>
      (ho'.seq_lt_held hc' commits hy.writes.settled hy.writes.at_slot (hd ▸ h0)
        (hd.trans hy.writes.dst.symm)).le
    have hy' : Flow.Youngest (Function.update c.simPipe a none) r s y := hy.congr slots
    rw [regs]
    exact hb.carries r s y h0 (hy'.remove slot hle).2

private theorem Change.passes {p : Transaction → Prop} (h : Change now c c')
    (hc' : c'.flow.Conserved) (ho' : c'.flow.InOrder) (hb : Scoreboard p c) :
    ∀ e ∈ c'.passes, e.NoRaw := by
  cases h with
  | pass x fetch free ready slots regs passes loads =>
    rw [passes]
    intro e he
    rcases List.mem_append.mp he with he | he
    · exact hb.passes e he
    · cases List.mem_singleton.mp he
      have hdec : c'.simPipe .decode = some x := by
        rw [slots .decode (by decide), Function.update_self]
      rintro r h0 hr y ⟨hy, hyx, hyr⟩ hlast
      obtain ⟨s, hs, hy⟩ := mem_issued.mp hy
      have hyoung : Flow.Youngest c.simPipe r s y := by
        refine ⟨⟨hs, hy, hyr⟩, fun t z hz => hlast z ⟨mem_issued.mpr ⟨t, hz.settled, hz.at_slot⟩,
          ?_, hz.dst⟩⟩
        have ht : t ≠ .decode := by
          rintro rfl
          exact absurd (free.symm.trans hz.at_slot) (by simp)
        refine ho'.seq_lt_decode hc'.disciplined hdec hz.settled ht ?_
        exact ((slots t hz.settled).trans (Function.update_of_ne ht ..)).trans hz.at_slot
      rcases hb.carries r s y h0 hyoung with ⟨rfl, _⟩ | hreg
      · exact absurd (free.symm.trans hy) (by simp)
      · rw [← hreg]
        rcases hr with rfl | rfl
        · exact (le_max_left _ _).trans ready
        · exact (le_max_right _ _).trans ready
  | same slots regs passes loads => exact passes ▸ hb.passes
  | issue s x x' decode free unit stamp slots regs passes loads => exact passes ▸ hb.passes
  | move s x x' execute settled free tag result slots regs passes loads => exact passes ▸ hb.passes
  | respond x x' execute free load stamp slots regs passes loads => exact passes ▸ hb.passes
  | commit s x settled slot commits slots regs passes loads => exact passes ▸ hb.passes

/-- A step keeps the scoreboard as long as no load response meets a younger writer of its register,
up to those in Decode that satisfy `p`. -/
theorem Change.scoreboard {p : Transaction → Prop}
    (hp : ∀ y, p y → y.traceInst.memOp ≠ Trace.MemLoad) (h : Change now c c') (hc : Known c)
    (hc' : c'.flow.Conserved) (ho' : c'.flow.InOrder) (halone : ∀ e ∈ c'.loads, e.Alone p)
    (hb : Scoreboard p c) : Scoreboard p c' :=
  ⟨h.carries hp hc hc' ho' halone hb, h.passes hc' ho' hb⟩

theorem Change.loads_subset (h : Change now c c') : ∀ e ∈ c.loads, e ∈ c'.loads := by
  intro e he
  cases h with
  | same _ _ _ loads => exact loads ▸ he
  | pass x _ _ _ _ _ _ loads => exact loads ▸ he
  | issue s x x' _ _ _ _ _ _ _ loads => exact loads ▸ he
  | move s x x' _ _ _ _ _ _ _ _ loads => exact loads ▸ he
  | respond x x' _ _ _ _ _ _ _ loads =>
    rw [loads]
    exact List.mem_append_left _ he
  | commit s x _ _ _ _ _ _ loads => exact loads ▸ he

theorem coreStep_fed (h : CoreStep now c c') : c.fed <+: c'.fed := by
  have hrun : ∀ f g, ReflTransGen Flow.Move f g → f.fed <+: g.fed := fun f g hfg =>
    invariant_of_run (I := fun g => f.fed <+: g.fed)
      (fun _ _ hm hp => hp.trans (Flow.Move.fed_prefix hm)) List.prefix_rfl hfg
  exact hrun _ _ (coreStep_flow h)

theorem CoreReachable.scoreboard {p : Transaction → Prop}
    (hp : ∀ y, p y → y.traceInst.memOp ≠ Trace.MemLoad) {s : Clocked K} (h : CoreReachable s)
    (hfed : ∀ inst ∈ s.core.fed, inst.RV32IM) (halone : ∀ e ∈ s.core.loads, e.Alone p) :
    Scoreboard p s.core := by
  let I : Clocked K → Prop := fun s => s.core.flow.Conserved ∧ s.core.flow.InOrder ∧
    s.core.flow.Stamped ∧ ((∀ inst ∈ s.core.fed, inst.RV32IM) →
      (∀ e ∈ s.core.loads, e.Alone p) → Scoreboard p s.core)
  have hI : I s := by
    refine CoreReachable.invariant (I := I) (fun nxt => ?_) (fun now c c' hs hc => ?_)
      (fun _ _ hc => hc) h
    · refine ⟨Flow.conserved_init, Flow.inOrder_init, Flow.stamped_init, fun _ _ => ⟨?_, ?_⟩⟩
      · intro r s y _ hy
        cases hy.writes.at_slot
      · intro e he
        cases he
    · obtain ⟨hcon, hord, hst, hsb⟩ := hc
      obtain ⟨hcon', hord', hst'⟩ := invariant_of_run
        (I := fun f => Flow.Conserved f ∧ Flow.InOrder f ∧ Flow.Stamped f)
        (fun _ _ hm ⟨h1, h2, h3⟩ =>
          ⟨hm.conserved h1, hm.inOrder h1.disciplined h2, hm.stamped h3⟩)
        ⟨hcon, hord, hst⟩ (coreStep_flow hs)
      refine ⟨hcon', hord', hst', fun hf ha => ?_⟩
      have hf' : ∀ inst ∈ c.fed, inst.RV32IM := fun inst hi =>
        hf inst ((coreStep_fed hs).subset hi)
      have hch := coreStep_change hs
      exact hch.scoreboard hp ⟨hcon, hord, hst, hf'⟩ hcon' hord' ha
        (hsb hf' fun e he => ha e (hch.loads_subset e he))
  exact hI.2.2.2 hfed halone

end Pipeline

end NpSim.Pipe
