/- digest: TAGE snapshots along runs: the front end holds fewer predictions than the ring. -/

import NpSim.Branch.SnapRing
import NpSim.Pipe.Speculation

set_option autoImplicit false
set_option relaxedAutoImplicit false

namespace NpSim.Pipe

open NpSim.Lib.Partial NpSim.Branch Relation

abbrev PipelineParams.withTage (K : PipelineParams) (T : TageParams) (btb : BTBBase)
    (rasDepth : Nat) : PipelineParams :=
  { K with branch := ⟨Tage.predictor T, btb, rasDepth⟩ }

def Transaction.predicts (x : Transaction) : Bool := x.isWrongPath || x.traceInst.isBranch

variable {K : PipelineParams} {T : TageParams} {btb : BTBBase} {rasDepth : Nat}

def Prediction.stored (e : Prediction (K.withTage T btb rasDepth)) : TageSnap :=
  let pc := e.trans.traceInst.pc
  let unit : Tage := e.unit.bpu
  unit.takeSnap T pc (e.unit.btbTarget pc) (unit.snaps (ringSlot unit.snapWrIdx))

namespace Bets

abbrev tage (s : Bets (K.withTage T btb rasDepth)) : Tage := s.bpu

/-- The branch `x`, with `post` fetched after it, was predicted by `e`, and the snapshot of that
prediction is still in its slot. -/
structure Intact (s : Bets (K.withTage T btb rasDepth)) (x : Transaction) (post : List Transaction)
    (e : Prediction (K.withTage T btb rasDepth)) : Prop where
  made : e ∈ s.log
  trans : e.trans.strip = x
  id : x.brPred.ghrSnap = BitVec.ofNat 32 e.index
  since : e.index + post.countP Transaction.predicts + 1 = s.made
  own : s.tage.snaps (e.index % snapRing) = e.stored

/-- Every branch on its way to Execute has its snapshot, and no snapshot has been missed. -/
structure Fresh (s : Bets (K.withTage T btb rasDepth)) : Prop where
  room : s.line.length ≤ K.ifqSize + 2
  index : s.tage.snapWrIdx = BitVec.ofNat 32 s.made
  intact : ∀ x post, x :: post <:+ s.line → x.isWrongPath = false →
    x.traceInst.isBranch = true → ∃ e, s.Intact x post e
  losses : s.tage.losses = (0, 0)

theorem fresh_init : (init (K.withTage T btb rasDepth)).Fresh := by
  refine ⟨Nat.zero_le _, rfl, ?_, rfl⟩
  intro x post h
  exact absurd (List.eq_nil_of_suffix_nil h) (List.cons_ne_nil x post)

variable {s : Bets (K.withTage T btb rasDepth)}

theorem Intact.young (h : s.Fresh) {x : Transaction} {post : List Transaction}
    {e : Prediction (K.withTage T btb rasDepth)} (hx : x :: post <:+ s.line)
    (hi : s.Intact x post e) : s.made ≤ e.index + K.ifqSize + 2 := by
  have hcount := List.countP_le_length (p := Transaction.predicts) (l := post)
  have hlen := hx.length_le
  have hroom := h.room
  have hsince := hi.since
  rw [List.length_cons] at hlen
  omega

private theorem Intact.same {t : Bets (K.withTage T btb rasDepth)} (hb : t.bpu = s.bpu)
    (hl : t.log = s.log) (hm : t.made = s.made) {x : Transaction} {post : List Transaction}
    {e : Prediction (K.withTage T btb rasDepth)} (hi : s.Intact x post e) : t.Intact x post e := by
  refine ⟨?_, hi.trans, hi.id, hi.since.trans hm.symm, ?_⟩
  · rw [hl]
    exact hi.made
  · unfold tage
    rw [hb]
    exact hi.own

/-- A prediction takes a slot that no branch on its way to Execute is using. -/
theorem Intact.predict (h : s.Fresh) (hfit : K.ifqSize + 3 ≤ snapRing) {x : Transaction}
    {post : List Transaction} {e : Prediction (K.withTage T btb rasDepth)}
    (hx : x :: post <:+ s.line) (hi : s.Intact x post e) (pc target : Addr) :
    (Tage.predict T s.tage pc target).2.snaps (e.index % snapRing) = e.stored := by
  have hyoung := hi.young h hx
  have hsince := hi.since
  have hne : e.index % snapRing ≠ ringSlot s.tage.snapWrIdx := by
    rw [h.index, Tage.ringSlot_ofNat]
    unfold snapRing at hfit ⊢
    omega
  exact (Function.update_of_ne hne ..).trans hi.own

private theorem push_intact (h : s.Fresh) {t : Bets (K.withTage T btb rasDepth)} {y : Transaction}
    (hline : t.line = s.line ++ [y]) (hlog : ∀ e ∈ s.log, e ∈ t.log)
    (hmade : t.made = s.made + if y.predicts then 1 else 0)
    (hsnaps : ∀ x post e, x :: post <:+ s.line → s.Intact x post e →
      t.tage.snaps (e.index % snapRing) = e.stored)
    (hnew : y.isWrongPath = false → y.traceInst.isBranch = true → ∃ e, t.Intact y [] e) :
    ∀ x post, x :: post <:+ t.line → x.isWrongPath = false → x.traceInst.isBranch = true →
      ∃ e, t.Intact x post e := by
  intro x post hx hreal hb
  rw [hline] at hx
  rcases List.suffix_concat_iff.mp hx with hnil | ⟨l, hl, hsuf⟩
  · cases hnil
  · cases l with
    | nil =>
      rw [List.nil_append, List.cons.injEq] at hl
      obtain ⟨rfl, rfl⟩ := hl
      exact hnew hreal hb
    | cons z l =>
      rw [List.cons_append, List.cons.injEq] at hl
      obtain ⟨rfl, rfl⟩ := hl
      obtain ⟨e, he⟩ := h.intact x l hsuf hreal hb
      refine ⟨e, hlog e he.made, he.trans, he.id, ?_, hsnaps x l e hsuf he⟩
      have hsince := he.since
      rw [List.countP_append, List.countP_singleton, hmade, ← hsince]
      omega

private theorem guess_fresh (h : s.Fresh) (hfit : K.ifqSize + 3 ≤ snapRing) (pc target : Addr)
    (room : s.Room) :
    Fresh { s with
      bpu := (Tage.predict T s.tage pc target).2
      line := s.line ++ [(Transaction.wrongPath pc).strip]
      made := s.made + 1 } := by
  refine ⟨room_push room _, ?_, ?_, h.losses⟩
  · change s.tage.snapWrIdx + 1 = _
    rw [h.index]
    exact (BitVec.ofNat_add s.made 1).symm
  · refine push_intact h rfl (fun _ he => he) rfl ?_ ?_
    · intro x post e hx he
      exact he.predict h hfit hx pc target
    · intro hreal
      cases hreal

private theorem bet_fresh (h : s.Fresh) (hfit : K.ifqSize + 3 ≤ snapRing) {y : Transaction}
    {u : BranchUnit (K.withTage T btb rasDepth).branch} (hu : u.bpu = s.bpu)
    (hb : y.traceInst.isBranch = true) (hp : y.isWrongPath = false)
    (hy : y.brPred = (u.predict y.traceInst.pc).1) (room : s.Room) :
    Fresh { s with
      bpu := (u.predict y.traceInst.pc).2.bpu
      line := s.line ++ [y.strip]
      wrongPath := y.brMispred
      log := s.log ++ [⟨y, u, s.made⟩]
      made := s.made + 1 } := by
  have hpred : (u.predict y.traceInst.pc).2.bpu =
      (Tage.predict T s.tage y.traceInst.pc (u.btbTarget y.traceInst.pc)).2 := by
    unfold tage
    rw [← hu]
    rfl
  have hid : y.brPred.ghrSnap = BitVec.ofNat 32 s.made := by
    rw [hy, ← h.index]
    unfold tage
    rw [← hu]
    rfl
  rw [hpred]
  refine ⟨room_push room _, ?_, ?_, h.losses⟩
  · change s.tage.snapWrIdx + 1 = _
    rw [h.index]
    exact (BitVec.ofNat_add s.made 1).symm
  · refine push_intact h rfl (fun _ he => List.mem_append_left _ he) ?_ ?_ ?_
    · change _ = s.made + if y.isWrongPath || y.traceInst.isBranch then 1 else 0
      rw [hp, hb]
      rfl
    · intro x post e hx he
      exact he.predict h hfit hx _ _
    · intro _ _
      refine ⟨⟨y, u, s.made⟩, List.mem_append_right _ List.mem_cons_self, rfl, hid, rfl, ?_⟩
      have hslot : s.made % snapRing = ringSlot s.tage.snapWrIdx := by
        rw [h.index, Tage.ringSlot_ofNat]
      unfold Prediction.stored
      rw [hu]
      exact (congrArg _ hslot).trans (Function.update_self ..)

theorem Intact.live (h : s.Fresh) (hfit : K.ifqSize + 3 ≤ snapRing) {x : Transaction}
    {post : List Transaction} {e : Prediction (K.withTage T btb rasDepth)}
    (hx : x :: post <:+ s.line) (hi : s.Intact x post e) : s.tage.Live x.brPred.ghrSnap := by
  have hyoung := hi.young h hx
  have hsince := hi.since
  rw [hi.id]
  refine ⟨Tage.live_of h.index ?_ ?_, ?_⟩
  · omega
  · unfold snapRing at hfit ⊢
    omega
  · rw [Tage.ringSlot_ofNat, hi.own]
    rfl

/-- The resolution of the oldest branch consumes its own snapshot and no other. -/
private theorem settle_fresh (h : s.Fresh) (hfit : K.ifqSize + 3 ≤ snapRing) {x : Transaction}
    {rest : List Transaction} (btbHit : Bool) (hl : s.line = x :: rest)
    (hx : x.isWrongPath = false) :
    Fresh { s with
      bpu := if x.traceInst.isBranch then
          (Tage.predictor T).resolve s.bpu x.traceInst.pc x.traceInst.brTaken btbHit x.brPred
            x.brMispred
        else s.bpu
      line := if x.brMispred then [] else rest
      wpFlushed := s.wpFlushed || x.brMispred } := by
  have hsub : (if x.brMispred then [] else rest) <:+ rest := by
    split
    · exact List.nil_suffix
    · exact List.suffix_refl rest
  have hroom : (if x.brMispred then [] else rest).length ≤ K.ifqSize + 2 :=
    hsub.length_le.trans (room_tail h.room hl)
  have hmem : ∀ y post, y :: post <:+ (if x.brMispred then [] else rest) →
      y :: post <:+ rest ∧ y :: post <:+ s.line := by
    intro y post hy
    have hrest := hy.trans hsub
    refine ⟨hrest, ?_⟩
    rw [hl]
    exact hrest.trans (List.suffix_cons x rest)
  rcases Bool.eq_false_or_eq_true x.traceInst.isBranch with hb | hb
  · rw [if_pos hb]
    have hhead : x :: rest <:+ s.line := ⟨[], hl.symm⟩
    obtain ⟨e, he⟩ := h.intact x rest hhead hx hb
    have hframe := Tage.resolve_frame T (he.live h hfit hhead) x.traceInst.pc x.traceInst.brTaken
      btbHit x.brMispred
    refine ⟨hroom, hframe.index.trans h.index, ?_, hframe.losses.trans h.losses⟩
    intro y post hy hreal hbr
    obtain ⟨hrest, hline⟩ := hmem y post hy
    obtain ⟨f, hf⟩ := h.intact y post hline hreal hbr
    refine ⟨f, hf.made, hf.trans, hf.id, hf.since, ?_⟩
    refine (hframe.others _ ?_).trans hf.own
    -- the prediction of `y` is younger than that of `x`, by fewer than a full round
    have hyounger : (y :: post).countP Transaction.predicts ≤
        rest.countP Transaction.predicts := hrest.sublist.countP_le
    rw [List.countP_cons_of_pos (by simp [Transaction.predicts, hbr])] at hyounger
    have hsince := he.since
    have hsince' := hf.since
    have hage := he.young h hhead
    rw [he.id, Tage.ringSlot_ofNat]
    unfold snapRing at hfit ⊢
    omega
  · rw [if_neg (by simp [hb])]
    refine ⟨hroom, h.index, ?_, h.losses⟩
    intro y post hy hreal hbr
    obtain ⟨f, hf⟩ := h.intact y post (hmem y post hy).2 hreal hbr
    refine ⟨f, ?_⟩
    apply hf.same <;> rfl

private theorem tail_fresh (h : s.Fresh) {x : Transaction} {rest : List Transaction}
    (hl : s.line = x :: rest) : Fresh { s with line := rest } := by
  refine ⟨room_tail h.room hl, h.index, ?_, h.losses⟩
  intro y post hy hreal hb
  have hline : y :: post <:+ s.line := by
    rw [hl]
    exact hy.trans (List.suffix_cons x rest)
  obtain ⟨e, he⟩ := h.intact y post hline hreal hb
  refine ⟨e, ?_⟩
  apply he.same <;> rfl

theorem Move.fresh {t : Bets (K.withTage T btb rasDepth)} (hfit : K.ifqSize + 3 ≤ snapRing)
    (hm : Move s t) (h : s.Fresh) : t.Fresh := by
  cases hm with
  | guess pc target hw hf room => exact guess_fresh h hfit pc target room
  | plain y hb hp hmiss ht hw room =>
    refine ⟨room_push room _, h.index, ?_, h.losses⟩
    refine push_intact h rfl (fun _ he => he) ?_ (fun x post e _ he => he.own) ?_
    · change s.made = s.made + if y.isWrongPath || y.traceInst.isBranch then 1 else 0
      rw [hp, hb]
      rfl
    · intro _ hbr
      exact absurd (hb.symm.trans hbr) Bool.false_ne_true
  | bet y u hu hb hp hy hmiss hw room => exact bet_fresh h hfit hu hb hp hy room
  | endWrong hw hf =>
    refine ⟨h.room, h.index, ?_, h.losses⟩
    intro x post hx hreal hb
    obtain ⟨e, he⟩ := h.intact x post hx hreal hb
    refine ⟨e, ?_⟩
    apply he.same <;> rfl
  | drop x rest hl hx => exact tail_fresh h hl
  | settle x rest btbHit hl hx => exact settle_fresh h hfit btbHit hl hx
  | leave x rest hl hx => exact tail_fresh h hl

end Bets

/-- In every core state under TAGE the snapshots of the branches in flight are intact. -/
theorem Pipeline.CoreReachable.fresh {s : Pipeline.Clocked (K.withTage T btb rasDepth)}
    (h : Pipeline.CoreReachable s) (hfit : K.ifqSize + 3 ≤ snapRing) : s.core.bets.Fresh :=
  h.bets_invariant Bets.fresh_init fun _ _ hm _ hs => hm.fresh hfit hs

end NpSim.Pipe
