/- digest: The global history along runs: the bits that predictions and corrections leave in it. -/

import NpSim.Branch.Historian
import NpSim.Pipe.Speculation

set_option autoImplicit false
set_option relaxedAutoImplicit false

namespace NpSim.Pipe

open NpSim.Lib.Partial NpSim.Branch Relation

variable {K : PipelineParams}

namespace Prediction

def target (e : Prediction K) : Addr := e.unit.btbTarget e.trans.traceInst.pc

def direction (e : Prediction K) : Bool :=
  (K.branch.bpu.predict e.unit.bpu e.trans.traceInst.pc e.target).1.taken

/-- The target and the direction after the return stack has had its say. -/
def redirect (e : Prediction K) : Addr × Bool :=
  e.unit.rasOverride e.trans.traceInst.pc e.target e.direction

/-- The bit the branch leaves in the history once it is resolved: a misprediction is corrected. -/
def bit (e : Prediction K) : Bool :=
  if e.trans.brMispred then e.trans.traceInst.brTaken else e.direction

variable (V : Historian K.branch.bpu)

def recorded (e : Prediction K) : Bool := V.shifts e.target || e.trans.brMispred

/-- The history after the bits of `log`. -/
def replay (log : List (Prediction K)) : V.Hist :=
  log.foldl (fun h e => if e.recorded V then V.shift h e.bit else h) (V.hist K.branch.bpu.init)

theorem replay_append (log : List (Prediction K)) (e : Prediction K) :
    replay V (log ++ [e]) =
      if e.recorded V then V.shift (replay V log) e.bit else replay V log := by
  unfold replay
  rw [List.foldl_append]
  rfl

/-- The two ways in which a branch that was predicted right leaves a wrong bit: it is not taken,
and a taken prediction had no target; or it is taken, and the return stack supplied its target
against the direction predictor. -/
def Misleading (e : Prediction K) : Prop :=
  V.shifts e.target = true ∧
    ((e.trans.traceInst.brTaken = false ∧ e.direction = true ∧ e.redirect.1 = 0) ∨
      (e.trans.traceInst.brTaken = true ∧ e.direction = false ∧ e.redirect.2 = true ∧
        e.redirect.1 ≠ 0 ∧ e.redirect.1 = e.trans.traceInst.memAddr))

instance (e : Prediction K) : Decidable (e.Misleading V) := inferInstanceAs (Decidable (_ ∧ _))

/-- What the core knows of a prediction it has made. -/
structure Judged (e : Prediction K) : Prop where
  branch : e.trans.traceInst.isBranch = true
  pred : e.trans.brPred = (e.unit.predict e.trans.traceInst.pc).1
  verdict : e.trans.brMispred = !BranchUnit.accurate (outcome e.trans.traceInst).1
    (outcome e.trans.traceInst).2 e.trans.brPred

private theorem rasOverride_taken (u : BranchUnit K.branch) (pc target : Addr) (taken : Bool)
    (h : taken = true) : (u.rasOverride pc target taken).2 = true := by
  unfold BranchUnit.rasOverride
  cases u.ras with
  | none => exact h
  | some ras =>
    dsimp only
    split
    · rfl
    · exact h

/-- The bits that are wrong are those of misleading predictions. -/
theorem Judged.bit_wrong {e : Prediction K} (h : e.Judged) :
    (e.recorded V = true → e.bit = e.trans.traceInst.brTaken) ↔ ¬e.Misleading V := by
  have hacc := h.verdict
  rw [h.pred] at hacc
  have hras : e.direction = true → e.redirect.2 = true :=
    rasOverride_taken e.unit e.trans.traceInst.pc e.target e.direction
  change e.trans.brMispred = !BranchUnit.accurate _ _ (BranchResult.mk e.redirect.2 e.redirect.1
    (e.redirect.2 && e.redirect.1 != 0) _ _ _) at hacc
  unfold Misleading recorded bit
  generalize e.redirect = r at hacc hras ⊢
  obtain ⟨target, taken⟩ := r
  unfold outcome at hacc
  rw [h.branch, Bool.true_and] at hacc
  rw [hacc]
  dsimp only at hras ⊢
  cases hs : V.shifts e.target <;> cases hb : e.trans.traceInst.brTaken <;>
    cases hd : e.direction <;> cases taken <;> by_cases ht : target = 0 <;>
    simp_all [BranchUnit.accurate]

end Prediction

namespace Bets

open Prediction

variable (V : Historian K.branch.bpu)

/-- Where the history stands. It is the replay of the log; or a mispredicted branch `x`, the last
one fetched, still holds the history from before its prediction; or such a branch has left Decode
for an M-extension unit and will never be resolved. -/
inductive Standing (s : Bets K) : Prop
  | settled (clean : ∀ x ∈ s.line, x.brMispred = false)
      (flags : s.wrongPath = false ∨ s.wpFlushed = true)
      (hist : V.hist s.bpu = replay V s.log)
  | lost (pre post : List Transaction) (x : Transaction) (e : Prediction K)
      (log : List (Prediction K)) (line : s.line = pre ++ x :: post)
      (clean : ∀ y ∈ pre, y.brMispred = false) (behind : ∀ y ∈ post, y.isWrongPath = true)
      (branch : x.traceInst.isBranch = true) (real : x.isWrongPath = false)
      (miss : x.brMispred = true) (flags : s.wrongPath = true ∧ s.wpFlushed = false)
      (last : s.log = log ++ [e]) (inst : e.trans.traceInst = x.traceInst)
      (same : e.trans.brMispred = true)
      (kept : V.Kept s.bpu x.brPred.ghrSnap (post.length + 1) (replay V log))
  | stuck (flags : s.wrongPath = true ∧ s.wpFlushed = false)
      (wrong : ∀ x ∈ s.line, x.isWrongPath = true)

structure Recorded (s : Bets K) : Prop where
  room : s.line.length ≤ K.ifqSize + 2
  flushed : s.wpFlushed = true → s.wrongPath = true
  judged : ∀ e ∈ s.log, e.Judged
  standing : s.Standing V

theorem recorded_init : (init K).Recorded V := by
  refine ⟨Nat.zero_le _, ?_, ?_, .settled ?_ (.inl rfl) rfl⟩
  · intro h
    cases h
  · intro e he
    cases he
  · intro x hx
    cases hx

private theorem mem_push {l : List Transaction} {y : Transaction} {P : Transaction → Prop}
    (hl : ∀ x ∈ l, P x) (hy : P y) : ∀ x ∈ l ++ [y], P x := by
  intro x hx
  rcases List.mem_append.mp hx with hx | hx
  · exact hl x hx
  · cases List.mem_singleton.mp hx
    exact hy

private theorem guess_standing {s : Bets K} (hfit : ∀ n ≤ K.ifqSize + 2, V.fits n)
    (h : s.Recorded V) (pc target : Addr) (hw : s.wrongPath = true) (hf : s.wpFlushed = false)
    (room : s.Room) :
    Standing V { s with
      bpu := (K.branch.bpu.predict s.bpu pc target).2
      line := s.line ++ [(Transaction.wrongPath pc).strip]
      made := s.made + 1 } := by
  cases h.standing with
  | settled _ flags _ =>
    rcases flags with flags | flags
    · rw [hw] at flags
      cases flags
    · rw [hf] at flags
      cases flags
  | lost pre post x e log line clean behind branch real miss flags last inst same kept =>
    have hfits : V.fits (post.length + 1) := by
      apply hfit
      unfold Room at room
      rw [line, List.length_append, List.length_cons] at room
      omega
    have hwrong := mem_push (P := fun y => y.isWrongPath = true)
      (y := (Transaction.wrongPath pc).strip) behind rfl
    refine .lost pre _ x e log ?_ clean hwrong branch real miss flags last inst same ?_
    · dsimp only
      rw [line, List.append_assoc, List.cons_append]
    · rw [List.length_append, List.length_singleton]
      exact V.predict_old kept hfits pc target
  | stuck flags wrong =>
    exact .stuck flags (mem_push (P := fun y => y.isWrongPath = true) wrong rfl)

private theorem settled_of {s : Bets K} (h : s.Standing V) (hw : s.wrongPath = false) :
    (∀ x ∈ s.line, x.brMispred = false) ∧ V.hist s.bpu = replay V s.log := by
  cases h with
  | settled clean _ hist => exact ⟨clean, hist⟩
  | lost _ _ _ _ _ _ _ _ _ _ _ flags _ _ _ _ =>
    rw [hw] at flags
    cases flags.1
  | stuck flags _ =>
    rw [hw] at flags
    cases flags.1

/-- A bet on the right path: a right one leaves its direction in the history, a wrong one keeps the
history it found. -/
private theorem bet_standing {s : Bets K} (h : s.Recorded V) {y : Transaction}
    {u : BranchUnit K.branch} (hu : u.bpu = s.bpu) (hb : y.traceInst.isBranch = true)
    (hp : y.isWrongPath = false) (hy : y.brPred = (u.predict y.traceInst.pc).1)
    (hw : s.wrongPath = false) :
    Standing V { s with
      bpu := (u.predict y.traceInst.pc).2.bpu
      line := s.line ++ [y.strip]
      wrongPath := y.brMispred
      log := s.log ++ [⟨y, u, s.made⟩]
      made := s.made + 1 } := by
  obtain ⟨clean, hist⟩ := settled_of V h.standing hw
  cases hm : y.brMispred with
  | false =>
    refine .settled (mem_push clean hm) (.inl rfl) ?_
    have hpred := V.predict_hist u.bpu y.traceInst.pc (u.btbTarget y.traceInst.pc)
    change V.hist (K.branch.bpu.predict u.bpu y.traceInst.pc (u.btbTarget y.traceInst.pc)).2 = _
    rw [hpred, hu, hist, replay_append]
    simp only [recorded, bit, hm, Bool.or_false, Bool.false_eq_true, if_false]
    rw [← hu]
    rfl
  | true =>
    have hf : s.wpFlushed = false := by
      cases hf : s.wpFlushed with
      | false => rfl
      | true => exact absurd (h.flushed hf) (by simp [hw])
    refine .lost s.line [] y.strip ⟨y, u, s.made⟩ s.log rfl clean (fun z hz => by cases hz) hb hp hm
      ⟨rfl, hf⟩ rfl rfl hm ?_
    have hnew := V.predict_new u.bpu y.traceInst.pc (u.btbTarget y.traceInst.pc)
    have hsnap : y.strip.brPred.ghrSnap =
        (K.branch.bpu.predict u.bpu y.traceInst.pc (u.btbTarget y.traceInst.pc)).1.ghrSnap :=
      congrArg BranchResult.ghrSnap hy
    rw [hsnap, ← hist, ← hu]
    exact hnew

private theorem tail_standing {s : Bets K} (h : s.Standing V) {x : Transaction}
    {rest : List Transaction} (hl : s.line = x :: rest) :
    Standing V { s with line := rest } := by
  cases h with
  | settled clean flags hist =>
    refine .settled ?_ flags hist
    intro y hy
    apply clean
    rw [hl]
    exact List.mem_cons_of_mem x hy
  | lost pre post z e log line clean behind branch real miss flags last inst same kept =>
    rw [hl] at line
    cases pre with
    | nil =>
      rw [List.nil_append, List.cons.injEq] at line
      refine .stuck flags ?_
      rw [line.2]
      exact behind
    | cons y pre =>
      rw [List.cons_append, List.cons.injEq] at line
      refine .lost pre post z e log line.2 ?_ behind branch real miss flags last inst same kept
      intro w hw
      exact clean w (List.mem_cons_of_mem y hw)
  | stuck flags wrong =>
    refine .stuck flags ?_
    intro y hy
    apply wrong
    rw [hl]
    exact List.mem_cons_of_mem x hy

/-- The resolution of the oldest transaction: a right prediction leaves the history alone, a wrong
one is corrected to the history it kept and its actual direction. -/
private theorem settle_standing {s : Bets K} (hfit : ∀ n ≤ K.ifqSize + 2, V.fits n)
    (h : s.Recorded V) {x : Transaction} {rest : List Transaction} (btbHit : Bool)
    (hl : s.line = x :: rest) (hx : x.isWrongPath = false) :
    Standing V { s with
      bpu := if x.traceInst.isBranch then
          K.branch.bpu.resolve s.bpu x.traceInst.pc x.traceInst.brTaken btbHit x.brPred x.brMispred
        else s.bpu
      line := if x.brMispred then [] else rest
      wpFlushed := s.wpFlushed || x.brMispred } := by
  cases h.standing with
  | settled clean flags hist =>
    have hm : x.brMispred = false := by
      apply clean
      rw [hl]
      exact List.mem_cons_self
    rw [hm]
    refine .settled ?_ ?_ ?_
    · intro y hy
      apply clean
      rw [hl]
      exact List.mem_cons_of_mem x hy
    · rw [Bool.or_false]
      exact flags
    · dsimp only
      split
      · rw [V.resolve_hist]
        exact hist
      · exact hist
  | lost pre post z e log line clean behind branch real miss flags last inst same kept =>
    have hfits : V.fits (post.length + 1) := by
      apply hfit
      have hroom := h.room
      rw [line, List.length_append, List.length_cons] at hroom
      omega
    rw [hl] at line
    cases pre with
    | nil =>
      rw [List.nil_append, List.cons.injEq] at line
      obtain ⟨rfl, rfl⟩ := line
      rw [miss]
      refine .settled (fun y hy => by cases hy) (.inr (Bool.or_true _)) ?_
      dsimp only
      rw [if_pos branch, V.resolve_restored kept hfits, last, replay_append, if_pos]
      · simp only [bit, same, if_true, inst]
      · unfold recorded
        rw [same, Bool.or_true]
    | cons y pre =>
      rw [List.cons_append, List.cons.injEq] at line
      obtain ⟨rfl, rfl⟩ := line
      have hm := clean x List.mem_cons_self
      rw [hm]
      refine .lost pre post z e log rfl ?_ behind branch real miss ⟨flags.1, ?_⟩ last inst same ?_
      · intro w hw
        exact clean w (List.mem_cons_of_mem x hw)
      · rw [Bool.or_false]
        exact flags.2
      · dsimp only
        split
        · exact V.resolve_kept kept ..
        · exact kept
  | stuck flags wrong =>
    have hwrong := wrong x (by
      rw [hl]
      exact List.mem_cons_self)
    rw [hx] at hwrong
    cases hwrong

theorem Move.recorded {s t : Bets K} (hfit : ∀ n ≤ K.ifqSize + 2, V.fits n) (hm : Move s t)
    (h : s.Recorded V) : t.Recorded V := by
  cases hm with
  | guess pc target hw hf room =>
    exact ⟨room_push room _, h.flushed, h.judged, guess_standing V hfit h pc target hw hf room⟩
  | plain y hb hp hmiss ht hw room =>
    obtain ⟨clean, hist⟩ := settled_of V h.standing hw
    exact ⟨room_push room _, h.flushed, h.judged, .settled (mem_push clean hmiss) (.inl hw) hist⟩
  | bet y u hu hb hp hy hmiss hw room =>
    refine ⟨room_push room _, ?_, ?_, bet_standing V h hu hb hp hy hw⟩
    · intro hf
      exact absurd (h.flushed hf) (by simp [hw])
    · intro e he
      rcases List.mem_append.mp he with he | he
      · exact h.judged e he
      · cases List.mem_singleton.mp he
        exact ⟨hb, hy, hmiss⟩
  | endWrong hw hf =>
    refine ⟨h.room, (fun hf => by cases hf), h.judged, ?_⟩
    cases h.standing with
    | settled clean flags hist => exact .settled clean (.inl rfl) hist
    | lost _ _ _ _ _ _ _ _ _ _ _ flags _ _ _ _ =>
      rw [hf] at flags
      cases flags.2
    | stuck flags _ =>
      rw [hf] at flags
      cases flags.2
  | drop x rest hl hx =>
    exact ⟨room_tail h.room hl, h.flushed, h.judged, tail_standing V h.standing hl⟩
  | settle x rest btbHit hl hx =>
    refine ⟨?_, ?_, h.judged, settle_standing V hfit h btbHit hl hx⟩
    · dsimp only
      split
      · exact Nat.zero_le _
      · exact room_tail h.room hl
    · intro hf
      rcases Bool.or_eq_true _ _ ▸ hf with hf | hf
      · exact h.flushed hf
      · cases h.standing with
        | settled clean _ _ =>
          rw [clean x (by rw [hl]; exact List.mem_cons_self)] at hf
          cases hf
        | lost _ _ _ _ _ _ _ _ _ _ _ flags _ _ _ _ => exact flags.1
        | stuck flags _ => exact flags.1
  | leave x rest hl hx =>
    exact ⟨room_tail h.room hl, h.flushed, h.judged, tail_standing V h.standing hl⟩

/-- With no predicted branch left to resolve the history is the replay of the log. -/
theorem Recorded.replayed {s : Bets K} (h : s.Recorded V)
    (hline : ∀ x ∈ s.line, x.traceInst.isBranch = false)
    (hflags : s.wrongPath = false ∨ s.wpFlushed = true) : V.hist s.bpu = replay V s.log := by
  cases h.standing with
  | settled _ _ hist => exact hist
  | lost pre post x e log line clean behind branch real miss flags last inst same kept =>
    have hx := hline x (by
      rw [line]
      exact List.mem_append_right pre List.mem_cons_self)
    rw [branch] at hx
    cases hx
  | stuck flags _ =>
    rw [flags.1, flags.2] at hflags
    rcases hflags with hflags | hflags <;> cases hflags

end Bets

end NpSim.Pipe
