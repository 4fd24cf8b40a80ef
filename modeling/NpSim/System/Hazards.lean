/- digest: Read-after-write hazards of the assembled simulator: when the scoreboard holds Decode
   long enough, and the run in which it does not. -/

import NpSim.Pipe.Scoreboard
import NpSim.System.Core

set_option autoImplicit false
set_option relaxedAutoImplicit false

namespace NpSim.System.Sys

open NpSim.Lib.Partial NpSim.Pipe NpSim.Pipe.Pipeline

variable {S : Config}

/-- On every run in which no load response finds a younger load of its register in Decode, or a
MUL or DIV that writes it in its unit, no instruction passes Decode before its sources have been
produced. If no response finds any younger writer of its register, `reg_ready_` is the result time
of the youngest writer in flight throughout. -/
theorem scoreboard_sound {s : Sys S} (h : s.Reachable)
    (hfed : ∀ inst ∈ s.hosts.core.fed, inst.RV32IM) :
    ((∀ e ∈ s.hosts.core.loads, e.Alone fun y => y.traceInst.memOp ≠ Trace.MemLoad) →
      ∀ e ∈ s.hosts.core.passes, e.NoRaw) ∧
    ((∀ e ∈ s.hosts.core.loads, e.Alone fun _ => False) →
      ∀ r i y, r ≠ 0 → Flow.Youngest s.hosts.core.simPipe r i y →
        s.hosts.core.regReady r = y.resultAt) := by
  constructor
  · intro hloads
    exact (h.core.scoreboard (fun _ hy => hy) hfed hloads).passes
  · intro hloads r i y h0 hy
    have hsb := h.core.scoreboard (fun _ hf => hf.elim) hfed hloads
    exact (hsb.carries r i y h0 hy).resolve_left fun hx => hx.2

def load (pc mem : Addr) (dst : Nat) : TraceInst :=
  { pc := pc, memAddr := mem, memOp := Trace.MemLoad, dstReg := dst }

def use (pc : Addr) (src : Nat) : TraceInst := { pc := pc, dstReg := 6, srcReg0 := src }

theorem load_rv32im (pc mem : Addr) {dst : Nat} (h : dst < 32) : (load pc mem dst).RV32IM :=
  ⟨⟨h, by simp [load]⟩, .inr (.inl rfl), by simp [load], by simp [load], by simp [load],
    by simp [load]⟩

theorem use_rv32im (pc : Addr) {src : Nat} (h : src < 32) : (use pc src).RV32IM :=
  ⟨⟨by simp [use], h, by simp [use]⟩, .inl rfl, by simp [use], by simp [use], by simp [use],
    by simp [use]⟩

/-- The youngest older writer of the first source has no result yet. -/
def early (e : Sighting) : Bool :=
  e.trans.traceInst.srcReg0 != 0 && e.issued.any fun y =>
    y.traceInst.dstReg == e.trans.traceInst.srcReg0 && decide (y.seq < e.trans.seq) &&
      !decide (y.resultAt ≤ e.tick) &&
      e.issued.all fun z => decide (z.seq ≤ y.seq)

private theorem not_noRaw_of_early {e : Sighting} (h : early e = true) : ¬e.NoRaw := by
  intro hraw
  simp only [early, Bool.and_eq_true, bne_iff_ne, List.any_eq_true, beq_iff_eq,
    decide_eq_true_eq, Bool.not_eq_true', decide_eq_false_iff_not, List.all_eq_true] at h
  obtain ⟨h0, y, hy, ⟨⟨hd, hlt⟩, hres⟩, hall⟩ := h
  exact hres (hraw _ h0 (.inl rfl) y ⟨hy, hlt, hd⟩ fun z hz => hall z hz.1)

/-- The response of the first load of register 5 frees the register for the reader, which passes
Decode while the second load waits for its data. -/
theorem scoreboard_unsound : ¬∀ (S : Config) (s : Sys S), s.Reachable →
    (∀ inst ∈ s.hosts.core.fed, inst.RV32IM) → ∀ e ∈ s.hosts.core.passes, e.NoRaw := by
  intro hall
  obtain ⟨s, hrun, hobs⟩ := exists_of_observed
    (x := run false 200 (init (Config.plain 3 true)
      [load 0x80000000 0x80001000 5, load 0x80000004 0x80002000 5, use 0x80000008 5] {} 0))
    (f := fun s => (s.hosts.core.fed, s.hosts.core.passes.any early))
    (b := ([load 0x80000000 0x80001000 5, load 0x80000004 0x80002000 5, use 0x80000008 5], true))
    (by decide +kernel)
  simp only [Prod.mk.injEq] at hobs
  obtain ⟨e, he, hearly⟩ := List.any_eq_true.mp hobs.2
  refine not_noRaw_of_early hearly (hall _ s ⟨_, _, _, _, hrun⟩ ?_ e he)
  rw [hobs.1]
  intro inst hi
  simp only [List.mem_cons, List.not_mem_nil, or_false] at hi
  rcases hi with rfl | rfl | rfl
  · exact load_rv32im _ _ (by decide)
  · exact load_rv32im _ _ (by decide)
  · exact use_rv32im _ (by decide)

/-- No younger transaction is in flight. -/
def lone (e : Sighting) : Bool := e.issued.all fun y => !decide (e.trans.seq < y.seq)

/-- A load and its reader: the reader passes Decode once the data are there. -/
theorem scoreboard_sound_loadUse : ∃ s : Sys (Config.plain 3 true), s.Reachable ∧
    s.hosts.core.passes.map (·.trans.seq) = [0, 1] ∧ s.hosts.core.loads.length = 1 ∧
    ∀ e ∈ s.hosts.core.passes, e.NoRaw := by
  obtain ⟨s, hrun, hobs⟩ := exists_of_observed
    (x := run false 200 (init (Config.plain 3 true)
      [load 0x80000000 0x80001000 5, use 0x80000004 5] {} 0))
    (f := fun s => (s.hosts.core.fed, s.hosts.core.passes.map (·.trans.seq),
      s.hosts.core.loads.map lone))
    (b := ([load 0x80000000 0x80001000 5, use 0x80000004 5], [0, 1], [true]))
    (by decide +kernel)
  simp only [Prod.mk.injEq] at hobs
  obtain ⟨hfed, hpasses, hloads⟩ := hobs
  have hs : s.Reachable := ⟨_, _, _, _, hrun⟩
  have hlen := congrArg List.length hloads
  rw [List.length_map] at hlen
  refine ⟨s, hs, hpasses, hlen, (scoreboard_sound hs ?_).1 ?_⟩
  · rw [hfed]
    intro inst hi
    simp only [List.mem_cons, List.not_mem_nil, or_false] at hi
    rcases hi with rfl | rfl
    · exact load_rv32im _ _ (by decide)
    · exact use_rv32im _ (by decide)
  · intro e he y hy hlt
    have hmem := List.mem_map_of_mem (f := lone) he
    rw [hloads, List.mem_singleton] at hmem
    have := List.all_eq_true.mp hmem y hy
    simp [hlt] at this

end NpSim.System.Sys
