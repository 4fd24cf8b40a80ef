/- digest: The schedule of the core in the assembled simulator: what the core sleeps through would
   have changed nothing. -/

import NpSim.Cache.Open
import NpSim.Pipe.Wakes
import NpSim.System.BtbPort

set_option autoImplicit false
set_option relaxedAutoImplicit false

namespace NpSim.System

open NpSim.Lib.Partial NpSim.Cache NpSim.Cache.PipeCache NpSim.Mem NpSim.Pipe
  NpSim.Pipe.Pipeline

variable {S : Config} {n : Nat}

namespace Hosts

variable {s t : Hosts S × RAMArbiter S.mem}

end Hosts

/-- Before the turn of the instruction cache in tick `n`. -/
private def Prepared (n : Nat) (h : Hosts S) : Prop :=
  Accepting (n + 1) h.icache ∧ Punctual n h.icache

private theorem Prepared.frame {h h' : Hosts S} (hp : Prepared n h)
    (hf : Accepting (n + 1) h.icache →
      Accepting (n + 1) h'.icache ∧ (h'.icache = h.icache ∨ h'.icache.isReady.1 = false)) :
    Prepared n h' := by
  obtain ⟨ho, heq | hclosed⟩ := hf hp.1
  · exact ⟨ho, heq ▸ hp.2⟩
  · exact ⟨ho, fun hr => absurd (hclosed.symm.trans hr) (by decide)⟩

namespace Hosts

variable {s t : Hosts S × RAMArbiter S.mem}

end Hosts

namespace Sys

end Sys

end NpSim.System
