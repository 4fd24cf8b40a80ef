/- digest: The core's test for cacheable addresses against the address map of the memory: which
   blocks the data cache holds, and what goes past it. -/

import NpSim.Cache.Blocks
import NpSim.System.Waiting

set_option autoImplicit false
set_option relaxedAutoImplicit false

namespace NpSim.Mem

/-- `mem_map` of `main`, with the SDRAM, the SRAM, the CLINT and everything else as the devices 0 to
3. -/
def ArbiterConfig.soc (devices : RamDevices) : ArbiterConfig where
  hosts := 3
  devices := devices
  addrMap :=
    [⟨0x02000000, 0x0200ffff, 2⟩, ⟨0x0f000000, 0x0fffffff, 1⟩, ⟨0x30000000, 0x3fffffff, 0⟩,
      ⟨0x80000000, 0x9fffffff, 0⟩, ⟨0xa0000000, 0xbfffffff, 0⟩]
  defaultDevice := 3

/-- The device behind the 64 KiB page `n`. -/
def socPage (n : Nat) : Nat :=
  if 0x200 ≤ n ∧ n ≤ 0x200 then 2
  else if 0xf00 ≤ n ∧ n ≤ 0xfff then 1
  else if 0x3000 ≤ n ∧ n ≤ 0x3fff then 0
  else if 0x8000 ≤ n ∧ n ≤ 0x9fff then 0
  else if 0xa000 ≤ n ∧ n ≤ 0xbfff then 0
  else 3

/-- The map decides by pages of 64 KiB. -/
theorem deviceOf_soc (devices : RamDevices) (a : Addr) :
    (ArbiterConfig.soc devices).deviceOf a = socPage (a.toNat >>> 16) := by
  have hpage : ∀ (lo hi : Addr) (d m n : Nat), lo.toNat = m * 2 ^ 16 →
      hi.toNat = n * 2 ^ 16 + 0xffff → (⟨lo, hi, d⟩ : AddrMapEntry).contains a =
        decide (m ≤ a.toNat >>> 16 ∧ a.toNat >>> 16 ≤ n) := by
    intro lo hi d m n hlo hhi
    rw [Nat.shiftRight_eq_div_pow]
    change (decide (lo.toNat ≤ a.toNat) && decide (a.toNat ≤ hi.toNat)) = _
    rw [hlo, hhi, ← Bool.decide_and]
    exact decide_eq_decide.mpr (by omega)
  unfold ArbiterConfig.deviceOf ArbiterConfig.soc socPage
  dsimp only
  rw [List.find?_cons, List.find?_cons, List.find?_cons, List.find?_cons, List.find?_cons,
    List.find?_nil, hpage _ _ _ 0x200 0x200 rfl rfl, hpage _ _ _ 0xf00 0xfff rfl rfl,
    hpage _ _ _ 0x3000 0x3fff rfl rfl, hpage _ _ _ 0x8000 0x9fff rfl rfl,
    hpage _ _ _ 0xa000 0xbfff rfl rfl]
  generalize a.toNat >>> 16 = n
  by_cases h₁ : 0x200 ≤ n ∧ n ≤ 0x200
  · rw [decide_eq_true h₁, if_pos h₁]
  rw [decide_eq_false h₁, if_neg h₁]
  by_cases h₂ : 0xf00 ≤ n ∧ n ≤ 0xfff
  · rw [decide_eq_true h₂, if_pos h₂]
  rw [decide_eq_false h₂, if_neg h₂]
  by_cases h₃ : 0x3000 ≤ n ∧ n ≤ 0x3fff
  · rw [decide_eq_true h₃, if_pos h₃]
  rw [decide_eq_false h₃, if_neg h₃]
  by_cases h₄ : 0x8000 ≤ n ∧ n ≤ 0x9fff
  · rw [decide_eq_true h₄, if_pos h₄]
  rw [decide_eq_false h₄, if_neg h₄]
  by_cases h₅ : 0xa000 ≤ n ∧ n ≤ 0xbfff
  · rw [decide_eq_true h₅, if_pos h₅]
  · rw [decide_eq_false h₅, if_neg h₅]

end NpSim.Mem

namespace NpSim.System

open NpSim.Lib.Partial NpSim.Cache NpSim.Mem NpSim.Pipe NpSim.Pipe.Pipeline Relation

theorem isCacheableAddr_congr {a b : Addr} (h : a.toNat >>> 16 = b.toNat >>> 16) :
    isCacheableAddr a = isCacheableAddr b := by
  have htop : ∀ x : Addr, x.toNat >>> 28 = x.toNat >>> 16 >>> 12 := fun x =>
    Nat.shiftRight_add x.toNat 16 12
  unfold isCacheableAddr
  rw [htop, htop, h]

theorem isCacheableAddr_iff (a : Addr) :
    isCacheableAddr a = true ↔ socPage (a.toNat >>> 16) = 0 := by
  have hlt := a.isLt
  have htop : a.toNat >>> 28 &&& 0xf = a.toNat >>> 16 / 2 ^ 12 := by
    rw [Nat.and_two_pow_sub_one_eq_mod _ 4, Nat.shiftRight_eq_div_pow, Nat.shiftRight_eq_div_pow]
    omega
  have hbound : a.toNat >>> 16 < 2 ^ 16 := by
    rw [Nat.shiftRight_eq_div_pow]
    omega
  unfold isCacheableAddr socPage
  dsimp only
  rw [htop]
  generalize a.toNat >>> 16 = n at hbound ⊢
  simp only [Bool.or_eq_true, beq_iff_eq]
  clear htop
  split_ifs
  · exact iff_of_false (by omega) id
  · exact iff_of_false (by omega) id
  · exact iff_of_true (by omega) rfl
  · exact iff_of_true (by omega) rfl
  · exact iff_of_true (by omega) rfl
  · exact iff_of_false (by omega) id

/-- The addresses of a block of at most 64 KiB lie on one page. -/
theorem page_of_tagOf (P : CacheParams) (hl : P.lineBytes ≤ 2 ^ 16) (a : Addr) :
    (P.tagOf a).toNat >>> 16 = a.toNat >>> 16 := by
  obtain ⟨k, hk⟩ := P.lineBytes_pow2
  have hbits : P.offsetBits = k := by
    unfold CacheParams.offsetBits
    rw [hk, Nat.log2_two_pow]
  have hle : k ≤ 16 := (Nat.pow_le_pow_iff_right (by decide)).mp (hk ▸ hl)
  have hshift : (P.tagOf a).toNat >>> P.offsetBits >>> (16 - k) =
      a.toNat >>> P.offsetBits >>> (16 - k) := by
    rw [P.tagOf_shiftRight]
  rwa [hbits, ← Nat.shiftRight_add, ← Nat.shiftRight_add, Nat.add_sub_cancel' hle] at hshift

theorem isCacheableAddr_word (a : Addr) : isCacheableAddr (a &&& ~~~3#32) = isCacheableAddr a := by
  refine isCacheableAddr_congr ?_
  have hshift : (a &&& ~~~3#32).toNat >>> 2 >>> 14 = a.toNat >>> 2 >>> 14 :=
    congrArg (· >>> 14) (shiftRight_aligned 2 a)
  rwa [← Nat.shiftRight_add, ← Nat.shiftRight_add] at hshift

/-- A data access goes past the data cache when its address is not cacheable. -/
def Sorted (call : PortCall) : Prop :=
  match call with
  | .fetch _ => True
  | .lsu nc _ addr _ _ => nc = !isCacheableAddr addr

theorem sorted_lsuCall {K : PipelineParams} (hnc : K.hasNc = true) {inst : TraceInst}
    {op : MemRWOpt} (hop : lsuOp inst = some op) : Sorted (lsuCall K inst op) := by
  have hmem : (inst.memOp != Trace.MemNone) = true := by
    refine bne_iff_ne.mpr fun hn => ?_
    unfold lsuOp at hop
    rw [hn, if_neg (by decide), if_neg (by decide)] at hop
    cases hop
  change usesNc K inst = !isCacheableAddr (inst.memAddr &&& ~~~3#32)
  unfold usesNc
  rw [hmem, hnc, isCacheableAddr_word, Bool.true_and, Bool.and_true]

variable {S : Config}

/-- What a cached data port has been asked for, and what it holds, is cacheable. -/
def DataPort.Cacheable {P : CacheParams} : DataPort P → Prop
  | .cached c => (∀ x ∈ c.log.map CachePipeEntry.req, isCacheableAddr x.1 = true) ∧
      ∀ s w b, c.held s w = some b → isCacheableAddr b = true
  | .uncached _ => True

/-- The update at `now` prefetches no block from outside the cacheable regions. -/
def KeepsInside (now : Nat) (d : DataPort S.dcache) : Prop :=
  ∀ c a, d = .cached c → c.prefetchAddr now = some a → isCacheableAddr a = true

/-- The requests of the data cache are for cacheable addresses, and those past it are not. -/
def Placed (m : MemTrans) : Prop :=
  (m.id = 1 → m.mop = .read → isCacheableAddr m.addr = true) ∧
    (m.id = 2 → isCacheableAddr m.addr = false)

structure Routed (w : Wire S) : Prop where
  dcache : w.hosts.dcache.Cacheable
  calls : ∀ call ∈ w.calls, Sorted call
  pending : ∀ call ∈ w.hosts.core.calls, Sorted call
  outs : ∀ m, .memReq m ∈ w.outs → Placed m
  refill : ∀ a, w.mem.slots .read 1 = some a → isCacheableAddr a = true
  hist : ∀ req t, Event.accept req t ∈ w.mem.hist → Placed req

section DataPort

variable {P : CacheParams} {d d' : DataPort P} {outs : List CacheOut} {now : Nat}

private theorem cacheable_of_effect {c c' : PipeCache P} {new : List (Addr × MemRWOpt)}
    {blk : Option Addr} (h : (DataPort.cached c).Cacheable) (he : PipeCache.Effect new c outs c')
    (hnew : ∀ x ∈ new, isCacheableAddr x.1 = true) (hb : PipeCache.Brings blk c c')
    (hblk : ∀ b, blk = some b → isCacheableAddr b = true) : (DataPort.cached c').Cacheable := by
  refine ⟨fun x hx => ?_, fun s w b hheld => ?_⟩
  · rw [he.log] at hx
    rcases List.mem_append.mp hx with hx | hx
    · exact h.1 x hx
    · exact hnew x hx
  · rcases hb s w b hheld with hold | hold
    · exact h.2 s w b hold
    · exact hblk b hold

private theorem placed_of_effect {c c' : PipeCache P} {new : List (Addr × MemRWOpt)}
    (h : (DataPort.cached c').Cacheable) (he : PipeCache.Effect new c outs c') {m : MemTrans}
    (hm : .memReq m ∈ outs) (hop : m.mop = .read) : isCacheableAddr m.addr = true := by
  have hmem : m.addr ∈ c'.log.flatMap CachePipeEntry.reads := by
    rw [he.reads]
    refine List.mem_append_right _ (List.mem_map_of_mem (List.mem_filterMap.mpr ⟨_, hm, ?_⟩))
    dsimp only
    rw [if_pos hop]
  obtain ⟨e, he', hx⟩ := List.mem_flatMap.mp hmem
  rw [List.eq_of_mem_replicate hx]
  exact h.1 e.req (List.mem_map_of_mem he')

theorem DataPort.Cacheable.doUpdate (hi : PipeCache.Immediate P) (hl : P.lineBytes ≤ 2 ^ 16)
    (hw : d.WellFormed) (h : d.Cacheable)
    (hok : ∀ c a, d = .cached c → c.prefetchAddr now = some a → isCacheableAddr a = true)
    (hx : d.doUpdate now = .ok (d', outs)) :
    d'.Cacheable ∧ ∀ m, .memReq m ∈ outs → m.mop = .read → isCacheableAddr m.addr = true := by
  cases d with
  | uncached c =>
    cases hx
    exact ⟨trivial, fun m hm => absurd hm List.not_mem_nil⟩
  | cached c =>
    obtain ⟨⟨c', o⟩, hc, hx⟩ := bind_eq_ok.mp hx
    cases hx
    have hwf : c.WellFormed := hw
    have heff := (hwf.doUpdate hc).2.1
    have hcach : (DataPort.cached c' : DataPort P).Cacheable := by
      refine cacheable_of_effect h heff (fun x hx => absurd hx List.not_mem_nil)
        (hwf.doUpdate_brings hi hc) fun b hb => ?_
      obtain ⟨a, ha, rfl⟩ := Option.map_eq_some_iff.mp hb
      rw [isCacheableAddr_congr (page_of_tagOf P hl a)]
      exact hok c a rfl ha
    exact ⟨hcach, fun m hm => placed_of_effect hcach heff hm⟩

theorem DataPort.Cacheable.request (hwb : P.writeBack = true) (hid : d.id = 1)
    (hw : d.WellFormed) (h : d.Cacheable) {op : MemRWOpt} {addr : Addr} {data : Word}
    {strb : BitVec 8} (ha : isCacheableAddr addr = true)
    (hx : d.request now op addr data strb = .ok (d', outs)) :
    d'.Cacheable ∧ ∀ m, .memReq m ∈ outs → Placed m := by
  cases d with
  | uncached c =>
    have hplaced : ∀ m : MemTrans, m.id = c.cacheId → m.addr = addr → Placed m := by
      intro m hm hma
      refine ⟨fun _ _ => hma ▸ ha, fun h2 => ?_⟩
      cases (h2.symm.trans hm).trans hid
    cases op <;>
    · obtain ⟨⟨c', m⟩, hc, hx⟩ := bind_eq_ok.mp hx
      cases hx
      obtain ⟨_, hc⟩ := require_bind_eq_ok.mp hc
      cases hc
      refine ⟨trivial, fun m hm => ?_⟩
      cases List.mem_singleton.mp hm
      exact hplaced _ rfl rfl
  | cached c =>
    have hwf : c.WellFormed := hw
    have henq : ∀ {e : CachePipeEntry} {c' : PipeCache P}, e.Fresh → e.addr = addr →
        c.enqueue now e = .ok c' → (DataPort.cached c' : DataPort P).Cacheable := by
      intro e c' he hea hc
      refine cacheable_of_effect h (hwf.enqueue he hc).2.1 (fun x hx => ?_)
        (show PipeCache.Brings none c c' from .of_held (PipeCache.enqueue_held hc))
        fun b hb => by cases hb
      rw [List.mem_singleton.mp hx]
      change isCacheableAddr e.addr = true
      rw [hea, ha]
    cases op with
    | read =>
      obtain ⟨c', hc, hx⟩ := bind_eq_ok.mp hx
      cases hx
      exact ⟨henq ⟨rfl, rfl, rfl, rfl⟩ rfl hc, fun m hm => absurd hm List.not_mem_nil⟩
    | write =>
      obtain ⟨⟨c', o⟩, hc, hx⟩ := bind_eq_ok.mp hx
      cases hx
      unfold PipeCache.writeReq at hc
      rw [if_pos hwb] at hc
      obtain ⟨e, he, hc⟩ := bind_eq_ok.mp hc
      cases hc
      exact ⟨henq ⟨rfl, rfl, rfl, rfl⟩ rfl he, fun m hm => absurd hm List.not_mem_nil⟩

theorem DataPort.Cacheable.recvMemResp (hl : P.lineBytes ≤ 2 ^ 16) (hw : d.WellFormed)
    (h : d.Cacheable) {m : MemTrans} (ha : m.mop = .read → isCacheableAddr m.addr = true)
    (hx : d.recvMemResp now m = .ok (d', outs)) : d'.Cacheable := by
  cases d with
  | uncached c =>
    obtain ⟨⟨c', o⟩, _, hx⟩ := bind_eq_ok.mp hx
    cases hx
    exact trivial
  | cached c =>
    obtain ⟨c', hc, hx⟩ := bind_eq_ok.mp hx
    cases hx
    have hwf : c.WellFormed := hw
    refine cacheable_of_effect h (hwf.recvMemResp hc).2.1 (fun x hx => absurd hx List.not_mem_nil)
      (PipeCache.recvMemResp_brings hc) fun b hb => ?_
    split at hb
    · rename_i hop
      rw [← Option.some.inj hb, isCacheableAddr_congr (page_of_tagOf P hl m.addr)]
      exact ha hop
    · cases hb

end DataPort

private theorem accept_recvReq {K : ArbiterConfig} {m m' : RAMArbiter K} {now : Nat}
    {req : MemTrans} (h : m.recvReq now req = .ok m') {r : MemTrans} {t : Nat}
    (hr : Event.accept r t ∈ m'.hist) : Event.accept r t ∈ m.hist ∨ r = req := by
  have hins : Event.accept r t ∈ m.hist ++ [Event.accept req now] →
      Event.accept r t ∈ m.hist ∨ r = req := by
    intro hx
    rcases List.mem_append.mp hx with hx | hx
    · exact .inl hx
    · cases List.mem_singleton.mp hx
      exact .inr rfl
  unfold RAMArbiter.recvReq at h
  obtain ⟨_, h⟩ := require_bind_eq_ok.mp h
  obtain ⟨_, h⟩ := require_bind_eq_ok.mp h
  change (if (m.chan req.mop).busyUntil = infTime then
    (m.insert now req).serve now now req.mop req else .ok (m.insert now req)) = .ok m' at h
  split at h
  · obtain ⟨lat, hhist, _⟩ := RAMArbiter.serve_eq_ok h
    rw [hhist] at hr
    rcases List.mem_append.mp hr with hr | hr
    · exact hins hr
    · cases List.mem_singleton.mp hr
  · cases h
    exact hins hr

private theorem accept_concat {l : List Event} {e : Event} (he : ∀ r t, e ≠ .accept r t)
    {r : MemTrans} {t : Nat} (hr : Event.accept r t ∈ l ++ [e]) : Event.accept r t ∈ l := by
  rcases List.mem_append.mp hr with hr | hr
  · exact hr
  · exact absurd (List.mem_singleton.mp hr).symm (he r t)

section Actions

variable {w : Wire S}

private theorem Routed.tail (h : Routed w) {o : CacheOut} {rest : List CacheOut}
    (ho : w.outs = o :: rest) : ∀ m, .memReq m ∈ rest → Placed m := by
  intro m hm
  refine h.outs m ?_
  rw [ho]
  exact List.mem_cons_of_mem o hm

private theorem Routed.calls_cons (h : Routed w) {call : PortCall} {rest : List PortCall}
    (hc : w.calls = call :: rest) : Sorted call ∧ ∀ x ∈ rest, Sorted x := by
  have hall := h.calls
  rw [hc] at hall
  exact ⟨hall call List.mem_cons_self, fun x hx => hall x (List.mem_cons_of_mem call hx)⟩

private theorem Routed.send (h : Routed w) (hw : Linked w) {m : MemTrans} {rest : List CacheOut}
    {mem : RAMArbiter S.mem} (ho : w.outs = .memReq m :: rest)
    (hm : w.mem.recvReq w.now m = .ok mem) : Routed { w with mem := mem, outs := rest } := by
  obtain ⟨_, _, hslots⟩ := RAMArbiter.recvReq_slots hw.mem hm
  have hm' : Placed m := h.outs m (by rw [ho]; exact List.mem_cons_self)
  refine { h with outs := h.tail ho, refill := fun a hs => ?_, hist := fun r t hr => ?_ }
  · dsimp only at hs
    rw [hslots] at hs
    by_cases hx : MemRWOpt.read = m.mop ∧ 1 = m.id
    · rw [hx.1, hx.2, Slots.put_self] at hs
      rw [← Option.some.inj hs]
      exact hm'.1 hx.2.symm hx.1.symm
    · rw [Slots.put_other hx] at hs
      exact h.refill a hs
  · rcases accept_recvReq hm hr with hr | rfl
    · exact h.hist r t hr
    · exact hm'

private theorem Routed.core (h : Routed w) (hw : Linked w) {c : Pipeline S.core}
    (hc : CoreWork w.now w.hosts.ports w.hosts.core c) :
    Routed { w with hosts := { w.hosts with core := c } } := by
  have hadd : ∀ call, Sorted call → c.calls = w.hosts.core.calls ++ [call] →
      ∀ x ∈ c.calls, Sorted x := by
    intro call hcall heq x hx
    rw [heq] at hx
    rcases List.mem_append.mp hx with hx | hx
    · exact h.pending x hx
    · rw [List.mem_singleton.mp hx]
      exact hcall
  refine { h with pending := ?_ }
  cases hc.asks S.hasNc hw.sane with
  | nothing calls same => exact calls ▸ h.pending
  | fetch addr calls same => exact hadd (.fetch addr) trivial calls
  | access inst op hop calls idle busy => exact hadd _ (sorted_lsuCall S.hasNc hop) calls

private theorem Routed.request (h : Routed w) (hw : Linked w) {op : MemRWOpt} {addr : Addr}
    {data : Word} {strb : BitVec 8} {rest : List PortCall} {d : DataPort S.dcache}
    {outs : List CacheOut} (hcalls : w.calls = .lsu false op addr data strb :: rest)
    (hd : w.hosts.dcache.request w.now op addr data strb = .ok (d, outs)) :
    Routed { w with hosts := { w.hosts with dcache := d }, outs := outs, calls := rest } := by
  obtain ⟨hnc, hrest⟩ := h.calls_cons hcalls
  have haddr : isCacheableAddr addr = true := by
    rwa [Sorted, eq_comm, Bool.not_eq_false'] at hnc
  obtain ⟨hcach, houts⟩ := h.dcache.request S.dcache_writeBack hw.dcacheId hw.dcache haddr hd
  exact { h with dcache := hcach, calls := hrest, outs := houts }

private theorem Routed.bypass (h : Routed w) (hw : Linked w) {op : MemRWOpt} {addr : Addr}
    {data : Word} {strb : BitVec 8} {rest : List PortCall} {b : NoCache} {m : MemTrans}
    (hcalls : w.calls = .lsu true op addr data strb :: rest)
    (hm : m.id = w.hosts.bypass.cacheId ∧ m.addr = addr) :
    Routed { w with
      hosts := { w.hosts with bypass := b }, outs := [.memReq m], calls := rest } := by
  obtain ⟨hnc, hrest⟩ := h.calls_cons hcalls
  have haddr : isCacheableAddr addr = false := by
    rwa [Sorted, eq_comm, Bool.not_eq_true'] at hnc
  refine { h with calls := hrest, outs := fun x hx => ?_ }
  cases List.mem_singleton.mp hx
  refine ⟨fun h1 => ?_, fun _ => hm.2 ▸ haddr⟩
  cases (hm.1.trans hw.bypassId).symm.trans h1

private theorem Routed.dcacheUpdate (hl : S.dcache.lineBytes ≤ 2 ^ 16) (h : Routed w)
    (hw : Linked w) {d : DataPort S.dcache} {outs : List CacheOut}
    (hok : KeepsInside w.now w.hosts.dcache)
    (hd : w.hosts.dcache.doUpdate w.now = .ok (d, outs)) :
    Routed { w with hosts := { w.hosts with dcache := d }, outs := outs } := by
  obtain ⟨hcach, hread⟩ := h.dcache.doUpdate S.dcache_immediate hl hw.dcache hok hd
  have hids := (hw.dcache.doUpdate_does S.dcache_immediate hd).ids
  rw [hw.dcacheId] at hids
  refine { h with
    dcache := hcach, outs := fun m hm => ⟨fun _ hop => hread m hm hop, fun h2 => ?_⟩ }
  cases h2.symm.trans (hids _ hm)

private theorem Routed.icacheUpdate (h : Routed w) (hw : Linked w) {c : PipeCache S.icache}
    {outs : List CacheOut} (hc : w.hosts.icache.doUpdate w.now = .ok (c, outs)) :
    Routed { w with hosts := { w.hosts with icache := c }, outs := outs } := by
  have hids := hw.icache.doUpdate_id S.icache_immediate hc
  rw [S.icache_id] at hids
  refine { h with outs := fun m hm => ⟨fun h1 => ?_, fun h2 => ?_⟩ }
  · cases h1.symm.trans (hids _ hm)
  · cases h2.symm.trans (hids _ hm)

private theorem DataPort.Cacheable.flushAll {P : CacheParams} {d : DataPort P}
    (h : d.Cacheable) : d.flushAll.Cacheable := by
  cases d with
  | cached c => exact h
  | uncached c => exact trivial

private theorem DataPort.Cacheable.resetStats {P : CacheParams} {d : DataPort P}
    (h : d.Cacheable) : d.resetStats.Cacheable := by
  cases d with
  | cached c => exact h
  | uncached c => exact trivial

private theorem Routed.receive (hl : S.dcache.lineBytes ≤ 2 ^ 16) (h : Routed w) (hw : Linked w)
    {op : MemRWOpt} {req : MemTrans} {hosts : Hosts S} {outs : List CacheOut}
    (hreq : (w.mem.chan op).reqs (w.mem.chan op).servingId = some req) (hmop : req.mop = op)
    (hr : w.hosts.receive w.now (w.mem.chan op).servingId { req with dir := .resp } =
      .ok (hosts, outs)) :
    hosts.dcache.Cacheable := by
  unfold Hosts.receive at hr
  split at hr
  · obtain ⟨c, _, hr⟩ := bind_eq_ok.mp hr
    cases hr
    exact h.dcache
  · split at hr
    · rename_i hone
      obtain ⟨⟨d, o⟩, hd, hr⟩ := bind_eq_ok.mp hr
      cases hr
      refine h.dcache.recvMemResp hl hw.dcache (fun hop => ?_) hd
      refine h.refill req.addr ?_
      change req.mop = .read at hop
      rw [← hop, hmop, ← hone, RAMArbiter.slots, hreq]
      rfl
    · obtain ⟨⟨b, o⟩, _, hr⟩ := bind_eq_ok.mp hr
      cases hr
      exact h.dcache

/-- Every action that brings no block from outside into the data cache keeps the routing. -/
theorem Act.routed (hl : S.dcache.lineBytes ≤ 2 ^ 16) {w' : Wire S}
    (ha : Act KeepsInside w w') (hw : Linked w) (h : Routed w) : Routed w' := by
  cases ha with
  | tick hq => exact { h with }
  | resp ho hc =>
    exact { h with pending := (recvMemResp_lsu hc).1 ▸ h.pending, outs := h.tail ho }
  | ack ho hc =>
    exact { h with pending := (ackMemAvail_lsu hc).1 ▸ h.pending, outs := h.tail ho }
  | send ho hm => exact h.send hw ho hm
  | core hq hc => exact h.core hw hc
  | take hq =>
    exact { h with calls := h.pending, pending := fun call hx => absurd hx List.not_mem_nil }
  | fetch ho hcalls hc => exact { h with calls := (h.calls_cons hcalls).2 }
  | request ho hcalls hd => exact h.request hw hcalls hd
  | @bypass op addr data strb rest b m ho hcalls hb =>
    refine h.bypass hw hcalls ?_
    cases op <;>
    · obtain ⟨_, hb⟩ := require_bind_eq_ok.mp hb
      cases hb
      exact ⟨rfl, rfl⟩
  | dcache hq hok hd => exact h.dcacheUpdate hl hw hok hd
  | icache hq hc => exact h.icacheUpdate hw hc
  | flush hq => exact { h with dcache := h.dcache.flushAll }
  | reset hq =>
    exact { h with
      dcache := h.dcache.resetStats
      hist := fun r t hr => h.hist r t (accept_concat (by simp) hr) }
  | @answer op req hosts outs hq hdue hreq hr =>
    have hmem := hw.mem
    rw [hq.comp] at hmem
    obtain ⟨hid, hmop, hlt⟩ := hmem.held.slot hreq
    rw [S.mem_hosts] at hlt
    have hg := hw.receive_received hlt hr
    refine ⟨h.receive hl hw hreq hmop hr, h.calls, hg.core ▸ h.pending,
      fun m hm => absurd hm (hg.noReq m), fun a hs => ?_,
      fun r t hx => h.hist r t (accept_concat (by simp) hx)⟩
    dsimp only at hs
    rw [RAMArbiter.slots_answered] at hs
    by_cases hx : MemRWOpt.read = op ∧ 1 = (w.mem.chan op).servingId
    · rw [hx.2, ← hx.1, Slots.put_self] at hs
      cases hs
    · rw [Slots.put_other hx] at hs
      exact h.refill a hs
  | free ho hcomp hnone =>
    refine { h with refill := fun a hs => h.refill a ?_ }
    dsimp only at hs
    rwa [RAMArbiter.slots_freed] at hs
  | @next op g req mem ho hcomp hg htop hs =>
    have hmem := hw.mem
    rw [hcomp] at hmem
    obtain ⟨lat, hhist, _⟩ := RAMArbiter.serve_eq_ok hs
    refine { h with refill := fun a hx => h.refill a ?_, hist := fun r t hx => h.hist r t ?_ }
    · dsimp only at hx
      rwa [hmem.held.next_slots hg hs] at hx
    · dsimp only at hx
      rw [hhist] at hx
      exact accept_concat (by simp) hx

end Actions

/-- What the address map gives to the SDRAM is what the data cache holds and what does not go past
it, and a block of the data cache belongs to one device. -/
structure Separate (s : Sys S) : Prop where
  test : ∀ a, isCacheableAddr a = true ↔ S.mem.deviceOf a = 0
  held : ∀ c, s.hosts.dcache = .cached c → ∀ r w b, c.held r w = some b →
    ∀ a, S.dcache.tagOf a = b → isCacheableAddr a = true
  past : ∀ req t, Event.accept req t ∈ s.mem.hist → req.id = 2 → isCacheableAddr req.addr = false
  whole : ∀ a b, S.dcache.tagOf a = S.dcache.tagOf b → S.mem.deviceOf a = S.mem.deviceOf b

theorem Routed.init (trace : List TraceInst) (inst : TraceInst) (nxt : Tick) :
    Routed (Sys.init S trace inst nxt).wire where
  dcache := by
    change DataPort.Cacheable (if S.hasDcache then _ else _)
    cases S.hasDcache with
    | false => exact trivial
    | true =>
      refine ⟨fun x hx => ?_, fun _ _ _ hx => ?_⟩
      · rw [PipeCache.log_init] at hx
        cases hx
      · cases hx
  calls _ hx := absurd hx List.not_mem_nil
  pending _ hx := absurd hx List.not_mem_nil
  outs _ hx := absurd hx List.not_mem_nil
  refill _ hx := by cases hx
  hist _ _ hx := absurd hx List.not_mem_nil

namespace Sys

variable {s : Sys S}

/-- Every run in which all that the data cache prefetches is cacheable keeps the two ways of an
access apart. -/
theorem ReachableBy.separate {devices : RamDevices} (hmem : S.mem = .soc devices)
    (hl : S.dcache.lineBytes ≤ 2 ^ 16) (h : s.ReachableBy KeepsInside) : Separate s := by
  have hI : Linked s.wire ∧ Routed s.wire :=
    h.invariant (I := fun w => Linked w ∧ Routed w)
      (fun trace inst nxt => ⟨.init trace inst nxt, .init trace inst nxt⟩)
      fun w w' ha hw => ⟨ha.linked hw.1, ha.routed hl hw.1 hw.2⟩
  have hpage : ∀ a b, S.dcache.tagOf a = S.dcache.tagOf b → a.toNat >>> 16 = b.toNat >>> 16 := by
    intro a b hab
    rw [← page_of_tagOf S.dcache hl a, hab, page_of_tagOf S.dcache hl b]
  refine ⟨fun a => ?_, fun c hc r w b hb a hab => ?_, fun req t hx => (hI.2.hist req t hx).2,
    fun a b hab => ?_⟩
  · rw [hmem, deviceOf_soc]
    exact isCacheableAddr_iff a
  · have hcach : s.hosts.dcache.Cacheable := hI.2.dcache
    rw [hc] at hcach
    rw [← hcach.2 r w b hb, ← hab]
    exact isCacheableAddr_congr (page_of_tagOf S.dcache hl a).symm
  · rw [hmem, deviceOf_soc, deviceOf_soc, hpage a b hab]

/-- Without a prefetcher every run meets the condition on what is prefetched. -/
theorem Reachable.keepsInside (hp : S.dcache.prefetcher.present = false) (h : s.Reachable) :
    s.ReachableBy KeepsInside := by
  have hok : ∀ now (d : DataPort S.dcache), KeepsInside now d := by
    intro now d c a _ ha
    rw [PipeCache.prefetchAddr_none hp] at ha
    cases ha
  refine h.invariant (fun trace inst nxt => ⟨trace, inst, nxt, .refl⟩) ?_
  rintro a b ⟨trace, inst, nxt, hrun⟩ hab
  exact ⟨trace, inst, nxt, hrun.tail ⟨⟨fun _ => hok _ _, fun _ _ => hok _ _⟩, hab⟩⟩

/-- A plain machine with the address map of `main`, four devices of latency 0 and `pf` beside the
data cache. -/
def mapped (pf : Prefetcher) : Config :=
  { Config.plain 0 true with
    dcache := { directCache 1 0 true 0 with prefetcher := pf }
    mem := .soc { ArbiterConfig.flat 3 0 |>.devices with count := 4 }
    dcache_id := rfl
    dcache_depth := rfl
    dcache_writeBack := rfl
    dcache_delay := rfl
    mem_hosts := rfl }

def flashAndClint (addr : Addr) : List TraceInst :=
  [load 0x80000000 addr 5, load 0x80000004 0x02000000 6]

/-- No `fence.i` is due, and an update of the data cache would not prefetch from outside. -/
private def inside (s : Sys S) : Bool :=
  s.inst.sysOp != Trace.SysFenceI && match s.hosts.dcache with
    | .cached c => (c.prefetchAddr s.tick).all isCacheableAddr
    | .uncached _ => true

private theorem allows_of_inside (h : s.inside = true) : s.Allows KeepsInside := by
  obtain ⟨hfence, hd⟩ := Bool.and_eq_true_iff.mp h
  refine ⟨fun _ c a hc ha => ?_, fun _ hx => absurd hx (bne_iff_ne.mp hfence)⟩
  rw [hc] at hd
  dsimp only at hd
  rw [ha] at hd
  exact hd

private def stepInside (s : Sys S) (_ : Unit) : Option (Sys S) :=
  if s.inside then (s.step false).toOption else none

private theorem stepInside_allows (s : Sys S) (u : Unit) (t : Sys S) (h : stepInside s u = some t) :
    s.Allows KeepsInside ∧ s.step false = .ok t := by
  unfold stepInside at h
  split at h
  · rename_i hin
    refine ⟨allows_of_inside hin, ?_⟩
    cases hx : s.step false with
    | error e =>
      rw [hx] at h
      cases h
    | ok t' =>
      rw [hx] at h
      exact congrArg Except.ok (Option.some.inj h)
  · cases h

private def heldBlock (r w : Nat) (s : Sys S) : Option Addr :=
  match s.hosts.dcache with
  | .cached c => c.held r w
  | .uncached _ => none

private theorem cached_of_heldBlock {r w : Nat} {b : Addr} (h : s.heldBlock r w = some b) :
    ∃ c, s.hosts.dcache = .cached c ∧ c.held r w = some b := by
  unfold heldBlock at h
  split at h
  · exact ⟨_, ‹_›, h⟩
  · cases h

/-- With the next-line prefetcher the load from the block before the last one of the flash brings in
that one too, and the load from the CLINT goes past the data cache. -/
theorem separate_flashAndClint : ∃ s : Sys (mapped (nextLinePrefetcher 16)),
    s.ReachableBy KeepsInside ∧
    s.mem.hist.filterMap (fun e => match e with | .accept r _ => some (r.id, r.addr) | _ => none) =
      [(0, 0x80000000), (1, 0x3fffffec), (2, 0x02000000)] ∧
    (∃ c, s.hosts.dcache = .cached c ∧ c.held 63 0 = some 0x3ffffff0) ∧ Separate s := by
  obtain ⟨s, hrun, hobs⟩ := Option.map_eq_some_iff.mp (show
    ((List.replicate 120 ()).foldlM stepInside
      (init (mapped (nextLinePrefetcher 16)) (flashAndClint 0x3fffffec) {} 0)).map (fun s =>
        (s.mem.hist.filterMap fun e =>
          match e with | .accept r _ => some (r.id, r.addr) | _ => none, s.heldBlock 63 0)) =
      some ([(0, 0x80000000), (1, 0x3fffffec), (2, 0x02000000)], some 0x3ffffff0)
    by decide +kernel)
  obtain ⟨haccepted, hheld⟩ := Prod.mk.inj hobs
  have hs : s.ReachableBy KeepsInside := ⟨_, _, _, run_of_foldlM stepInside_allows hrun⟩
  exact ⟨s, hs, haccepted, cached_of_heldBlock hheld, hs.separate rfl (by decide)⟩

/-- With the next-line prefetcher the load from the end of the flash brings in a block behind it. -/
theorem separate_broken : ¬∀ (S : Config) (s : Sys S) (devices : RamDevices),
    S.mem = .soc devices → S.dcache.lineBytes ≤ 2 ^ 16 → s.Reachable → Separate s := by
  intro hall
  obtain ⟨s, hrun, hobs⟩ := exists_of_observed
    (x := run false 120 (init (mapped (nextLinePrefetcher 16)) (flashAndClint 0x3ffffffc) {} 0))
    (f := heldBlock 0 0) (b := some 0x40000000) (by decide +kernel)
  obtain ⟨c, hc, hheld⟩ := cached_of_heldBlock hobs
  have hsep := hall _ s _ rfl (by decide) ⟨_, _, _, _, hrun⟩
  have hx := hsep.held c hc 0 0 0x40000000 hheld 0x40000000 (by decide)
  exact absurd hx (by decide)

end Sys

end NpSim.System
