/- digest: The words of a cache in the data-carrying build: what a refill stores, which words the
   lines keep, and what a read is answered with. -/

import NpSim.Cache.Copies
import NpSim.Cache.Flush
import NpSim.Cache.Repeats

set_option autoImplicit false
set_option relaxedAutoImplicit false

namespace NpSim.Cache

open NpSim.Lib.Partial

/-- The block of a valid line, with its words. -/
def CacheLine.filled (l : CacheLine) : Option (Addr × List Word) :=
  if l.valid then some (l.tag, l.data) else none

/-- The words of block `b`, each as `read` gives it. -/
def CacheParams.blockWords (P : CacheParams) (read : Addr → Word) (b : Addr) : List Word :=
  (List.range P.lineWords).map fun i => read (b + BitVec.ofNat 32 (4 * i))

namespace CacheParams

variable (P : CacheParams)

theorem tagOf_add_offset {addr : Addr} (ha : addr.toNat % 4 = 0)
    (hlt : P.offsetOf addr / 4 < P.lineWords) :
    P.tagOf addr + BitVec.ofNat 32 (4 * (P.offsetOf addr / 4)) = addr := by
  obtain ⟨k, hk⟩ := P.lineBytes_pow2
  have hoff : P.offsetOf addr = addr.toNat % 2 ^ k := by
    unfold offsetOf
    rw [hk, Nat.and_two_pow_sub_one_eq_mod]
  have hk2 : 2 ≤ k := by
    by_contra hc
    unfold lineWords at hlt
    have hsmall : k = 0 ∨ k = 1 := by omega
    rcases hsmall with rfl | rfl <;> rw [hk] at hlt <;> omega
  have hdvd : P.offsetOf addr % 4 = 0 := by
    have hfour : 4 ∣ 2 ^ k := pow_dvd_pow 2 hk2
    rw [hoff, Nat.mod_mod_of_dvd _ hfour]
    exact ha
  have hmask : BitVec.ofNat 32 (4 * (P.offsetOf addr / 4)) =
      addr &&& BitVec.ofNat 32 (P.lineBytes - 1) := by
    apply BitVec.eq_of_toNat_eq
    rw [Nat.mul_div_cancel' (Nat.dvd_of_mod_eq_zero hdvd), BitVec.toNat_and, BitVec.toNat_ofNat,
      BitVec.toNat_ofNat]
    unfold offsetOf
    rw [Nat.and_mod_two_pow, Nat.mod_eq_of_lt addr.isLt]
  rw [hmask]
  unfold tagOf blockAddrOf
  rw [BitVec.add_eq_or_of_and_eq_zero]
  · ext i hi
    simp only [BitVec.getElem_or, BitVec.getElem_and, BitVec.getElem_not]
    cases addr[i] <;> cases (BitVec.ofNat 32 (P.lineBytes - 1))[i] <;> rfl
  · ext i hi
    simp only [BitVec.getElem_and, BitVec.getElem_not, BitVec.getElem_zero]
    cases addr[i] <;> cases (BitVec.ofNat 32 (P.lineBytes - 1))[i] <;> rfl

theorem blockWords_offset {read : Addr → Word} {addr : Addr} {w : Word}
    (ha : addr.toNat % 4 = 0)
    (hw : (P.blockWords read (P.tagOf addr))[P.offsetOf addr / 4]? = some w) : w = read addr := by
  have hlt : P.offsetOf addr / 4 < P.lineWords := by
    have hx := (List.getElem?_eq_some_iff.mp hw).choose
    unfold blockWords at hx
    rwa [List.length_map, List.length_range] at hx
  unfold blockWords at hw
  rw [List.getElem?_map, List.getElem?_range hlt] at hw
  rw [← Option.some.inj hw]
  exact congrArg read (P.tagOf_add_offset ha hlt)

end CacheParams

namespace PipeCache

variable {P : CacheParams} {c c' : PipeCache P} {outs : List CacheOut} {now : Nat}

/-- The block and the words at a set and a way. -/
def cells (c : PipeCache P) (s w : Nat) : Option (Addr × List Word) := (c.lines s w).filled

/-- What is held afterwards was held before, with the same words. -/
def KeepsWords (c c' : PipeCache P) : Prop :=
  ∀ s w x, c'.cells s w = some x → c.cells s w = some x

theorem KeepsWords.refl (c : PipeCache P) : KeepsWords c c := fun _ _ _ => id

theorem KeepsWords.trans {d : PipeCache P} (h : KeepsWords c d) (h' : KeepsWords d c') :
    KeepsWords c c' := fun s w x hx => h s w x (h' s w x hx)

theorem KeepsWords.of_cells (h : c'.cells = c.cells) : KeepsWords c c' := by
  intro s w x hx
  rwa [h] at hx

theorem cells_of_lines (h : c'.lines = c.lines) : c'.cells = c.cells := by
  funext s w
  unfold cells
  rw [h]

private theorem cells_setLine {r : LineRef} {l : CacheLine} (s w : Nat) :
    (c.setLine r l).cells s w = if s = r.set ∧ w = r.way then l.filled else c.cells s w := by
  unfold cells
  rw [lines_setLine]
  split <;> rfl

private theorem accessHit_cells {r : LineRef} (hx : c.accessHit now r = .ok c') :
    c'.cells = c.cells := by
  unfold accessHit at hx
  dsimp only at hx
  obtain ⟨⟨repl, stamp⟩, _, hx⟩ := bind_eq_ok.mp hx
  cases hx
  have hline : (c.noteLag r.set).line r = c.line r := by
    rw [line, line, lines_noteLag]
  funext s w
  rw [cells_setLine, hline]
  split
  · rename_i hslot
    rw [hslot.1, hslot.2]
    cases (c.line r).isPrefetched && P.prefetcher.present <;> rfl
  · exact congrFun (congrFun (cells_of_lines (lines_noteLag r.set c)) s) w

private theorem access_cells {addr : Addr} {r : LineRef} (hx : c.access now addr = .ok (r, c')) :
    (c'.cells = c.cells ∧ (c.line r).valid = true ∧ (c.line r).tag = P.tagOf addr) ∨
      ((c'.line r).valid = false ∧ KeepsWords c c') := by
  unfold access at hx
  dsimp only at hx
  split at hx
  · rename_i w hw
    obtain ⟨_, hv, htag⟩ := findWay_some hw
    obtain ⟨d, hd, hx⟩ := bind_eq_ok.mp hx
    cases hx
    exact .inl ⟨(accessHit_cells hd).trans rfl, hv, htag⟩
  · unfold accessMiss at hx
    dsimp only at hx
    obtain ⟨w, _, hx⟩ := bind_eq_ok.mp hx
    cases hx
    refine .inr ⟨?_, fun s v x hc => ?_⟩
    · rw [line_setLine_self]
      rfl
    · rw [cells_setLine] at hc
      split at hc
      · cases hc
      · rwa [cells_of_lines (lines_noteLag _ _)] at hc

private theorem accessTail_cells {bk bk' : CachePipeEntry} {r : LineRef}
    (hx : c.accessTail now bk = .ok (bk', c')) (hline : bk'.line = some r) :
    KeepsWords c c' ∧ ((c'.line r).valid = true →
      c'.cells = c.cells ∧ (c.line r).valid = true ∧ (c.line r).tag = P.tagOf bk.addr) := by
  unfold accessTail at hx
  obtain ⟨d, hd, hx⟩ := bind_eq_ok.mp hx
  obtain ⟨_, _, _, _, rfl, _⟩ := saveEvictInfo_cases hd
  obtain ⟨⟨r', e⟩, he, hx⟩ := bind_eq_ok.mp hx
  cases hx
  cases Option.some.inj hline
  rcases access_cells he with ⟨hsame, hv, htag⟩ | ⟨hv, hkeep⟩
  · exact ⟨.of_cells hsame, fun _ => ⟨hsame, hv, htag⟩⟩
  · exact ⟨hkeep, fun hv' => by cases hv.symm.trans hv'⟩

def responses (outs : List CacheOut) : List CpuTrans :=
  outs.filterMap fun o => match o with
    | .cpuResp t => some t
    | _ => none

def deferred (c : PipeCache P) : List CpuTrans :=
  if c.schedHitTime = infTime then [] else [c.schedHitResp]

theorem responses_append (l l' : List CacheOut) :
    responses (l ++ l') = responses l ++ responses l' :=
  List.filterMap_append

theorem cpuResps_eq (outs : List CacheOut) :
    cpuResps outs = (responses outs).map fun t => (t.addr, t.mop) := by
  unfold cpuResps responses
  rw [List.map_filterMap]
  refine congrArg (fun f => outs.filterMap f) (funext fun o => ?_)
  cases o <;> rfl

theorem deferred_of_none (h : c.schedHitTime = infTime) : c.deferred = [] := if_pos h

/-- The response `t` to a read has the word of a cell of `c`. -/
def AnsweredBy (c : PipeCache P) (t : CpuTrans) : Prop :=
  t.mop = .read → ∃ s w ws, c.cells s w = some (P.tagOf t.addr, ws) ∧
    ws[P.offsetOf t.addr / 4]? = some t.data

private theorem respond_answers {t : CpuTrans} (hx : c.respond now t = (c', outs))
    (hi : Immediate P → c.schedHitTime = infTime) :
    c'.lines = c.lines ∧ c'.served = c.served ∧ responses outs ++ c'.deferred = [t] := by
  unfold respond at hx
  split at hx
  · cases hx
    refine ⟨rfl, rfl, ?_⟩
    unfold deferred
    rw [if_neg (ENat.natCast_ne_top _)]
    rfl
  · rename_i hnow
    cases hx
    refine ⟨rfl, rfl, ?_⟩
    rw [deferred_of_none (hi (Bool.eq_false_of_not_eq_true hnow))]
    rfl

private theorem handleHit_words {bk : CachePipeEntry} {r : LineRef}
    (hi : Immediate P → c.schedHitTime = infTime) (hv : (c.line r).valid = true)
    (htag : (c.line r).tag = P.tagOf bk.addr) (hx : c.handleHit now bk r = .ok (c', outs)) :
    c'.cells = c.cells ∧ ∃ t, responses outs ++ c'.deferred = [t] ∧ (t.addr, t.mop) = bk.req ∧
      c.AnsweredBy t := by
  unfold handleHit at hx
  dsimp only at hx
  split at hx
  · rename_i hop
    obtain ⟨dt, hdt, hx⟩ := bind_eq_ok.mp hx
    obtain ⟨hlines, _, hresp⟩ := respond_answers (Except.ok.inj hx) hi
    refine ⟨cells_of_lines hlines, _, hresp, by rw [CachePipeEntry.req, hop], fun _ =>
      ⟨r.set, r.way, (c.line r).data, ?_, ?_⟩⟩
    · change (c.line r).filled = _
      unfold CacheLine.filled
      rw [if_pos hv, htag]
    · unfold CacheLine.atAligned at hdt
      split at hdt
      · rename_i w hw
        cases hdt
        exact hw
      · cases hdt
  · rename_i hop
    have hresp : PipeCache.respond now ⟨bk.addr,
        (~~~strbExtend bk.wrstrb &&& bk.wrdata) ||| (strbExtend bk.wrstrb &&& bk.wrdata),
        P.cacheId, .write⟩ (({ c with blockedUntil := now + 1 } : PipeCache P).setLine r
          (c.line r).setDirty) = (c', outs) := Except.ok.inj hx
    obtain ⟨hlines, _, hresp⟩ := respond_answers hresp hi
    refine ⟨?_, _, hresp, by rw [CachePipeEntry.req, hop], fun hr => by cases hr⟩
    rw [cells_of_lines hlines]
    funext s w
    rw [cells_setLine]
    split
    · rename_i hslot
      rw [hslot.1, hslot.2]
      rfl
    · rfl

/-- What a call answers: `k` entries are served and answered with the words of the cells, and a
response may be dropped. -/
structure Answering (c : PipeCache P) (outs : List CacheOut) (c' : PipeCache P) : Prop where
  keeps : KeepsWords c c'
  answers : ∃ k ts, c'.served = c.served ++ k ∧
    ts.map (fun t : CpuTrans => (t.addr, t.mop)) = k.map CachePipeEntry.req ∧
    (∀ t ∈ ts, c.AnsweredBy t) ∧
    (responses outs ++ c'.deferred).Sublist (c.deferred ++ ts)

theorem Answering.refl (c : PipeCache P) : Answering c [] c :=
  ⟨.refl c, [], [], (List.append_nil _).symm, rfl, by simp, by
    rw [List.append_nil]
    exact List.Sublist.refl _⟩

private theorem finishUpdate_words (hx : c.finishUpdate now = .ok (c', outs)) :
    KeepsWords c c' ∧ c'.served = c.served ∧ responses outs = [] ∧
      c'.deferred.Sublist c.deferred := by
  unfold finishUpdate at hx
  split at hx
  · cases hx
    refine ⟨fun s w x hc => ?_, rfl, rfl, List.nil_sublist _⟩
    cases hc
  · dsimp only at hx
    split at hx
    · split at hx
      · obtain ⟨⟨bk', d⟩, hd, hx⟩ := bind_eq_ok.mp hx
        cases hx
        obtain ⟨r, ht⟩ := accessTail_looked hd
        have hline : bk'.line = some r := by
          rw [ht.entry]
        refine ⟨fun s w x hc => (accessTail_cells (c := c.shifted) hd hline).1 s w x hc,
          ht.served, rfl, ?_⟩
        unfold deferred
        rw [show d.schedHitTime = c.schedHitTime from ht.schedHitTime,
          show d.schedHitResp = c.schedHitResp from ht.schedHitResp]
      · cases hx
        exact ⟨.refl c, rfl, rfl, List.Sublist.refl _⟩
    · cases hx
      exact ⟨.refl c, rfl, rfl, List.Sublist.refl _⟩

theorem SameAnswers.deferred (h : SameAnswers c c') : c'.deferred = c.deferred := by
  unfold PipeCache.deferred
  rw [h.time, h.resp]

private theorem lookTail_words {bk₀ bk : CachePipeEntry} {r : LineRef} (h : c.Single)
    (hb : c.back = some bk₀) (hx : c.lookTail now bk₀ = .ok (bk, c')) (hline : bk.line = some r) :
    SameAnswers c c' ∧ KeepsWords c c' ∧ ((c'.line r).valid = true →
      c'.cells = c.cells ∧ (c'.line r).tag = P.tagOf bk.addr) := by
  unfold lookTail at hx
  split at hx
  · obtain ⟨r', ht⟩ := accessTail_looked hx
    have haddr : bk.addr = bk₀.addr := by
      rw [ht.entry]
    obtain ⟨hkeep, hhit⟩ := accessTail_cells hx hline
    refine ⟨ht.answers, hkeep, fun hv => ?_⟩
    obtain ⟨hsame, hv₀, htag⟩ := hhit hv
    have hcell : c'.cells r.set r.way = some ((c.line r).tag, (c.line r).data) := by
      rw [hsame]
      exact if_pos hv₀
    have hhere : c'.cells r.set r.way = some ((c'.line r).tag, (c'.line r).data) := if_pos hv
    have heq : (c'.line r).tag = (c.line r).tag :=
      congrArg Prod.fst (Option.some.inj (hhere.symm.trans hcell))
    exact ⟨hsame, by rw [heq, htag, haddr]⟩
  · cases hx
    refine ⟨⟨rfl, rfl, rfl, rfl⟩, .refl c, fun hv => ⟨rfl, ?_⟩⟩
    obtain ⟨_, _, hres⟩ := h.tail bk₀ r hb hline
    have hheld : c.held r.set r.way = some (c.line r).tag := CacheLine.held_of_valid hv
    rcases hres with hown | ⟨hnone, _⟩
    · exact Option.some.inj (hheld.symm.trans hown)
    · cases hheld.symm.trans hnone

private theorem missUpdate_words (now : Nat) (bk : CachePipeEntry) (c : PipeCache P) :
    (c.missUpdate now bk).1.lines = c.lines ∧ responses (c.missUpdate now bk).2 = [] := by
  unfold missUpdate
  split
  · exact ⟨rfl, rfl⟩
  · split
    · split <;> exact ⟨rfl, rfl⟩
    · split <;> exact ⟨rfl, rfl⟩

private theorem Answering.of_nothing (hk : KeepsWords c c') (hs : c'.served = c.served)
    (ho : responses outs = []) (hd : c'.deferred.Sublist c.deferred) : Answering c outs c' := by
  refine ⟨hk, [], [], hs.trans (List.append_nil _).symm, rfl, fun t ht => ?_, ?_⟩
  · cases ht
  · rw [ho, List.append_nil]
    exact hd

private theorem serve_words (hp : P.prefetcher.present = false)
    (hi : Immediate P → c.schedHitTime = infTime) (h : c.Single)
    (hx : c.serve now = .ok (c', outs)) : Answering c outs c' := by
  unfold PipeCache.serve at hx
  split at hx
  · rename_i bk₀ hb
    unfold serveTail at hx
    obtain ⟨⟨bk, e⟩, hlook, hx⟩ := bind_eq_ok.mp hx
    dsimp only at hx
    split at hx
    · cases hx
    · rename_i r hline
      obtain ⟨hsame, hkeep, hhit⟩ := lookTail_words h hb hlook hline
      obtain ⟨_, hx⟩ := require_bind_eq_ok.mp hx
      split at hx
      · rename_i hv
        obtain ⟨hcells, htag⟩ := hhit hv
        unfold hitUpdate at hx
        obtain ⟨⟨d, resp⟩, hd, hx⟩ := bind_eq_ok.mp hx
        obtain ⟨f, hf, hx⟩ := bind_eq_ok.mp hx
        obtain ⟨⟨g, o⟩, hg, hx⟩ := bind_eq_ok.mp hx
        cases hx
        obtain ⟨hmoved, t, ht, hreq, hans⟩ :=
          handleHit_words (c := { e with isReplay := false })
            (fun hm => hsame.time.trans (hi hm)) hv htag hd
        cases prefetchAfter_none hp hf
        obtain ⟨hkeep', hserved, ho, hdef⟩ := finishUpdate_words hg
        have hd' : d.cells = c.cells := hmoved.trans hcells
        refine ⟨(KeepsWords.of_cells hd').trans hkeep', [bk], [t], ?_, ?_, fun u hu => ?_, ?_⟩
        · rw [hserved]
          change d.served ++ [bk] = _
          rw [(handleHit_cases (c := { e with isReplay := false }) hv hd).served]
          exact congrArg (· ++ [bk]) hsame.served
        · rw [List.map_singleton, hreq]
          rfl
        · rw [List.mem_singleton.mp hu]
          intro hop
          obtain ⟨s, w, ws, hcell, hword⟩ := hans hop
          have hcell' : e.cells s w = some (P.tagOf t.addr, ws) := hcell
          exact ⟨s, w, ws, hcells ▸ hcell', hword⟩
        · rw [responses_append, ho, List.append_nil]
          have hall : (responses resp ++ c'.deferred).Sublist (responses resp ++ d.deferred) :=
            hdef.append_left (responses resp)
          rw [ht] at hall
          exact hall.trans (List.sublist_append_right _ _)
      · obtain ⟨hlines, ho⟩ := missUpdate_words now bk ({ e with isReplay := false } : PipeCache P)
        obtain ⟨ha, _⟩ := missUpdate_answers now bk ({ e with isReplay := false } : PipeCache P)
        rw [Except.ok.inj hx] at hlines ho ha
        refine .of_nothing (hkeep.trans (.of_cells (cells_of_lines hlines)))
          (ha.served.trans hsame.served) ho ?_
        rw [ha.deferred]
        exact hsame.deferred ▸ List.Sublist.refl _
  · obtain ⟨hk, hserved, ho, hd⟩ := finishUpdate_words hx
    exact .of_nothing hk hserved ho hd

/-- An update answers with the words of the cells, and moves none. -/
theorem WellFormed.doUpdate_words (hp : P.prefetcher.present = false) (h : WellFormed c)
    (hs : c.Single) (hx : c.doUpdate now = .ok (c', outs)) : Answering c outs c' := by
  rcases doUpdate_cases hx with ⟨_, rfl, rfl⟩ | ⟨_, o, hd, rfl⟩
  · exact .refl c'
  · have hmoved : (c.deliverDeferred now).1.cells = c.cells ∧
        (c.deliverDeferred now).1.served = c.served ∧ (c.deliverDeferred now).1.Single ∧
        responses (c.deliverDeferred now).2 ++ (c.deliverDeferred now).1.deferred =
          c.deferred := by
      unfold PipeCache.deliverDeferred
      split
      · rename_i hdue
        refine ⟨rfl, rfl, hs.same (fun _ _ => rfl) rfl rfl rfl, ?_⟩
        rw [deferred_of_none (c := { c with schedHitTime := infTime }) rfl]
        unfold deferred
        rw [if_neg]
        · rfl
        · intro hinf
          exact absurd (top_le_iff.mp (hinf.symm.trans_le hdue)) (ENat.natCast_ne_top now)
      · exact ⟨rfl, rfl, hs, rfl⟩
    obtain ⟨hcells, hserved, hsingle, hresp⟩ := hmoved
    obtain ⟨hkeep, k, ts, hk, hreq, hans, hsub⟩ :=
      serve_words hp (h.deliverDeferred now).1.sched hsingle hd
    refine ⟨(KeepsWords.of_cells hcells).trans hkeep, k, ts, by rw [hk, hserved], hreq,
      fun t ht hop => ?_, ?_⟩
    · obtain ⟨s, w, ws, hcell, hword⟩ := hans t ht hop
      exact ⟨s, w, ws, hcells ▸ hcell, hword⟩
    · rw [responses_append, List.append_assoc, ← hresp, List.append_assoc]
      exact hsub.append_left _

theorem enqueue_cells {e : CachePipeEntry} (hx : c.enqueue now e = .ok c') :
    c'.cells = c.cells := by
  obtain ⟨_, _, _, rfl⟩ := enqueue_eq_ok.mp hx
  rfl

end PipeCache

namespace Carrying

variable {P : CacheParams} {c c' : PipeCache P} {now : Nat}

/-- `setVecData` of the data-carrying build. -/
def setVecData (ret : List Word) (l : CacheLine) : Except Fault CacheLine := do
  require (ret.length = l.data.length) .dataRange
  .ok { l with data := ret }

/-- `handle_fill` of the data-carrying build. -/
def handleFill (now : Nat) (blk : LineRef) (addr : Addr) (ret : List Word) (c : PipeCache P) :
    Except Fault (PipeCache P) := do
  let l := ((c.line blk).activate now).setTag (P.tagOf addr)
  let si := P.setIndexOf addr
  require (blk.set = si ∧ blk.way < P.assoc) .fillNotFound
  let (repl, stamp) ← P.policy.onFill c.repl now si blk.way l.stamp
  let l := { l with stamp := stamp }
  let l ← setVecData ret l
  .ok ({ c with repl := repl }.setLine blk l)

/-- `recv_mem_resp` of the data-carrying build. -/
def recvMemResp (now : Nat) (trans : MemTrans) (c : PipeCache P) : Except Fault (PipeCache P) :=
  match trans.mop with
  | .read => do
    require (c.rWaiting = true) .notWaiting
    match c.back with
    | none => .error .nullSlot
    | some bk =>
      match bk.line with
      | none => .error .nullSlot
      | some r => do
        let c ← handleFill now r trans.addr trans.data { c with rWaiting := false }
        .ok { c with
          blockedUntil := now + (if P.cwf then 1 else if P.writeBack then 2 else 1) }
  | .write => do
    require (c.wWaiting = true) .notWaiting
    if P.writeBack then .ok { c with wWaiting := false }
    else .ok { c with wWaiting := false, blockedUntil := now + 2 }

def setWords (r : LineRef) (ws : List Word) (c : PipeCache P) : PipeCache P :=
  { c with
    lines := Function.update c.lines r.set
      (Function.update (c.lines r.set) r.way { c.line r with data := ws }) }

theorem lines_setWords (r : LineRef) (ws : List Word) (c : PipeCache P) (s w : Nat) :
    (setWords r ws c).lines s w =
      if s = r.set ∧ w = r.way then { c.line r with data := ws } else c.lines s w := by
  by_cases hs : s = r.set
  · subst hs
    by_cases hw : w = r.way <;> simp [setWords, hw]
  · simp [setWords, hs]

private theorem handleFill_words {blk : LineRef} {addr : Addr} {ret : List Word}
    (hx : handleFill now blk addr ret c = .ok c') :
    ∃ d, c.handleFill now blk addr ret = .ok d ∧ (d.line blk).valid = true ∧
      (d.line blk).tag = P.tagOf addr ∧ ret.length = (d.line blk).data.length ∧
      c' = setWords blk ret d := by
  unfold handleFill setVecData at hx
  dsimp only at hx
  obtain ⟨hset, hx⟩ := require_bind_eq_ok.mp hx
  obtain ⟨⟨repl, stamp⟩, hfill, hx⟩ := bind_eq_ok.mp hx
  obtain ⟨l, hl, hx⟩ := bind_eq_ok.mp hx
  obtain ⟨hlen, hl⟩ := require_bind_eq_ok.mp hl
  cases hl
  cases hx
  refine ⟨({ c with repl := repl } : PipeCache P).setLine blk
    { ((c.line blk).activate now).setTag (P.tagOf addr) with stamp := stamp }, ?_, ?_, ?_, ?_, ?_⟩
  · unfold PipeCache.handleFill
    dsimp only
    rw [require, if_pos hset, ok_bind, hfill, ok_bind]
    rfl
  · rw [PipeCache.line_setLine_self]
    rfl
  · rw [PipeCache.line_setLine_self]
    rfl
  · rw [PipeCache.line_setLine_self]
    exact hlen
  · unfold setWords PipeCache.setLine PipeCache.line
    simp only [Function.update_self, Function.update_idem]
    rfl

/-- The data-carrying build does what the other one does, and then stores the words. -/
private theorem recvMemResp_words {m : MemTrans} (hx : recvMemResp now m c = .ok c') :
    ∃ d, c.recvMemResp now m = .ok d ∧ (m.mop = .write ∧ c' = d ∨
      m.mop = .read ∧ ∃ bk r, c.back = some bk ∧ bk.line = some r ∧ (d.line r).valid = true ∧
        (d.line r).tag = P.tagOf m.addr ∧ m.data.length = (d.line r).data.length ∧
        c' = setWords r m.data d) := by
  cases hop : m.mop with
  | read =>
    unfold recvMemResp at hx
    rw [hop] at hx
    dsimp only at hx
    obtain ⟨hr, hx⟩ := require_bind_eq_ok.mp hx
    cases hbk : c.back with
    | none =>
      rw [hbk] at hx
      cases hx
    | some bk =>
      cases hline : bk.line with
      | none =>
        simp only [hbk, hline] at hx
        cases hx
      | some r =>
        simp only [hbk, hline] at hx
        obtain ⟨f, hf, hx⟩ := bind_eq_ok.mp hx
        cases hx
        obtain ⟨d, hd, hv, htag, hlen, rfl⟩ := handleFill_words hf
        exact ⟨_, (PipeCache.recvRead_eq_ok hop).mpr ⟨hr, bk, r, d, hbk, hline, hd, rfl⟩,
          .inr ⟨rfl, bk, r, rfl, hline, hv, htag, hlen, rfl⟩⟩
  | write =>
    unfold recvMemResp at hx
    rw [hop] at hx
    refine ⟨c', ?_, .inl ⟨rfl, rfl⟩⟩
    unfold PipeCache.recvMemResp
    rw [hop]
    exact hx

section setWords

variable {r : LineRef} {ws : List Word}

private theorem wellFormed_setWords (h : c.WellFormed)
    (hlen : ws.length = (c.line r).data.length) : (setWords r ws c).WellFormed := by
  refine ⟨⟨h.len, h.front, h.rest, fun s w => ?_, h.served, h.sched⟩,
    h.tail.congr_valid rfl (fun q => ?_) rfl rfl rfl rfl rfl rfl⟩
  · rw [lines_setWords]
    split
    · exact hlen.trans (h.sized r.set r.way)
    · exact h.sized s w
  · rw [PipeCache.line, lines_setWords]
    split
    · rename_i hslot
      rw [PipeCache.line, PipeCache.line, hslot.1, hslot.2]
    · rfl

private theorem single_setWords (h : c.Single) : (setWords r ws c).Single := by
  refine h.same (fun s w => ?_) rfl rfl rfl
  unfold PipeCache.held
  rw [lines_setWords]
  split
  · rename_i hslot
    rw [hslot.1, hslot.2]
    rfl
  · rfl

end setWords

/-- A response keeps the requests and the order of the answers, and a refill brings the words that
it carries. -/
structure Received (m : MemTrans) (c c' : PipeCache P) : Prop where
  wf : c'.WellFormed
  single : c'.Single
  log : c'.log.map CachePipeEntry.req = c.log.map CachePipeEntry.req
  served : c'.served = c.served
  deferred : c'.deferred = c.deferred
  reads : m.mop = .read → c'.readsOwed = []
  full : m.mop = .read → m.data.length = P.lineWords
  cells : ∀ s w x, c'.cells s w = some x → c.cells s w = some x ∨
    m.mop = .read ∧ x = (P.tagOf m.addr, m.data)

theorem recvMemResp_received {m : MemTrans} (h : c.WellFormed) (hs : c.Single)
    (haddr : m.mop = .read → c.rWaiting = true → ∀ bk, c.back = some bk → m.addr = bk.addr)
    (hx : recvMemResp now m c = .ok c') : Received m c c' := by
  obtain ⟨d, hd, hcase⟩ := recvMemResp_words hx
  obtain ⟨hwf, heff, _⟩ := h.recvMemResp hd
  have hsingle := hs.recvMemResp haddr hd
  obtain ⟨hans, _, _⟩ := PipeCache.recvMemResp_answers hd
  have htraffic := PipeCache.recvMemResp_traffic hd
  have hlog : d.log.map CachePipeEntry.req = c.log.map CachePipeEntry.req :=
    heff.log.trans (List.append_nil _)
  rcases hcase with ⟨hop, rfl⟩ | ⟨hop, bk, r, hbk, hline, hv, htag, hlen, rfl⟩
  · rw [hop] at htraffic
    refine ⟨hwf, hsingle, hlog, hans.served, hans.deferred, fun hr => ?_, fun hr => ?_,
      fun s w x hc => .inl ?_⟩
    · cases hop.symm.trans hr
    · cases hop.symm.trans hr
    · obtain ⟨_, rfl⟩ := (PipeCache.recvWrite_eq_ok hop).mp hd
      exact hc
  · rw [hop] at htraffic
    obtain ⟨_, _, _, bk', r', hbk', hline', _, _, l, _, _, hlines⟩ :=
      PipeCache.recvMemResp_fills hop hd
    cases Option.some.inj (hbk.symm.trans hbk')
    cases Option.some.inj (hline.symm.trans hline')
    refine ⟨wellFormed_setWords hwf hlen, single_setWords hsingle, hlog, hans.served,
      hans.deferred, fun _ => htraffic.1, fun _ => hlen.trans (hwf.sized r.set r.way),
      fun s w x hc => ?_⟩
    · unfold PipeCache.cells at hc
      rw [lines_setWords] at hc
      split at hc
      · refine .inr ⟨hop, ?_⟩
        unfold CacheLine.filled at hc
        rw [if_pos hv] at hc
        rw [← Option.some.inj hc, htag]
      · rename_i hslot
        rw [hlines, if_neg hslot] at hc
        exact .inl hc

end Carrying

end NpSim.Cache
