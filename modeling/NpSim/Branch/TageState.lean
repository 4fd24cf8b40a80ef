/- digest: The state of the tagged predictor: the ranges of its counters and indices, the components
   a snapshot names, and what an update allocates. -/

import NpSim.Branch.Dropped
import NpSim.Lib.Xor

set_option autoImplicit false
set_option relaxedAutoImplicit false

namespace NpSim.Branch

/-- The configurations the constructor is meant for. -/
structure TageParams.Supported (T : TageParams) : Prop where
  comps : 1 ≤ T.histLens.length ∧ T.histLens.length ≤ TageParams.maxComp
  lens : ∀ l ∈ T.histLens, 1 ≤ l
  sorted : T.histLens.Pairwise (· ≤ ·)
  compPow2 : 1 ≤ T.compPow2 ∧ T.compPow2 ≤ 30
  basePow2 : T.basePow2 ≤ 29

namespace TageParams

variable {T : TageParams}

theorem baseIndex_lt (T : TageParams) (pc : Addr) : T.baseIndex pc < 2 ^ T.basePow2 := by
  have hmask : ∀ n, n &&& indexMask T.basePow2 < 2 ^ T.basePow2 := by
    intro n
    refine lt_of_le_of_lt Nat.and_le_right ?_
    rw [indexMask, Nat.one_shiftLeft]
    exact Nat.sub_lt (Nat.two_pow_pos _) Nat.one_pos
  exact Nat.xor_lt_two_pow (hmask _) (hmask _)

theorem compIdx_lt (h : T.compPow2 < 32) (pc : Addr) (ghr : BitVec 64) (comp : Nat) :
    (T.compIdx pc ghr comp).toNat < 2 ^ T.compPow2 := by
  refine lt_of_le_of_lt ?_ (Nat.sub_lt (Nat.two_pow_pos T.compPow2) Nat.one_pos)
  have hval : T.compMask.toNat = 2 ^ T.compPow2 - 1 := NpSim.Lib.Xor.toNat_mask h
  unfold compIdx
  rw [BitVec.toNat_and, hval]
  exact Nat.and_le_right

theorem Supported.histLen_mono (h : T.Supported) {i j : Nat} (hij : i ≤ j) (hj : j < T.nComp) :
    T.histLen i ≤ T.histLen j := by
  have hlen : j < T.histLens.length := lt_of_lt_of_le hj (Nat.min_le_left _ _)
  unfold histLen
  rw [List.getD_eq_getElem _ _ hlen, List.getD_eq_getElem _ _ (lt_of_le_of_lt hij hlen)]
  rcases Nat.lt_or_eq_of_le hij with hlt | rfl
  · exact max_le_max (List.pairwise_iff_getElem.mp h.sorted i j _ _ hlt) le_rfl
  · exact le_rfl

end TageParams

namespace Tage

variable {T : TageParams}

/-- `o` is the greatest number with property `m`, if there is one. -/
def Longest (m : Nat → Prop) : Option Nat → Prop
  | none => ∀ i, ¬m i
  | some j => m j ∧ ∀ i, m i → i ≤ j

theorem Longest.congr {m m' : Nat → Prop} {o : Option Nat} (h : Longest m o)
    (he : ∀ i, m' i ↔ m i) : Longest m' o := by
  rwa [show m' = m from funext fun i => propext (he i)]

/-- Component `i` matches the branch at `pc`. -/
def Matches (T : TageParams) (s : Tage) (pc : Addr) (i : Nat) : Prop :=
  i < T.nComp ∧ (s.compTables i (T.compIdx pc s.ghr i).toNat).valid = true ∧
    (s.compTables i (T.compIdx pc s.ghr i).toNat).tag = T.compTag pc s.ghr i

/-- Halfway through the search, at component `n`. -/
private structure Found (T : TageParams) (base : TageSnap) (n : Nat) (snap : TageSnap) : Prop where
  provider : Longest (fun i => (i < T.nComp ∧ base.compHit i = true) ∧ n ≤ i) snap.provider
  alt : Longest (fun i => (i < T.nComp ∧ base.compHit i = true) ∧ n ≤ i ∧
    snap.provider ≠ some i) snap.altProvider
  idx : ∀ q, snap.provider = some q → snap.providerIdx = base.fidx q
  hits : snap.compHit = base.compHit
  fidx : snap.fidx = base.fidx
  ftag : snap.ftag = base.ftag

private theorem Found.step {s : Tage} {base snap : TageSnap} {n : Nat} (hn : n < T.nComp)
    (h : Found T base (n + 1) snap) : Found T base n (s.searchStep snap n) := by
  have hwiden : base.compHit n ≠ true →
      ∀ i, ((i < T.nComp ∧ base.compHit i = true) ∧ n ≤ i) ↔
        ((i < T.nComp ∧ base.compHit i = true) ∧ n + 1 ≤ i) := by
    intro hno i
    refine and_congr_right fun hi => ⟨fun hle => ?_, Nat.le_of_succ_le⟩
    rcases Nat.lt_or_eq_of_le hle with hlt | rfl
    · exact hlt
    · exact absurd hi.2 hno
  unfold searchStep
  dsimp only
  rw [h.hits]
  by_cases hhit : base.compHit n = true
  · rw [hhit, Bool.not_true, if_neg (by decide)]
    have hn' : n < T.nComp ∧ base.compHit n = true := ⟨hn, hhit⟩
    cases hp : snap.provider with
    | none =>
      have hprov := h.provider
      rw [hp] at hprov
      have halt : snap.altProvider = none := by
        cases ha : snap.altProvider with
        | none => rfl
        | some a =>
          have hx := h.alt
          rw [ha] at hx
          exact absurd ⟨hx.1.1, hx.1.2.1⟩ (hprov a)
      rw [if_pos rfl]
      have honly : ∀ i, (i < T.nComp ∧ base.compHit i = true) → n ≤ i → i = n := by
        intro i hi hle
        by_contra hne
        exact hprov i ⟨hi, by omega⟩
      refine ⟨⟨⟨hn', le_rfl⟩, fun i hi => (honly i hi.1 hi.2).le⟩, ?_, ?_, rfl, h.fidx, h.ftag⟩
      · change Longest _ snap.altProvider
        rw [halt]
        intro i hi
        exact hi.2.2 (congrArg some (honly i hi.1 hi.2.1).symm)
      · intro q hq
        rw [← Option.some.inj hq]
        exact congrFun h.fidx n
    | some q =>
      have hprov := h.provider
      rw [hp] at hprov
      have hq : Longest (fun i => (i < T.nComp ∧ base.compHit i = true) ∧ n ≤ i) (some q) := by
        refine ⟨⟨hprov.1.1, Nat.le_of_succ_le hprov.1.2⟩, fun i hi => ?_⟩
        rcases Nat.lt_or_eq_of_le hi.2 with hlt | rfl
        · exact hprov.2 i ⟨hi.1, hlt⟩
        · exact Nat.le_of_succ_le hprov.1.2
      have hidx : snap.providerIdx = base.fidx q := h.idx q hp
      rw [if_neg (by simp)]
      cases ha : snap.altProvider with
      | none =>
        have halt := h.alt
        rw [ha] at halt
        rw [if_pos rfl]
        refine ⟨hq, ?_, ?_, rfl, h.fidx, h.ftag⟩
        · change Longest _ (some n)
          refine ⟨⟨hn', le_rfl, ?_⟩, fun i hi => ?_⟩
          · intro he
            have hle := hprov.1.2
            rw [Option.some.inj he] at hle
            omega
          · by_contra hlt
            refine halt i ⟨hi.1, by omega, ?_⟩
            rw [hp]
            exact hi.2.2
        · intro x hx
          exact h.idx x (hp.trans hx)
      | some a =>
        have halt := h.alt
        rw [ha] at halt
        rw [if_neg (by simp)]
        refine ⟨?_, ?_, h.idx, h.hits, h.fidx, h.ftag⟩
        · rw [hp]
          exact hq
        · rw [ha]
          refine ⟨⟨halt.1.1, Nat.le_of_succ_le halt.1.2.1, halt.1.2.2⟩, fun i hi => ?_⟩
          rcases Nat.lt_or_eq_of_le hi.2.1 with hlt | rfl
          · exact halt.2 i ⟨hi.1, hlt, hi.2.2⟩
          · exact Nat.le_of_succ_le halt.1.2.1
  · rw [Bool.eq_false_of_not_eq_true hhit, Bool.not_false, if_pos rfl]
    refine ⟨h.provider.congr (hwiden hhit), h.alt.congr fun i => ?_, h.idx, h.hits, h.fidx, h.ftag⟩
    rw [← and_assoc, ← and_assoc, hwiden hhit i]

private theorem Found.search {s : Tage} {base : TageSnap} (h : Found T base T.nComp base) :
    Found T base 0 (s.search T base) := by
  have hfold : ∀ n ≤ T.nComp, ∀ snap, Found T base n snap →
      Found T base 0 ((List.range n).reverse.foldl s.searchStep snap) := by
    intro n
    induction n with
    | zero => exact fun _ snap hs => hs
    | succ n ih =>
      intro hle snap hs
      rw [List.range_succ, List.reverse_append, List.reverse_singleton, List.singleton_append,
        List.foldl_cons]
      exact ih (Nat.le_of_succ_le hle) _ (hs.step hle)
  exact hfold T.nComp le_rfl base h

/-- What a prediction stores: the components that match, in the order of their histories, and where
each component has the branch. -/
structure Chosen (T : TageParams) (p : Prediction) : Prop where
  provider : Longest (Matches T p.before p.pc) p.snap.provider
  alt : Longest (fun i => Matches T p.before p.pc i ∧ p.snap.provider ≠ some i)
    p.snap.altProvider
  idx : ∀ q, p.snap.provider = some q → p.snap.providerIdx = p.snap.fidx q
  fidx : ∀ i < T.nComp, p.snap.fidx i = T.compIdx p.pc p.before.ghr i
  ftag : ∀ i < T.nComp, p.snap.ftag i = T.compTag p.pc p.before.ghr i
  valid : p.snap.valid = true

theorem takeSnap_chosen (s : Tage) (pc target : Addr) (old : TageSnap) :
    Chosen T ⟨s, pc, target, s.takeSnap T pc target old⟩ := by
  have hbase : Found T (s.lookup T pc target old) T.nComp (s.lookup T pc target old) := by
    refine ⟨fun i hi => ?_, fun i hi => ?_, fun q hq => (by cases hq), rfl, rfl,
      rfl⟩
    · exact absurd hi.1.1 (Nat.not_lt.mpr hi.2)
    · exact absurd hi.1.1 (Nat.not_lt.mpr hi.2.1)
  have hf := hbase.search (s := s)
  have hmatch : ∀ i, Matches T s pc i ↔
      ((i < T.nComp ∧ (s.lookup T pc target old).compHit i = true) ∧ 0 ≤ i) := by
    intro i
    unfold Matches lookup
    dsimp only
    constructor
    · rintro ⟨hi, hv, ht⟩
      refine ⟨⟨hi, ?_⟩, Nat.zero_le i⟩
      rw [if_pos hi, if_pos hi, if_pos hi, hv, ht, Bool.true_and]
      exact beq_self_eq_true _
    · rintro ⟨⟨hi, hx⟩, _⟩
      rw [if_pos hi, if_pos hi, if_pos hi, Bool.and_eq_true] at hx
      exact ⟨hi, hx.1, eq_of_beq hx.2⟩
  have hfill : ∀ snap : TageSnap, (fillAlt T pc snap).provider = snap.provider ∧
      (fillAlt T pc snap).altProvider = snap.altProvider ∧
      (fillAlt T pc snap).providerIdx = snap.providerIdx ∧
      (fillAlt T pc snap).fidx = snap.fidx ∧ (fillAlt T pc snap).ftag = snap.ftag := by
    intro snap
    unfold fillAlt
    split <;> exact ⟨rfl, rfl, rfl, rfl, rfl⟩
  obtain ⟨hp, ha, hi, hfi, hft⟩ := hfill (search T s (s.lookup T pc target old))
  unfold takeSnap
  refine ⟨?_, ?_, fun q hq => ?_, fun i hi' => ?_, fun i hi' => ?_, rfl⟩
  · change Longest _ (fillAlt T pc _).provider
    rw [hp]
    exact hf.provider.congr hmatch
  · change Longest (fun i => _ ∧ (fillAlt T pc _).provider ≠ some i) (fillAlt T pc _).altProvider
    rw [hp, ha]
    exact hf.alt.congr fun i => by rw [hmatch i, and_assoc]
  · change (fillAlt T pc _).providerIdx = (fillAlt T pc _).fidx q
    rw [hi, hfi, hf.fidx]
    exact hf.idx q (hp.symm.trans hq)
  · change (fillAlt T pc _).fidx i = _
    rw [hfi, hf.fidx]
    exact if_pos hi'
  · change (fillAlt T pc _).ftag i = _
    rw [hft, hf.ftag]
    exact if_pos hi'

/-- The indices with which `update` and `on_resolved` go into the tables. -/
structure Indexed (T : TageParams) (snap : TageSnap) : Prop where
  provider : ∀ q, snap.provider = some q →
    q < T.nComp ∧ snap.providerIdx.toNat < 2 ^ T.compPow2
  fidx : ∀ i < T.nComp, (snap.fidx i).toNat < 2 ^ T.compPow2

theorem Chosen.indexed {p : Prediction} (h : Chosen T p) (hT : T.Supported) :
    Indexed T p.snap := by
  have hpow : T.compPow2 < 32 := lt_of_le_of_lt hT.compPow2.2 (by decide)
  have hfidx : ∀ i < T.nComp, (p.snap.fidx i).toNat < 2 ^ T.compPow2 := by
    intro i hi
    rw [h.fidx i hi]
    exact TageParams.compIdx_lt hpow p.pc p.before.ghr i
  refine ⟨fun q hq => ?_, hfidx⟩
  have hlong := h.provider
  rw [hq] at hlong
  refine ⟨hlong.1.1, ?_⟩
  rw [h.idx q hq]
  exact hfidx q hlong.1.1

theorem Chosen.alt_lt {p : Prediction} (h : Chosen T p) {a : Nat}
    (ha : p.snap.altProvider = some a) : ∃ q, p.snap.provider = some q ∧ a < q := by
  have halt := h.alt
  have hprov := h.provider
  rw [ha] at halt
  cases hq : p.snap.provider with
  | none =>
    rw [hq] at hprov
    exact absurd halt.1.1 (hprov a)
  | some q =>
    rw [hq] at hprov
    refine ⟨q, rfl, Nat.lt_of_le_of_ne (hprov.2 a halt.1.1) ?_⟩
    rintro rfl
    exact halt.1.2 hq

theorem setEntry_apply (s : Tage) (comp : Nat) (idx : BitVec 32) (f : TageEntry → TageEntry)
    (c i : Nat) : (s.setEntry comp idx f).compTables c i =
      if c = comp ∧ i = idx.toNat then f (s.compTables c i) else s.compTables c i := by
  unfold setEntry
  dsimp only
  by_cases hc : c = comp
  · subst hc
    rw [Function.update_self]
    by_cases hi : i = idx.toNat
    · subst hi
      rw [Function.update_self, if_pos ⟨rfl, rfl⟩]
    · rw [Function.update_of_ne hi, if_neg fun h => hi h.2]
  · rw [Function.update_of_ne hc, if_neg fun h => hc h.1]

/-- The counters of an entry are in their ranges. -/
structure Bounded (e : TageEntry) : Prop where
  ctr : -4 ≤ e.ctr ∧ e.ctr ≤ 3
  useful : e.u ≤ 3

private theorem bounded_default : Bounded {} := ⟨by decide, by decide⟩

theorem updateCtr_bounded {c : Int} (h : -4 ≤ c ∧ c ≤ 3) (taken : Bool) :
    -4 ≤ updateCtr c taken ∧ updateCtr c taken ≤ 3 := by
  unfold updateCtr
  repeat' split
  all_goals omega

theorem saturate_le {n : Nat} (h : n ≤ 3) (taken : Bool) : saturate taken n ≤ 3 := by
  unfold saturate
  repeat' split
  all_goals omega

def Everywhere (P : TageEntry → Prop) (s : Tage) : Prop := ∀ c i, P (s.compTables c i)

theorem Everywhere.setEntry {P : TageEntry → Prop} {s : Tage} (h : Everywhere P s) {comp : Nat}
    {idx : BitVec 32} {f : TageEntry → TageEntry} (hf : ∀ e, P e → P (f e)) :
    Everywhere P (s.setEntry comp idx f) := by
  intro c i
  rw [setEntry_apply]
  split
  · exact hf _ (h c i)
  · exact h c i

private theorem trainProvider_bounded {s : Tage} (h : Everywhere Bounded s) (snap : TageSnap)
    (taken : Bool) : Everywhere Bounded (s.trainProvider snap taken) := by
  unfold trainProvider
  cases snap.provider with
  | none => exact h
  | some p =>
    dsimp only
    have hctr : Everywhere Bounded (s.setEntry p snap.providerIdx fun e =>
        { e with ctr := updateCtr e.ctr taken }) :=
      h.setEntry fun e he => ⟨updateCtr_bounded he.ctr taken, he.useful⟩
    split
    · exact hctr.setEntry fun e he => ⟨he.ctr, saturate_le he.useful _⟩
    · exact hctr

private theorem decay_bounded {s : Tage} (h : Everywhere Bounded s) (snap : TageSnap) :
    Everywhere Bounded (s.decay T snap) := by
  unfold decay
  generalize above T snap = l
  induction l generalizing s with
  | nil => exact h
  | cons i l ih =>
    refine ih (h.setEntry fun e he => ?_)
    split
    · exact ⟨he.ctr, (Nat.sub_le _ _).trans he.useful⟩
    · exact he

private theorem allocateAbove_bounded {s : Tage} (h : Everywhere Bounded s) (snap : TageSnap)
    (taken : Bool) : Everywhere Bounded (s.allocateAbove T snap taken) := by
  unfold allocateAbove
  split
  · exact h
  · cases s.candidate T snap with
    | none => exact decay_bounded (T := T) h snap
    | some i =>
      dsimp only
      have hweak : -4 ≤ (if taken then 0 else -1 : Int) ∧ (if taken then 0 else -1 : Int) ≤ 3 := by
        cases taken <;> decide
      have hnew : Bounded ⟨if taken then 0 else -1, 0, snap.ftag i, true⟩ :=
        ⟨hweak, Nat.zero_le 3⟩
      exact h.setEntry fun _ _ => hnew

private theorem allocate_bounded {s : Tage} (h : Everywhere Bounded s) (snap : TageSnap)
    (taken : Bool) : Everywhere Bounded (s.allocate T snap taken) := by
  unfold allocate
  split
  · exact h
  · have htried : Everywhere Bounded
        { s with stats := { s.stats with allocTried := s.stats.allocTried + 1 } } := h
    exact allocateAbove_bounded htried snap taken

private theorem age_bounded {s : Tage} (h : Everywhere Bounded s) :
    Everywhere Bounded (s.age T) := by
  unfold age
  split
  · intro c i
    dsimp only
    split
    · exact ⟨(h c i).ctr, (Nat.div_le_self _ _).trans (h c i).useful⟩
    · exact h c i
  · exact h

/-- The ranges of the counters and of the history register. -/
structure Sane (T : TageParams) (s : Tage) : Prop where
  base : ∀ i, s.baseTable i ≤ 3
  entries : Everywhere Bounded s
  ghr : s.ghr &&& T.ghrMask = s.ghr

theorem sane_init : Sane T {} :=
  ⟨fun _ => Nat.le_of_ble_eq_true rfl, fun _ _ => bounded_default, BitVec.zero_and⟩

theorem shift_masked (snap : BitVec 64) (taken : Bool) :
    T.shift snap taken &&& T.ghrMask = T.shift snap taken := by
  unfold TageParams.shift
  rw [BitVec.and_assoc, BitVec.and_self]

private theorem train_sane {s : Tage} (h : Sane T s) (snap : TageSnap) (pc : Addr)
    (taken : Bool) : (∀ i, (s.train T snap pc taken).baseTable i ≤ 3) ∧
      Everywhere Bounded (s.train T snap pc taken) := by
  have hage : ∀ u : Tage, (u.age T).baseTable = u.baseTable := by
    intro u
    unfold age
    split <;> rfl
  have hdecay : ∀ u : Tage, (u.decay T snap).baseTable = u.baseTable := by
    intro u
    unfold decay
    generalize above T snap = l
    induction l generalizing u with
    | nil => rfl
    | cons i l ih => exact ih (u.setEntry i (snap.fidx i) _)
  have habove : ∀ u : Tage, (u.allocateAbove T snap taken).baseTable = u.baseTable := by
    intro u
    unfold allocateAbove
    split
    · rfl
    · cases u.candidate T snap with
      | none => exact hdecay u
      | some i => rfl
  have halloc : ∀ u : Tage, (u.allocate T snap taken).baseTable = u.baseTable := by
    intro u
    unfold allocate
    split
    · rfl
    · exact habove _
  have hprov : ∀ u : Tage, (u.trainProvider snap taken).baseTable = u.baseTable := by
    intro u
    unfold trainProvider
    cases snap.provider with
    | none => rfl
    | some p =>
      dsimp only
      split <;> rfl
  have hbase : Everywhere Bounded (s.trainBase T pc taken) := h.entries
  unfold train
  constructor
  · intro i
    rw [hage, halloc, hprov]
    unfold trainBase
    dsimp only
    by_cases hi : i = T.baseIndex pc
    · rw [hi, Function.update_self]
      exact saturate_le (h.base _) taken
    · rw [Function.update_of_ne hi]
      exact h.base i
  · exact age_bounded (allocate_bounded (trainProvider_bounded hbase snap taken) snap taken)

theorem Sane.update {s : Tage} (h : Sane T s) (pc : Addr) (taken btbHit : Bool) (cnt : Nat)
    (id : BitVec 32) : Sane T (Tage.update T s pc taken btbHit cnt id) := by
  unfold Tage.update
  split
  · exact ⟨h.base, h.entries, h.ghr⟩
  · dsimp only
    split
    · exact ⟨h.base, h.entries, h.ghr⟩
    · obtain ⟨hbase, hentries⟩ := train_sane h (s.snaps (ringSlot id)) pc taken
      obtain ⟨hghr, _⟩ := train_ghr T s (s.snaps (ringSlot id)) pc taken
      refine ⟨hbase, hentries, ?_⟩
      unfold consume
      dsimp only
      rw [hghr]
      exact h.ghr

theorem Run.Step.sane {r r' : Run} (hs : Run.Step T r r') (h : Sane T r.tage) :
    Sane T r'.tage := by
  cases hs with
  | predict pc target =>
    refine ⟨h.base, h.entries, ?_⟩
    unfold Tage.predict
    dsimp only
    split
    · exact shift_masked _ _
    · exact h.ghr
  | onResolved taken pred =>
    change Sane T (r.tage.onResolved taken pred)
    unfold Tage.onResolved
    split
    · exact h
    · dsimp only
      split
      · exact h
      · exact ⟨h.base, h.entries, h.ghr⟩
  | update pc taken btbHit cnt id => exact h.update pc taken btbHit cnt id
  | onMispred taken cnt id =>
    change Sane T (Tage.onMispred T r.tage taken cnt id)
    unfold Tage.onMispred
    split
    · exact h
    · exact ⟨h.base, h.entries, shift_masked _ _⟩

def SameBranches (s s' : Tage) : Prop :=
  ∀ c i, (s'.compTables c i).valid = (s.compTables c i).valid ∧
    (s'.compTables c i).tag = (s.compTables c i).tag

theorem SameBranches.refl (s : Tage) : SameBranches s s := fun _ _ => ⟨rfl, rfl⟩

theorem SameBranches.setEntry {s u : Tage} (h : SameBranches s u) {comp : Nat} {idx : BitVec 32}
    {f : TageEntry → TageEntry} (hf : ∀ e, (f e).valid = e.valid ∧ (f e).tag = e.tag) :
    SameBranches s (u.setEntry comp idx f) := by
  intro c i
  rw [setEntry_apply]
  split
  · exact ⟨(hf _).1.trans (h c i).1, (hf _).2.trans (h c i).2⟩
  · exact h c i

private theorem trainProvider_keeps (s : Tage) (snap : TageSnap) (taken : Bool) :
    SameBranches s (s.trainProvider snap taken) := by
  unfold trainProvider
  cases snap.provider with
  | none => exact SameBranches.refl s
  | some p =>
    dsimp only
    have hctr : SameBranches s (s.setEntry p snap.providerIdx fun e =>
        { e with ctr := updateCtr e.ctr taken }) :=
      (SameBranches.refl s).setEntry fun _ => ⟨rfl, rfl⟩
    split
    · exact hctr.setEntry fun _ => ⟨rfl, rfl⟩
    · exact hctr

private theorem trainProvider_other (s : Tage) {snap : TageSnap} (taken : Bool) {c : Nat}
    (hc : snap.provider ≠ some c) :
    (s.trainProvider snap taken).compTables c = s.compTables c := by
  unfold trainProvider
  cases hp : snap.provider with
  | none => rfl
  | some p =>
    have hne : c ≠ p := by
      rintro rfl
      exact hc hp
    have hset : ∀ (u : Tage) (f : TageEntry → TageEntry),
        (u.setEntry p snap.providerIdx f).compTables c = u.compTables c :=
      fun _ _ => Function.update_of_ne hne ..
    dsimp only
    split
    · rw [hset, hset]
    · exact hset ..

private theorem decay_keeps (s : Tage) (snap : TageSnap) : SameBranches s (s.decay T snap) := by
  have hfold : ∀ (l : List Nat) (u : Tage), SameBranches s u →
      SameBranches s (l.foldl (fun s i => s.setEntry i (snap.fidx i) fun e =>
        if e.valid && decide (0 < e.u) then { e with u := e.u - 1 } else e) u) := by
    intro l
    induction l with
    | nil => exact fun _ h => h
    | cons i l ih =>
      intro u h
      refine ih _ (h.setEntry fun e => ?_)
      split <;> exact ⟨rfl, rfl⟩
  exact hfold (above T snap) s (SameBranches.refl s)

private theorem decay_stats (s : Tage) (snap : TageSnap) :
    (s.decay T snap).stats = s.stats := by
  unfold decay
  generalize above T snap = l
  induction l generalizing s with
  | nil => rfl
  | cons i l ih => exact ih (s.setEntry i (snap.fidx i) _)

theorem mem_above {snap : TageSnap} {i : Nat} (h : i ∈ above T snap) :
    i < T.nComp ∧ ∀ q, snap.provider = some q → q < i := by
  unfold above at h
  cases hp : snap.provider with
  | none =>
    rw [hp, List.mem_range'_1] at h
    dsimp only at h
    exact ⟨by omega, fun q hq => by cases hq⟩
  | some p =>
    rw [hp, List.mem_range'_1] at h
    dsimp only at h
    refine ⟨by omega, fun q hq => ?_⟩
    rw [← Option.some.inj hq]
    omega

/-- The entry for the branch of `snap` in component `comp` is taken, and no other one. -/
structure Allocates (T : TageParams) (snap : TageSnap) (taken : Bool) (s s' : Tage) (comp : Nat) :
    Prop where
  wrong : snap.tageTaken ≠ taken
  comp_lt : comp < T.nComp
  longer : ∀ q, snap.provider = some q → q < comp ∧ T.histLen q ≤ T.histLen comp
  free : (s.entry snap comp).valid = false ∨ (s.entry snap comp).u = 0
  fresh : s'.entry snap comp = ⟨if taken then 0 else -1, 0, snap.ftag comp, true⟩
  others : ∀ c i, ¬(c = comp ∧ i = (snap.fidx comp).toNat) →
    (s'.compTables c i).valid = (s.compTables c i).valid ∧
      (s'.compTables c i).tag = (s.compTables c i).tag
  counted : s'.stats.allocations = s.stats.allocations + 1

private theorem allocateAbove_allocates (hT : T.Supported) {s u : Tage} {snap : TageSnap}
    {taken : Bool} (hkeep : SameBranches s u) (hstats : u.stats.allocations = s.stats.allocations)
    (hother : ∀ c, snap.provider ≠ some c → u.compTables c = s.compTables c)
    (hwrong : snap.tageTaken ≠ taken) :
    (SameBranches s (u.allocateAbove T snap taken) ∧
        (u.allocateAbove T snap taken).stats.allocations = s.stats.allocations) ∨
      ∃ comp, Allocates T snap taken s (u.allocateAbove T snap taken) comp := by
  unfold allocateAbove
  split
  · exact .inl ⟨hkeep, hstats⟩
  · cases hcand : u.candidate T snap with
    | none =>
      refine .inl ⟨fun c i => ?_, ?_⟩
      · obtain ⟨hv, ht⟩ := decay_keeps (T := T) u snap c i
        exact ⟨hv.trans (hkeep c i).1, ht.trans (hkeep c i).2⟩
      · exact (congrArg TageStats.allocations (decay_stats u snap)).trans hstats
    | some comp =>
      obtain ⟨hlt, hlonger⟩ := mem_above (List.mem_of_find?_eq_some hcand)
      have hfree := List.find?_some hcand
      have hne : snap.provider ≠ some comp := fun hp => Nat.lt_irrefl _ (hlonger comp hp)
      have hentry : u.entry snap comp = s.entry snap comp :=
        congrFun (hother comp hne) (snap.fidx comp).toNat
      rw [hentry, Bool.or_eq_true, Bool.not_eq_true', decide_eq_true_eq] at hfree
      have hset := setEntry_apply u comp (snap.fidx comp)
        (fun _ => ⟨if taken then 0 else -1, 0, snap.ftag comp, true⟩)
      refine .inr ⟨comp, hwrong, hlt, fun q hq => ⟨hlonger q hq, ?_⟩, hfree, ?_, ?_, ?_⟩
      · exact hT.histLen_mono (hlonger q hq).le hlt
      · exact (hset comp (snap.fidx comp).toNat).trans (if_pos ⟨rfl, rfl⟩)
      · intro c i hci
        dsimp only
        rw [hset, if_neg hci]
        exact hkeep c i
      · exact congrArg (· + 1) hstats

private theorem age_apply (s : Tage) (c i : Nat) :
    (s.age T).compTables c i = s.compTables c i ∨
      (s.age T).compTables c i = { s.compTables c i with u := (s.compTables c i).u / 2 } := by
  unfold age
  split
  · dsimp only
    split
    · exact .inr rfl
    · exact .inl rfl
  · exact .inl rfl

private theorem age_stats (s : Tage) : (s.age T).stats = s.stats := by
  unfold age
  split <;> rfl

private theorem SameBranches.age {s u : Tage} (h : SameBranches s u) :
    SameBranches s (u.age T) := by
  intro c i
  rcases age_apply (T := T) u c i with he | he
  · rw [he]
    exact h c i
  · rw [he]
    exact h c i

private theorem Allocates.age {s u : Tage} {snap : TageSnap} {taken : Bool} {comp : Nat}
    (h : Allocates T snap taken s u comp) : Allocates T snap taken s (u.age T) comp := by
  refine ⟨h.wrong, h.comp_lt, h.longer, h.free, ?_, fun c i hci => ?_, ?_⟩
  · have hu : u.compTables comp (snap.fidx comp).toNat =
        ⟨if taken then 0 else -1, 0, snap.ftag comp, true⟩ := h.fresh
    unfold entry
    rcases age_apply (T := T) u comp (snap.fidx comp).toNat with he | he
    · rw [he, hu]
    · rw [he, hu]
      simp only [Nat.zero_div]
  · rcases age_apply (T := T) u c i with he | he
    · rw [he]
      exact h.others c i hci
    · rw [he]
      exact h.others c i hci
  · rw [age_stats]
    exact h.counted

theorem train_allocates (hT : T.Supported) (s : Tage) (snap : TageSnap) (pc : Addr)
    (taken : Bool) :
    (SameBranches s (s.train T snap pc taken) ∧
        (s.train T snap pc taken).stats.allocations = s.stats.allocations) ∨
      ∃ comp, Allocates T snap taken s (s.train T snap pc taken) comp := by
  have hkeep : SameBranches s ((s.trainBase T pc taken).trainProvider snap taken) :=
    trainProvider_keeps (s.trainBase T pc taken) snap taken
  have hstats : ((s.trainBase T pc taken).trainProvider snap taken).stats = s.stats := by
    unfold trainProvider
    cases snap.provider with
    | none => rfl
    | some p =>
      dsimp only
      split <;> rfl
  have hother : ∀ c, snap.provider ≠ some c →
      ((s.trainBase T pc taken).trainProvider snap taken).compTables c = s.compTables c :=
    fun c hc => trainProvider_other (s.trainBase T pc taken) taken hc
  unfold train
  generalize (s.trainBase T pc taken).trainProvider snap taken = u at hkeep hstats hother
  unfold allocate
  by_cases hright : snap.tageTaken = taken
  · rw [if_pos hright]
    refine .inl ⟨hkeep.age, ?_⟩
    rw [age_stats, hstats]
  · rw [if_neg hright]
    generalize hv : { u with stats := { u.stats with allocTried := u.stats.allocTried + 1 } } = v
    have htables : v.compTables = u.compTables := by rw [← hv]
    have hcount : v.stats.allocations = s.stats.allocations := by rw [← hv, ← hstats]
    have hkeep' : SameBranches s v := by
      unfold SameBranches
      rw [htables]
      exact hkeep
    have hother' : ∀ c, snap.provider ≠ some c → v.compTables c = s.compTables c := by
      rw [htables]
      exact hother
    rcases allocateAbove_allocates hT hkeep' hcount hother' hright with h | ⟨comp, h⟩
    · refine .inl ⟨h.1.age, ?_⟩
      rw [age_stats]
      exact h.2
    · exact .inr ⟨comp, h.age⟩

/-- A snapshot in the ring that is waiting for its update is that of a prediction. -/
def Run.Stored (r : Run) : Prop :=
  ∀ k, (r.tage.snaps k).valid = true → ∃ p ∈ r.made, r.tage.snaps k = p.snap

theorem Run.Step.stored {r r' : Run} (hs : Run.Step T r r') (h : r.Stored) : r'.Stored := by
  cases hs with
  | predict pc target =>
    intro k hk
    change (Function.update r.tage.snaps (ringSlot r.tage.snapWrIdx) _ k).valid = true at hk
    change ∃ p ∈ r.made ++ [_], Function.update r.tage.snaps (ringSlot r.tage.snapWrIdx) _ k = _
    by_cases hslot : k = ringSlot r.tage.snapWrIdx
    · subst hslot
      exact ⟨_, List.mem_append_right _ (List.mem_singleton_self _), Function.update_self ..⟩
    · rw [Function.update_of_ne hslot] at hk ⊢
      obtain ⟨p, hp, he⟩ := h k hk
      exact ⟨p, List.mem_append_left _ hp, he⟩
  | onResolved taken pred =>
    have hsame : (r.tage.onResolved taken pred).snaps = r.tage.snaps := by
      unfold Tage.onResolved
      split
      · rfl
      · dsimp only
        split <;> rfl
    intro k hk
    change ∃ p ∈ r.made, (r.tage.onResolved taken pred).snaps k = p.snap
    change ((r.tage.onResolved taken pred).snaps k).valid = true at hk
    rw [hsame] at hk ⊢
    exact h k hk
  | update pc taken btbHit cnt id =>
    intro k hk
    change ((Tage.update T r.tage pc taken btbHit cnt id).snaps k).valid = true at hk
    change ∃ p ∈ r.made, (Tage.update T r.tage pc taken btbHit cnt id).snaps k = p.snap
    rcases update_snaps (T := T) r.tage pc taken btbHit cnt id k with he | he
    · rw [he] at hk ⊢
      exact h k hk
    · rw [he] at hk
      exact absurd hk Bool.false_ne_true
  | onMispred taken cnt id =>
    intro k hk
    change ((Tage.onMispred T r.tage taken cnt id).snaps k).valid = true at hk
    change ∃ p ∈ r.made, (Tage.onMispred T r.tage taken cnt id).snaps k = p.snap
    rw [(onMispred_snaps r.tage taken cnt id).1] at hk ⊢
    exact h k hk

theorem Run.Step.chosen {r r' : Run} (hs : Run.Step T r r') (h : ∀ p ∈ r.made, Chosen T p) :
    ∀ p ∈ r'.made, Chosen T p := by
  cases hs with
  | predict pc target =>
    intro p hp
    rcases List.mem_append.mp hp with hp | hp
    · exact h p hp
    · rw [List.mem_singleton.mp hp]
      exact takeSnap_chosen r.tage pc target _
  | onResolved taken pred => exact h
  | update pc taken btbHit cnt id => exact h
  | onMispred taken cnt id => exact h

/-- An `update` takes one entry at most, for a waiting snapshot with a wrong final prediction. -/
theorem update_allocates (hT : T.Supported) {r : Run} (h : r.Stored) (pc : Addr)
    (taken btbHit : Bool) (cnt : Nat) (id : BitVec 32) :
    (SameBranches r.tage (Tage.update T r.tage pc taken btbHit cnt id) ∧
        (Tage.update T r.tage pc taken btbHit cnt id).stats.allocations =
          r.tage.stats.allocations) ∨
      ∃ p ∈ r.made, r.tage.snaps (ringSlot id) = p.snap ∧
        ∃ comp, Allocates T p.snap taken r.tage (Tage.update T r.tage pc taken btbHit cnt id)
          comp := by
  unfold Tage.update
  split
  · exact .inl ⟨SameBranches.refl _, rfl⟩
  · dsimp only
    split
    · exact .inl ⟨SameBranches.refl _, rfl⟩
    · rename_i hvalid
      obtain ⟨p, hp, he⟩ := h (ringSlot id) (Bool.eq_true_of_not_eq_false fun hno =>
        hvalid (by rw [hno]; rfl))
      rcases train_allocates hT r.tage (r.tage.snaps (ringSlot id)) pc taken with
        ⟨hkeep, hcount⟩ | ⟨comp, ha⟩
      · exact .inl ⟨hkeep, hcount⟩
      · rw [he] at ha ⊢
        exact .inr ⟨p, hp, rfl, comp, ha.wrong, ha.comp_lt, ha.longer, ha.free, ha.fresh, ha.others,
          ha.counted⟩

/-- In any sequence of calls the counters, the indices and the history stay in their ranges, the
snapshots name the two longest matches, and an update takes one free entry above the provider at
most. -/
theorem tage_invariant (hT : T.Supported) {r : Run} (hr : r.Reachable T) :
    Sane T r.tage ∧
      (∀ pc, T.baseIndex pc < 2 ^ T.basePow2) ∧
      (∀ pc ghr, ∀ i < T.nComp, (T.compIdx pc ghr i).toNat < 2 ^ T.compPow2) ∧
      T.nComp ≤ TageParams.maxComp ∧ (∀ id, ringSlot id < snapRing) ∧ r.Stored ∧
      (∀ p ∈ r.made, Chosen T p ∧ Indexed T p.snap ∧
        ∀ a, p.snap.altProvider = some a → ∃ q, p.snap.provider = some q ∧ a < q) ∧
      ∀ pc taken btbHit cnt id,
        (SameBranches r.tage (Tage.update T r.tage pc taken btbHit cnt id) ∧
            (Tage.update T r.tage pc taken btbHit cnt id).stats.allocations =
              r.tage.stats.allocations) ∨
          ∃ p ∈ r.made, r.tage.snaps (ringSlot id) = p.snap ∧
            ∃ comp, Allocates T p.snap taken r.tage
              (Tage.update T r.tage pc taken btbHit cnt id) comp := by
  have hinv : Sane T r.tage ∧ r.Stored ∧ ∀ p ∈ r.made, Chosen T p := by
    induction hr with
    | refl => exact ⟨sane_init, fun k hk => absurd hk Bool.false_ne_true, fun p hp => by cases hp⟩
    | tail _ hstep ih => exact ⟨hstep.sane ih.1, hstep.stored ih.2.1, hstep.chosen ih.2.2⟩
  obtain ⟨hsane, hstored, hchosen⟩ := hinv
  have hpow : T.compPow2 < 32 := lt_of_le_of_lt hT.compPow2.2 (by decide)
  refine ⟨hsane, T.baseIndex_lt, fun pc ghr i _ => TageParams.compIdx_lt hpow pc ghr i,
    Nat.min_le_right _ _, fun id => Nat.mod_lt _ (by decide), hstored, fun p hp => ?_, ?_⟩
  · exact ⟨hchosen p hp, (hchosen p hp).indexed hT, fun a ha => (hchosen p hp).alt_lt ha⟩
  · exact fun pc taken btbHit cnt id => update_allocates hT hstored pc taken btbHit cnt id

private theorem default_supported : TageParams.Supported {} :=
  ⟨by decide, by decide, by decide, by decide, by decide⟩

private def Run.predicted (r : Run) (pc : Addr) : Run where
  tage := (predict {} r.tage pc 0).2
  made := r.made ++ [⟨r.tage, pc, 0,
    r.tage.takeSnap {} pc 0 (r.tage.snaps (ringSlot r.tage.snapWrIdx))⟩]

private def Run.updated (r : Run) (pc : Addr) (taken : Bool) (id : BitVec 32) : Run :=
  { r with tage := update {} r.tage pc taken false 0 id }

private def again : Run := ((Run.predicted {} 0x100).updated 0x100 true 0).predicted 0x100

/-- The first update has taken an entry of the shortest component. It provides for the second
prediction, which is wrong again, and the second update takes an entry above it. -/
theorem tage_invariant_again : ∃ r : Run, r.Reachable {} ∧ Sane {} r.tage ∧
    r.tage.stats.allocations = 1 ∧ ∃ p ∈ r.made, p.snap.provider = some 0 ∧ ∃ comp, 0 < comp ∧
      Allocates {} p.snap false r.tage (update {} r.tage 0x100 false false 0 1) comp := by
  have hr : again.Reachable {} :=
    ((Relation.ReflTransGen.refl.tail (.predict 0x100 0)).tail (.update 0x100 true false 0 0)).tail
      (.predict 0x100 0)
  obtain ⟨hsane, _, _, _, _, _, _, halloc⟩ := tage_invariant default_supported hr
  have hone : again.tage.stats.allocations = 1 := by decide +kernel
  refine ⟨again, hr, hsane, hone, ?_⟩
  rcases halloc 0x100 false false 0 1 with ⟨_, hcount⟩ | ⟨p, hp, hsnap, comp, ha⟩
  · rw [hone] at hcount
    exact absurd hcount (by decide +kernel)
  · have hprovider : p.snap.provider = some 0 := by
      rw [← hsnap]
      decide +kernel
    exact ⟨p, hp, hprovider, comp, (ha.longer 0 hprovider).1, ha⟩

end Tage

end NpSim.Branch
