/- digest: The SDRAM model computes what the history of accesses says: row outcomes, latencies and
   refreshes. -/

import Mathlib.Data.List.Induction
import NpSim.Mem.Sdram

set_option autoImplicit false
set_option relaxedAutoImplicit false

namespace NpSim.Mem

namespace Sdram

inductive RowOutcome | hit | miss | conflict
  deriving DecidableEq, Repr

def RowOutcome.extra : RowOutcome → Nat
  | .hit => 0
  | .miss => 3
  | .conflict => 4

/-- A multiple of the refresh period lies after `lo` and not after `hi`. -/
def RefreshIn (lo hi : Nat) : Prop := ∃ k, lo < k * refreshPeriod ∧ k * refreshPeriod ≤ hi

theorem refreshIn_iff {lo hi : Nat} :
    RefreshIn lo hi ↔ lo / refreshPeriod < hi / refreshPeriod := by
  constructor
  · rintro ⟨k, hlo, hhi⟩
    have h1 : lo / refreshPeriod < k := Nat.div_lt_of_lt_mul (by rwa [Nat.mul_comm])
    have h2 : k ≤ hi / refreshPeriod := (Nat.le_div_iff_mul_le (by decide)).mpr hhi
    omega
  · intro h
    refine ⟨hi / refreshPeriod, ?_, Nat.div_mul_le_self _ _⟩
    exact (Nat.div_lt_iff_lt_mul (by decide)).mp h

instance (lo hi : Nat) : Decidable (RefreshIn lo hi) := decidable_of_iff _ refreshIn_iff.symm

def Access.dev (ratio : Nat) (a : Access) : Nat := a.tick / ratio

/-- The last access of `past` by host `h` to bank `b`; `past` is newest first. -/
def lastAt (h b : Nat) (past : List Access) : Option Access :=
  past.find? fun p => p.host == h && p.bank == b

/-- What the access `a` finds in its row buffer after the accesses `past`. -/
def outcome (ratio : Nat) (past : List Access) (a : Access) : RowOutcome :=
  match lastAt a.host a.bank past with
  | none => .miss
  | some p =>
    if RefreshIn (p.dev ratio) (a.dev ratio) then .miss
    else if p.row = a.row then .hit
    else .conflict

/-- The device cycles of the access `a` after the accesses `past`. -/
def cycles (ratio : Nat) (past : List Access) (a : Access) : Nat :=
  2 * a.bstLen + (if a.isWrite then 0 else 2) + (outcome ratio past a).extra

/-- The device tick at which the last access of host `h` completes. -/
def freeAt (ratio : Nat) : List Access → Nat → Nat
  | [], _ => 0
  | a :: past, h =>
    if a.host = h then max (a.dev ratio) (freeAt ratio past h) + cycles ratio past a
    else freeAt ratio past h

theorem freeAt_self (ratio : Nat) (past : List Access) (a : Access) :
    freeAt ratio (a :: past) a.host =
      max (a.dev ratio) (freeAt ratio past a.host) + cycles ratio past a := if_pos rfl

def latency (ratio : Nat) (past : List Access) (a : Access) : Nat :=
  ratio * (max (a.dev ratio) (freeAt ratio past a.host) - a.dev ratio + cycles ratio past a)

def lastDev (ratio : Nat) : List Access → Nat
  | [] => 0
  | a :: _ => a.dev ratio

/-- The tick of `a` has 32 bits; its device ticks, those of its completion and of the refresh after
it, and its latency are values of type `int`. -/
structure Fits (ratio : Nat) (past : List Access) (a : Access) : Prop where
  tick : a.tick < 2 ^ 32
  free : freeAt ratio (a :: past) a.host < 2 ^ 31
  refresh : (a.dev ratio / refreshPeriod + 1) * refreshPeriod < 2 ^ 31
  latency : latency ratio past a < 2 ^ 31

/-- The model agrees with the accesses `past` made since the last reset. -/
structure Refines (ratio : Nat) (past : List Access) (m : SdramModel) : Prop where
  free : ∀ h, m.ctrlFreeAt h = (freeAt ratio past h : Nat)
  refresh : m.nextRefreshTick = ((lastDev ratio past / refreshPeriod + 1) * refreshPeriod : Nat)
  closed : ∀ h b, lastAt h b past = none → (m.banks h b).isOpen = false
  opened : ∀ h b p, lastAt h b past = some p → (m.banks h b).row = p.row ∧
    ((m.banks h b).isOpen = true ↔
      p.dev ratio / refreshPeriod = lastDev ratio past / refreshPeriod)
  count : m.rowHit + m.rowMiss + m.rowConf = past.length
  refreshes : m.refreshCount = lastDev ratio past / refreshPeriod
  newest : ∀ p ∈ past, p.dev ratio ≤ lastDev ratio past

theorem refines_init (ratio : Nat) : Refines ratio [] {} := by
  refine ⟨fun _ => rfl, ?_, fun _ _ _ => rfl, fun _ _ _ h => (by cases h), rfl, ?_,
    fun _ h => (by cases h)⟩
  · simp [lastDev]
  · simp [lastDev]

end Sdram

open Sdram

namespace SdramModel

variable {ratio : Nat} {past : List Access} {m : SdramModel} {a : Access}

theorem resetStats_refines (ratio : Nat) (m : SdramModel) : Refines ratio [] m.resetStats := by
  have h := refines_init ratio
  exact ⟨h.free, h.refresh, h.closed, h.opened, h.count, h.refreshes, h.newest⟩

/-- After the refresh check the next refresh is the first one after `d`, and a bank is open when it
was and no refresh has passed since the last access. -/
structure Checked (ratio : Nat) (past : List Access) (d : Nat) (m m' : SdramModel) : Prop where
  free : m'.ctrlFreeAt = m.ctrlFreeAt
  refresh : m'.nextRefreshTick = ((d / refreshPeriod + 1) * refreshPeriod : Nat)
  row : ∀ h b, (m'.banks h b).row = (m.banks h b).row
  isOpen : ∀ h b, (m'.banks h b).isOpen = true ↔
    (m.banks h b).isOpen = true ∧ lastDev ratio past / refreshPeriod = d / refreshPeriod
  rowHit : m'.rowHit = m.rowHit
  rowMiss : m'.rowMiss = m.rowMiss
  rowConf : m'.rowConf = m.rowConf
  refreshes : m'.refreshCount = d / refreshPeriod

theorem checkRefresh_checked {d : Nat} (h : Refines ratio past m) (hd : lastDev ratio past ≤ d)
    (hfit : (d / refreshPeriod + 1) * refreshPeriod < 2 ^ 31) :
    Checked ratio past d m (m.checkRefresh d) := by
  have hn := h.refresh
  have hr := h.refreshes
  obtain ⟨l, hl⟩ : ∃ l, lastDev ratio past = l := ⟨_, rfl⟩
  rw [hl] at hd hn hr
  unfold refreshPeriod at hfit hn
  unfold checkRefresh refreshPeriod
  split
  · rename_i hlt
    rw [hn] at hlt
    have hsame : l / 781 = d / 781 := by omega
    exact ⟨rfl, hn.trans (by rw [hsame]), fun _ _ => rfl, fun _ _ => by simp [hl, hsame], rfl, rfl,
      rfl, hr.trans hsame⟩
  · rename_i hge
    rw [hn] at hge ⊢
    have hne : l / 781 ≠ d / 781 := by omega
    have helapsed : (d : Int) - ((l / 781 + 1) * 781 : Nat) =
        ((d - (l / 781 + 1) * 781 : Nat) : Int) := by omega
    have hquot : ((d - (l / 781 + 1) * 781 : Nat) : Int).tdiv (781 : Nat) + 1 =
        ((d / 781 - l / 781 : Nat) : Int) := by
      have hdiv : (d - (l / 781 + 1) * 781) / 781 = d / 781 - (l / 781 + 1) := by omega
      rw [← Int.ofNat_tdiv, hdiv]
      omega
    have hsum : (((l / 781 + 1) * 781 : Nat) : Int) + (((d / 781 - l / 781) * 781 : Nat) : Int) =
        (((d / 781 + 1) * 781 : Nat) : Int) := by omega
    have hfit₁ : d - (l / 781 + 1) * 781 < 2 ^ 31 := by omega
    have hfit₂ : d / 781 - l / 781 < 2 ^ 31 := by omega
    have hfit₃ : (d / 781 - l / 781) * 781 < 2 ^ 31 :=
      lt_of_le_of_lt (Nat.mul_le_mul_right 781 (by omega)) hfit
    have hprod : ((d / 781 - l / 781 : Nat) : Int) * (781 : Nat) =
        ((d / 781 - l / 781) * 781 : Nat) := (Nat.cast_mul _ _).symm
    rw [helapsed, toInt_natCast hfit₁]
    dsimp only
    rw [hquot, toInt_natCast hfit₂, hprod, toInt_natCast hfit₃, hsum, toInt_natCast hfit]
    refine ⟨rfl, rfl, fun _ _ => rfl, fun _ _ => by simp [hl, hne], rfl, rfl, rfl, ?_⟩
    have hr' : m.refreshCount = l / 781 := hr
    change m.refreshCount + (d / 781 - l / 781) = d / 781
    omega

theorem Checked.noteStall {d : Nat} {m' : SdramModel} (h : Checked ratio past d m m') (x y : Int) :
    Checked ratio past d m (m'.noteStall x y) := by
  unfold SdramModel.noteStall
  split
  · exact ⟨h.free, h.refresh, h.row, h.isOpen, h.rowHit, h.rowMiss, h.rowConf, h.refreshes⟩
  · exact h

private theorem lastAt_cons (h b : Nat) (a : Access) (past : List Access) :
    lastAt h b (a :: past) =
      if a.host = h ∧ a.bank = b then some a else lastAt h b past := by
  unfold lastAt
  rw [List.find?_cons]
  by_cases hab : a.host = h ∧ a.bank = b
  · rw [if_pos hab]
    simp [hab]
  · rw [if_neg hab]
    have : (a.host == h && a.bank == b) = false := by
      simpa [Bool.and_eq_false_iff, ← not_and_or] using hab
    rw [this]

def counted (o : RowOutcome) (m : SdramModel) : SdramModel :=
  match o with
  | .hit => { m with rowHit := m.rowHit + 1 }
  | .miss => { m with rowMiss := m.rowMiss + 1 }
  | .conflict => { m with rowConf := m.rowConf + 1 }

@[simp] theorem counted_ctrlFreeAt (o : RowOutcome) (m : SdramModel) :
    (m.counted o).ctrlFreeAt = m.ctrlFreeAt := by cases o <;> rfl

@[simp] theorem counted_banks (o : RowOutcome) (m : SdramModel) :
    (m.counted o).banks = m.banks := by cases o <;> rfl

@[simp] theorem counted_nextRefreshTick (o : RowOutcome) (m : SdramModel) :
    (m.counted o).nextRefreshTick = m.nextRefreshTick := by cases o <;> rfl

@[simp] theorem counted_refreshCount (o : RowOutcome) (m : SdramModel) :
    (m.counted o).refreshCount = m.refreshCount := by cases o <;> rfl

theorem counted_total (o : RowOutcome) (m : SdramModel) :
    (m.counted o).rowHit + (m.counted o).rowMiss + (m.counted o).rowConf =
      m.rowHit + m.rowMiss + m.rowConf + 1 := by
  cases o <;> simp only [counted] <;> omega

theorem rowCheck_outcome {m' : SdramModel} (h : Refines ratio past m)
    (hd : lastDev ratio past ≤ a.dev ratio) (hc : Checked ratio past (a.dev ratio) m m') :
    m'.rowCheck a = ((outcome ratio past a).extra, m'.counted (outcome ratio past a)) := by
  have hopen := hc.isOpen a.host a.bank
  have hrow := hc.row a.host a.bank
  unfold rowCheck outcome
  dsimp only
  cases hlast : lastAt a.host a.bank past with
  | none =>
    have hclosed : (m'.banks a.host a.bank).isOpen = false := by
      rw [Bool.eq_false_iff]
      intro hx
      rw [h.closed _ _ hlast] at hopen
      exact absurd (hopen.mp hx).1 (by decide)
    simp [hclosed, RowOutcome.extra, counted, actCost, tRcd]
  | some p =>
    obtain ⟨hp, hpo⟩ := h.opened _ _ p hlast
    have hpl := h.newest p (List.mem_of_find?_eq_some hlast)
    have hiff : (m'.banks a.host a.bank).isOpen = true ↔
        ¬RefreshIn (p.dev ratio) (a.dev ratio) := by
      have h1 := Nat.div_le_div_right (c := refreshPeriod) hpl
      have h2 := Nat.div_le_div_right (c := refreshPeriod) hd
      rw [hopen, hpo, refreshIn_iff]
      omega
    by_cases hr : RefreshIn (p.dev ratio) (a.dev ratio)
    · have hclosed : (m'.banks a.host a.bank).isOpen = false := by
        rw [Bool.eq_false_iff]
        exact fun hx => hiff.mp hx hr
      simp [hclosed, hr, RowOutcome.extra, counted, actCost, tRcd]
    · have hopened := hiff.mpr hr
      rw [hp] at hrow
      by_cases hs : p.row = a.row
      · simp [hopened, hrow, hr, hs, RowOutcome.extra, counted]
      · simp [hopened, hrow, hr, hs, RowOutcome.extra, counted, actCost, preCost, tRcd]

theorem devTick_eq (hf : Fits ratio past a) : devTick ratio a.tick = (a.dev ratio : Nat) := by
  unfold devTick
  rw [Nat.mod_eq_of_lt hf.tick]
  have hr := hf.refresh
  unfold refreshPeriod at hr
  have hd : a.dev ratio < 2 ^ 31 := by omega
  exact toInt_natCast hd

private theorem devCyc_eq (hf : Fits ratio past a) :
    toInt (toInt (toInt ((perWord : Nat) * (a.bstLen : Int)) + (a.base : Nat)) +
      ((outcome ratio past a).extra : Nat)) = (cycles ratio past a : Nat) := by
  have hfree := hf.free
  rw [freeAt_self] at hfree
  have hbase : a.base = if a.isWrite then 0 else 2 := rfl
  have hcyc : cycles ratio past a =
      2 * a.bstLen + a.base + (outcome ratio past a).extra := rfl
  rw [hcyc] at hfree ⊢
  have hfit₁ : perWord * a.bstLen < 2 ^ 31 := by
    unfold perWord
    omega
  have hfit₂ : perWord * a.bstLen + a.base < 2 ^ 31 := by
    unfold perWord
    omega
  have hfit₃ : perWord * a.bstLen + a.base + (outcome ratio past a).extra < 2 ^ 31 := by
    unfold perWord
    omega
  rw [← Nat.cast_mul, toInt_natCast hfit₁, ← Nat.cast_add, toInt_natCast hfit₂, ← Nat.cast_add,
    toInt_natCast hfit₃]

theorem access_eq (h : Refines ratio past m) (hd : lastDev ratio past ≤ a.dev ratio)
    (hf : Fits ratio past a) :
    ∃ m', Checked ratio past (a.dev ratio) m m' ∧
      m.access ratio a = (latency ratio past a,
        { m'.counted (outcome ratio past a) with
          ctrlFreeAt := Function.update m'.ctrlFreeAt a.host
            (freeAt ratio (a :: past) a.host : Nat)
          banks := Function.update m'.banks a.host
            (Function.update (m'.banks a.host) a.bank { isOpen := true, row := a.row }) }) := by
  obtain ⟨f, hF⟩ : ∃ f, freeAt ratio past a.host = f := ⟨_, rfl⟩
  have hc := checkRefresh_checked h hd hf.refresh
  have hcyc := devCyc_eq hf
  have hfree := hf.free
  have hlat := hf.latency
  unfold latency at hlat
  rw [hF] at hlat
  rw [freeAt_self, hF] at hfree ⊢
  generalize hdev : a.dev ratio = d at *
  have hstart : max (d : Int) ((m.checkRefresh d).ctrlFreeAt a.host) = (max d f : Nat) := by
    rw [hc.free, h.free, hF]
    omega
  have hsum : toInt (((max d f : Nat) : Int) + (cycles ratio past a : Nat)) =
      (max d f + cycles ratio past a : Nat) := by
    rw [← Nat.cast_add, toInt_natCast hfree]
  have htotal : toInt (((max d f + cycles ratio past a : Nat) : Int) - d) =
      (max d f - d + cycles ratio past a : Nat) := by
    have hsub : (((max d f + cycles ratio past a : Nat) : Int) - d) =
        (max d f - d + cycles ratio past a : Nat) := by omega
    have hfit : max d f - d + cycles ratio past a < 2 ^ 31 :=
      lt_of_le_of_lt (Nat.add_le_add_right (Nat.sub_le _ _) _) hfree
    rw [hsub, toInt_natCast hfit]
  have hscale : (toInt (((max d f - d + cycles ratio past a : Nat) : Int) * ratio) %
      2 ^ 32).toNat = latency ratio past a := by
    unfold latency
    rw [← Nat.cast_mul, Nat.mul_comm, toInt_natCast hlat, hdev, hF]
    omega
  have hc' := hc.noteStall d (max d f : Nat)
  have hrow : ((m.checkRefresh d).noteStall d (max d f : Nat)).rowCheck a =
      ((outcome ratio past a).extra, ((m.checkRefresh d).noteStall d (max d f : Nat)).counted
        (outcome ratio past a)) := by
    subst hdev
    exact rowCheck_outcome h hd hc'
  refine ⟨_, hc', ?_⟩
  unfold access
  rw [devTick_eq hf, hdev]
  dsimp only
  rw [hstart, hrow]
  dsimp only
  rw [hcyc, hsum, htotal, hscale, counted_ctrlFreeAt, counted_banks]

private theorem banks_opened (m : SdramModel) (a : Access) {h b : Nat}
    (hne : ¬(a.host = h ∧ a.bank = b)) :
    Function.update m.banks a.host (Function.update (m.banks a.host) a.bank
      { isOpen := true, row := a.row }) h b = m.banks h b := by
  by_cases hh : h = a.host
  · subst hh
    have hb : b ≠ a.bank := fun e => hne ⟨rfl, e.symm⟩
    rw [Function.update_self, Function.update_of_ne hb]
  · rw [Function.update_of_ne hh]

/-- An access keeps the agreement. -/
theorem access_refines (h : Refines ratio past m) (hd : lastDev ratio past ≤ a.dev ratio)
    (hf : Fits ratio past a) : Refines ratio (a :: past) (m.access ratio a).2 := by
  obtain ⟨m', hc, heq⟩ := access_eq h hd hf
  rw [heq]
  refine ⟨fun x => ?_, ?_, fun x b hl => ?_, fun x b p hl => ?_, ?_, ?_, fun p hp => ?_⟩
  · change Function.update m'.ctrlFreeAt a.host _ x = _
    by_cases hx : x = a.host
    · rw [hx, Function.update_self]
    · rw [Function.update_of_ne hx, hc.free, h.free]
      have : freeAt ratio (a :: past) x = freeAt ratio past x := if_neg fun e => hx e.symm
      rw [this]
  · exact (counted_nextRefreshTick _ _).trans hc.refresh
  · rw [lastAt_cons] at hl
    split at hl
    · cases hl
    · rename_i hne
      dsimp only
      rw [banks_opened m' a hne, Bool.eq_false_iff]
      intro ho
      have := ((hc.isOpen x b).mp ho).1
      rw [h.closed x b hl] at this
      cases this
  · rw [lastAt_cons] at hl
    split at hl
    · rename_i heq
      cases hl
      obtain ⟨rfl, rfl⟩ := heq
      simp only [Function.update_self, true_and, lastDev]
    · rename_i hne
      obtain ⟨hrow, hopen⟩ := h.opened x b p hl
      have hp := h.newest p (List.mem_of_find?_eq_some hl)
      have h1 := Nat.div_le_div_right (c := refreshPeriod) hp
      have h2 := Nat.div_le_div_right (c := refreshPeriod) hd
      have hnew : lastDev ratio (a :: past) = a.dev ratio := rfl
      dsimp only
      rw [banks_opened m' a hne, hc.row, hrow, hc.isOpen, hopen, hnew]
      exact ⟨rfl, by omega⟩
  · have hcount := counted_total (outcome ratio past a) m'
    rw [hc.rowHit, hc.rowMiss, hc.rowConf, h.count] at hcount
    exact hcount
  · exact (counted_refreshCount _ _).trans hc.refreshes
  · rcases List.mem_cons.mp hp with rfl | hp
    · exact le_rfl
    · exact (h.newest p hp).trans hd

end SdramModel

namespace Sdram

inductive Call
  | access (a : Access)
  | reset
  deriving DecidableEq, Repr

def run (ratio : Nat) (calls : List Call) : SdramModel :=
  calls.foldl (fun m c => match c with
    | .access a => (m.access ratio a).2
    | .reset => m.resetStats) {}

/-- The accesses since the last reset, newest first. -/
def since (calls : List Call) : List Access :=
  calls.foldl (fun past c => match c with
    | .access a => a :: past
    | .reset => []) []

def Call.tick? : Call → Option Nat
  | .access a => some a.tick
  | .reset => none

/-- The ticks do not decrease, every burst has a word, and every access fits. -/
structure Legal (ratio : Nat) (calls : List Call) : Prop where
  sorted : (calls.filterMap Call.tick?).Pairwise (· ≤ ·)
  fits : ∀ pre a post, calls = pre ++ .access a :: post →
    1 ≤ a.bstLen ∧ Fits ratio (since pre) a

theorem Legal.front {ratio : Nat} {calls : List Call} {c : Call} (h : Legal ratio (calls ++ [c])) :
    Legal ratio calls := by
  constructor
  · have hs := h.sorted
    rw [List.filterMap_append] at hs
    exact (List.pairwise_append.mp hs).1
  · intro pre a post heq
    exact h.fits pre a (post ++ [c]) (by rw [heq, List.append_assoc]; rfl)

theorem since_append (calls : List Call) (c : Call) :
    since (calls ++ [c]) = match c with
      | .access a => a :: since calls
      | .reset => [] := by
  unfold since
  rw [List.foldl_append]
  rfl

private theorem run_append (ratio : Nat) (calls : List Call) (c : Call) :
    run ratio (calls ++ [c]) = match c with
      | .access a => ((run ratio calls).access ratio a).2
      | .reset => (run ratio calls).resetStats := by
  unfold run
  rw [List.foldl_append]
  rfl

private theorem mem_since {calls : List Call} {p : Access} (h : p ∈ since calls) :
    .access p ∈ calls := by
  induction calls using List.reverseRecOn with
  | nil => cases h
  | append_singleton calls c ih =>
    rw [since_append] at h
    cases c with
    | reset => cases h
    | access a =>
      rcases List.mem_cons.mp h with rfl | h
      · simp
      · exact List.mem_append_left _ (ih h)

theorem Legal.lastDev_le {ratio : Nat} {calls : List Call} {a : Access}
    (h : Legal ratio (calls ++ [.access a])) : lastDev ratio (since calls) ≤ a.dev ratio := by
  cases hs : since calls with
  | nil => exact Nat.zero_le _
  | cons p past =>
    have hp : .access p ∈ calls := mem_since (by rw [hs]; exact List.mem_cons_self)
    have ht := h.sorted
    rw [List.filterMap_append, List.pairwise_append] at ht
    have hle := ht.2.2 p.tick (List.mem_filterMap.mpr ⟨_, hp, rfl⟩) a.tick (by simp [Call.tick?])
    exact Nat.div_le_div_right hle

/-- The model agrees with the history after every legal sequence of calls. -/
theorem run_refines {ratio : Nat} {calls : List Call} (h : Legal ratio calls) :
    Refines ratio (since calls) (run ratio calls) := by
  induction calls using List.reverseRecOn with
  | nil => exact refines_init ratio
  | append_singleton calls c ih =>
    rw [since_append, run_append]
    cases c with
    | reset => exact (run ratio calls).resetStats_refines ratio
    | access a =>
      exact SdramModel.access_refines (ih h.front) h.lastDev_le (h.fits calls a [] rfl).2

/-- The row statistic that belongs to an outcome. -/
def RowOutcome.stat : RowOutcome → SdramModel → Nat
  | .hit => SdramModel.rowHit
  | .miss => SdramModel.rowMiss
  | .conflict => SdramModel.rowConf

private theorem stat_counted (o o' : RowOutcome) (m : SdramModel) :
    o.stat (m.counted o') = o.stat m + if o' = o then 1 else 0 := by
  cases o <;> cases o' <;> rfl

private theorem stat_checked {ratio d : Nat} {past : List Access} {m m' : SdramModel}
    (h : SdramModel.Checked ratio past d m m') (o : RowOutcome) : o.stat m' = o.stat m := by
  cases o with
  | hit => exact h.rowHit
  | miss => exact h.rowMiss
  | conflict => exact h.rowConf

theorem access_latency {ratio : Nat} {calls : List Call} {a : Access}
    (h : Legal ratio (calls ++ [.access a])) :
    ((run ratio calls).access ratio a).1 = latency ratio (since calls) a := by
  obtain ⟨m', _, heq⟩ :=
    SdramModel.access_eq (run_refines h.front) h.lastDev_le (h.fits calls a [] rfl).2
  rw [heq]

/-- The SDRAM model refines its definition by history: the latency of an access and the statistic it
counts are those the accesses since the last reset determine, the statistics add up to the number
of these accesses, and the refreshes to the periods that have passed. -/
theorem timing_refines {ratio : Nat} {calls : List Call} {a : Access}
    (h : Legal ratio (calls ++ [.access a])) :
    ((run ratio calls).access ratio a).1 = latency ratio (since calls) a ∧
    (∀ o, o.stat (run ratio (calls ++ [.access a])) =
      o.stat (run ratio calls) + if outcome ratio (since calls) a = o then 1 else 0) ∧
    (run ratio (calls ++ [.access a])).rowHit + (run ratio (calls ++ [.access a])).rowMiss +
      (run ratio (calls ++ [.access a])).rowConf = (since calls).length + 1 ∧
    (run ratio (calls ++ [.access a])).refreshCount = a.tick / ratio / refreshPeriod := by
  have hr := run_refines h.front
  have hr' := run_refines h
  obtain ⟨m', hc, heq⟩ := SdramModel.access_eq hr h.lastDev_le (h.fits calls a [] rfl).2
  refine ⟨access_latency h, fun o => ?_, ?_, ?_⟩
  · rw [run_append]
    dsimp only
    rw [heq, ← stat_checked hc, ← stat_counted]
    cases o <;> rfl
  · have hcount := hr'.count
    rw [since_append] at hcount
    exact hcount
  · have hcount := hr'.refreshes
    rw [since_append] at hcount
    exact hcount

theorem legal_nil (ratio : Nat) : Legal ratio [] :=
  ⟨.nil, fun pre a post h => absurd h (by simp)⟩

theorem split_concat {l pre post : List Call} {b c : Call}
    (heq : l ++ [c] = pre ++ b :: post) : pre = l ∧ b = c ∨ ∃ post', l = pre ++ b :: post' := by
  rcases List.eq_nil_or_concat post with rfl | ⟨post, d, rfl⟩
  · obtain ⟨rfl, hb⟩ := List.append_inj' heq rfl
    exact .inl ⟨rfl, (List.singleton_inj.mp hb).symm⟩
  · have hassoc : pre ++ b :: (post.concat d) = (pre ++ b :: post) ++ [d] := by simp
    rw [hassoc] at heq
    exact .inr ⟨post, (List.append_inj' heq rfl).1⟩

theorem Legal.snoc {ratio : Nat} {calls : List Call} {c : Call} (h : Legal ratio calls)
    (hc : ∀ a, c = .access a →
      1 ≤ a.bstLen ∧ (∀ t ∈ calls.filterMap Call.tick?, t ≤ a.tick) ∧ Fits ratio (since calls) a) :
    Legal ratio (calls ++ [c]) := by
  constructor
  · rw [List.filterMap_append, List.pairwise_append]
    refine ⟨h.sorted, ?_, fun t ht u hu => ?_⟩
    · cases c with
      | access a => exact List.pairwise_singleton _ _
      | reset => exact .nil
    · cases c with
      | access a =>
        rw [List.mem_singleton.mp hu]
        exact (hc a rfl).2.1 t ht
      | reset => cases hu
  · intro pre b post heq
    rcases split_concat heq with ⟨rfl, hb⟩ | ⟨post', hl⟩
    · have hfit := hc b hb.symm
      exact ⟨hfit.1, hfit.2.2⟩
    · exact h.fits pre b post' hl

def read4 (addr : Addr) (tick : Nat) : Access :=
  { addr := addr, bstLen := 4, isWrite := false, tick := tick, hostId := 0 }

private theorem Legal.read4 {calls : List Call} (h : Legal 10 calls) {addr : Addr} {t : Nat}
    (ht : ∀ u ∈ calls.filterMap Call.tick?, u ≤ t)
    (hf : Fits 10 (since calls) (read4 addr t)) : Legal 10 (calls ++ [.access (read4 addr t)]) :=
  h.snoc fun a ha => by
    cases ha
    exact ⟨Nat.succ_pos 3, ht, hf⟩

/-- A row miss, a hit behind it, and a miss after a refresh. -/
theorem timing_refines_refresh :
    ((run 10 [.access (read4 0x80000000 100), .access (read4 0x80000010 120)]).access 10
      (read4 0x80000020 7811)).1 = 130 ∧
    outcome 10 [read4 0x80000010 120, read4 0x80000000 100] (read4 0x80000020 7811) = .miss ∧
    (run 10 [.access (read4 0x80000000 100), .access (read4 0x80000010 120),
      .access (read4 0x80000020 7811)]).refreshCount = 1 := by
  have h₁ : Legal 10 [.access (read4 0x80000000 100)] :=
    (legal_nil 10).read4 (by decide) ⟨by decide, by decide, by decide, by decide⟩
  have h₂ : Legal 10 [.access (read4 0x80000000 100), .access (read4 0x80000010 120)] :=
    h₁.read4 (by decide) ⟨by decide, by decide, by decide, by decide⟩
  have h₃ : Legal 10 ([.access (read4 0x80000000 100), .access (read4 0x80000010 120)] ++
      [.access (read4 0x80000020 7811)]) :=
    h₂.read4 (by decide) ⟨by decide, by decide, by decide, by decide⟩
  obtain ⟨hlat, _, _, hrefresh⟩ := timing_refines h₃
  exact ⟨hlat, rfl, hrefresh⟩

end Sdram

end NpSim.Mem
