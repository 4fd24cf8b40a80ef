/- digest: The folding of the branch history: which history bits meet in which result bit. -/

import NpSim.Branch.Tage
import NpSim.Lib.Xor

set_option autoImplicit false
set_option relaxedAutoImplicit false

namespace NpSim.Branch

open NpSim.Lib.Xor

/-- The exclusive or of the bits `i < histLen` of the history that belong to result bit `j`. -/
def foldedBit (ghr : BitVec 64) (histLen outBits j : Nat) : Bool :=
  xorAll (((List.range histLen).filter (· % outBits = j)).map ghr.getLsbD)

theorem foldedBit_congr {g g' : BitVec 64} {histLen : Nat}
    (h : ∀ i < histLen, g'.getLsbD i = g.getLsbD i) (outBits j : Nat) :
    foldedBit g' histLen outBits j = foldedBit g histLen outBits j := by
  unfold foldedBit
  congr 1
  exact List.map_congr_left fun i hi => h i (List.mem_range.mp (List.mem_filter.mp hi).1)

private theorem foldLoop_bit {outMask : BitVec 32} {outBits : Nat}
    (hm : ∀ j, outMask.getLsbD j = decide (j < outBits)) (hb : outBits < 32) (fuel : Nat)
    (ghr : BitVec 64) (result : BitVec 32) (j : Nat) :
    (foldLoop outMask outBits fuel ghr result).getLsbD j = (result.getLsbD j ^^
      (decide (j < outBits) &&
        xorAll ((List.range fuel).map fun k => ghr.getLsbD (j + outBits * k)))) := by
  induction fuel generalizing ghr result with
  | zero =>
    change result.getLsbD j = (result.getLsbD j ^^ (decide (j < outBits) && false))
    rw [Bool.and_false, Bool.xor_false]
  | succ fuel ih =>
    rw [foldLoop]
    split
    · rename_i hzero
      subst hzero
      rw [xorAll_eq_false, Bool.and_false, Bool.xor_false]
      intro x hx
      obtain ⟨k, _, rfl⟩ := List.mem_map.mp hx
      exact BitVec.getLsbD_zero
    · rw [ih, BitVec.getLsbD_xor, BitVec.getLsbD_and, hm, BitVec.getLsbD_setWidth,
        List.range_succ_eq_map, List.map_cons, xorAll_cons, List.map_map]
      have hshift : (fun k => (ghr >>> outBits).getLsbD (j + outBits * k)) =
          (fun k => ghr.getLsbD (j + outBits * k)) ∘ Nat.succ := by
        funext k
        rw [BitVec.getLsbD_ushiftRight]
        change _ = ghr.getLsbD (j + outBits * (k + 1))
        congr 1
        rw [Nat.mul_succ]
        omega
      rw [hshift, Bool.xor_assoc, Nat.mul_zero, Nat.add_zero]
      congr 1
      by_cases hj : j < outBits
      · rw [decide_eq_true hj, decide_eq_true (by omega : j < 32), Bool.true_and, Bool.true_and,
          Bool.true_and, Bool.and_true]
      · rw [decide_eq_false hj, Bool.and_false, Bool.false_and, Bool.false_and, Bool.false_xor]

private theorem xorAll_extend {p f : Nat → Bool} {n N : Nat} (hn : n ≤ N)
    (hf : ∀ i, n ≤ i → f i = false) :
    xorAll (((List.range N).filter p).map f) = xorAll (((List.range n).filter p).map f) := by
  obtain ⟨d, rfl⟩ := Nat.exists_eq_add_of_le hn
  rw [List.range_add, List.filter_append, List.map_append, xorAll_append]
  have hrest : xorAll ((((List.range d).map (n + ·)).filter p).map f) = false := by
    refine xorAll_eq_false fun x hx => ?_
    obtain ⟨i, hi, rfl⟩ := List.mem_map.mp hx
    obtain ⟨k, _, rfl⟩ := List.mem_map.mp (List.mem_filter.mp hi).1
    exact hf _ (Nat.le_add_right n k)
  rw [hrest, Bool.xor_false]

/-- The bits of the history that `fold_ghr` keeps: at length 63 its mask lets bit 63 through. -/
private theorem masked_bit (ghr : BitVec 64) {histLen : Nat} (h64 : histLen ≤ 64) (i : Nat) :
    (ghr &&& (if (if 64 ≤ histLen then 63 else histLen) < 63 then
        (1#64 <<< (if 64 ≤ histLen then 63 else histLen)) - 1#64 else
        BitVec.allOnes 64)).getLsbD i =
      (decide (i < histLen ∨ histLen = 63) && ghr.getLsbD i) := by
  rw [BitVec.getLsbD_and]
  by_cases hlow : histLen < 63
  · rw [if_neg (by omega : ¬64 ≤ histLen), if_pos hlow, getLsbD_mask (by omega), Bool.and_comm]
    congr 1
    rw [decide_eq_decide]
    omega
  · have hcap : ¬(if 64 ≤ histLen then 63 else histLen) < 63 := by
      split <;> omega
    rw [if_neg hcap, BitVec.getLsbD_allOnes]
    by_cases hi : i < 64
    · rw [decide_eq_true hi, Bool.and_true, decide_eq_true (by omega), Bool.true_and]
    · rw [BitVec.getLsbD_of_ge ghr i (by omega), Bool.false_and, Bool.and_false]

/-- A result bit, for every history. At length 63 it has bit 63 of the history besides. -/
theorem foldGhr_bit (ghr : BitVec 64) {histLen outBits : Nat} (h64 : histLen ≤ 64)
    (hb : outBits < 32) (j : Nat) :
    (foldGhr ghr histLen outBits).getLsbD j = (decide (j < outBits) &&
      (foldedBit ghr histLen outBits j ^^
        (decide (histLen = 63 ∧ 63 % outBits = j) && ghr.getLsbD 63))) := by
  have hmask : ∀ j, ((1#32 <<< outBits) - 1#32).getLsbD j = decide (j < outBits) :=
    getLsbD_mask hb
  have hkept := masked_bit ghr h64
  unfold foldGhr
  dsimp only
  generalize (ghr &&& _) = kept at hkept ⊢
  rw [if_pos hb, BitVec.getLsbD_and, hmask, foldLoop_bit hmask hb,
    show BitVec.getLsbD 0 j = false from BitVec.getLsbD_zero, Bool.false_xor]
  by_cases hj : j < outBits
  · have hrounds : (List.range 64).map (fun k => kept.getLsbD (j + outBits * k)) =
        ((List.range (outBits * 64)).filter (· % outBits = j)).map kept.getLsbD := by
      rw [filter_mod_range hj, List.map_map]
      rfl
    rw [decide_eq_true hj, Bool.true_and, Bool.and_true, Bool.true_and, hrounds,
      xorAll_extend (n := 64) (by omega) fun i hi => BitVec.getLsbD_of_ge kept i hi]
    unfold foldedBit
    by_cases h63 : histLen = 63
    · subst h63
      have hsame : kept.getLsbD = ghr.getLsbD := by
        funext i
        rw [hkept, decide_eq_true (.inr rfl), Bool.true_and]
      rw [hsame, List.range_succ, List.filter_append, List.map_append, xorAll_append]
      congr 1
      by_cases hr : 63 % outBits = j
      · rw [decide_eq_true ⟨rfl, hr⟩, Bool.true_and, List.filter_cons, if_pos (decide_eq_true hr)]
        exact Bool.xor_false _
      · rw [decide_eq_false fun h => hr h.2, Bool.false_and, List.filter_cons,
          if_neg (by rw [decide_eq_true_eq]; exact hr)]
        rfl
    · rw [decide_eq_false fun h => h63 h.1, Bool.false_and, Bool.xor_false,
        xorAll_extend h64 fun i hi => ?_]
      · congr 1
        refine List.map_congr_left fun i hi => ?_
        have hlt := List.mem_range.mp (List.mem_filter.mp hi).1
        rw [hkept, decide_eq_true (.inl hlt), Bool.true_and]
      · rw [hkept, decide_eq_false (by omega), Bool.false_and]
  · rw [decide_eq_false hj, Bool.false_and, Bool.false_and, Bool.false_and]

/-- The loop of `fold_ghr` ends, and its result folds the low `histLen` bits of the history, unless
the length is 63 and bit 63 is set. The result depends on the low `histLen` bits only, unless the
length is 63. -/
theorem fold_ghr_law (ghr : BitVec 64) (histLen outBits : Nat)
    (hl : 1 ≤ histLen ∧ histLen ≤ 64) (hb : 1 ≤ outBits ∧ outBits ≤ 31) :
    (∀ (outMask : BitVec 32) (rounds : Nat) (g : BitVec 64) (result : BitVec 32),
        foldLoop outMask outBits (64 + rounds) g result = foldLoop outMask outBits 64 g result) ∧
      ((∀ j, (foldGhr ghr histLen outBits).getLsbD j =
          (decide (j < outBits) && foldedBit ghr histLen outBits j)) ↔
        ¬(histLen = 63 ∧ ghr.getLsbD 63 = true)) ∧
      ((∀ ghr', (∀ i < histLen, ghr'.getLsbD i = ghr.getLsbD i) →
          foldGhr ghr' histLen outBits = foldGhr ghr histLen outBits) ↔ histLen ≠ 63) := by
  have hbit := fun g => foldGhr_bit g hl.2 (by omega : outBits < 32)
  have hlt : 63 % outBits < outBits := Nat.mod_lt _ hb.1
  refine ⟨fun outMask n g result => foldLoop_fuel hb.1 n g result, ⟨?_, fun hno j => ?_⟩,
    ⟨?_, fun h63 g hlow => ?_⟩⟩
  · rintro hall ⟨h63, hset⟩
    have hx := hall (63 % outBits)
    rw [hbit, decide_eq_true hlt, decide_eq_true ⟨h63, rfl⟩, hset, Bool.true_and, Bool.true_and,
      Bool.true_and, Bool.xor_true] at hx
    exact absurd hx (by cases foldedBit ghr histLen outBits (63 % outBits) <;> decide)
  · rw [hbit]
    congr 1
    have hzero : (decide (histLen = 63 ∧ 63 % outBits = j) && ghr.getLsbD 63) = false := by
      by_cases h63 : histLen = 63
      · rw [Bool.eq_false_of_not_eq_true fun hset => hno ⟨h63, hset⟩, Bool.and_false]
      · rw [decide_eq_false fun h => h63 h.1, Bool.false_and]
    rw [hzero, Bool.xor_false]
  · rintro hall rfl
    -- the history with bit 63 flipped
    have hflip : ∀ i, (ghr ^^^ BitVec.twoPow 64 63).getLsbD i =
        (ghr.getLsbD i ^^ decide (63 = i)) := by
      intro i
      rw [BitVec.getLsbD_xor, BitVec.getLsbD_twoPow, decide_eq_true (by decide : 63 < 64),
        Bool.true_and]
    have hlow : ∀ i < 63, (ghr ^^^ BitVec.twoPow 64 63).getLsbD i = ghr.getLsbD i := by
      intro i hi
      rw [hflip, decide_eq_false (by omega), Bool.xor_false]
    have hx := congrArg (·.getLsbD (63 % outBits)) (hall _ hlow)
    rw [hbit, hbit, decide_eq_true hlt, decide_eq_true ⟨rfl, rfl⟩, Bool.true_and, Bool.true_and,
      Bool.true_and, Bool.true_and, foldedBit_congr hlow, hflip, decide_eq_true rfl] at hx
    refine absurd hx ?_
    cases foldedBit ghr 63 outBits (63 % outBits) <;> cases ghr.getLsbD 63 <;> decide
  · have hplain : ∀ g j, (foldGhr g histLen outBits).getLsbD j =
        (decide (j < outBits) && foldedBit g histLen outBits j) := by
      intro g j
      rw [hbit, decide_eq_false fun h : histLen = 63 ∧ 63 % outBits = j => h63 h.1,
        Bool.false_and, Bool.xor_false]
    apply BitVec.eq_of_getLsbD_eq
    intro j _
    rw [hplain, hplain, foldedBit_congr hlow]

/-- The default lengths and tables: a history of 8 bits in 7 index bits. -/
theorem fold_ghr_law_short : (foldGhr 0x85#64 8 7).getLsbD 2 = true ∧
    foldGhr 0x185#64 8 7 = foldGhr 0x85#64 8 7 := by
  obtain ⟨_, hlaw, hdep⟩ := fold_ghr_law 0x85#64 8 7 (by decide) (by decide)
  exact ⟨(hlaw.mpr (by decide) 2).trans (by decide), hdep.mpr (by decide) _ (by decide)⟩

/-- At length 63 bit 63 of the history shows in the result, although no bit below it is set. -/
theorem fold_ghr_bit63 : (foldGhr (1#64 <<< 63) 63 8).getLsbD 7 = true ∧
    foldedBit (1#64 <<< 63) 63 8 7 = false ∧ foldGhr 0 63 8 = 0 := by decide +kernel

end NpSim.Branch
