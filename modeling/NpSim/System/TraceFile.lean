/- digest: The trace file: packed records of 16 bytes, how they are written and how the reader gets
   them back. -/

import NpSim.Defines
import NpSim.Lib.Streams

set_option autoImplicit false
set_option relaxedAutoImplicit false

namespace NpSim

open NpSim.Lib

/-- `sizeof(TraceInst)` -/
abbrev TraceInst.size : Nat := 16

/-- The memory of a `TraceInst`. -/
structure RawInst where
  bytes : List UInt8
  length : bytes.length = TraceInst.size

/-- The fields of a record fit in their bytes. -/
def TraceInst.Packed (t : TraceInst) : Prop :=
  t.memOp < 256 ∧ t.dstReg < 256 ∧ t.srcReg0 < 256 ∧ t.srcReg1 < 256 ∧ t.sysOp < 256 ∧
    t.extOp < 256

instance (t : TraceInst) : Decidable t.Packed := inferInstanceAs (Decidable (_ ∧ _))

/-- The packed layout of a record, as `gen_trace` writes it. -/
def TraceInst.encode (t : TraceInst) : List UInt8 :=
  toBytes 4 t.pc.toNat ++ (toBytes 4 t.memAddr.toNat ++ (toBytes 1 t.memOp ++
    (toBytes 1 t.isBranch.toNat ++ (toBytes 1 t.brTaken.toNat ++ (toBytes 1 t.dstReg ++
      (toBytes 1 t.srcReg0 ++ (toBytes 1 t.srcReg1 ++ (toBytes 1 t.sysOp ++
        toBytes 1 t.extOp))))))))

def written (trace : List TraceInst) : List UInt8 := trace.flatMap TraceInst.encode

namespace RawInst

def field (r : RawInst) (i w : Nat) : Nat := ofBytes ((r.bytes.drop i).take w)

def decode (r : RawInst) : TraceInst where
  pc := BitVec.ofNat 32 (r.field 0 4)
  memAddr := BitVec.ofNat 32 (r.field 4 4)
  memOp := r.field 8 1
  isBranch := decide (r.field 9 1 ≠ 0)
  brTaken := decide (r.field 10 1 ≠ 0)
  dstReg := r.field 11 1
  srcReg0 := r.field 12 1
  srcReg1 := r.field 13 1
  sysOp := r.field 14 1
  extOp := r.field 15 1

end RawInst

namespace TraceReader

/-- `next`: one `fread` of a record. At the end of the file it gets less, which overwrites the front
of `inst` and is no record. -/
def next (file : List UInt8) (inst : RawInst) : Bool × RawInst × List UInt8 :=
  let got := file.take TraceInst.size
  (decide (got.length = TraceInst.size),
    { bytes := got ++ inst.bytes.drop got.length
      length := by
        have hi := inst.length
        have hg : got.length ≤ TraceInst.size := List.length_take_le ..
        rw [List.length_append, List.length_drop, hi]
        omega },
    file.drop TraceInst.size)

theorem next_fst {file : List UInt8} {inst : RawInst} :
    (next file inst).1 = true ↔ 16 ≤ file.length := by
  simp only [next, decide_eq_true_eq, List.length_take, TraceInst.size]
  omega

/-- The records a caller gets until `next` returns false. -/
def records (file : List UInt8) (inst : RawInst) : List TraceInst :=
  if _h : (next file inst).1 = true then
    (next file inst).2.1.decode :: records (next file inst).2.2 (next file inst).2.1
  else []
termination_by file.length
decreasing_by
  have hlen := next_fst.mp _h
  simp only [next, List.length_drop, TraceInst.size]
  omega

end TraceReader

namespace RawInst

theorem slice (r : RawInst) {i w : Nat} (h : i + w ≤ 16) (rest : List UInt8)
    (hr : rest = r.bytes.drop (i + w)) : toBytes w (r.field i w) ++ rest = r.bytes.drop i := by
  have hlen := r.length
  have htake : ((r.bytes.drop i).take w).length = w := by
    rw [List.length_take, List.length_drop, hlen, TraceInst.size]
    omega
  have hbytes := toBytes_ofBytes ((r.bytes.drop i).take w)
  rw [htake] at hbytes
  rw [field, hbytes, hr, ← List.drop_drop, List.take_append_drop]

private theorem byte_roundtrip {n : Nat} (h : n < 256) : ofBytes (toBytes 1 n) = n :=
  ofBytes_toBytes (by rwa [pow_one])

private theorem word_roundtrip (x : Addr) : BitVec.ofNat 32 (ofBytes (toBytes 4 x.toNat)) = x := by
  rw [ofBytes_toBytes (lt_of_lt_of_eq x.isLt (by norm_num))]
  exact (BitVec.ofNat_toNat 32 x).trans (BitVec.setWidth_eq x)

private theorem flag_roundtrip (b : Bool) : decide (ofBytes (toBytes 1 b.toNat) ≠ 0) = b := by
  cases b <;> decide

theorem decode_encode {t : TraceInst} (h : t.Packed) {r : RawInst} (hr : r.bytes = t.encode) :
    r.decode = t := by
  obtain ⟨hmem, hdst, hs0, hs1, hsys, hext⟩ := h
  have hpc : r.field 0 4 = ofBytes (toBytes 4 t.pc.toNat) := by
    rw [field, hr]
    rfl
  have haddr : r.field 4 4 = ofBytes (toBytes 4 t.memAddr.toNat) := by
    rw [field, hr]
    rfl
  have hbyte : ∀ i n, ((t.encode.drop i).take 1) = toBytes 1 n → n < 256 → r.field i 1 = n := by
    intro i n he hn
    rw [field, hr, he, byte_roundtrip hn]
  have hflag : ∀ i (b : Bool), ((t.encode.drop i).take 1) = toBytes 1 b.toNat →
      decide (r.field i 1 ≠ 0) = b := by
    intro i b he
    rw [field, hr, he, flag_roundtrip]
  rw [decode, hpc, haddr, word_roundtrip, word_roundtrip, hbyte 8 t.memOp rfl hmem,
    hflag 9 t.isBranch rfl, hflag 10 t.brTaken rfl, hbyte 11 t.dstReg rfl hdst,
    hbyte 12 t.srcReg0 rfl hs0, hbyte 13 t.srcReg1 rfl hs1, hbyte 14 t.sysOp rfl hsys,
    hbyte 15 t.extOp rfl hext]

/-- The flag bytes of the record are zero or one. -/
def Flagged (r : RawInst) : Prop := r.field 9 1 ≤ 1 ∧ r.field 10 1 ≤ 1

theorem encode_decode {r : RawInst} (h : r.Flagged) : r.decode.encode = r.bytes := by
  have hword : ∀ i, (BitVec.ofNat 32 (r.field i 4)).toNat = r.field i 4 := by
    intro i
    rw [BitVec.toNat_ofNat, Nat.mod_eq_of_lt]
    refine lt_of_lt_of_le (ofBytes_lt _) ?_
    exact (Nat.pow_le_pow_right (by decide) (List.length_take_le ..)).trans (by norm_num)
  have hflag : ∀ n : Nat, n ≤ 1 → (decide (n ≠ 0)).toNat = n := by
    intro n hn
    rcases Nat.le_one_iff_eq_zero_or_eq_one.mp hn with rfl | rfl <;> rfl
  simp only [TraceInst.encode, decode, hword, hflag _ h.1, hflag _ h.2]
  have hlast : toBytes 1 (r.field 15 1) = r.bytes.drop 15 := by
    have hs := r.slice (i := 15) (w := 1) (by decide) [] ?_
    · rwa [List.append_nil] at hs
    · rw [List.drop_of_length_le (by rw [r.length])]
  have h14 := r.slice (i := 14) (w := 1) (by decide) _ hlast
  have h13 := r.slice (i := 13) (w := 1) (by decide) _ h14
  have h12 := r.slice (i := 12) (w := 1) (by decide) _ h13
  have h11 := r.slice (i := 11) (w := 1) (by decide) _ h12
  have h10 := r.slice (i := 10) (w := 1) (by decide) _ h11
  have h9 := r.slice (i := 9) (w := 1) (by decide) _ h10
  have h8 := r.slice (i := 8) (w := 1) (by decide) _ h9
  have h4 := r.slice (i := 4) (w := 4) (by decide) _ h8
  exact r.slice (i := 0) (w := 4) (by decide) _ h4

end RawInst

theorem TraceInst.length_encode (t : TraceInst) : t.encode.length = 16 := rfl

namespace TraceReader

open RawInst

theorem next_whole {l : List UInt8} (h : l.length = 16) (rest : List UInt8) (inst : RawInst) :
    (next (l ++ rest) inst).1 = true ∧ (next (l ++ rest) inst).2.1.bytes = l ∧
      (next (l ++ rest) inst).2.2 = rest := by
  have ht : (l ++ rest).take TraceInst.size = l := by
    rw [TraceInst.size, ← h, List.take_left]
  refine ⟨next_fst.mpr (by rw [List.length_append]; omega), ?_, ?_⟩
  · simp only [next, ht]
    rw [List.drop_of_length_le (by rw [inst.length, h]), List.append_nil]
  · simp only [next]
    rw [TraceInst.size, ← h, List.drop_left]

/-- A failed read of less than 15 bytes leaves `sys_op` as it was. -/
theorem next_short {file : List UInt8} (h : file.length < 15) (inst : RawInst) :
    (next file inst).1 = false ∧ (next file inst).2.1.decode.sysOp = inst.decode.sysOp := by
  refine ⟨?_, ?_⟩
  · rw [← Bool.not_eq_true, next_fst]
    omega
  · have ht : file.take TraceInst.size = file := List.take_of_length_le (by
      rw [TraceInst.size]
      omega)
    simp only [decode, field, next, ht]
    have hd : (file ++ inst.bytes.drop file.length).drop 14 = inst.bytes.drop 14 := by
      rw [List.drop_append, List.drop_of_length_le (by omega), List.nil_append, List.drop_drop]
      congr 1
      omega
    rw [hd]

/-- The reader gets back what was written, whatever partial record follows. -/
theorem records_written {trace : List TraceInst} (h : ∀ t ∈ trace, t.Packed) {rest : List UInt8}
    (hrest : rest.length < 16) (inst : RawInst) : records (written trace ++ rest) inst = trace := by
  induction trace generalizing inst with
  | nil =>
    rw [records, dif_neg]
    rw [next_fst]
    exact not_le.mpr hrest
  | cons t ts ih =>
    have he : written (t :: ts) ++ rest = t.encode ++ (written ts ++ rest) := by
      rw [written, List.flatMap_cons, List.append_assoc]
      rfl
    obtain ⟨hok, hbytes, hnext⟩ := next_whole t.length_encode (written ts ++ rest) inst
    rw [he, records, dif_pos hok, hnext, decode_encode (h t List.mem_cons_self) hbytes,
      ih fun u hu => h u (List.mem_cons_of_mem t hu)]

/-- The flag bytes of the whole records of a file are zero or one. -/
def Flagged (file : List UInt8) : Prop :=
  ∀ k, 16 * k + 16 ≤ file.length →
    (file.getD (16 * k + 9) 0).toNat ≤ 1 ∧ (file.getD (16 * k + 10) 0).toNat ≤ 1

private theorem ofBytes_one (l : List UInt8) (i : Nat) :
    ofBytes ((l.drop i).take 1) = (l.getD i 0).toNat := by
  by_cases h : i < l.length
  · rw [List.drop_eq_getElem_cons h, List.take_succ_cons, List.take_zero, ofBytes, ofBytes,
      List.getD_eq_getElem?_getD, List.getElem?_eq_getElem h]
    rfl
  · rw [List.drop_of_length_le (not_lt.mp h), List.getD_eq_getElem?_getD,
      List.getElem?_eq_none (not_lt.mp h)]
    rfl

private theorem Flagged.tail {file : List UInt8} (h : Flagged file) : Flagged (file.drop 16) := by
  intro k hk
  rw [List.length_drop] at hk
  have hget : ∀ j, (file.drop 16).getD j 0 = file.getD (16 + j) 0 := by
    intro j
    rw [List.getD_eq_getElem?_getD, List.getElem?_drop, List.getD_eq_getElem?_getD]
  have hnext := h (k + 1) (by omega)
  rw [hget, hget]
  rwa [show 16 + (16 * k + 9) = 16 * (k + 1) + 9 by ring,
    show 16 + (16 * k + 10) = 16 * (k + 1) + 10 by ring]

private theorem Flagged.head {file : List UInt8} (h : Flagged file) (hlen : 16 ≤ file.length)
    {r : RawInst} (hr : r.bytes = file.take 16) : r.Flagged := by
  have hget : ∀ j, j < 16 → (file.take 16).getD j 0 = file.getD j 0 := by
    intro j hj
    rw [List.getD_eq_getElem?_getD, List.getElem?_take_of_lt hj, List.getD_eq_getElem?_getD]
  have h0 := h 0 (by omega)
  rw [RawInst.Flagged, field, field, ofBytes_one, ofBytes_one, hr, hget 9 (by decide),
    hget 10 (by decide)]
  exact h0

/-- What was read, written again, is the file up to its last whole record. -/
theorem written_records (file : List UInt8) (inst : RawInst) :
    (records file inst).length = file.length / 16 ∧
    (Flagged file → written (records file inst) = file.take (16 * (file.length / 16))) := by
  induction file, inst using records.induct with
  | case1 file inst hok ih =>
    have hlen := next_fst.mp hok
    have hf : file = file.take 16 ++ file.drop 16 := (List.take_append_drop 16 file).symm
    have htl : (file.take 16).length = 16 := List.length_take_of_le hlen
    obtain ⟨_, hbytes, hnext⟩ := next_whole htl (file.drop 16) inst
    rw [← hf] at hbytes hnext
    rw [hnext] at ih
    have hdiv : file.length / 16 = (file.drop 16).length / 16 + 1 := by
      rw [List.length_drop]
      omega
    rw [records, dif_pos hok, hnext]
    refine ⟨by rw [List.length_cons, ih.1, hdiv], fun hflag => ?_⟩
    have henc := encode_decode (hflag.head hlen hbytes)
    rw [written, List.flatMap_cons, henc, hbytes, hdiv, Nat.mul_succ, Nat.add_comm, List.take_add,
      ← ih.2 hflag.tail]
    rfl
  | case2 file inst hok =>
    have hlen := next_fst.not.mp hok
    rw [records, dif_neg hok, Nat.div_eq_of_lt (not_le.mp hlen)]
    exact ⟨rfl, fun _ => rfl⟩

/-- The reader and the writer undo each other: a written trace is read back whole, whatever partial
record follows it; and a file with proper flag bytes is, up to its last whole record, what one would
write for the records read from it. A partial record of less than 15 bytes does not reach the
`sys_op` of the last record. -/
theorem reader_writer :
    (∀ (trace : List TraceInst) (rest : List UInt8) (inst : RawInst), (∀ t ∈ trace, t.Packed) →
      rest.length < 16 → records (written trace ++ rest) inst = trace) ∧
    (∀ (file : List UInt8) (inst : RawInst), (records file inst).length = file.length / 16 ∧
      (Flagged file → written (records file inst) = file.take (16 * (file.length / 16)))) ∧
    ∀ (file : List UInt8) (inst : RawInst), file.length < 15 → (next file inst).1 = false ∧
      (next file inst).2.1.decode.sysOp = inst.decode.sysOp :=
  ⟨fun _ _ inst h hrest => records_written h hrest inst, written_records,
    fun _ inst h => next_short h inst⟩

def blank : RawInst := ⟨List.replicate 16 0, rfl⟩

def loadAndDump : List TraceInst :=
  [{ pc := 0x1004, memAddr := 0x2000, memOp := Trace.MemLoad, dstReg := 4 },
    { pc := 0x1018, sysOp := Trace.SysDumpStats }]

/-- The two records, followed by three bytes: they are read back, what was read is written as the
file without its tail, and the tail leaves a dump marker as it is. -/
theorem reader_writer_tail :
    let file := written loadAndDump ++ [0x1c, 0x10, 0]
    records file blank = loadAndDump ∧ written (records file blank) = file.take 32 ∧
      ∀ inst : RawInst, inst.decode = { pc := 0x1018, sysOp := Trace.SysDumpStats } →
        (next (file.drop 32) inst).1 = false ∧
          (next (file.drop 32) inst).2.1.decode.sysOp = Trace.SysDumpStats := by
  intro file
  obtain ⟨hread, hwrite, hshort⟩ := reader_writer
  have hlen : file.length = 35 := rfl
  have hflag : Flagged file := by
    intro k hk
    obtain rfl | rfl : k = 0 ∨ k = 1 := by omega
    · decide
    · decide
  have hback := (hwrite file blank).2 hflag
  rw [hlen] at hback
  refine ⟨hread _ _ blank (by decide) (by decide), hback, fun inst hi => ?_⟩
  obtain ⟨hend, hkept⟩ := hshort (file.drop 32) inst (by decide)
  exact ⟨hend, hkept.trans (by rw [hi])⟩

end TraceReader

end NpSim
