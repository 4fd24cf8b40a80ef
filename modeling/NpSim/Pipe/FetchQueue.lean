/- digest: The ring buffer of the fetch queue against the bounded queue that the pipeline works
   with. -/

import NpSim.Lib.BoundedQueue
import NpSim.Pipe.Steps

set_option autoImplicit false
set_option relaxedAutoImplicit false

namespace NpSim.Pipe

open NpSim.Lib NpSim.Lib.Partial

/-- A pointer to a transaction, or null. -/
abbrev TransPtr := Option Transaction

/-- `IFQRingBuf`. A reference to a slot is its index in `buf`. No vector is long enough for an index
sum to leave the range of `size_t`. -/
structure IFQRingBuf where
  buf : List TransPtr
  cap : Nat
  head : Nat := 0
  tail : Nat := 0
  cnt : Nat := 0
  deriving DecidableEq

namespace IFQRingBuf

def ofCap (cap : Nat) : IFQRingBuf := { buf := List.replicate cap none, cap := cap }

def empty (b : IFQRingBuf) : Bool := b.cnt == 0

def full (b : IFQRingBuf) : Bool := decide (b.cap ≤ b.cnt)

def size (b : IFQRingBuf) : Nat := b.cnt

def load (r : Nat) (b : IFQRingBuf) : TransPtr := b.buf[r]?.join

def store (r : Nat) (p : TransPtr) (b : IFQRingBuf) : IFQRingBuf := { b with buf := b.buf.set r p }

def pushBack (p : TransPtr) (b : IFQRingBuf) : Except Fault IFQRingBuf := do
  require (b.full = false) .queueFull
  .ok { b.store b.tail p with tail := (b.tail + 1) % b.cap, cnt := b.cnt + 1 }

def front (b : IFQRingBuf) : Except Fault Nat := do
  require (b.empty = false) .queueEmpty
  .ok b.head

def popFront (b : IFQRingBuf) : Except Fault IFQRingBuf := do
  require (b.empty = false) .queueEmpty
  .ok { b.store b.head none with head := (b.head + 1) % b.cap, cnt := b.cnt - 1 }

/-- `at` -/
def slotAt (i : Nat) (b : IFQRingBuf) : Nat := (b.head + i) % b.cap

def clear (b : IFQRingBuf) : IFQRingBuf :=
  { b with
    buf := (List.range b.cnt).foldl (fun l i => l.set (b.slotAt i) none) b.buf
    head := 0
    tail := 0
    cnt := 0 }

def findIfPtr (pred : TransPtr → Bool) (b : IFQRingBuf) : Option Nat :=
  ((List.range b.cnt).find? fun i => pred (b.load (b.slotAt i))).map fun i => b.slotAt i

/-- The end of `do_fetch_1`: the front is moved out, which leaves null, and popped. -/
def moveFront (b : IFQRingBuf) : Except Fault (TransPtr × IFQRingBuf) := do
  let r ← b.front
  let d ← (b.store r none).popFront
  .ok (b.load r, d)

/-- The loop of a flush over `fetch_queue_.at(i)`: the entries that are counted as in flight. -/
def countInflight (b : IFQRingBuf) : Nat :=
  (List.range b.size).countP fun i => (b.load (b.slotAt i)).any (·.countedInflight)

/-- The calls of the pipeline on its fetch queue. The last two write to the transaction of the front
and to that of the entry found. -/
inductive Call
  | pushBack (x : Transaction)
  | popFront
  | moveFront
  | readAt (i : Nat)
  | findIfPtr (pred : TransPtr → Bool)
  | clear
  | writeFront (f : Transaction → Transaction)
  | writeFound (pred : TransPtr → Bool) (f : Transaction → Transaction)

/-- A call, and the pointer that it returns or refers to. -/
def perform (b : IFQRingBuf) : Call → Except Fault (TransPtr × IFQRingBuf)
  | .pushBack x => do
    let d ← b.pushBack (some x)
    .ok (none, d)
  | .popFront => do
    let d ← b.popFront
    .ok (none, d)
  | .moveFront => b.moveFront
  | .readAt i => .ok (b.load (b.slotAt i), b)
  | .findIfPtr pred => .ok ((b.findIfPtr pred).bind fun r => b.load r, b)
  | .clear => .ok (none, b.clear)
  | .writeFront f => do
    let r ← b.front
    .ok (none, b.store r ((b.load r).map f))
  | .writeFound pred f =>
    match b.findIfPtr pred with
    | none => .error .noWaitingEntry
    | some r => .ok (none, b.store r ((b.load r).map f))

def run (b : IFQRingBuf) : List Call → Except Fault (List TransPtr × IFQRingBuf)
  | [] => .ok ([], b)
  | call :: calls => do
    let (p, d) ← b.perform call
    let (ps, d) ← d.run calls
    .ok (p :: ps, d)

variable {n : Nat}

/-- What a call is for: the pointer it gives and the queue it leaves. A push needs room, a pop and a
write to the front need an entry, an index is below the size, and a write to an entry found needs
one. -/
def Call.spec (q : BoundedQueue Transaction n) :
    Call → Option (TransPtr × BoundedQueue Transaction n)
  | .pushBack x => if h : q.items.length < n then some (none, q.push x h) else none
  | .popFront => if q.items = [] then none else some (none, q.pop)
  | .moveFront => if q.items = [] then none else some (q.items.head?, q.pop)
  | .readAt i => if i < q.items.length then some (q.items[i]?, q) else none
  | .findIfPtr pred => some (q.items.find? fun x => pred (some x), q)
  | .clear => some (none, .empty)
  | .writeFront f => if q.items = [] then none else some (none, q.amend 0 f)
  | .writeFound pred f =>
    (q.items.findIdx? fun x => pred (some x)).map fun i => (none, q.amend i f)

/-- What a sequence of calls is for. -/
def specRun (q : BoundedQueue Transaction n) :
    List Call → Option (List TransPtr × BoundedQueue Transaction n)
  | [] => some ([], q)
  | call :: calls => do
    let (p, q) ← call.spec q
    let (ps, q) ← specRun q calls
    some (p :: ps, q)

theorem specRun_snoc {q q' q'' : BoundedQueue Transaction n} {calls : List Call} {call : Call}
    {ps : List TransPtr} {p : TransPtr} (hs : specRun q calls = some (ps, q'))
    (hc : call.spec q' = some (p, q'')) :
    specRun q (calls ++ [call]) = some (ps ++ [p], q'') := by
  induction calls generalizing q ps with
  | nil =>
    cases hs
    exact Option.bind_eq_some_iff.mpr ⟨(p, q''), hc, rfl⟩
  | cons c calls ih =>
    obtain ⟨⟨p', d⟩, hd, hs⟩ := Option.bind_eq_some_iff.mp hs
    obtain ⟨⟨ps', e⟩, he, hs⟩ := Option.bind_eq_some_iff.mp hs
    cases hs
    exact Option.bind_eq_some_iff.mpr ⟨(p', d), hd,
      Option.bind_eq_some_iff.mpr ⟨(ps' ++ [p], q''), ih he, rfl⟩⟩

/-- The buffer holds the queue: its entries from `head` on, and null in every other slot. -/
structure Represents (b : IFQRingBuf) (q : BoundedQueue Transaction n) : Prop where
  cap : b.cap = n
  ring : BoundedQueue.Ring b.buf b.head b.tail b.cnt q

theorem represents_ofCap (h : 1 ≤ n) :
    (ofCap n).Represents (.empty : BoundedQueue Transaction n) :=
  ⟨rfl, BoundedQueue.ring_empty h⟩

namespace Represents

variable {b : IFQRingBuf} {q : BoundedQueue Transaction n}

theorem slotAt (h : b.Represents q) (i : Nat) : b.slotAt i = BoundedQueue.behind n b.head i := by
  unfold IFQRingBuf.slotAt BoundedQueue.behind
  rw [h.cap]

theorem slotAt_zero (h : b.Represents q) : b.slotAt 0 = b.head := by
  rw [h.slotAt]
  exact BoundedQueue.behind_zero h.ring.head_lt

theorem load (h : b.Represents q) {i : Nat} (hi : i < n) :
    b.load (b.slotAt i) = q.items[i]? := by
  unfold IFQRingBuf.load
  rw [h.slotAt, h.ring.cell i hi]
  rfl

theorem loads (h : b.Represents q) (i : Nat) (hi : i < q.items.length) :
    b.load (b.slotAt i) = q.items[i]? :=
  h.load (Nat.lt_of_lt_of_le hi q.bound)

theorem full_iff (h : b.Represents q) : b.full = false ↔ q.items.length < n := by
  unfold full
  rw [decide_eq_false_iff_not, h.cap, h.ring.count, Nat.not_le]

theorem empty_iff (h : b.Represents q) : b.empty = false ↔ q.items ≠ [] := by
  unfold empty
  rw [beq_eq_false_iff_ne, h.ring.count, ne_eq, List.length_eq_zero_iff]

theorem pushBack (h : b.Represents q) (x : Transaction) (hroom : q.items.length < n) :
    ∃ d, b.pushBack (some x) = .ok d ∧ d.Represents (q.push x hroom) := by
  have hring := h.ring.push x hroom
  refine ⟨_, require_bind_eq_ok.mpr ⟨h.full_iff.mpr hroom, rfl⟩, h.cap, ?_⟩
  rw [h.cap]
  exact hring

theorem front (h : b.Represents q) (hne : q.items ≠ []) : b.front = .ok b.head :=
  require_bind_eq_ok.mpr ⟨h.empty_iff.mpr hne, rfl⟩

theorem popFront (h : b.Represents q) (hne : q.items ≠ []) :
    ∃ d, b.popFront = .ok d ∧ d.Represents q.pop := by
  have hcnt := h.ring.count
  have hpos : 0 < b.cnt := by
    rw [hcnt]
    exact List.length_pos_iff.mpr hne
  have hring := h.ring.pop hpos
  refine ⟨_, require_bind_eq_ok.mpr ⟨h.empty_iff.mpr hne, rfl⟩, h.cap, ?_⟩
  rw [h.cap]
  exact hring

/-- What the move leaves in the front slot, the pop would put there itself. -/
private theorem popFront_moved (b : IFQRingBuf) :
    (b.store b.head none).popFront = b.popFront := by
  unfold IFQRingBuf.popFront store
  dsimp only
  rw [List.set_set]
  rfl

theorem moveFront (h : b.Represents q) (hne : q.items ≠ []) :
    ∃ d, b.moveFront = .ok (q.items.head?, d) ∧ d.Represents q.pop := by
  obtain ⟨d, hd, hrep⟩ := h.popFront hne
  have hload := h.loads 0 (List.length_pos_iff.mpr hne)
  rw [h.slotAt_zero, ← List.head?_eq_getElem?] at hload
  refine ⟨d, ?_, hrep⟩
  unfold IFQRingBuf.moveFront
  rw [h.front hne, ok_bind, popFront_moved, hd, ok_bind, hload]

theorem write (h : b.Represents q) {i : Nat} (hi : i < q.items.length)
    (f : Transaction → Transaction) :
    (b.store (b.slotAt i) ((b.load (b.slotAt i)).map f)).Represents (q.amend i f) := by
  have hbound := q.bound
  have hx : q.items[i]? = some q.items[i] := List.getElem?_eq_getElem hi
  rw [h.load (by omega), h.slotAt, hx]
  exact ⟨h.cap, h.ring.amend hx f⟩

theorem writeFront (h : b.Represents q) (hne : q.items ≠ []) (f : Transaction → Transaction) :
    (b.store b.head ((b.load b.head).map f)).Represents (q.amend 0 f) := by
  have hw := h.write (List.length_pos_iff.mpr hne) f
  rwa [h.slotAt_zero] at hw

theorem findIfPtr (h : b.Represents q) (pred : TransPtr → Bool) : b.findIfPtr pred =
    (q.items.findIdx? fun x => pred (some x)).map fun i => b.slotAt i := by
  unfold IFQRingBuf.findIfPtr
  rw [h.ring.count, BoundedQueue.find_range pred h.loads]

theorem load_found (h : b.Represents q) (pred : TransPtr → Bool) :
    ((b.findIfPtr pred).bind fun r => b.load r) = q.items.find? fun x => pred (some x) := by
  rw [h.findIfPtr, List.find?_eq_bind_findIdx?_getElem?]
  cases hi : q.items.findIdx? fun x => pred (some x) with
  | none => rfl
  | some i => exact h.loads i (List.findIdx?_eq_some_iff_getElem.mp hi).1

theorem clear_buf (h : b.Represents q) : b.clear.buf = List.replicate n none := by
  have hclear := h.ring.clear
  unfold IFQRingBuf.clear
  dsimp only
  rw [← hclear]
  congr 1
  funext l i
  rw [h.slotAt]

theorem clear (h : b.Represents q) :
    b.clear.Represents (.empty : BoundedQueue Transaction n) := by
  have hn : 0 < n := Nat.lt_of_le_of_lt (Nat.zero_le _) h.ring.head_lt
  refine ⟨h.cap, ?_⟩
  rw [h.clear_buf]
  exact BoundedQueue.ring_empty hn

theorem countInflight (h : b.Represents q) :
    b.countInflight = q.items.countP (·.countedInflight) := by
  unfold IFQRingBuf.countInflight size
  rw [h.ring.count]
  exact BoundedQueue.countP_range (fun p => p.any (·.countedInflight)) h.loads

theorem perform (h : b.Represents q) {call : Call} {p : TransPtr}
    {q' : BoundedQueue Transaction n} (hs : call.spec q = some (p, q')) :
    ∃ d, b.perform call = .ok (p, d) ∧ d.Represents q' := by
  cases call with
  | pushBack x =>
    obtain ⟨hroom, hs⟩ := Option.dite_none_right_eq_some.mp hs
    cases hs
    obtain ⟨d, hd, hrep⟩ := h.pushBack x hroom
    exact ⟨d, bind_eq_ok.mpr ⟨d, hd, rfl⟩, hrep⟩
  | popFront =>
    obtain ⟨hne, hs⟩ := Option.ite_none_left_eq_some.mp hs
    cases hs
    obtain ⟨d, hd, hrep⟩ := h.popFront hne
    exact ⟨d, bind_eq_ok.mpr ⟨d, hd, rfl⟩, hrep⟩
  | moveFront =>
    obtain ⟨hne, hs⟩ := Option.ite_none_left_eq_some.mp hs
    cases hs
    exact h.moveFront hne
  | readAt i =>
    obtain ⟨hi, hs⟩ := Option.ite_none_right_eq_some.mp hs
    cases hs
    exact ⟨b, congrArg (fun p => Except.ok (p, b)) (h.loads i hi), h⟩
  | findIfPtr pred =>
    cases hs
    exact ⟨b, congrArg (fun p => Except.ok (p, b)) (h.load_found pred), h⟩
  | clear =>
    cases hs
    exact ⟨b.clear, rfl, h.clear⟩
  | writeFront f =>
    obtain ⟨hne, hs⟩ := Option.ite_none_left_eq_some.mp hs
    cases hs
    exact ⟨_, bind_eq_ok.mpr ⟨b.head, h.front hne, rfl⟩, h.writeFront hne f⟩
  | writeFound pred f =>
    obtain ⟨i, hi, hq⟩ := Option.map_eq_some_iff.mp hs
    cases hq
    have hlt : i < q.items.length := (List.findIdx?_eq_some_iff_getElem.mp hi).1
    have hfound : b.findIfPtr pred = some (b.slotAt i) := by
      rw [h.findIfPtr, hi]
      rfl
    refine ⟨_, ?_, h.write hlt f⟩
    simp only [IFQRingBuf.perform, hfound]

/-- And so does a sequence of calls. -/
theorem run (h : b.Represents q) {calls : List Call} {ps : List TransPtr}
    {q' : BoundedQueue Transaction n} (hs : specRun q calls = some (ps, q')) :
    ∃ d, b.run calls = .ok (ps, d) ∧ d.Represents q' := by
  induction calls generalizing b q ps with
  | nil =>
    cases hs
    exact ⟨b, rfl, h⟩
  | cons call calls ih =>
    obtain ⟨⟨p, q₁⟩, hcall, hs⟩ := Option.bind_eq_some_iff.mp hs
    obtain ⟨⟨ps', q₂⟩, hcalls, hs⟩ := Option.bind_eq_some_iff.mp hs
    cases hs
    obtain ⟨d, hd, hrep⟩ := h.perform hcall
    obtain ⟨e, he, hrep'⟩ := ih hrep hcalls
    exact ⟨e, bind_eq_ok.mpr ⟨(p, d), hd, bind_eq_ok.mpr ⟨(ps', e), he, rfl⟩⟩, hrep'⟩

end Represents

/-- The ring buffer is a bounded queue: after any calls from the empty buffer on, each made where it
may be made, the calls have given what they give on the queue, and the buffer holds the queue. -/
theorem refines_fifo (hcap : 1 ≤ n) {calls : List Call} {ps : List TransPtr}
    {q : BoundedQueue Transaction n} (hs : specRun .empty calls = some (ps, q)) :
    ∃ b, (ofCap n).run calls = .ok (ps, b) ∧ b.Represents q ∧
      (b.size = q.items.length ∧ b.size ≤ n ∧ b.tail = (b.head + b.cnt) % n) ∧
      ((b.full = false ↔ q.items.length < n) ∧ (b.empty = false ↔ q.items ≠ [])) ∧
      (∀ i x, q.items[i]? = some x → b.load (b.slotAt i) = some x) ∧
      (∀ pred, b.findIfPtr pred =
        (q.items.findIdx? fun x => pred (some x)).map fun i => b.slotAt i) ∧
      b.countInflight = q.items.countP (·.countedInflight) ∧
      b.clear.empty = true ∧ b.clear.buf = List.replicate n none := by
  obtain ⟨b, hrun, h⟩ := (represents_ofCap hcap).run hs
  refine ⟨b, hrun, h, ⟨h.ring.count, ?_, h.ring.tail⟩, ⟨h.full_iff, h.empty_iff⟩, ?_,
    h.findIfPtr, h.countInflight, rfl, h.clear_buf⟩
  · exact Nat.le_trans (Nat.le_of_eq h.ring.count) q.bound
  · intro i x hx
    rw [h.loads i (List.getElem?_eq_some_iff.mp hx).1, hx]

private def fetchOf (pc : Addr) : Transaction := { traceInst := { pc := pc } }

private def rotation : List Call :=
  [.pushBack (fetchOf 0), .pushBack (fetchOf 4), .moveFront, .pushBack (fetchOf 8), .readAt 1,
    .findIfPtr fun p => p.any fun x => x.traceInst.pc != 4, .popFront]

/-- The third instruction lies in the slot that the first one has left. -/
theorem refines_fifo_rotated : ∃ b, (ofCap 2).run rotation = .ok
      ([none, none, some (fetchOf 0), none, some (fetchOf 8), some (fetchOf 8), none], b) ∧
    b.size = 1 ∧ b.tail = (b.head + b.cnt) % 2 ∧ b.load (b.slotAt 0) = some (fetchOf 8) ∧
    b.clear.buf = [none, none] := by
  obtain ⟨b, hrun, _, ⟨hsize, _, htail⟩, _, hload, _, _, _, hclear⟩ :=
    refines_fifo (n := 2) (by decide) (show specRun .empty rotation = some
      ([none, none, some (fetchOf 0), none, some (fetchOf 8), some (fetchOf 8), none],
        ⟨[fetchOf 8], by decide⟩) from rfl)
  exact ⟨b, hrun, hsize, htail, hload 0 (fetchOf 8) rfl, hclear⟩

/-- What a call on the queue `q` leaves of it, if a call is made at all. -/
inductive Leaves (q : BoundedQueue Transaction n) (l : List Transaction) : Prop
  | same (h : l = q.items)
  | call (call : Call) (p : TransPtr) (q' : BoundedQueue Transaction n)
      (hs : call.spec q = some (p, q')) (h : l = q'.items)

theorem leaves_push {q : BoundedQueue Transaction n} {l : List Transaction} {x : Transaction}
    (hroom : q.items.length < n) (h : l = q.items ++ [x]) : Leaves q l :=
  .call (.pushBack x) none (q.push x hroom) (dif_pos hroom) h

theorem leaves_clear {q : BoundedQueue Transaction n} : Leaves q [] :=
  .call .clear none .empty rfl rfl

theorem Leaves.bound {q : BoundedQueue Transaction n} {l : List Transaction} (h : Leaves q l) :
    l.length ≤ n := by
  cases h with
  | same h =>
    rw [h]
    exact q.bound
  | call call p q' hs h =>
    rw [h]
    exact q'.bound

end IFQRingBuf

open IFQRingBuf (Leaves ofCap specRun)

namespace Pipeline

variable {K : PipelineParams} {now : Nat} {c c' : Pipeline K}

private def answered (x : Transaction) : Transaction := { x with waitMem := false }

/-- `find_if_ptr` in `handle_ifu_resp`, and the write to the entry found. -/
private theorem answerFirst_eq (l : List Transaction) : answerFirst l =
    (l.findIdx? fun x => x.waitMem).map fun i => l.modify i answered := by
  induction l with
  | nil => rfl
  | cons x l ih =>
    unfold answerFirst
    rw [ih, List.findIdx?_cons]
    split
    · rfl
    · rw [Option.map_map, Option.map_map]
      rfl

private theorem flushIf_queue (b : Bool) (now : Nat) (d : Pipeline K) :
    (d.flushIf b now).fetchQueue = d.fetchQueue ∨ (d.flushIf b now).fetchQueue = [] := by
  unfold flushIf
  split
  · exact .inr rfl
  · exact .inl rfl

private theorem mext_queue {s : PipeStage} {lat : Nat} (h : MextCases now c c' s lat) :
    c'.fetchQueue = c.fetchQueue ∨ c'.fetchQueue = [] := by
  obtain ⟨x, _, _, ⟨_, rfl⟩ | ⟨b, l, d, _, rfl, rfl⟩⟩ := h
  · exact .inl rfl
  · exact flushIf_queue _ now { c with bpu := b, events := l }

private theorem stage_queue {i : PipeStage} {ports : Ports} (hi : i ≠ .fetch)
    (h : stageHandler now ports i c = .ok c') :
    c'.fetchQueue = c.fetchQueue ∨ c'.fetchQueue = [] := by
  cases i with
  | fetch => exact absurd rfl hi
  | decode =>
    obtain ⟨x, a, _, _, ⟨_, rfl⟩ | ⟨_, _, _, _, rfl⟩ | ⟨_, rfl⟩⟩ := doDecode_cases h <;>
      exact .inl rfl
  | execute =>
    obtain ⟨x, _, _, ⟨_, rfl⟩ | ⟨b, l, d, _, rfl, rfl⟩⟩ := doExecute_cases h
    · exact .inl rfl
    · exact flushIf_queue _ now { c with bpu := b, events := l }
  | intMulExt => exact mext_queue (doMulExt_cases h)
  | intDivExt => exact mext_queue (doDivExt_cases h)
  | memory =>
    obtain ⟨x, _, ⟨_, _, rfl⟩ | ⟨_, _, rfl⟩ | ⟨_, _, rfl⟩ | ⟨_, _, _, _, _, rfl⟩ |
      ⟨_, _, _, _, _, rfl⟩ | ⟨_, _, _, rfl⟩⟩ := doMemory_cases h <;> exact .inl rfl
  | writeBack =>
    rcases doWriteback_cases h with ⟨_, rfl⟩ | ⟨_, _, _, _, _, rfl⟩ <;> exact .inl rfl

private theorem doFetch0_leaves (hb : c.fetchQueue.length ≤ K.ifqSize) (ready : Bool) :
    Leaves (n := K.ifqSize) ⟨c.fetchQueue, hb⟩ (c.doFetch0 now ready).fetchQueue := by
  have hroom : c.ifqFull = false → c.fetchQueue.length < K.ifqSize := by
    intro h
    unfold ifqFull at h
    exact Nat.not_le.mp (of_decide_eq_false h)
  have hend : c.endWrongPath.fetchQueue = c.fetchQueue := by
    unfold endWrongPath
    split <;> rfl
  rcases doFetch0_cases now ready c with ⟨_, h⟩ | ⟨_, h, _⟩ | ⟨_, _, _, h⟩ |
      ⟨_, _, _, _, _, hf, h⟩ | ⟨_, _, _, _, ⟨_, h⟩ | ⟨x, _, hf, h⟩⟩
  · rw [h]
    exact .same rfl
  · rw [h]
    exact .same rfl
  · rw [h]
    exact .same rfl
  · rw [h]
    exact IFQRingBuf.leaves_push (hroom hf) rfl
  · rw [h]
    exact .same hend
  · obtain ⟨y, _, _, _, _, _, heq, _⟩ := fetchReal_eq now x c.endWrongPath
    rw [h, heq]
    exact IFQRingBuf.leaves_push (x := y) (hroom hf) (congrArg (· ++ [y]) hend)

private theorem doFetch1_leaves (hb : c.fetchQueue.length ≤ K.ifqSize)
    (h : c.doFetch1 now = .ok c') :
    Leaves (n := K.ifqSize) ⟨c.fetchQueue, hb⟩ c'.fetchQueue := by
  rcases doFetch1_cases h with ⟨_, rfl⟩ | ⟨p, rest, hq, _, _, rfl⟩ | ⟨p, rest, hq, _, _, _, rfl⟩
  · exact .same rfl
  · have hne : c.fetchQueue ≠ [] := by
      rw [hq]
      exact List.cons_ne_nil p rest
    refine .call (.writeFront fun x => { x with bpMetaHold := x.bpMetaHold - 1 }) none _
      (if_neg hne) ?_
    change _ = c.fetchQueue.modify 0 _
    rw [hq]
    rfl
  · have hne : c.fetchQueue ≠ [] := by
      rw [hq]
      exact List.cons_ne_nil p rest
    refine .call .moveFront _ _ (if_neg hne) ?_
    change rest = c.fetchQueue.tail
    rw [hq]
    rfl

private theorem recvMemResp_leaves (hb : c.fetchQueue.length ≤ K.ifqSize) {t : CpuTrans}
    (h : c.recvMemResp now t = .ok c') :
    Leaves (n := K.ifqSize) ⟨c.fetchQueue, hb⟩ c'.fetchQueue := by
  rcases recvMemResp_cases h with ⟨_, _, h⟩ | ⟨_, h⟩
  · obtain ⟨_, rest, _, ⟨_, rfl⟩ | ⟨q, _, hq, rfl⟩⟩ := handleIfuResp_cases h
    · exact .same rfl
    · rw [answerFirst_eq] at hq
      obtain ⟨i, hi, rfl⟩ := Option.map_eq_some_iff.mp hq
      refine .call (.writeFound (fun p => p.any fun x => x.waitMem) answered) none
        (BoundedQueue.amend i answered ⟨c.fetchQueue, hb⟩) ?_ rfl
      exact Option.map_eq_some_iff.mpr ⟨i, hi, rfl⟩
  · obtain ⟨x, a, _, _, _, _, rfl⟩ := handleLsuResp_cases h
    exact .same rfl

/-- A step of the core makes at most one call that changes its fetch queue, and may make it. -/
theorem coreStep_leaves (hb : c.fetchQueue.length ≤ K.ifqSize) (h : CoreStep now c c') :
    Leaves (n := K.ifqSize) ⟨c.fetchQueue, hb⟩ c'.fetchQueue := by
  have hflush : c'.fetchQueue = c.fetchQueue ∨ c'.fetchQueue = [] →
      Leaves (n := K.ifqSize) ⟨c.fetchQueue, hb⟩ c'.fetchQueue := by
    rintro (hq | hq)
    · exact .same hq
    · rw [hq]
      exact IFQRingBuf.leaves_clear
  cases h with
  | beginTick => exact .same rfl
  | stage i ports due h =>
    by_cases hi : i = .fetch
    · subst hi
      exact doFetch1_leaves hb h
    · exact hflush (stage_queue hi h)
  | fetch0 ready => exact doFetch0_leaves hb ready
  | sched => exact .same rfl
  | resp t h => exact recvMemResp_leaves hb h
  | ack a h =>
    rcases ackMemAvail_cases h with ⟨_, rfl⟩ | ⟨_, ⟨x, _, _, _, rfl⟩ | ⟨_, rfl⟩⟩ <;>
      exact .same rfl
  | buffer inst h => exact .same rfl
  | drain => exact .same rfl
  | reset => exact .same rfl
  | sent => exact .same rfl

/-- No step makes the fetch queue longer than its ring. -/
theorem coreStep_bounded (h : CoreStep now c c') (hb : c.fetchQueue.length ≤ K.ifqSize) :
    c'.fetchQueue.length ≤ K.ifqSize :=
  (coreStep_leaves hb h).bound

theorem CoreReachable.queue_bounded {s : Clocked K} (h : CoreReachable s) :
    s.core.fetchQueue.length ≤ K.ifqSize :=
  h.invariant (I := fun s => s.core.fetchQueue.length ≤ K.ifqSize) (fun _ => Nat.zero_le _)
    (fun _ _ _ hc hb => coreStep_bounded hc hb) fun _ _ hb => hb

/-- The fetch queue of the core is at any time what the ring buffer of the code holds after some
calls. -/
theorem CoreReachable.queue_in_ring {s : Clocked K} (hcap : 1 ≤ K.ifqSize)
    (h : CoreReachable s) : ∃ calls ps b, (ofCap K.ifqSize).run calls = .ok (ps, b) ∧
      ∃ hb : s.core.fetchQueue.length ≤ K.ifqSize,
        b.Represents (⟨s.core.fetchQueue, hb⟩ : BoundedQueue Transaction K.ifqSize) := by
  have hspec : ∃ calls ps, ∃ q : BoundedQueue Transaction K.ifqSize,
      specRun .empty calls = some (ps, q) ∧ q.items = s.core.fetchQueue := by
    refine CoreReachable.invariant (I := fun s => ∃ calls ps,
      ∃ q : BoundedQueue Transaction K.ifqSize, specRun .empty calls = some (ps, q) ∧
        q.items = s.core.fetchQueue) ?_ ?_ ?_ h
    · intro _
      exact ⟨[], [], .empty, rfl, rfl⟩
    · rintro now c c' hc ⟨calls, ps, q, hs, hq⟩
      have hb : c.fetchQueue.length ≤ K.ifqSize := by
        rw [← hq]
        exact q.bound
      obtain rfl : q = ⟨c.fetchQueue, hb⟩ := by
        cases q
        cases hq
        rfl
      cases coreStep_leaves hb hc with
      | same hsame => exact ⟨calls, ps, _, hs, hsame.symm⟩
      | call call p q' hcall hl =>
        exact ⟨calls ++ [call], ps ++ [p], q', IFQRingBuf.specRun_snoc hs hcall, hl.symm⟩
    · intro _ _ hI
      exact hI
  obtain ⟨calls, ps, q, hs, hq⟩ := hspec
  obtain ⟨b, hrun, hrep⟩ := (IFQRingBuf.represents_ofCap hcap).run hs
  have hb : s.core.fetchQueue.length ≤ K.ifqSize := by
    rw [← hq]
    exact q.bound
  refine ⟨calls, ps, b, hrun, hb, ?_⟩
  cases q
  cases hq
  exact hrep

end Pipeline

end NpSim.Pipe
