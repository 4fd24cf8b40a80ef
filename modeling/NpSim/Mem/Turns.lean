/- digest: How long a request waits for its service: the answers that other hosts get meanwhile, and
   the writes that are pending at a time. -/

import NpSim.Mem.Slots

set_option autoImplicit false
set_option relaxedAutoImplicit false

namespace NpSim.Mem

open NpSim.Lib.Partial NpSim.Lib.Contract

namespace Event

def accepts (op : MemRWOpt) : Event → Bool
  | accept req _ => decide (req.mop = op)
  | _ => false

def answers (op : MemRWOpt) : Event → Bool
  | answer _ req _ => decide (req.mop = op)
  | _ => false

def starts (op : MemRWOpt) (h : Nat) : Event → Bool
  | start req _ _ _ _ => decide (req.mop = op ∧ req.id = h)
  | _ => false

/-- The answers on channel `op` that host `h` has seen while its request waits. -/
def turn (op : MemRWOpt) (h : Nat) (seen : Option Nat) : Event → Option Nat
  | accept req _ => if req.mop = op ∧ req.id = h then some (seen.getD 0) else seen
  | start req _ _ _ _ => if req.mop = op ∧ req.id = h then none else seen
  | answer _ req _ => if req.mop = op then seen.map (· + 1) else seen
  | reset => seen

end Event

/-- The answers on channel `op` that host `h` has seen in `l` while its last request waits. -/
def turns (op : MemRWOpt) (h : Nat) (l : List Event) : Option Nat := l.foldl (Event.turn op h) none

theorem turns_concat (op : MemRWOpt) (h : Nat) (l : List Event) (e : Event) :
    turns op h (l ++ [e]) = Event.turn op h (turns op h l) e := by
  unfold turns
  rw [List.foldl_append]
  rfl

/-- Between the acceptance and the start of a read at most one read is answered, and at most one
write is pending at a time. -/
structure BoundedWaiting (l : List Event) : Prop where
  reads : ∀ before req now between after,
    l = before ++ .accept req now :: (between ++ after) → req.mop = .read →
    (∀ e ∈ between, e.starts .read req.id = false) → between.countP (Event.answers .read) ≤ 1
  writes : ∀ l', l' <+: l → l'.countP (Event.accepts .write) ≤ l'.countP (Event.answers .write) + 1

private theorem turns_between {op : MemRWOpt} {h : Nat} (l : List Event) {n : Nat}
    (hn : ∀ e ∈ l, e.starts op h = false) :
    ∃ k, l.foldl (Event.turn op h) (some n) = some k ∧ n + l.countP (Event.answers op) = k := by
  induction l generalizing n with
  | nil => exact ⟨n, rfl, rfl⟩
  | cons e l ih =>
    have htail : ∀ x ∈ l, x.starts op h = false := fun x hx => hn x (List.mem_cons_of_mem e hx)
    have he := hn e List.mem_cons_self
    rw [List.foldl_cons, List.countP_cons]
    cases e with
    | accept req now =>
      have hturn : Event.turn op h (some n) (.accept req now) = some n := by
        dsimp only [Event.turn]
        split <;> rfl
      rw [hturn]
      exact ih htail
    | start req now begin lat pending =>
      have hturn : Event.turn op h (some n) (.start req now begin lat pending) = some n :=
        if_neg (of_decide_eq_false he)
      rw [hturn]
      exact ih htail
    | answer host req now =>
      by_cases ho : req.mop = op
      · have hturn : Event.turn op h (some n) (.answer host req now) = some (n + 1) := if_pos ho
        have hcount : Event.answers op (.answer host req now) = true := decide_eq_true ho
        obtain ⟨k, hk, hsum⟩ := @ih (n + 1) htail
        rw [hturn, hcount, if_pos rfl]
        exact ⟨k, hk, by omega⟩
      · have hturn : Event.turn op h (some n) (.answer host req now) = some n := if_neg ho
        have hcount : Event.answers op (.answer host req now) = false := decide_eq_false ho
        rw [hturn, hcount, if_neg Bool.false_ne_true]
        exact ih htail
    | reset => exact ih htail

private theorem reads_of_turns {l : List Event}
    (h : ∀ l', l' <+: l → ∀ g n, turns .read g l' = some n → n ≤ 1)
    {before between after : List Event} {req : MemTrans} {now : Nat}
    (hl : l = before ++ .accept req now :: (between ++ after)) (hop : req.mop = .read)
    (hn : ∀ e ∈ between, e.starts .read req.id = false) :
    between.countP (Event.answers .read) ≤ 1 := by
  have hpre : before ++ .accept req now :: between <+: l :=
    ⟨after, by rw [hl, List.append_assoc, List.cons_append]⟩
  obtain ⟨k, hk, hsum⟩ := turns_between between
    (n := ((before.foldl (Event.turn .read req.id) none).getD 0)) hn
  have hturns : turns .read req.id (before ++ .accept req now :: between) = some k := by
    unfold turns
    rw [List.foldl_append, List.foldl_cons, show Event.turn .read req.id
      (before.foldl (Event.turn .read req.id) none) (.accept req now) = some _ from
        if_pos ⟨hop, rfl⟩]
    exact hk
  have := h _ hpre _ _ hturns
  omega

namespace RAMArbiter

variable {K : ArbiterConfig} {m m' : RAMArbiter K} {now : Nat}

/-- The requests in the write slots: none, or one, which is the one more that has been accepted than
answered. -/
def OneWrite (m : RAMArbiter K) : Prop :=
  (∀ h, m.slots .write h = none) ∧
      m.hist.countP (Event.accepts .write) = m.hist.countP (Event.answers .write) ∨
    (∃ g, (m.slots .write g).isSome ∧ ∀ h, h ≠ g → m.slots .write h = none) ∧
      m.hist.countP (Event.accepts .write) = m.hist.countP (Event.answers .write) + 1

/-- What the waiting of the hosts keeps to, with `comp` the channel in the middle of a
completion. -/
structure Patient (comp : Option MemRWOpt) (m : RAMArbiter K) : Prop where
  bounded : ∀ l, l <+: m.hist → ∀ h n, turns .read h l = some n → n ≤ 1
  waiting : ∀ h, (turns .read h m.hist).isSome → (m.slots .read h).isSome ∧
    (comp ≠ some .read → turns .read h m.hist = some 0 ∧ (m.chan .read).servingId ≠ h)
  alone : comp = some .read → ∀ h h', (m.slots .read h).isSome → (m.slots .read h').isSome → h = h'
  writes : ∀ l, l <+: m.hist →
    l.countP (Event.accepts .write) ≤ l.countP (Event.answers .write) + 1
  oneWrite : m.OneWrite

theorem patient_init : Patient none ({} : RAMArbiter K) := by
  have hnil : ∀ l, l <+: ({} : RAMArbiter K).hist → l = [] := fun l hl => List.prefix_nil.mp hl
  refine ⟨fun l hl h n hn => ?_, fun h hs => ?_, fun hc => ?_, fun l hl => ?_, ?_⟩
  · rw [hnil l hl] at hn
    cases hn
  · cases hs
  · cases hc
  · rw [hnil l hl]
    exact Nat.zero_le _
  · exact .inl ⟨fun _ => rfl, rfl⟩

private theorem prefix_concat {p : List Event → Prop} {l : List Event} {e : Event}
    (h : ∀ l', l' <+: l → p l') (hlast : p (l ++ [e])) : ∀ l', l' <+: l ++ [e] → p l' := by
  intro l' hl
  rcases List.prefix_concat_iff.mp hl with rfl | hl
  · exact hlast
  · exact h l' hl

theorem OneWrite.le (h : m.OneWrite) :
    m.hist.countP (Event.accepts .write) ≤ m.hist.countP (Event.answers .write) + 1 := by
  rcases h with ⟨_, h⟩ | ⟨_, h⟩ <;> omega

private theorem Patient.extend {comp : Option MemRWOpt} (h : Patient comp m) {e : Event}
    (hhist : m'.hist = m.hist ++ [e]) (hslots : m'.slots .write = m.slots .write)
    (hacc : e.accepts .write = false) (hans : e.answers .write = false)
    (hturn : ∀ g n, turns .read g m'.hist = some n → n ≤ 1) :
    (∀ l, l <+: m'.hist → ∀ h n, turns .read h l = some n → n ≤ 1) ∧
      (∀ l, l <+: m'.hist →
        l.countP (Event.accepts .write) ≤ l.countP (Event.answers .write) + 1) ∧ m'.OneWrite := by
  have hcount : ∀ p : Event → Bool, p e = false → m'.hist.countP p = m.hist.countP p := by
    intro p hp
    rw [hhist, List.countP_append, List.countP_singleton, hp]
    rfl
  have hone : m'.OneWrite := by
    unfold OneWrite
    rw [hcount _ hacc, hcount _ hans, hslots]
    exact h.oneWrite
  have hle := hone.le
  rw [hhist] at hturn hle ⊢
  exact ⟨prefix_concat h.bounded hturn, prefix_concat h.writes hle, hone⟩

private theorem slots_isSome {op : MemRWOpt} {h : Nat} {req : MemTrans}
    (hr : (m.chan op).reqs h = some req) : (m.slots op h).isSome := by
  rw [slots, hr]
  rfl

private theorem op_eq_write {op : MemRWOpt} (h : op ≠ .read) : op = .write := by
  cases op with
  | read => exact absurd rfl h
  | write => rfl

theorem Patient.serve {op : MemRWOpt} (h : Patient (some op) m) {start : Nat} {req : MemTrans}
    (hid : req.id < K.hosts) (hreq : (m.chan op).reqs req.id = some req) (hop : req.mop = op)
    (hs : m.serve now start op req = .ok m') : Patient none m' := by
  have hslots : m'.slots = m.slots := (serve_meets hid hreq).result hs
  obtain ⟨lat, hhist, _, hchan⟩ := serve_eq_ok hs
  have hturn : ∀ g, turns .read g m'.hist =
      if req.mop = .read ∧ req.id = g then none else turns .read g m.hist := by
    intro g
    rw [hhist, turns_concat]
    rfl
  have hwait : ∀ g, (turns .read g m'.hist).isSome → (m'.slots .read g).isSome ∧
      turns .read g m'.hist = some 0 ∧ (m'.chan .read).servingId ≠ g := by
    intro g hg
    rw [hturn] at hg ⊢
    split at hg
    · cases hg
    · rename_i hne
      obtain ⟨hslot, hstay⟩ := h.waiting g hg
      by_cases ho : op = .read
      · subst ho
        exact absurd ⟨hop, h.alone rfl req.id g (slots_isSome hreq) hslot⟩ hne
      · obtain ⟨hzero, hserving⟩ := hstay fun hc => ho (Option.some.inj hc)
        rw [hslots, hchan, Function.update_of_ne (Ne.symm ho), if_neg hne]
        exact ⟨hslot, hzero, hserving⟩
  obtain ⟨hbounded, hwrites, hone⟩ := h.extend hhist (by rw [hslots]) rfl rfl fun g n hn => by
    have hz := (hwait g (by rw [hn]; rfl)).2.1
    rw [hn] at hz
    rw [Option.some.inj hz]
    exact Nat.zero_le 1
  exact ⟨hbounded, fun g hg => ⟨(hwait g hg).1, fun _ => (hwait g hg).2⟩, fun hc => (by cases hc),
    hwrites, hone⟩

/-- The request being served is answered, and then at most one read is left. -/
theorem Patient.answered (h : Patient none m) {op : MemRWOpt} {req : MemTrans}
    (hreq : (m.chan op).reqs (m.chan op).servingId = some req) (hop : req.mop = op)
    (hcrowd : op = .read → ∀ g g', g ≠ (m.chan .read).servingId → g' ≠ (m.chan .read).servingId →
      (m.slots .read g).isSome → (m.slots .read g').isSome → g = g') :
    Patient (some op) (m.answered now op (m.chan op).servingId req) := by
  have hslots : (m.answered now op (m.chan op).servingId req).slots =
      m.slots.put op (m.chan op).servingId none := slots_answered
  have hhist : (m.answered now op (m.chan op).servingId req).hist =
      m.hist ++ [.answer (m.chan op).servingId req now] := rfl
  have hkept : op ≠ .read → (m.answered now op (m.chan op).servingId req).chan .read =
      m.chan .read := fun ho => Function.update_of_ne (Ne.symm ho) ..
  generalize m.answered now op (m.chan op).servingId req = n at hslots hhist hkept ⊢
  have hturn : ∀ g, turns .read g n.hist =
      if req.mop = .read then (turns .read g m.hist).map (· + 1) else turns .read g m.hist := by
    intro g
    rw [hhist, turns_concat]
    rfl
  cases op with
  | read =>
    have hother : n.slots .write = m.slots .write := by
      funext g
      rw [hslots, Slots.put_other fun hx => by cases hx.1]
    have hwait : ∀ g, (turns .read g n.hist).isSome →
        (n.slots .read g).isSome ∧ turns .read g n.hist = some 1 := by
      intro g hg
      rw [hturn, if_pos hop] at hg ⊢
      rw [Option.isSome_map] at hg
      obtain ⟨hslot, hstay⟩ := h.waiting g hg
      obtain ⟨hzero, hserving⟩ := hstay fun hc => by cases hc
      rw [hslots, Slots.put_other fun hx => hserving hx.2.symm, hzero]
      exact ⟨hslot, rfl⟩
    obtain ⟨hbounded, hwrites, hone⟩ := h.extend hhist hother rfl (decide_eq_false (by
      rw [hop]; decide)) fun g k hk => by
        have hz := (hwait g (by rw [hk]; rfl)).2
        rw [hk] at hz
        exact Nat.le_of_eq (Option.some.inj hz)
    refine ⟨hbounded, fun g hg => ⟨(hwait g hg).1, fun hc => absurd rfl hc⟩,
      fun _ g g' hg hg' => ?_, hwrites, hone⟩
    have hne : ∀ x, (n.slots .read x).isSome → x ≠ (m.chan .read).servingId ∧
        (m.slots .read x).isSome := by
      intro x hx
      by_cases he : x = (m.chan .read).servingId
      · rw [hslots, he, Slots.put_self] at hx
        cases hx
      · rw [hslots, Slots.put_other fun hc => he hc.2] at hx
        exact ⟨he, hx⟩
    exact hcrowd rfl g g' (hne g hg).1 (hne g' hg').1 (hne g hg).2 (hne g' hg').2
  | write =>
    have hread : n.slots .read = m.slots .read := by
      funext g
      rw [hslots, Slots.put_other fun hx => by cases hx.1]
    have hchan : n.chan .read = m.chan .read := hkept (by decide)
    have hturn' : ∀ g, turns .read g n.hist = turns .read g m.hist := fun g => by
      rw [hturn, if_neg (by rw [hop]; decide)]
    have hacc : n.hist.countP (Event.accepts .write) = m.hist.countP (Event.accepts .write) := by
      rw [hhist, List.countP_append]
      rfl
    have hans : n.hist.countP (Event.answers .write) =
        m.hist.countP (Event.answers .write) + 1 := by
      have he : Event.answers .write (.answer (m.chan .write).servingId req now) = true :=
        decide_eq_true hop
      rw [hhist, List.countP_append, List.countP_singleton, he]
      rfl
    have hone : n.OneWrite := by
      have hsid := slots_isSome hreq
      rcases h.oneWrite with ⟨hnone, _⟩ | ⟨⟨g, _, hg⟩, hcount⟩
      · rw [hnone] at hsid
        cases hsid
      · refine .inl ⟨fun x => ?_, by omega⟩
        by_cases hx : x = (m.chan .write).servingId
        · rw [hslots, hx, Slots.put_self]
        · rw [hslots, Slots.put_other fun hc => hx hc.2]
          refine hg x fun hxg => hx ?_
          by_contra hne
          rw [hg _ fun he => hne (hxg.trans he.symm)] at hsid
          cases hsid
    have hle := hone.le
    rw [hhist] at hle
    refine ⟨?_, fun g hg => ?_, fun hc => (by cases hc), ?_, hone⟩
    · rw [hhist]
      refine prefix_concat h.bounded fun g k hk => ?_
      exact h.bounded m.hist (List.prefix_refl _) g k ((hturn' g).symm.trans (hhist ▸ hk))
    · rw [hturn'] at hg ⊢
      rw [hread, hchan]
      obtain ⟨hslot, hstay⟩ := h.waiting g hg
      exact ⟨hslot, fun _ => hstay fun hc => by cases hc⟩
    · rw [hhist]
      exact prefix_concat h.writes hle

theorem Patient.freed {op : MemRWOpt} (h : Patient (some op) m) :
    Patient (some op) (m.freed op) := by
  have hslots : (m.freed op).slots = m.slots := slots_freed
  have hone : (m.freed op).OneWrite := by
    unfold OneWrite
    rw [hslots]
    exact h.oneWrite
  refine ⟨h.bounded, fun g hg => ?_, fun hc => ?_, h.writes, hone⟩
  · obtain ⟨hslot, hstay⟩ := h.waiting g hg
    rw [hslots]
    refine ⟨hslot, fun hc => ?_⟩
    have hne : MemRWOpt.read ≠ op := fun he => hc (he ▸ rfl)
    rw [show (m.freed op).chan .read = m.chan .read from Function.update_of_ne hne ..]
    exact hstay hc
  · rw [hslots]
    exact h.alone hc

theorem Patient.free {op : MemRWOpt} (h : Patient (some op) m)
    (hnone : ∀ g, m.slots op g = none) : Patient none (m.freed op) := by
  have hf := h.freed
  refine ⟨hf.bounded, fun g hg => ⟨(hf.waiting g hg).1, fun _ => ?_⟩, fun hc => (by cases hc),
    hf.writes, hf.oneWrite⟩
  refine (hf.waiting g hg).2 fun hc => ?_
  have hslot := (hf.waiting g hg).1
  rw [slots_freed, ← Option.some.inj hc, hnone] at hslot
  cases hslot

theorem Patient.resetStats (h : Patient none m) : Patient none m.resetStats := by
  have hturn : ∀ g, turns .read g m.resetStats.hist = turns .read g m.hist := fun g =>
    turns_concat .read g m.hist .reset
  obtain ⟨hbounded, hwrites, hone⟩ := h.extend
    (show m.resetStats.hist = m.hist ++ [.reset] from rfl) rfl rfl rfl
    fun g n hn => h.bounded m.hist (List.prefix_refl _) g n ((hturn g).symm.trans hn)
  refine ⟨hbounded, fun g hg => ?_, fun hc => (by cases hc), hwrites, hone⟩
  rw [hturn] at hg ⊢
  exact h.waiting g hg

private theorem insert_serving (now : Nat) (req : MemTrans) (op : MemRWOpt) (m : RAMArbiter K) :
    ((m.insert now req).chan op).servingId = (m.chan op).servingId := by
  unfold insert setChan
  dsimp only
  by_cases ho : op = req.mop
  · subst ho
    rw [Function.update_self]
  · rw [Function.update_of_ne ho]

private theorem Patient.insert (h : Patient none m) (now : Nat) {req : MemTrans}
    (hfree : m.slots req.mop req.id = none)
    (hw : req.mop = .write → ∀ g, m.slots .write g = none) :
    ((∀ l, l <+: (m.insert now req).hist → ∀ h n, turns .read h l = some n → n ≤ 1) ∧
      (∀ l, l <+: (m.insert now req).hist →
        l.countP (Event.accepts .write) ≤ l.countP (Event.answers .write) + 1) ∧
      (m.insert now req).OneWrite) ∧
    ∀ g, (turns .read g (m.insert now req).hist).isSome →
      ((m.insert now req).slots .read g).isSome ∧
      turns .read g (m.insert now req).hist = some 0 ∧
      (req.mop = .read ∧ req.id = g ∨
        (m.slots .read g).isSome ∧ ((m.insert now req).chan .read).servingId ≠ g) := by
  have hserving := insert_serving now req .read m
  have hslots : (m.insert now req).slots = m.slots.put req.mop req.id (some req.addr) :=
    slots_insert req
  have hhist : (m.insert now req).hist = m.hist ++ [.accept req now] := rfl
  generalize m.insert now req = n at hserving hslots hhist ⊢
  have hturn : ∀ g, turns .read g n.hist = if req.mop = .read ∧ req.id = g then
      some ((turns .read g m.hist).getD 0) else turns .read g m.hist := by
    intro g
    rw [hhist, turns_concat]
    rfl
  have hwait : ∀ g, (turns .read g n.hist).isSome → (n.slots .read g).isSome ∧
      turns .read g n.hist = some 0 ∧ (req.mop = .read ∧ req.id = g ∨
        (m.slots .read g).isSome ∧ (n.chan .read).servingId ≠ g) := by
    intro g hg
    rw [hturn] at hg ⊢
    by_cases hx : req.mop = .read ∧ req.id = g
    · rw [if_pos hx, hslots, ← hx.1, ← hx.2, Slots.put_self]
      refine ⟨rfl, ?_, .inl ⟨rfl, rfl⟩⟩
      cases ht : turns req.mop req.id m.hist with
      | none => rfl
      | some k =>
        have hs := (h.waiting g (by rw [← hx.1, ← hx.2, ht]; rfl)).1
        rw [← hx.1, ← hx.2, hfree] at hs
        cases hs
    · rw [if_neg hx] at hg ⊢
      obtain ⟨hslot, hstay⟩ := h.waiting g hg
      obtain ⟨hzero, hne⟩ := hstay fun hc => by cases hc
      rw [hslots, Slots.put_other fun hc => hx ⟨hc.1.symm, hc.2.symm⟩, hserving]
      exact ⟨hslot, hzero, .inr ⟨hslot, hne⟩⟩
  refine ⟨?_, hwait⟩
  have hle : ∀ g k, turns .read g n.hist = some k → k ≤ 1 := fun g k hk => by
    have hz := (hwait g (by rw [hk]; rfl)).2.1
    rw [hk] at hz
    rw [Option.some.inj hz]
    exact Nat.zero_le 1
  by_cases hop : req.mop = .read
  · refine h.extend hhist ?_ (decide_eq_false (by rw [hop]; decide)) rfl hle
    funext g
    rw [hslots, Slots.put_other fun hx => by rw [hop] at hx; cases hx.1]
  · have hop' := op_eq_write hop
    have hnone := hw hop'
    have hacc : n.hist.countP (Event.accepts .write) =
        m.hist.countP (Event.accepts .write) + 1 := by
      have he : Event.accepts .write (.accept req now) = true := decide_eq_true hop'
      rw [hhist, List.countP_append, List.countP_singleton, he]
      rfl
    have hans : n.hist.countP (Event.answers .write) = m.hist.countP (Event.answers .write) := by
      rw [hhist, List.countP_append]
      rfl
    have hone : n.OneWrite := by
      rcases h.oneWrite with ⟨_, hcount⟩ | ⟨⟨g, hg, _⟩, _⟩
      · refine .inr ⟨⟨req.id, ?_, fun g hg => ?_⟩, by omega⟩
        · rw [hslots, hop', Slots.put_self]
          rfl
        · rw [hslots, hop', Slots.put_other fun hc => hg hc.2]
          exact hnone g
      · rw [hnone] at hg
        cases hg
    have hle' := hone.le
    rw [hhist] at hle hle' ⊢
    exact ⟨prefix_concat h.bounded hle, prefix_concat h.writes hle', hone⟩

theorem Patient.recvReq (h : Patient none m) (hm : Consistent none m) {req : MemTrans}
    (hw : req.mop = .write → ∀ g, m.slots .write g = none) (hx : m.recvReq now req = .ok m') :
    Patient none m' := by
  unfold RAMArbiter.recvReq at hx
  dsimp only at hx
  obtain ⟨hid, hx⟩ := require_bind_eq_ok.mp hx
  obtain ⟨hfree, hx⟩ := require_bind_eq_ok.mp hx
  change (if (m.chan req.mop).busyUntil = infTime then
    (m.insert now req).serve now now req.mop req else .ok (m.insert now req)) = .ok m' at hx
  have hfree' : m.slots req.mop req.id = none := by
    rw [slots, hfree]
    rfl
  obtain ⟨⟨hbounded, hwrites, hone⟩, hwait⟩ := h.insert now hfree' hw
  split at hx
  · rename_i hidle
    have hreq : ((m.insert now req).chan req.mop).reqs req.id = some req := by
      unfold RAMArbiter.insert setChan
      dsimp only
      rw [Function.update_self]
      exact Function.update_self ..
    have hempty : ∀ g, m.slots req.mop g = none := fun g => by
      rw [slots, (hm.idle req.mop hidle).2 g]
      rfl
    have halone : req.mop = .read → ∀ g, ((m.insert now req).slots .read g).isSome →
        g = req.id := by
      intro hop g hg
      by_contra hne
      rw [slots_insert, Slots.put_other fun hc => hne hc.2, ← hop, hempty] at hg
      cases hg
    have hpat : Patient (some req.mop) (m.insert now req) := by
      refine ⟨hbounded, fun g hg => ?_, fun hc g g' hg hg' => ?_, hwrites, hone⟩
      · obtain ⟨hslot, hzero, hcase⟩ := hwait g hg
        refine ⟨hslot, fun hc => ⟨hzero, ?_⟩⟩
        rcases hcase with ⟨hop, _⟩ | ⟨_, hne⟩
        · exact absurd (congrArg some hop) hc
        · exact hne
      · have hop := Option.some.inj hc
        exact (halone hop g hg).trans (halone hop g' hg').symm
    exact hpat.serve hid hreq rfl hx
  · rename_i hbusy
    cases hx
    refine ⟨hbounded, fun g hg => ?_, fun hc => (by cases hc), hwrites, hone⟩
    obtain ⟨hslot, hzero, hcase⟩ := hwait g hg
    refine ⟨hslot, fun _ => ⟨hzero, ?_⟩⟩
    rcases hcase with ⟨hop, rfl⟩ | ⟨_, hne⟩
    · obtain ⟨req', hreq', _⟩ := hm.serving hbusy
      rw [insert_serving, ← hop]
      intro heq
      rw [heq, hfree] at hreq'
      cases hreq'
    · exact hne

theorem Patient.served_in_turn {comp : Option MemRWOpt} (h : Patient comp m) :
    BoundedWaiting m.hist :=
  ⟨fun _ _ _ _ _ hl hop hn => reads_of_turns h.bounded hl hop hn, h.writes⟩

end RAMArbiter

end NpSim.Mem
