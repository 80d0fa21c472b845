import BatmanAdv.ForwardOnce

/-!
# The reception windows

`last_real_seqno` and the windows of the neighbours are to say which OGMs of an originator were counted
since the last restart, and through whom. `Reception` is that record, kept from the OGMs alone. The code
agrees with it as long as a late OGM is found in a window: otherwise `last_real_seqno` follows it back and
leaves the windows where they are.
-/

namespace BatmanAdv

open Transition Sequence

variable {p : Platform} {g : Garbage p} {rx : Ogm} {s : State p} {e : Event p} {ptr : ℕ} {q : Seqno}

/-- The OGMs of an originator counted since the last restart, with the neighbour and the interface each
came through, and those of them that have been fewer than 64 behind the newest one ever since. -/
structure Reception where
  newest : Seqno
  counted : List (Seqno × Mac × ℕ)
  recent : List (Seqno × Mac × ℕ)

namespace Reception

def keepRecent (newest : Seqno) (l : List (Seqno × Mac × ℕ)) : List (Seqno × Mac × ℕ) :=
  l.filter fun c => (newest - c.1).toNat < 64

/-- One more OGM. One more than a window away starts over, as the first one does. -/
def receive (r : Reception) (q : Seqno) (neigh : Mac) (ifIncoming : ℕ) : Reception :=
  let d := (q - r.newest).toInt
  let newest := if 0 < d then q else r.newest
  if r.counted = [] ∨ ¬ (-64 ≤ d ∧ d ≤ 64) then ⟨q, [(q, neigh, ifIncoming)], [(q, neigh, ifIncoming)]⟩
  else
    { newest
      counted := (q, neigh, ifIncoming) :: r.counted
      recent := keepRecent newest ((q, neigh, ifIncoming) :: r.recent) }

/-- Sequence numbers go around: nothing counted that has left the window has the number, the neighbour
and the interface of one that is missing there. -/
def Fresh (r : Reception) : Prop :=
  ∀ c ∈ r.counted, (r.newest - c.1).toNat < 64 → c ∈ r.recent

instance (r : Reception) : Decidable r.Fresh :=
  inferInstanceAs (Decidable (∀ c ∈ r.counted, (r.newest - c.1).toNat < 64 → c ∈ r.recent))

def ofRun (ptr : ℕ) (tr : List (State p × Event p)) : Reception :=
  tr.foldl (fun r x =>
    match x.1.ogmFor ptr x.2 with
    | some rx => r.receive rx.pkt.seqno rx.neigh rx.ifIncoming
    | none => r) ⟨0, [], []⟩

theorem ofRun_snoc (ptr : ℕ) (tr : List (State p × Event p)) (x : State p × Event p) :
    ofRun ptr (tr ++ [x]) =
      match x.1.ogmFor ptr x.2 with
      | some rx => (ofRun ptr tr).receive rx.pkt.seqno rx.neigh rx.ifIncoming
      | none => ofRun ptr tr := by
  unfold ofRun
  rw [List.foldl_append]
  rfl

/-- What is recent is counted, and fewer than 64 behind the newest one. -/
structure Ok (r : Reception) : Prop where
  counted : ∀ c ∈ r.recent, c ∈ r.counted
  behind : ∀ c ∈ r.recent, ∃ age < 64, Behind r.newest c.1 age

theorem mem_keepRecent {newest : Seqno} {l : List (Seqno × Mac × ℕ)} {c : Seqno × Mac × ℕ} :
    c ∈ keepRecent newest l ↔ c ∈ l ∧ (newest - c.1).toNat < 64 := by
  unfold keepRecent
  rw [List.mem_filter, decide_eq_true_iff]

/-- What the window of a neighbour shows is recent. -/
theorem mem_keepRecent_iff {newest : Seqno} {l : List (Seqno × Mac × ℕ)} {i : ℕ} {b : Mac × ℕ}
    (hi : i < 64) :
    (newest - BitVec.ofNat 16 i, b) ∈ keepRecent newest l ↔ (newest - BitVec.ofNat 16 i, b) ∈ l := by
  have hage : newest - (newest - BitVec.ofNat 16 i) = BitVec.ofNat 16 i := by
    apply BitVec.eq_of_toNat_eq
    simp only [BitVec.toNat_sub, BitVec.toNat_ofNat]
    omega
  rw [mem_keepRecent, hage, BitVec.toNat_ofNat]
  exact and_iff_left (by omega)

theorem Ok.receive {r : Reception} (h : r.Ok) (q : Seqno) (neigh : Mac) (ifIncoming : ℕ) :
    (r.receive q neigh ifIncoming).Ok := by
  unfold Reception.receive
  dsimp only
  by_cases hfirst : r.counted = [] ∨ ¬ (-64 ≤ (q - r.newest).toInt ∧ (q - r.newest).toInt ≤ 64)
  · rw [if_pos hfirst]
    refine ⟨fun c hc => hc, fun c hc => ⟨0, by omega, ?_⟩⟩
    rw [List.mem_singleton.mp hc]
    exact .refl q
  · rw [if_neg hfirst]
    refine ⟨fun c hc => ?_, fun c hc => ?_⟩
    · have hmem := (mem_keepRecent.mp hc).1
      rw [List.mem_cons] at hmem ⊢
      exact hmem.imp_right (h.counted c)
    · refine ⟨_, (mem_keepRecent.mp hc).2, ?_⟩
      unfold Behind
      rw [BitVec.ofNat_toNat, BitVec.setWidth_eq, BitVec.add_comm c.1, BitVec.sub_add_cancel]

/-- In a fresh record what has left the window does not matter. -/
theorem Ok.mem_recent_iff {r : Reception} (h : r.Ok) (hfresh : r.Fresh) {i : ℕ} (hi : i < 64) (b : Mac × ℕ) :
    (r.newest - BitVec.ofNat 16 i, b) ∈ r.recent ↔ (r.newest - BitVec.ofNat 16 i, b) ∈ r.counted :=
  ⟨h.counted _, fun hc => hfresh _ hc
    (mem_keepRecent.mp ((mem_keepRecent_iff hi).mpr hc)).2⟩

end Reception

/-! ## One OGM -/

/-- The code counts this OGM as `Reception` does: no whole window is shifted out; the first OGM, if it is
late, is not found and leaves no mark, and any other late OGM is found in a window and marked exactly. -/
def OrigNode.Counts (front : ℕ → ℕ → p.Word) (o : OrigNode p) (r : Reception) (q : Seqno) (neigh : Mac)
    (ifIncoming : ℕ) : Prop :=
  ((q - o.lastRealSeqno).toInt = 64 → o.neighList = []) ∧
    (o.Late q → r.counted = [] →
      o.isDuplicate front q = false ∧ o.neighVia neigh ifIncoming = none) ∧
    (o.Late q → r.counted ≠ [] → o.isDuplicate front q = true ∧
      (p.wordBitSize = 32 ∨ -31 < (q - o.lastRealSeqno).toInt ∨
        o.neighVia neigh ifIncoming = none))

instance (front : ℕ → ℕ → p.Word) (o : OrigNode p) (r : Reception) (q : Seqno) (neigh : Mac)
    (ifIncoming : ℕ) : Decidable (o.Counts front r q neigh ifIncoming) :=
  inferInstanceAs (Decidable (_ ∧ (_ → _ → _) ∧ (_ → _ → _)))

/-- Every OGM that is counted for the entry is counted as `Reception` does. -/
def FitsReception (ptr : ℕ) (r : Reception) (x : State p × Event p) : Prop :=
  match x.2 with
  | .ogm g rx => x.1.ogmFor ptr x.2 = some rx →
    (x.1.origAt ptr).Counts g.front r rx.pkt.seqno rx.neigh rx.ifIncoming
  | _ => True

instance (ptr : ℕ) (r : Reception) (x : State p × Event p) : Decidable (FitsReception ptr r x) :=
  match x with
  | (_, .ogm _ _) => inferInstanceAs (Decidable (_ → _))
  | (_, .bcast _ _) => isTrue trivial
  | (_, .tap _ _) => isTrue trivial
  | (_, .clock _) => isTrue trivial
  | (_, .hnaUpdate) => isTrue trivial
  | (_, .purge _ _ _) => isTrue trivial
  | (_, .sendBegin _) => isTrue trivial
  | (_, .sendNext _ _) => isTrue trivial

/-- The window of a neighbour is what was counted through it lately. -/
def NeighNode.Agrees (r : Reception) (n : NeighNode p) : Prop :=
  ∀ i < 64, winBit n.realBits i = true ↔
    (r.newest - BitVec.ofNat 16 i, n.addr, n.ifIncoming) ∈ r.recent

/-- The newest sequence number and the windows of the neighbours `ptrs` are those of the record. -/
structure OrigNode.Agrees (ptrs : List ℕ) (r : Reception) (o : OrigNode p) : Prop where
  ok : r.Ok
  newest : r.counted ≠ [] → o.lastRealSeqno = r.newest
  window : ∀ n ∈ o.neighList, n.ptr ∈ ptrs → n.Agrees r

/-! ### What an OGM makes of a window -/

section Window

variable {r : Reception} {n n' : NeighNode p} {neigh : Mac} {ifIncoming : ℕ}

theorem NeighNode.agrees_first (haddr : n'.addr = n.addr) (hif : n'.ifIncoming = n.ifIncoming)
    (hbits : ∀ i < 64, winBit n'.realBits i = (n.isVia neigh ifIncoming && decide (i = 0))) :
    n'.Agrees ⟨q, [(q, neigh, ifIncoming)], [(q, neigh, ifIncoming)]⟩ := by
  intro i hi
  rw [hbits i hi, Bool.and_eq_true, decide_eq_true_iff, NeighNode.isVia_iff, List.mem_singleton,
    Prod.mk.injEq, Prod.mk.injEq, haddr, hif]
  dsimp only
  have hzero : i = 0 ↔ q - BitVec.ofNat 16 i = q := by
    rw [eq_comm (b := q), ← behind_iff]
    constructor
    · rintro rfl
      exact .refl q
    · exact fun h => h.unique (.refl q) (by omega) (by omega)
  rw [hzero]
  tauto

theorem NeighNode.Agrees.forward (h : n.Agrees r) (hok : r.Ok) (front : ℕ → ℕ → p.Word)
    (h0 : 0 ≤ (q - r.newest).toInt) (h64 : (q - r.newest).toInt < 64) (counted : List (Seqno × Mac × ℕ)) :
    (n.countPacket front (q - r.newest).toInt (n.isVia neigh ifIncoming)).Agrees
      ⟨q, counted, Reception.keepRecent q ((q, neigh, ifIncoming) :: r.recent)⟩ := by
  intro i hi
  show _ ↔ (q - BitVec.ofNat 16 i, _) ∈ _
  rw [Reception.mem_keepRecent_iff hi]
  have hmoved := behind_of_nonneg h0
  have hnat : (q - r.newest).toInt = ((q - r.newest).toInt.toNat : ℤ) := by omega
  generalize (q - r.newest).toInt.toNat = d at hmoved hnat
  unfold NeighNode.countPacket
  dsimp only
  rw [hnat, winBit_bitGetPacket_forward _ _ _ (by omega) hi, Bool.or_eq_true, Bool.and_eq_true,
    Bool.and_eq_true, decide_eq_true_iff, decide_eq_true_iff, NeighNode.isVia_iff, List.mem_cons,
    Prod.mk.injEq, Prod.mk.injEq]
  refine or_congr ?_ ?_
  · have hzero : i = 0 ↔ q - BitVec.ofNat 16 i = q := by
      rw [eq_comm (b := q), ← behind_iff]
      constructor
      · rintro rfl
        exact .refl q
      · exact fun h => h.unique (.refl q) (by omega) (by omega)
    rw [hzero]
    tauto
  · by_cases hle : d ≤ i
    · have hseqno : q - BitVec.ofNat 16 i = r.newest - BitVec.ofNat 16 (i - d) := by
        have hbehind : Behind r.newest (r.newest - BitVec.ofNat 16 (i - d)) (i - d) := behind_iff.mpr rfl
        have := behind_iff.mp (hmoved.trans hbehind)
        rw [show d + (i - d) = i by omega] at this
        exact this.symm
      rw [hseqno, h (i - d) (by omega)]
      exact and_iff_right hle
    · refine iff_of_false (fun hand => hle hand.1) fun hmem => ?_
      -- it would be ahead of the newest one
      obtain ⟨age, hage, hbehind⟩ := hok.behind _ hmem
      have hfar := hmoved.trans hbehind
      have := hfar.unique (behind_iff.mpr rfl) (by omega) (by omega)
      omega

theorem NeighNode.Agrees.late (h : n.Agrees r) (front : ℕ → ℕ → p.Word)
    (hneg : (q - r.newest).toInt < 0) (hnear : -64 < (q - r.newest).toInt)
    (hexact : n.isVia neigh ifIncoming = true → p.wordBitSize = 32 ∨ -31 < (q - r.newest).toInt)
    (counted : List (Seqno × Mac × ℕ)) :
    (n.countPacket front (q - r.newest).toInt (n.isVia neigh ifIncoming)).Agrees
      ⟨r.newest, counted, Reception.keepRecent r.newest ((q, neigh, ifIncoming) :: r.recent)⟩ := by
  intro i hi
  show _ ↔ (r.newest - BitVec.ofNat 16 i, _) ∈ _
  rw [Reception.mem_keepRecent_iff hi]
  have hbehind := behind_of_nonpos hneg.le
  have hnat : (q - r.newest).toInt = -((-(q - r.newest).toInt).toNat : ℤ) := by omega
  generalize (-(q - r.newest).toInt).toNat = age at hbehind hnat
  have hbits : winBit (n.countPacket front (q - r.newest).toInt (n.isVia neigh ifIncoming)).realBits i =
      (winBit n.realBits i || (n.isVia neigh ifIncoming && decide (i = age))) := by
    unfold NeighNode.countPacket
    dsimp only
    rw [hnat]
    cases hvia : n.isVia neigh ifIncoming with
    | true =>
      refine winBit_bitGetPacket_late _ _ true (by omega) (by omega) ?_
      rcases hexact hvia with h32 | hlt
      · exact .inl h32
      · exact .inr (by omega)
    | false =>
      rw [bitGetPacket_late _ _ false (by omega) (by omega)]
      simp
  have hage : i = age ↔ r.newest - BitVec.ofNat 16 i = q := by
    rw [eq_comm (b := q), ← behind_iff]
    constructor
    · rintro rfl
      exact hbehind
    · exact fun h => h.unique hbehind (by omega) (by omega)
  rw [hbits, Bool.or_eq_true, Bool.and_eq_true, decide_eq_true_iff, NeighNode.isVia_iff, List.mem_cons,
    Prod.mk.injEq, Prod.mk.injEq, h i hi, or_comm]
  refine or_congr ?_ Iff.rfl
  show _ ↔ r.newest - BitVec.ofNat 16 i = q ∧ n.addr = neigh ∧ n.ifIncoming = ifIncoming
  rw [hage]
  tauto

end Window

/-! ## The entry -/

theorem Reception.receive_first {r : Reception} {neigh : Mac} {ifIncoming : ℕ}
    (h : r.counted = [] ∨ ¬ (-64 ≤ (q - r.newest).toInt ∧ (q - r.newest).toInt ≤ 64)) :
    r.receive q neigh ifIncoming = ⟨q, [(q, neigh, ifIncoming)], [(q, neigh, ifIncoming)]⟩ := if_pos h

theorem Reception.receive_next {r : Reception} {neigh : Mac} {ifIncoming : ℕ}
    (h : ¬ (r.counted = [] ∨ ¬ (-64 ≤ (q - r.newest).toInt ∧ (q - r.newest).toInt ≤ 64))) :
    r.receive q neigh ifIncoming =
      { newest := if 0 < (q - r.newest).toInt then q else r.newest
        counted := (q, neigh, ifIncoming) :: r.counted
        recent := Reception.keepRecent (if 0 < (q - r.newest).toInt then q else r.newest)
          ((q, neigh, ifIncoming) :: r.recent) } := if_neg h

namespace OrigNode

variable {o : OrigNode p} {ptrs : List ℕ} {r : Reception} {front : ℕ → ℕ → p.Word} {neigh : Mac}
  {ifIncoming : ℕ}

/-- Nothing counted, nothing recent. -/
theorem Agrees.not_recent (h : o.Agrees ptrs r) (hnil : r.counted = []) {c : Seqno × Mac × ℕ} :
    c ∉ r.recent := by
  intro hc
  have := h.ok.counted c hc
  rw [hnil] at this
  exact List.not_mem_nil this

theorem mem_countPacket_iff {n' : NeighNode p} :
    n' ∈ (o.countPacket front neigh ifIncoming q).neighList ↔ ∃ n ∈ o.neighList,
      n.countPacket front (q - o.lastRealSeqno).toInt (n.isVia neigh ifIncoming) = n' :=
  List.mem_map

theorem Agrees.empty (h : o.Agrees ptrs r) (hnil : r.counted = []) {n : NeighNode p} (hn : n ∈ o.neighList)
    (hptr : n.ptr ∈ ptrs) : ∀ i < 64, winBit n.realBits i = false := by
  intro i hi
  have := (h.window n hn hptr i hi).not.mpr (h.not_recent hnil)
  simpa using this

/-- The first OGM is late, and leaves no mark. -/
theorem Agrees.restart_late (h : o.Agrees ptrs r) (hnil : r.counted = []) (hlate : o.Late q)
    (hnone : o.neighVia neigh ifIncoming = none) :
    ∀ n' ∈ (o.countPacket front neigh ifIncoming q).neighList, n'.ptr ∈ ptrs →
      n'.Agrees ⟨q, [(q, neigh, ifIncoming)], [(q, neigh, ifIncoming)]⟩ := by
  intro n' hn' hptr
  obtain ⟨n, hn, rfl⟩ := mem_countPacket_iff.mp hn'
  have hvia : n.isVia neigh ifIncoming = false := by
    rw [Bool.eq_false_iff, Ne, NeighNode.isVia_iff]
    exact OrigNode.neighVia_none hnone n hn
  refine NeighNode.agrees_first (n := n) rfl rfl fun i hi => ?_
  have hzero := h.empty hnil hn hptr i hi
  unfold NeighNode.countPacket
  rw [hvia, bitGetPacket_late _ _ false hlate.2 hlate.1]
  simpa using hzero

/-- The window starts over, or was empty. -/
theorem Agrees.restart_ahead (h : o.Agrees ptrs r) (hlate : ¬ o.Late q)
    (hwhole : (q - o.lastRealSeqno).toInt = 64 → o.neighList = [])
    (hfirst : r.counted = [] ∨ ¬ (-64 ≤ (q - r.newest).toInt ∧ (q - r.newest).toInt ≤ 64)) :
    ∀ n' ∈ (o.countPacket front neigh ifIncoming q).neighList, n'.ptr ∈ ptrs →
      n'.Agrees ⟨q, [(q, neigh, ifIncoming)], [(q, neigh, ifIncoming)]⟩ := by
  intro n' hn' hptr
  obtain ⟨n, hn, rfl⟩ := mem_countPacket_iff.mp hn'
  have hne64 : (q - o.lastRealSeqno).toInt ≠ 64 := by
    intro h64
    rw [hwhole h64] at hn
    exact List.not_mem_nil hn
  refine NeighNode.agrees_first (n := n) rfl rfl fun i hi => ?_
  unfold NeighNode.countPacket
  dsimp only
  by_cases hfar : 64 < (q - o.lastRealSeqno).toInt ∨ (q - o.lastRealSeqno).toInt < -64
  · exact winBit_bitGetPacket_restart _ _ _ hfar hi
  · have h0 : 0 ≤ (q - o.lastRealSeqno).toInt := by
      by_contra hneg
      exact hlate ⟨by omega, by omega⟩
    have hnil : r.counted = [] := by
      rcases hfirst with hnil | hout
      · exact hnil
      · by_contra hne
        rw [← h.newest hne] at hout
        omega
    have hnat : (q - o.lastRealSeqno).toInt = ((q - o.lastRealSeqno).toInt.toNat : ℤ) := by omega
    rw [hnat, winBit_bitGetPacket_forward _ _ _ (by omega) hi, h.empty hnil hn hptr _ (by omega), Bool.and_false,
      Bool.or_false]

/-- The record starts over, and so do the windows. -/
theorem Agrees.restart (h : o.Agrees ptrs r) (hcounts : o.Counts front r q neigh ifIncoming)
    (hfirst : r.counted = [] ∨ ¬ (-64 ≤ (q - r.newest).toInt ∧ (q - r.newest).toInt ≤ 64)) :
    (o.countPacket front neigh ifIncoming q).Agrees ptrs (r.receive q neigh ifIncoming) := by
  obtain ⟨hwhole, hlateFirst, -⟩ := hcounts
  have hok := h.ok.receive q neigh ifIncoming
  rw [Reception.receive_first hfirst] at hok ⊢
  by_cases hlate : o.Late q
  · -- only the first OGM can be late
    have hnil : r.counted = [] := by
      rcases hfirst with hnil | hfar
      · exact hnil
      · by_contra hne
        rw [← h.newest hne] at hfar
        exact hfar ⟨hlate.1, hlate.2.le.trans (by decide)⟩
    obtain ⟨hdup, hnone⟩ := hlateFirst hlate hnil
    refine ⟨hok, fun _ => ?_, h.restart_late hnil hlate hnone⟩
    unfold OrigNode.countPacket
    rw [hdup]
    rfl
  · exact ⟨hok, fun _ => o.lastRealSeqno_countPacket _ _ _ hlate, h.restart_ahead hlate hwhole hfirst⟩

theorem Agrees.next (h : o.Agrees ptrs r) (hcounts : o.Counts front r q neigh ifIncoming)
    (hnext : ¬ (r.counted = [] ∨ ¬ (-64 ≤ (q - r.newest).toInt ∧ (q - r.newest).toInt ≤ 64))) :
    (o.countPacket front neigh ifIncoming q).Agrees ptrs (r.receive q neigh ifIncoming) := by
  obtain ⟨hwhole, _, hlateNext⟩ := hcounts
  have hok := h.ok.receive q neigh ifIncoming
  obtain ⟨hne, hnear⟩ := not_or.mp hnext
  have hnear := not_not.mp hnear
  have hlast := h.newest hne
  rw [Reception.receive_next hnext] at hok ⊢
  by_cases hlate : o.Late q
  · obtain ⟨hdup, hexact⟩ := hlateNext hlate hne
    have hstay : (o.countPacket front neigh ifIncoming q).lastRealSeqno = r.newest := by
      unfold OrigNode.countPacket
      rw [if_pos hdup, hlast]
    have hlow := (OrigNode.near_of_isDuplicate hdup).1
    have hneg := hlate.2
    rw [hlast] at hlow hneg hexact
    rw [if_neg (not_lt.mpr hneg.le)] at hok ⊢
    refine ⟨hok, fun _ => hstay, fun n' hn' hptr => ?_⟩
    obtain ⟨n, hn, rfl⟩ := mem_countPacket_iff.mp hn'
    rw [hlast]
    refine (h.window n hn hptr).late _ hneg hlow (fun hvia => ?_) _
    rcases hexact with h32 | hlt | hnone
    · exact .inl h32
    · exact .inr hlt
    · exact absurd (NeighNode.isVia_iff.mp hvia) (OrigNode.neighVia_none hnone n hn)
  · have h0 : 0 ≤ (q - r.newest).toInt := by
      by_contra hneg
      rw [← hlast] at hneg hnear
      exact hlate ⟨hnear.1, by omega⟩
    have hnewest : (if 0 < (q - r.newest).toInt then q else r.newest) = q := by
      split_ifs with hpos
      · rfl
      · have hbehind := behind_of_nonneg h0
        rw [show (q - r.newest).toInt.toNat = 0 by omega] at hbehind
        unfold Behind at hbehind
        rw [hbehind, BitVec.add_zero]
    rw [hnewest] at hok ⊢
    refine ⟨hok, fun _ => o.lastRealSeqno_countPacket _ _ _ hlate, fun n' hn' hptr => ?_⟩
    obtain ⟨n, hn, rfl⟩ := mem_countPacket_iff.mp hn'
    have hne64 : (q - r.newest).toInt ≠ 64 := by
      intro h64
      rw [← hlast] at h64
      rw [hwhole h64] at hn
      exact List.not_mem_nil hn
    rw [hlast]
    exact (h.window n hn hptr).forward h.ok _ h0 (by omega) _

theorem Agrees.countPacket (h : o.Agrees ptrs r) (hcounts : o.Counts front r q neigh ifIncoming) :
    (o.countPacket front neigh ifIncoming q).Agrees ptrs (r.receive q neigh ifIncoming) := by
  by_cases hfirst : r.counted = [] ∨ ¬ (-64 ≤ (q - r.newest).toInt ∧ (q - r.newest).toInt ≤ 64)
  · exact h.restart hcounts hfirst
  · exact h.next hcounts hfirst

theorem Agrees.of_sameWindows {o' : OrigNode p} {next : ℕ} (h : o.Agrees ptrs r)
    (hsame : o.SameWindows next o') (hptrs : ∀ ptr ∈ ptrs, ptr < next) : o'.Agrees ptrs r := by
  refine ⟨h.ok, fun hne => hsame.lastRealSeqno.trans (h.newest hne), fun n' hn' hptr => ?_⟩
  rcases hsame.mem n' hn' with ⟨n, hn, hlink⟩ | ⟨hnew, _⟩
  · have hagrees := h.window n hn (hlink.ptr ▸ hptr)
    intro i hi
    rw [hlink.realBits, hlink.addr, hlink.ifIncoming]
    exact hagrees i hi
  · exact absurd (hptrs _ hptr) (not_lt.mpr hnew)

theorem Agrees.step {o' : OrigNode p} (h : o.Agrees ptrs r) (hs : s.Wf) (ho : o ∈ s.origs)
    (hptr : o.ptr = ptr) (hptrs : ∀ ptr ∈ ptrs, ptr < s.nextPtr) (hfits : FitsReception ptr r (s, e))
    (hstepped : o.Stepped s e o') :
    o'.Agrees ptrs (match s.ogmFor ptr e with
      | some rx => r.receive rx.pkt.seqno rx.neigh rx.ifIncoming
      | none => r) := by
  subst hptr
  cases hstepped with
  | count g rx he hfor hsame =>
    subst he
    unfold FitsReception at hfits
    dsimp only at hfits
    rw [hs.origAt_of_mem ho] at hfits
    rw [hfor]
    exact (h.countPacket (hfits hfor)).of_sameWindows hsame hptrs
  | bcast g frame he hfor hnew heq =>
    subst he
    rw [heq]
    exact ⟨h.ok, h.newest, h.window⟩
  | purge g currTime gwTime he hkept hpurged =>
    subst he
    refine ⟨h.ok, fun hne => ?_, fun n hn hptr => ?_⟩
    · rw [hpurged, OrigNode.purge_frame]
      exact h.newest hne
    · rw [hpurged.neighList] at hn
      exact h.window n (List.mem_filter.mp hn).1 hptr
  | same hogm hbcast hsame =>
    rw [hogm]
    exact h.of_sameWindows hsame hptrs

end OrigNode

/-! ## Runs -/

/-- The windows of all neighbours of an entry are empty. -/
def State.EmptyWindows (s : State p) (ptr : ℕ) : Prop :=
  ∀ n ∈ (s.origAt ptr).neighList, ∀ i < 64, winBit n.realBits i = false

instance (s : State p) (ptr : ℕ) : Decidable (s.EmptyWindows ptr) :=
  inferInstanceAs (Decidable (∀ n ∈ (s.origAt ptr).neighList, ∀ i < 64, winBit n.realBits i = false))

/-- **The reception windows.** From a state in which the windows of an entry are empty, in every run whose
OGMs are counted as `Reception` does, `last_real_seqno` is the newest sequence number counted since the
last restart, and, once the record is fresh, the window of a neighbour that is there throughout has exactly
the OGMs counted through it since then. -/
theorem reception_window {cfg : Config} {before tr : List (State p × Event p)} {t : State p}
    (hstart : Run p cfg before t) (hat : ∃ o ∈ t.origs, o.ptr = ptr)
    (hempty : t.EmptyWindows ptr)
    (h : Trace step t tr s)
    (hfits : ∀ pre x post, tr = pre ++ x :: post → FitsReception ptr (Reception.ofRun ptr pre) x)
    (hfresh : (Reception.ofRun ptr tr).Fresh) :
    ∀ o ∈ s.origs, o.ptr = ptr →
      ((Reception.ofRun ptr tr).counted ≠ [] → o.lastRealSeqno = (Reception.ofRun ptr tr).newest) ∧
        ∀ n ∈ o.neighList, (∃ n0 ∈ (t.origAt ptr).neighList, n0.ptr = n.ptr) → ∀ i < 64,
          (winBit n.realBits i = true ↔
            (o.lastRealSeqno - BitVec.ofNat 16 i, n.addr, n.ifIncoming) ∈
              (Reception.ofRun ptr tr).counted) := by
  have hs := Run.wf hstart
  obtain ⟨e, he, heptr⟩ := hat
  have hread : t.origAt ptr = e := by rw [← heptr, hs.origAt_of_mem he]
  unfold State.EmptyWindows at hempty
  rw [hread] at hempty ⊢
  have hptrs : ∀ a ∈ e.neighList.map (·.ptr), a < t.nextPtr := by
    intro a ha
    obtain ⟨n, hn, rfl⟩ := List.mem_map.mp ha
    exact (hs.node e he).neigh_lt n hn
  have hinv := entry_invariant (G := fun pre t e => FitsReception ptr (Reception.ofRun ptr pre) (t, e))
    (I := fun pre o => o.Agrees (e.neighList.map (·.ptr)) (Reception.ofRun ptr pre)) h hs
    (heptr ▸ (hs.node e he).ptr_lt) ?_ ?_ hfits
  · intro o ho hptr
    have hagrees := hinv.2.2 o ho hptr
    refine ⟨hagrees.newest, fun n hn ⟨n0, hn0, hptr0⟩ i hi => ?_⟩
    have hwindow := hagrees.window n hn (hptr0 ▸ List.mem_map_of_mem hn0) i hi
    by_cases hnil : (Reception.ofRun ptr tr).counted = []
    · rw [hwindow, hnil]
      exact iff_of_false (hagrees.not_recent hnil) List.not_mem_nil
    · rw [hwindow, hagrees.newest hnil]
      exact hagrees.ok.mem_recent_iff hfresh hi _
  · intro o ho hptr
    obtain rfl := hs.eq_of_ptr ho he (hptr.trans heptr.symm)
    refine ⟨⟨fun c hc => absurd hc List.not_mem_nil, fun c hc => absurd hc List.not_mem_nil⟩,
      fun hne => absurd rfl hne, ?_⟩
    intro n hn _ i hi
    rw [hempty n hn i hi]
    exact iff_of_false Bool.false_ne_true List.not_mem_nil
  · intro pre t' e' o o' ht hle ho hptr hI hG hstepped
    rw [Reception.ofRun_snoc]
    exact hI.step ht ho hptr (fun a ha => (hptrs a ha).trans_le hle) hG hstepped

/-- The entry of `C` is there, two steps are counted as `Reception` does, and the record is fresh. -/
def Net.fitsTwo (tr : List (State Net.p64 × Event Net.p64)) (s : State Net.p64) : Bool :=
  match tr with
  | [x, y] => decide ((∃ o ∈ s.origs, o.ptr = 8) ∧ (Reception.ofRun 8 [x, y]).counted ≠ [] ∧
      (Reception.ofRun 8 [x, y]).Fresh ∧
      FitsReception 8 (Reception.ofRun (p := Net.p64) 8 []) x ∧ FitsReception 8 (Reception.ofRun 8 [x]) y)
  | _ => false

/-- Two OGMs in order. -/
theorem reception_window_inOrder : ∃ before t tr s, Run Net.p64 Net.cfg before t ∧
    before.map Prod.snd = Net.linkUp Net.p64 ++ [Net.viaA 1 1400] ∧ Trace step t tr s ∧
    tr.map Prod.snd = [Net.viaA 10 1500, Net.viaA 11 1600] ∧
    ∃ o ∈ s.origs, o.ptr = 8 ∧ o.lastRealSeqno = (Reception.ofRun 8 tr).newest ∧
      ∀ n ∈ o.neighList, (∃ n0 ∈ (t.origAt 8).neighList, n0.ptr = n.ptr) → ∀ i < 64,
        (winBit n.realBits i = true ↔
          (o.lastRealSeqno - BitVec.ofNat 16 i, n.addr, n.ifIncoming) ∈
            (Reception.ofRun 8 tr).counted) := by
  obtain ⟨before, t, hstart, hevents, hcheck⟩ := Run.of_exec Net.cfg
    (Net.linkUp Net.p64 ++ [Net.viaA 1 1400])
    (fun _ (t : State Net.p64) => decide ((∃ o ∈ t.origs, o.ptr = 8) ∧ t.EmptyWindows 8) &&
      (exec step t [Net.viaA 10 1500, Net.viaA 11 1600]).any
        (fun (r : List (State Net.p64 × Event Net.p64) × State Net.p64) => Net.fitsTwo r.1 r.2))
    (by decide +kernel)
  obtain ⟨hzero, hrest⟩ := (Bool.and_eq_true _ _).mp hcheck
  obtain ⟨hat, hempty⟩ := of_decide_eq_true hzero
  obtain ⟨tr, s, hrun, htr, hfits⟩ := Trace.exists_of_exec hrest
  rcases tr with _ | ⟨x, _ | ⟨y, _ | ⟨z, tr⟩⟩⟩
  · cases hfits
  · cases hfits
  · obtain ⟨⟨o, ho, hptr⟩, hne, hfresh, hx, hy⟩ := of_decide_eq_true hfits
    have hwindow := reception_window hstart hat hempty hrun (by
      intro pre w post heq
      rcases pre with _ | ⟨a, _ | ⟨b, pre⟩⟩
      · cases heq
        exact hx
      · cases heq
        exact hy
      · simp at heq) hfresh o ho hptr
    exact ⟨before, t, _, s, hstart, hevents, hrun, htr, o, ho, hptr, hwindow.1 hne, hwindow.2⟩
  · cases hfits

/-- The entry of `C` says 5 where 10 is the newest one. -/
def Net.behindNewest (tr : List (State Net.p64 × Event Net.p64)) (s : State Net.p64) : Bool :=
  decide (∃ o ∈ s.origs, o.ptr = 8 ∧ (Reception.ofRun 8 tr).counted ≠ [] ∧ o.lastRealSeqno = 5 ∧
    (Reception.ofRun 8 tr).newest = 10)

/-- A late OGM that was not received before takes `last_real_seqno` back. -/
theorem reception_window_late : ∃ before t tr s, Run Net.p64 Net.cfg before t ∧
    before.map Prod.snd = Net.linkUp Net.p64 ++ [Net.viaA 1 1400] ∧ t.EmptyWindows 8 ∧
    Trace step t tr s ∧ tr.map Prod.snd = [Net.viaA 10 1500, Net.viaA 5 1600] ∧
    ∃ o ∈ s.origs, o.ptr = 8 ∧ (Reception.ofRun 8 tr).counted ≠ [] ∧ o.lastRealSeqno = 5 ∧
      (Reception.ofRun 8 tr).newest = 10 := by
  obtain ⟨before, t, hstart, hevents, hcheck⟩ := Run.of_exec Net.cfg
    (Net.linkUp Net.p64 ++ [Net.viaA 1 1400])
    (fun _ (t : State Net.p64) => decide (t.EmptyWindows 8) &&
      (exec step t [Net.viaA 10 1500, Net.viaA 5 1600]).any
        (fun (r : List (State Net.p64 × Event Net.p64) × State Net.p64) => Net.behindNewest r.1 r.2))
    (by decide +kernel)
  obtain ⟨hzero, hrest⟩ := (Bool.and_eq_true _ _).mp hcheck
  obtain ⟨tr, s, hrun, htr, hlate⟩ := Trace.exists_of_exec hrest
  exact ⟨before, t, tr, s, hstart, hevents, of_decide_eq_true hzero, hrun, htr,
    of_decide_eq_true hlate⟩

end BatmanAdv
