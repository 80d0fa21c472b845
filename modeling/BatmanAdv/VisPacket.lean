import BatmanAdv.Reachable
import Mathlib.Data.List.GetD

/-!
# The packet for the visualisation server (`generate_vis_packet`)

A header, and records of eight bytes: the neighbours, the other interfaces of the node, the hosts it
announces. The buffer grows record by record; its size is a `uint16_t`, and a record is written at a distance
from the end. The comparison that is to leave out the primary interface leaves out all others.
-/

namespace BatmanAdv

variable {p : Platform}

/-! ## Records -/

def dataTypeNeigh : Byte := 1
def dataTypeSecIf : Byte := 2
def dataTypeHna : Byte := 3
def visCompatVersion : Byte := 128 ||| 20

def visPacketHeaderSize : ℕ := 11

def visDataSize : ℕ := 8

structure VisData where
  type : Byte
  data : Byte
  mac : Mac
  deriving DecidableEq

def VisData.bytes (record : VisData) : List Byte := [record.type, record.data] ++ record.mac.bytes

theorem VisData.length_bytes (record : VisData) : record.bytes.length = visDataSize := rfl

theorem VisData.bytes_injective : Function.Injective VisData.bytes := by
  rintro ⟨type, data, mac⟩ ⟨type', data', mac'⟩ h
  unfold VisData.bytes Mac.bytes at h
  cases mac
  cases mac'
  simp only [List.cons_append, List.nil_append, List.cons.injEq, and_true] at h
  simp only [VisData.mk.injEq, Mac.mk.injEq]
  exact h

/-- The records as they lie behind the header. -/
def visBytes (records : List VisData) : List Byte := records.flatMap VisData.bytes

theorem length_visBytes (records : List VisData) :
    (visBytes records).length = visDataSize * records.length := by
  induction records with
  | nil => rfl
  | cons record records ih =>
    rw [visBytes, List.flatMap_cons, List.length_append, VisData.length_bytes, ← visBytes, ih, List.length_cons,
      Nat.mul_succ, Nat.add_comm]

theorem visBytes_injective {records records' : List VisData} (h : visBytes records = visBytes records') :
    records = records' := by
  induction records generalizing records' with
  | nil =>
    cases records' with
    | nil => rfl
    | cons _ _ => cases h
  | cons record records ih =>
    cases records' with
    | nil => cases h
    | cons record' records' =>
      unfold visBytes at h
      rw [List.flatMap_cons, List.flatMap_cons] at h
      obtain ⟨hhead, htail⟩ := List.append_inj h rfl
      rw [VisData.bytes_injective hhead, ih htail]

/-! ## The buffer -/

structure VisPacket where
  buff : List Byte
  size : BitVec 16

/-- `debugRealloc`: what is new has any content. -/
def VisPacket.realloc (v : VisPacket) (junk : ℕ → Byte) (size : BitVec 16) : VisPacket :=
  ⟨(List.range size.toNat).map fun i => v.buff.getD i (junk i), size⟩

/-- A record is written at `vis_packet + at`. -/
def VisPacket.write (v : VisPacket) (at_ : ℕ) (record : VisData) : VisPacket :=
  { v with buff := v.buff.take at_ ++ record.bytes ++ v.buff.drop (at_ + visDataSize) }

/-- One more record, as for neighbours and interfaces. -/
def VisPacket.add (junk : ℕ → Byte) (v : VisPacket) (record : VisData) : VisPacket :=
  let v := v.realloc junk (v.size + BitVec.ofNat 16 visDataSize)
  v.write (v.size.toNat - visDataSize) record

/-- The records of the hosts: the buffer grows once for all of them. -/
def VisPacket.addHosts (junk : ℕ → Byte) (v : VisPacket) (numHna : ℕ) (record : ℕ → VisData) : VisPacket :=
  let v := v.realloc junk (v.size + BitVec.ofNat 16 (visDataSize * numHna))
  (List.range numHna).foldl (fun v i => v.write (v.size.toNat - (numHna - i) * visDataSize) (record i)) v

/-- The buffer is as long as its size, and has these records behind the header. -/
def VisPacket.Has (v : VisPacket) (header : List Byte) (records : List VisData) : Prop :=
  v.buff = header ++ visBytes records ∧ v.size.toNat = v.buff.length

variable {v : VisPacket} {junk : ℕ → Byte} {header : List Byte} {records : List VisData} {record : VisData}

theorem VisPacket.realloc_buff (v : VisPacket) (junk : ℕ → Byte) {size : BitVec 16}
    (h : v.buff.length ≤ size.toNat) :
    ∃ new, new.length = size.toNat - v.buff.length ∧ (v.realloc junk size).buff = v.buff ++ new := by
  refine ⟨(List.range' v.buff.length (size.toNat - v.buff.length)).map junk, by simp, ?_⟩
  apply List.ext_getElem
  · simp [VisPacket.realloc]
    omega
  · intro i hi hi'
    simp only [VisPacket.realloc, List.getElem_map, List.getElem_range]
    by_cases hold : i < v.buff.length
    · rw [List.getElem_append_left hold, List.getD_eq_getElem _ _ hold]
    · rw [List.getElem_append_right (by omega), List.getD_eq_default _ _ (by omega)]
      simp only [List.getElem_map, List.getElem_range']
      congr 1
      omega

theorem VisPacket.toNat_add {k : ℕ} (h : v.size.toNat + k < 2 ^ 16) :
    (v.size + BitVec.ofNat 16 k).toNat = v.size.toNat + k := by
  rw [BitVec.toNat_add, BitVec.toNat_ofNat]
  omega

theorem VisPacket.write_buff {before gap after : List Byte} (hbuff : v.buff = before ++ gap ++ after)
    (hgap : gap.length = visDataSize) :
    (v.write before.length record).buff = before ++ record.bytes ++ after := by
  unfold VisPacket.write
  dsimp only
  rw [hbuff, List.append_assoc before gap after, List.take_left, ← hgap, ← List.length_append,
    ← List.append_assoc before gap after, List.drop_left]

theorem VisPacket.foldl_write {numHna : ℕ} {before gap : List Byte} (record : ℕ → VisData)
    (hbuff : v.buff = before ++ gap) (hgap : gap.length = visDataSize * numHna)
    (hsize : v.size.toNat = v.buff.length) (k : ℕ) (hk : k ≤ numHna) :
    let v' := (List.range k).foldl
      (fun v i => v.write (v.size.toNat - (numHna - i) * visDataSize) (record i)) v
    v'.size = v.size ∧
      v'.buff = before ++ visBytes ((List.range k).map record) ++ gap.drop (visDataSize * k) := by
  intro v'
  induction k with
  | zero => exact ⟨rfl, by simp [v', hbuff, visBytes]⟩
  | succ k ih =>
    obtain ⟨hsame, hwritten⟩ := ih (by omega)
    simp only [v', List.range_succ, List.foldl_append, List.foldl_cons, List.foldl_nil]
    set u := (List.range k).foldl
      (fun v i => v.write (v.size.toNat - (numHna - i) * visDataSize) (record i)) v
    refine ⟨hsame, ?_⟩
    have hat : u.size.toNat - (numHna - k) * visDataSize =
        (before ++ visBytes ((List.range k).map record)).length := by
      rw [hsame, hsize, hbuff, List.length_append, List.length_append, length_visBytes, hgap, List.length_map,
        List.length_range]
      unfold visDataSize
      omega
    have hsplit : gap.drop (visDataSize * k) =
        (gap.drop (visDataSize * k)).take visDataSize ++ gap.drop (visDataSize * (k + 1)) := by
      rw [Nat.mul_succ, ← List.drop_drop, List.take_append_drop]
    rw [hat]
    rw [hsplit, ← List.append_assoc] at hwritten
    rw [VisPacket.write_buff hwritten ?_]
    · simp [visBytes, List.flatMap_append]
    · rw [List.length_take, List.length_drop, hgap]
      unfold visDataSize
      omega

theorem VisPacket.has_addHosts (h : v.Has header records) (junk : ℕ → Byte) {numHna : ℕ}
    (record : ℕ → VisData) (hfits : v.size.toNat + visDataSize * numHna < 2 ^ 16) :
    (v.addHosts junk numHna record).Has header (records ++ (List.range numHna).map record) := by
  obtain ⟨hbuff, hsize⟩ := h
  have hgrown := VisPacket.toNat_add hfits
  have hroom : v.buff.length ≤ (v.size + BitVec.ofNat 16 (visDataSize * numHna)).toNat := by omega
  obtain ⟨new, hnew, hrealloc⟩ := v.realloc_buff junk hroom
  have hgap : new.length = visDataSize * numHna := by omega
  have hlength : (v.size + BitVec.ofNat 16 (visDataSize * numHna)).toNat =
      (v.realloc junk (v.size + BitVec.ofNat 16 (visDataSize * numHna))).buff.length := by
    rw [hrealloc, List.length_append]
    omega
  obtain ⟨hsame, hwritten⟩ := VisPacket.foldl_write record hrealloc hgap hlength numHna le_rfl
  unfold VisPacket.addHosts
  dsimp only
  rw [List.drop_of_length_le (by omega), List.append_nil] at hwritten
  constructor
  · rw [hwritten, hbuff]
    simp [visBytes]
  · rw [hsame, hwritten, List.length_append, length_visBytes, List.length_map, List.length_range, ← hsize]
    exact hgrown

/-- One record more is the first of one host. -/
theorem VisPacket.has_add (h : v.Has header records) (junk : ℕ → Byte) (record : VisData)
    (hfits : v.size.toNat + visDataSize < 2 ^ 16) :
    (v.add junk record).Has header (records ++ [record]) := by
  have hone : (v.addHosts junk 1 fun _ => record).Has header (records ++ [record]) :=
    VisPacket.has_addHosts h junk (fun _ => record) hfits
  exact hone

/-! ## The three phases -/

/-- The record of a one hop neighbour. -/
def OrigNode.visNeigh (o : OrigNode p) (g : Garbage p) : Option VisData :=
  o.router.bind fun router =>
    let neighNode := o.neighAt g router
    if o.orig = neighNode.addr ∧ 0 < neighNode.tqAvg.toNat then
      some ⟨dataTypeNeigh, neighNode.tqAvg, o.orig⟩
    else none

/-- The record written for an interface; `continue` is for those with another address. -/
def BatmanIf.visSecIf (senderMac : Mac) (batmanIf : BatmanIf) : Option VisData :=
  if senderMac ≠ batmanIf.hwAddr then none else some ⟨dataTypeSecIf, 0, batmanIf.hwAddr⟩

def TransTable.visHost (t : TransTable) (i : ℕ) : VisData := ⟨dataTypeHna, 0, Mac.read t.hnaBuff (6 * i)⟩

def State.foundIfs (s : State p) : Byte := BitVec.ofNat 8 s.ifList.length

/-- `struct vis_packet`; nobody writes `pad`. -/
def State.visHeader (s : State p) (gatewayClass : Byte) (junk : ℕ → Byte) : List Byte :=
  [gatewayClass, BitVec.ofNat 8 tqMaxValue, junk 2, junk 3, visCompatVersion] ++ s.primary.bytes

/-- `((struct vis_packet *)vis_packet)->sender_mac`. -/
def VisPacket.senderMac (v : VisPacket) : Mac := Mac.read v.buff 5

/-- `generate_vis_packet`: `vis_packet` and `vis_packet_size`. -/
def State.generateVisPacket (s : State p) (g : Garbage p) (gatewayClass : Byte) (junk : ℕ → Byte) :
    Option (List Byte) × BitVec 16 :=
  let v : VisPacket := ⟨s.visHeader gatewayClass junk, BitVec.ofNat 16 visPacketHeaderSize⟩
  let v := s.origs.foldl (fun v o => (o.visNeigh g).elim v (v.add junk)) v
  let v :=
    if 1 < s.foundIfs then
      s.ifList.foldl (fun v batmanIf => (batmanIf.visSecIf v.senderMac).elim v (v.add junk)) v
    else v
  let v := if 0 < s.trans.numHna then v.addHosts junk s.trans.numHna s.trans.visHost else v
  if v.size = BitVec.ofNat 16 visPacketHeaderSize then (none, 0) else (some v.buff, v.size)

/-- The records the code writes for interfaces. -/
def State.writtenSecIfs (s : State p) : List VisData :=
  if 1 < s.foundIfs then s.ifList.filterMap (·.visSecIf s.primary) else []

def State.writtenRecords (s : State p) (g : Garbage p) : List VisData :=
  s.origs.filterMap (·.visNeigh g) ++ s.writtenSecIfs ++ (List.range s.trans.numHna).map s.trans.visHost

/-- A packet with these records, or none without records. -/
def visPacketOf (header : List Byte) (records : List VisData) : Option (List Byte) × BitVec 16 :=
  if records = [] then (none, 0)
  else (some (header ++ visBytes records), BitVec.ofNat 16 (visPacketHeaderSize + visDataSize * records.length))

theorem VisPacket.has_foldl {α : Type*} (record : VisPacket → α → Option VisData)
    (record' : α → Option VisData) (junk : ℕ → Byte)
    (hsame : ∀ (v : VisPacket) (records : List VisData), v.Has header records → record v = record' ) (l : List α)
    (h : v.Has header records)
    (hfits : v.size.toNat + visDataSize * (l.filterMap record').length < 2 ^ 16) :
    (l.foldl (fun v x => (record v x).elim v (v.add junk)) v).Has header (records ++ l.filterMap record') := by
  induction l generalizing v records with
  | nil => simpa using h
  | cons x l ih =>
    rw [List.foldl_cons, hsame v records h]
    cases hx : record' x with
    | none =>
      rw [List.filterMap_cons_none hx] at hfits ⊢
      exact ih h hfits
    | some new =>
      rw [List.filterMap_cons_some hx] at hfits ⊢
      rw [List.length_cons, Nat.mul_succ] at hfits
      have hadd : (v.add junk new).Has header (records ++ [new]) :=
        VisPacket.has_add h junk new (by omega)
      have hsize : (v.add junk new).size.toNat = v.size.toNat + visDataSize := by
        rw [hadd.2, hadd.1, h.2, h.1]
        simp only [List.length_append, length_visBytes, List.length_singleton, Nat.mul_succ]
        omega
      rw [Option.elim_some]
      simpa using ih hadd (by rw [hsize]; omega)

theorem State.senderMac_of_has {s : State p} {gatewayClass : Byte}
    (h : v.Has (s.visHeader gatewayClass junk) records) : v.senderMac = s.primary := by
  unfold VisPacket.senderMac
  rw [h.1]
  rfl

theorem VisPacket.has_packet (h : v.Has header records) (hheader : header.length = visPacketHeaderSize) :
    (if v.size = BitVec.ofNat 16 visPacketHeaderSize then (none, 0) else (some v.buff, v.size)) =
      visPacketOf header records := by
  have hsize : v.size.toNat = visPacketHeaderSize + visDataSize * records.length := by
    rw [h.2, h.1, List.length_append, length_visBytes, hheader]
  have hof : v.size = BitVec.ofNat 16 (visPacketHeaderSize + visDataSize * records.length) := by
    rw [← hsize, BitVec.ofNat_toNat, BitVec.setWidth_eq]
  unfold visPacketOf
  cases records with
  | nil =>
    rw [if_pos rfl]
    exact if_pos hof
  | cons record records =>
    have hne : v.size ≠ BitVec.ofNat 16 visPacketHeaderSize := by
      intro heq
      rw [heq] at hsize
      exact absurd hsize (by simp [visPacketHeaderSize, visDataSize])
    rw [if_neg hne, if_neg (List.cons_ne_nil record records), h.1, hof]

/-- The packet has the records that are written, one behind the other. -/
theorem State.generateVisPacket_eq (s : State p) (g : Garbage p) (gatewayClass : Byte) (junk : ℕ → Byte)
    (hfits : visPacketHeaderSize + visDataSize * (s.writtenRecords g).length < 2 ^ 16) :
    s.generateVisPacket g gatewayClass junk =
      visPacketOf (s.visHeader gatewayClass junk) (s.writtenRecords g) := by
  have hheader : (s.visHeader gatewayClass junk).length = visPacketHeaderSize := rfl
  unfold State.writtenRecords at hfits
  rw [List.length_append, List.length_append, List.length_map, List.length_range, Nat.mul_add, Nat.mul_add] at hfits
  have hsize : ∀ {v : VisPacket} {records : List VisData}, v.Has (s.visHeader gatewayClass junk) records →
      v.size.toNat = visPacketHeaderSize + visDataSize * records.length := by
    intro v records h
    rw [h.2, h.1, List.length_append, length_visBytes, hheader]
  -- the header
  have hstart : (⟨s.visHeader gatewayClass junk, BitVec.ofNat 16 visPacketHeaderSize⟩ : VisPacket).Has
      (s.visHeader gatewayClass junk) [] := ⟨by simp [visBytes], rfl⟩
  -- the neighbours
  have hneigh := VisPacket.has_foldl (fun _ (o : OrigNode p) => o.visNeigh g) (·.visNeigh g) junk
    (fun _ _ _ => rfl) s.origs hstart (by rw [hsize hstart, List.length_nil]; omega)
  rw [List.nil_append] at hneigh
  unfold State.generateVisPacket
  dsimp only
  set v₁ := s.origs.foldl (fun v o => (o.visNeigh g).elim v (v.add junk))
    (⟨s.visHeader gatewayClass junk, BitVec.ofNat 16 visPacketHeaderSize⟩ : VisPacket)
  -- the interfaces
  have hifs : (if 1 < s.foundIfs then
      s.ifList.foldl (fun v batmanIf => (batmanIf.visSecIf v.senderMac).elim v (v.add junk)) v₁
      else v₁).Has (s.visHeader gatewayClass junk) (s.origs.filterMap (·.visNeigh g) ++ s.writtenSecIfs) := by
    unfold State.writtenSecIfs at hfits ⊢
    split_ifs with hfound
    · rw [if_pos hfound] at hfits
      refine VisPacket.has_foldl (fun v (batmanIf : BatmanIf) => batmanIf.visSecIf v.senderMac) _ junk ?_ s.ifList
        hneigh (by rw [hsize hneigh]; omega)
      intro v records hv
      funext batmanIf
      rw [State.senderMac_of_has hv]
    · rwa [List.append_nil]
  set v₂ := if 1 < s.foundIfs then
    s.ifList.foldl (fun v batmanIf => (batmanIf.visSecIf v.senderMac).elim v (v.add junk)) v₁ else v₁
  -- the hosts
  have hhosts : (if 0 < s.trans.numHna then v₂.addHosts junk s.trans.numHna s.trans.visHost else v₂).Has
      (s.visHeader gatewayClass junk) (s.writtenRecords g) := by
    unfold State.writtenRecords
    split_ifs with hnum
    · exact VisPacket.has_addHosts hifs junk _ (by rw [hsize hifs, List.length_append, Nat.mul_add]; omega)
    · rw [Nat.eq_zero_of_not_pos hnum]
      simpa using hifs
  exact VisPacket.has_packet hhosts hheader

/-! ## What the packet should have -/

/-- The neighbours that are originators themselves, and the routers to themselves over a link of any quality. -/
def State.oneHops (s : State p) (g : Garbage p) : List (NeighNode p) :=
  s.origs.filterMap fun o => (o.router.map (o.neighAt g)).filter fun n => n.addr = o.orig ∧ n.tqAvg ≠ 0

/-- One record for each one hop neighbour, each interface but the primary one and each announced host. -/
def State.visRecords (s : State p) (g : Garbage p) : List VisData :=
  (s.oneHops g).map (fun n => ⟨dataTypeNeigh, n.tqAvg, n.addr⟩) ++
    s.ifList.tail.map (fun batmanIf => ⟨dataTypeSecIf, 0, batmanIf.hwAddr⟩) ++
    (List.range s.trans.numHna).map fun i => ⟨dataTypeHna, 0, Mac.read s.trans.hnaBuff (6 * i)⟩

theorem State.filterMap_visNeigh (s : State p) (g : Garbage p) :
    s.origs.filterMap (·.visNeigh g) = (s.oneHops g).map fun n => ⟨dataTypeNeigh, n.tqAvg, n.addr⟩ := by
  unfold State.oneHops
  rw [List.map_filterMap]
  apply List.filterMap_congr
  intro o _
  unfold OrigNode.visNeigh
  cases o.router with
  | none => rfl
  | some router =>
    show ite _ _ _ = Option.map _ ((some (o.neighAt g router)).filter _)
    have hpos : 0 < (o.neighAt g router).tqAvg.toNat ↔ (o.neighAt g router).tqAvg ≠ 0 := by
      rw [Nat.pos_iff_ne_zero, Ne, Ne, BitVec.toNat_eq]
      rfl
    rw [Option.filter_some]
    by_cases hhop : o.orig = (o.neighAt g router).addr ∧ 0 < (o.neighAt g router).tqAvg.toNat
    · rw [if_pos hhop, if_pos (decide_eq_true ⟨hhop.1.symm, hpos.mp hhop.2⟩), hhop.1]
      rfl
    · have hnot : ¬ ((o.neighAt g router).addr = o.orig ∧ (o.neighAt g router).tqAvg ≠ 0) :=
        fun h => hhop ⟨h.1.symm, hpos.mpr h.2⟩
      rw [if_neg hhop, if_neg fun h => hnot (of_decide_eq_true h)]
      rfl

theorem visPacketOf_injective {records' : List VisData} (h : visPacketOf header records = visPacketOf header records') :
    records = records' := by
  unfold visPacketOf at h
  split_ifs at h with hnil hnil' hnil'
  · rw [hnil, hnil']
  · cases h
  · cases h
  · simp only [Prod.mk.injEq, Option.some.injEq, List.append_cancel_left_eq] at h
    exact visBytes_injective h.1

/-- What is written for interfaces is what should be just when there are no others than the primary one. -/
theorem State.writtenSecIfs_eq_iff (s : State p) :
    s.writtenSecIfs = s.ifList.tail.map (fun batmanIf => ⟨dataTypeSecIf, 0, batmanIf.hwAddr⟩) ↔
      s.ifList.length ≤ 1 := by
  constructor
  · intro h
    unfold State.writtenSecIfs at h
    split_ifs at h with hfound
    · cases hlist : s.ifList with
      | nil => simp
      | cons first rest =>
        exfalso
        have hprimary : s.primary = first.hwAddr := by
          unfold State.primary
          rw [hlist]
          rfl
        rw [hlist, hprimary, List.tail_cons] at h
        -- what is written carries the address of the primary interface, and so do all others then
        have hsame : ∀ batmanIf ∈ rest, batmanIf.visSecIf first.hwAddr = some ⟨dataTypeSecIf, 0, batmanIf.hwAddr⟩ := by
          intro batmanIf hmem
          have hrecord : (⟨dataTypeSecIf, 0, batmanIf.hwAddr⟩ : VisData) ∈
              (first :: rest).filterMap (·.visSecIf first.hwAddr) := by
            rw [h]
            exact List.mem_map.mpr ⟨batmanIf, hmem, rfl⟩
          obtain ⟨other, -, hother⟩ := List.mem_filterMap.mp hrecord
          unfold BatmanIf.visSecIf at hother ⊢
          split_ifs at hother with haddr
          simp only [Option.some.injEq, VisData.mk.injEq, true_and] at hother
          rw [not_not] at haddr
          rw [if_neg (by rw [not_not, haddr, hother])]
        have hfirst : first.visSecIf first.hwAddr = some ⟨dataTypeSecIf, 0, first.hwAddr⟩ := if_neg (by simp)
        have hlength := congrArg List.length h
        rw [List.filterMap_cons_some hfirst, List.filterMap_congr hsame, List.length_cons, List.length_map] at hlength
        simp at hlength
    · have htail := congrArg List.length h
      rw [List.length_nil, List.length_map, List.length_tail] at htail
      omega
  · intro h
    have hfound : ¬ 1 < s.foundIfs := by
      unfold State.foundIfs
      rw [BitVec.lt_def, BitVec.toNat_ofNat]
      have hmod : s.ifList.length % 2 ^ 8 ≤ s.ifList.length := Nat.mod_le ..
      change ¬ 1 < s.ifList.length % 2 ^ 8
      omega
    have htail : s.ifList.tail = [] := by
      apply List.eq_nil_of_length_eq_zero
      rw [List.length_tail]
      omega
    rw [State.writtenSecIfs, if_neg hfound, htail, List.map_nil]

/-- **The packet has the records it should have just when the node has no other interface than the primary
one.** -/
theorem State.generateVisPacket_iff (s : State p) (g : Garbage p) (gatewayClass : Byte) (junk : ℕ → Byte)
    (hfits : visPacketHeaderSize + visDataSize * (s.writtenRecords g).length < 2 ^ 16) :
    s.generateVisPacket g gatewayClass junk =
      visPacketOf (s.visHeader gatewayClass junk) (s.visRecords g) ↔ s.ifList.length ≤ 1 := by
  rw [s.generateVisPacket_eq g gatewayClass junk hfits, ← s.writtenSecIfs_eq_iff]
  constructor
  · intro h
    have hrecords := visPacketOf_injective h
    unfold State.writtenRecords State.visRecords at hrecords
    rw [s.filterMap_visNeigh] at hrecords
    exact List.append_cancel_left (List.append_cancel_right hrecords)
  · intro h
    rw [State.writtenRecords, State.visRecords, s.filterMap_visNeigh, h]
    rfl

/-- One interface, and the neighbour `A`. -/
theorem State.generateVisPacket_iff_one :
    ∃ (tr : List (State Net.p64 × Event Net.p64)) (s : State Net.p64),
      Run Net.p64 { Net.cfg with secondary := [] } tr s ∧
      visPacketHeaderSize + visDataSize * (s.writtenRecords (Net.zeros Net.p64)).length < 2 ^ 16 ∧
      s.ifList.length ≤ 1 ∧ s.visRecords (Net.zeros Net.p64) ≠ [] ∧
      (s.generateVisPacket (Net.zeros Net.p64) 0 (fun _ => 0) =
        visPacketOf (s.visHeader 0 fun _ => 0) (s.visRecords (Net.zeros Net.p64)) ↔ s.ifList.length ≤ 1) := by
  obtain ⟨tr, s, hrun, -, hcheck⟩ := Run.of_exec { Net.cfg with secondary := [] }
    [.sendBegin 1000, .sendNext 1000 0, .sendNext 1000 0,
      .ogm (Net.zeros Net.p64) (Net.echo Net.macA Net.me0 0 1 1100),
      .ogm (Net.zeros Net.p64) (Net.ogm Net.macA Net.macA 0 1 1200),
      .ogm (Net.zeros Net.p64) (Net.ogm Net.macA Net.macA 0 2 1300)]
    (fun _ (s : State Net.p64) => decide (
      visPacketHeaderSize + visDataSize * (s.writtenRecords (Net.zeros Net.p64)).length < 2 ^ 16 ∧
      s.ifList.length ≤ 1 ∧ s.visRecords (Net.zeros Net.p64) ≠ [])) (by decide +kernel)
  obtain ⟨hfits, hone, hsome⟩ := of_decide_eq_true hcheck
  exact ⟨tr, s, hrun, hfits, hone, hsome, s.generateVisPacket_iff (Net.zeros Net.p64) 0 (fun _ => 0) hfits⟩

/-- With two interfaces the primary one has a record, and the other has none. -/
theorem State.generateVisPacket_wrong :
    ¬ ∀ (cfg : Config) (tr : List (State Net.p64 × Event Net.p64)) (s : State Net.p64) (g : Garbage Net.p64)
      (gatewayClass : Byte) (junk : ℕ → Byte), Run Net.p64 cfg tr s →
      visPacketHeaderSize + visDataSize * (s.writtenRecords g).length < 2 ^ 16 →
        s.generateVisPacket g gatewayClass junk = visPacketOf (s.visHeader gatewayClass junk) (s.visRecords g) := by
  intro h
  obtain ⟨tr, s, hrun, -, hcheck⟩ := Run.of_exec Net.cfg []
    (fun _ (s : State Net.p64) => decide (
      visPacketHeaderSize + visDataSize * (s.writtenRecords (Net.zeros Net.p64)).length < 2 ^ 16 ∧
      s.generateVisPacket (Net.zeros Net.p64) 0 (fun _ => 0) ≠
        visPacketOf (s.visHeader 0 fun _ => 0) (s.visRecords (Net.zeros Net.p64)))) (by decide +kernel)
  obtain ⟨hfits, hne⟩ := of_decide_eq_true hcheck
  exact hne (h Net.cfg tr s (Net.zeros Net.p64) 0 (fun _ => 0) hrun hfits)

end BatmanAdv
