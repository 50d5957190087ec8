import Mathlib.Data.Set.Card
import MarketEngine.Itch.Framing
import MarketEngine.Kit.Tracking

/-! # Delivery of a numbered session

Well-formed packets in any order, with losses, repetitions and overlaps. The
session they give is the one of tracking their sequence numbers: every number
once and in order, except those in a gap that cannot be recovered.
-/

namespace MarketEngine

open Tracking

namespace DataPacket

def batch (packet : DataPacket) : Batch Bytes := ⟨packet.sequence.toNat, packet.payloads⟩

/-- The number behind the last one of a packet is a sequence number. -/
def InRange (packet : DataPacket) : Prop := packet.batch.next < 2 ^ 64

/-- The messages of a packet are those of a numbered session. -/
def Carries (packet : DataPacket) (M : UInt64 → Bytes) : Prop :=
  packet.payloads =
    (List.range packet.payloads.length).map fun i => M (packet.sequence + UInt64.ofNat i)

end DataPacket

def Datagram.data? : Datagram → Option DataPacket
  | .data packet => some packet
  | .heartbeat .. => none
  | .endOfSession .. => none

def dataPackets (datagrams : List Datagram) : List DataPacket := datagrams.filterMap Datagram.data?

/-- From the first sequence number of the first packet to the highest one carried. -/
def Spanned (packets : List DataPacket) (s : UInt64) : Prop :=
  ∃ p q, packets.head? = some p ∧ q ∈ packets ∧ p.sequence ≤ s ∧ s.toNat < q.batch.next

/-- Some packet starts behind a sequence number that none before has reached. -/
def InGap (packets : List DataPacket) (s : UInt64) : Prop :=
  ∃ pre p post, packets = pre ++ p :: post ∧ pre ≠ [] ∧ (∀ q ∈ pre, q.batch.next ≤ s.toNat) ∧
    s < p.sequence

/-- In a gap and not to be recovered. -/
def Excepted (packets : List DataPacket) (retransmit : Option RetransmitSource) (s : UInt64) :
    Prop := InGap packets s ∧ recoverFrom retransmit s = none

/-! ## Sessions and tracking -/

namespace Session

variable {recover : UInt64 → Option Bytes}

/-- What comes up for a tracked number. -/
def toEntry (recover : UInt64 → Option Bytes) : Slot Bytes → Entry
  | .fresh number payload => .message (UInt64.ofNat number) payload
  | .lost number =>
    match recover (UInt64.ofNat number) with
    | none => .missed
    | some payload => .message (UInt64.ofNat number) payload

theorem toEntry_cases (recover : UInt64 → Option Bytes) (slot : Slot Bytes) :
    toEntry recover slot = .missed ∨
      ∃ payload, toEntry recover slot = .message (UInt64.ofNat slot.number) payload := by
  cases slot with
  | fresh number payload => exact .inr ⟨payload, rfl⟩
  | lost number =>
    rw [toEntry]
    cases recover (UInt64.ofNat number) with
    | none => exact .inl rfl
    | some payload => exact .inr ⟨payload, rfl⟩

theorem ofNat_succ (n : ℕ) : UInt64.ofNat n + 1 = UInt64.ofNat (n + 1) :=
  (UInt64.ofNat_add n 1).symm

theorem messages_eq_map (recover : UInt64 → Option Bytes) (n : ℕ) (payloads : List Bytes) :
    messages (UInt64.ofNat n) payloads = (freshFrom n payloads).map (toEntry recover) := by
  induction payloads generalizing n with
  | nil => rfl
  | cons payload payloads ih =>
    rw [messages, ofNat_succ, ih]
    rfl

theorem content_gap (recover : UInt64 → Option Bytes) (first k : ℕ) :
    content (gap recover (UInt64.ofNat first) k) = (lostFrom first k).map (toEntry recover) := by
  induction k generalizing first with
  | zero => rfl
  | succ k ih =>
    rw [gap, ofNat_succ, lostFrom, List.map_cons, ← ih, toEntry]
    cases recover (UInt64.ofNat first) <;> rfl

/-- A packet that is not behind, and the session after it. -/
theorem content_ahead {p : DataPacket} {expected : UInt64} {later : UInt64 → List Entry}
    (hrange : p.InRange) (hle : expected.toNat ≤ p.sequence.toNat) {slots : List (Slot Bytes)}
    (hlater : ∀ next : UInt64, next.toNat = max expected.toNat p.batch.next →
      content (later next) = slots.map (toEntry recover)) :
    content (gap recover expected (p.sequence.toNat - expected.toNat) ++
        live p.sequence p.payloads true later) =
      (lostFrom expected.toNat (p.batch.first - expected.toNat) ++
        (freshFrom (max expected.toNat p.batch.first)
          (p.batch.items.drop (expected.toNat - p.batch.first)) ++ slots)).map
        (toEntry recover) := by
  have hnext : (p.sequence + UInt64.ofNat p.payloads.length).toNat =
      max expected.toNat p.batch.next := by
    have hrange : p.sequence.toNat + p.payloads.length < 2 ^ 64 := hrange
    change _ = max expected.toNat (p.sequence.toNat + p.payloads.length)
    rw [UInt64.toNat_add, UInt64.toNat_ofNat', Nat.add_mod_mod, Nat.mod_eq_of_lt hrange]
    omega
  have hgap := content_gap recover expected.toNat (p.sequence.toNat - expected.toNat)
  have hfresh := messages_eq_map recover p.sequence.toNat p.payloads
  rw [UInt64.ofNat_toNat] at hgap hfresh
  have hmax : max expected.toNat p.batch.first = p.sequence.toNat := Nat.max_eq_right hle
  have hdrop : expected.toNat - p.batch.first = 0 := Nat.sub_eq_zero_of_le hle
  rw [content_append, hgap, live, if_pos rfl, content_append, content_messages, hfresh,
    hlater _ hnext, hmax, hdrop, List.drop_zero, List.map_append, List.map_append]
  rfl

/-- A packet that is behind, and the session after it. -/
theorem content_behind {p : DataPacket} {expected : UInt64} {later : UInt64 → List Entry}
    (hrange : p.InRange) (hlt : p.sequence.toNat < expected.toNat) {slots : List (Slot Bytes)}
    (hlater : ∀ next : UInt64, next.toNat = max expected.toNat p.batch.next →
      content (later next) = slots.map (toEntry recover)) :
    content
        (if true = true ∧ p.payloads.length ≤ expected.toNat - p.sequence.toNat then later expected
        else
          live (p.sequence + UInt64.ofNat (expected.toNat - p.sequence.toNat))
            (p.payloads.drop (expected.toNat - p.sequence.toNat)) true later) =
      (lostFrom expected.toNat (p.batch.first - expected.toNat) ++
        (freshFrom (max expected.toNat p.batch.first)
          (p.batch.items.drop (expected.toNat - p.batch.first)) ++ slots)).map
        (toEntry recover) := by
  have hsum : p.sequence.toNat + p.payloads.length < 2 ^ 64 := hrange
  have hfirst : p.batch.first = p.sequence.toNat := rfl
  have hbatch : p.batch.next = p.sequence.toNat + p.payloads.length := rfl
  have hitems : p.batch.items = p.payloads := rfl
  have hgap : p.batch.first - expected.toNat = 0 := by omega
  have hmax : max expected.toNat p.batch.first = expected.toNat := by omega
  rw [hgap, hmax, hitems, hfirst, lostFrom, List.nil_append]
  generalize hseen : expected.toNat - p.sequence.toNat = seen
  by_cases hdone : p.payloads.length ≤ seen
  · have hnext : expected.toNat = max expected.toNat p.batch.next := by omega
    rw [if_pos ⟨rfl, hdone⟩, hlater _ hnext, List.drop_of_length_le hdone]
    rfl
  · have hstart : p.sequence + UInt64.ofNat seen = UInt64.ofNat expected.toNat := by
      apply UInt64.toNat_inj.mp
      rw [UInt64.toNat_add, UInt64.toNat_ofNat', UInt64.ofNat_toNat, Nat.add_mod_mod,
        Nat.mod_eq_of_lt (by omega)]
      omega
    have hnext : (UInt64.ofNat expected.toNat +
        UInt64.ofNat (p.payloads.drop seen).length).toNat = max expected.toNat p.batch.next := by
      rw [List.length_drop, UInt64.ofNat_toNat, UInt64.toNat_add, UInt64.toNat_ofNat',
        Nat.add_mod_mod, Nat.mod_eq_of_lt (by omega)]
      omega
    rw [if_neg (fun hall => hdone hall.2), hstart, live, if_pos rfl, content_append,
      content_messages, messages_eq_map recover, hlater _ hnext, List.map_append]

/-- Packets in range give the session of their tracked numbers. -/
theorem content_track {datagrams : List Datagram} {expected : UInt64}
    (h : ∀ p ∈ dataPackets datagrams, p.InRange) :
    content (entries recover false (some expected) (datagrams.map Datagram.received)) =
      (track expected.toNat ((dataPackets datagrams).map DataPacket.batch)).map
        (toEntry recover) := by
  induction datagrams generalizing expected with
  | nil => rfl
  | cons datagram datagrams ih =>
    cases datagram with
    | heartbeat session sequence => exact ih h
    | endOfSession session sequence => exact ih h
    | data p =>
      have hrange : p.InRange := h p (List.mem_cons_self ..)
      have ih := fun expected => @ih expected fun q hq => h q (List.mem_cons_of_mem _ hq)
      have hpackets : dataPackets (.data p :: datagrams) = p :: dataPackets datagrams := rfl
      have hne : true = true → p.payloads ≠ [] := fun _ => List.ne_nil_of_length_pos p.pos
      rw [List.map_cons, Datagram.received, hpackets, List.map_cons, track]
      rcases Nat.lt_or_ge p.sequence.toNat expected.toNat with hlt | hge
      · have hpos : 0 < expected.toNat - p.sequence.toNat := by omega
        rw [entries_behind (Option.getD_some ..) rfl hpos, if_neg (by simp : ¬ (true = false ∧ _))]
        apply content_behind hrange hlt
        intro next hnext
        rw [ih, hnext]
      · rw [entries_ahead (Option.getD_some ..) hge hne]
        apply content_ahead hrange hge
        intro next hnext
        rw [ih, hnext]

/-- The first packet says what is expected. -/
theorem content_start {datagrams : List Datagram} {p : DataPacket}
    (hfirst : (dataPackets datagrams).head? = some p) :
    content (entries recover false none (datagrams.map Datagram.received)) =
      content (entries recover false (some p.sequence) (datagrams.map Datagram.received)) := by
  induction datagrams with
  | nil => cases hfirst
  | cons datagram datagrams ih =>
    cases datagram with
    | heartbeat session sequence => exact ih hfirst
    | endOfSession session sequence => exact ih hfirst
    | data q =>
      obtain rfl : q = p := Option.some.inj hfirst
      rfl

theorem content_of_no_data {datagrams : List Datagram} (h : dataPackets datagrams = []) :
    content (entries recover false none (datagrams.map Datagram.received)) = [] := by
  induction datagrams with
  | nil => rfl
  | cons datagram datagrams ih =>
    cases datagram with
    | heartbeat session sequence => exact ih h
    | endOfSession session sequence => exact ih h
    | data q => cases h

end Session

/-! ## The tracked numbers -/

/-- What comes up for the sequence numbers of a session. -/
def slots (packets : List DataPacket) : List (Slot Bytes) :=
  track (packets.head?.elim 0 fun p => p.sequence.toNat) (packets.map DataPacket.batch)

variable {packets : List DataPacket} {retransmit : Option RetransmitSource} {s : UInt64}

theorem content_slots {datagrams : List Datagram} (retransmit : Option RetransmitSource)
    (h : ∀ p ∈ dataPackets datagrams, p.InRange) :
    content (MoldUdp64Connector.session ⟨datagrams.map Datagram.encode, false⟩ retransmit) =
      (slots (dataPackets datagrams)).map (Session.toEntry (recoverFrom retransmit)) := by
  rw [MoldUdp64Connector.session_encode, slots]
  rcases hpackets : (dataPackets datagrams).head? with _ | p
  · have hnil := List.head?_eq_none_iff.mp hpackets
    rw [Session.content_of_no_data hnil, hnil]
    rfl
  · rw [Session.content_start hpackets, Session.content_track h]
    rfl

/-- The sequence numbers that are spanned come up. -/
theorem exists_slot_iff : (∃ slot ∈ slots packets, slot.number = s.toNat) ↔ Spanned packets s := by
  rw [slots, exists_mem_track]
  constructor
  · rintro ⟨hle, hlt⟩
    rw [lt_reach_iff hle] at hlt
    obtain ⟨b, hb, hlt⟩ := hlt
    obtain ⟨q, hq, rfl⟩ := List.mem_map.mp hb
    cases packets with
    | nil => cases hq
    | cons p packets => exact ⟨p, q, rfl, hq, UInt64.le_iff_toNat_le.mpr hle, hlt⟩
  · rintro ⟨p, q, hfirst, hq, hle, hlt⟩
    rw [hfirst]
    have hle : p.sequence.toNat ≤ s.toNat := UInt64.le_iff_toNat_le.mp hle
    exact ⟨hle, (lt_reach_iff hle).mpr ⟨q.batch, List.mem_map_of_mem hq, hlt⟩⟩

/-- The first of the packets starts the numbering, and the ones before it are behind `n`. -/
theorem reach_batches_le {pre : List DataPacket} {p : DataPacket} {post : List DataPacket} {n : ℕ}
    (hfirst : pre = [] → p.sequence.toNat ≤ n) (hall : ∀ q ∈ pre, q.batch.next ≤ n) :
    reach ((pre ++ p :: post).head?.elim 0 fun p => p.sequence.toNat)
      (pre.map DataPacket.batch) ≤ n := by
  rw [reach_le_iff]
  constructor
  · cases pre with
    | nil => exact hfirst rfl
    | cons q pre => exact Nat.le_trans (Nat.le_add_right _ _) (hall q (List.mem_cons_self ..))
  · intro b hb
    obtain ⟨q, hq, rfl⟩ := List.mem_map.mp hb
    exact hall q hq

/-- The sequence numbers in a gap are lost. -/
theorem lost_mem_slots : .lost s.toNat ∈ slots packets ↔ InGap packets s := by
  rw [slots, lost_mem_track]
  constructor
  · rintro ⟨pre, b, post, heq, hreach, hlt⟩
    obtain ⟨pre, rest, rfl, rfl, hrest⟩ := List.map_eq_append_iff.mp heq
    obtain ⟨p, post, rfl, rfl, rfl⟩ := List.map_eq_cons_iff.mp hrest
    obtain ⟨hle, hall⟩ := reach_le_iff.mp hreach
    refine ⟨pre, p, post, rfl, ?_, ?_, UInt64.lt_iff_toNat_lt.mpr hlt⟩
    · rintro rfl
      exact absurd hlt (Nat.not_lt.mpr hle)
    · exact fun q hq => hall q.batch (List.mem_map_of_mem hq)
  · rintro ⟨pre, p, post, rfl, hne, hall, hlt⟩
    refine ⟨pre.map DataPacket.batch, p.batch, post.map DataPacket.batch, ?_, ?_,
      UInt64.lt_iff_toNat_lt.mp hlt⟩
    · rw [List.map_append, List.map_cons]
    · exact reach_batches_le (fun hnil => absurd hnil hne) hall

/-- What comes up in range is a sequence number. -/
theorem number_lt (h : ∀ p ∈ packets, p.InRange) {slot : Slot Bytes}
    (hslot : slot ∈ slots packets) : slot.number < 2 ^ 64 := by
  have hmem := exists_mem_track.mp ⟨slot, hslot, rfl⟩
  obtain ⟨b, hb, hlt⟩ := (lt_reach_iff hmem.1).mp hmem.2
  obtain ⟨p, hp, rfl⟩ := List.mem_map.mp hb
  exact Nat.lt_trans hlt (h p hp)

theorem toNat_number (h : ∀ p ∈ packets, p.InRange) {slot : Slot Bytes}
    (hslot : slot ∈ slots packets) : (UInt64.ofNat slot.number).toNat = slot.number := by
  rw [UInt64.toNat_ofNat', Nat.mod_eq_of_lt (number_lt h hslot)]

/-- A message that comes up is carried by a packet. -/
theorem exists_packet_of_fresh {number : ℕ} {payload : Bytes}
    (h : .fresh number payload ∈ slots packets) :
    ∃ p ∈ packets, p.sequence.toNat ≤ number ∧
      p.payloads[number - p.sequence.toNat]? = some payload := by
  obtain ⟨pre, b, post, heq, -, hle, hget⟩ := fresh_mem_track.mp h
  obtain ⟨p, hp, rfl⟩ := List.mem_map.mp
    (heq ▸ List.mem_append_right pre (List.mem_cons_self ..) : b ∈ packets.map DataPacket.batch)
  exact ⟨p, hp, hle, hget⟩

/-- The missed sequence numbers are the ones in a gap that cannot be recovered. -/
theorem toEntry_missed_iff (retransmit : Option RetransmitSource)
    (h : ∀ p ∈ packets, p.InRange) {slot : Slot Bytes}
    (hslot : slot ∈ slots packets) :
    Session.toEntry (recoverFrom retransmit) slot = .missed ↔
      Excepted packets retransmit (UInt64.ofNat slot.number) := by
  have hnumber := toNat_number h hslot
  cases slot with
  | fresh number payload =>
    constructor
    · exact fun heq => nomatch heq
    · rintro ⟨hgap, -⟩
      rw [← lost_mem_slots, hnumber] at hgap
      cases track_unique hslot hgap rfl
  | lost number =>
    dsimp only [Slot.number] at hnumber ⊢
    have hgap : InGap packets (UInt64.ofNat number) := by
      rw [← lost_mem_slots, hnumber]
      exact hslot
    rw [Session.toEntry, Excepted]
    cases recoverFrom retransmit (UInt64.ofNat number) with
    | none => exact ⟨fun _ => ⟨hgap, rfl⟩, fun _ => rfl⟩
    | some payload => exact ⟨fun heq => (nomatch heq), fun h => nomatch h.2⟩

theorem length_slots_lt (h : ∀ p ∈ packets, p.InRange) : (slots packets).length < 2 ^ 64 := by
  have hreach : reach (packets.head?.elim 0 fun p => p.sequence.toNat)
      (packets.map DataPacket.batch) ≤ 2 ^ 64 - 1 := by
    refine reach_le_iff.mpr ⟨?_, fun b hb => ?_⟩
    · cases packets with
      | nil => exact Nat.zero_le _
      | cons p packets => exact Nat.le_pred_of_lt p.sequence.toNat_lt
    · obtain ⟨p, hp, rfl⟩ := List.mem_map.mp hb
      exact Nat.le_pred_of_lt (h p hp)
  rw [← List.length_map Slot.number, slots, map_number_track, List.length_range']
  omega

/-- As many are missed as there are exceptions. -/
theorem count_missed (retransmit : Option RetransmitSource) (h : ∀ p ∈ packets, p.InRange) :
    ((slots packets).map (Session.toEntry (recoverFrom retransmit))).count .missed =
        {s | Excepted packets retransmit s}.ncard ∧
      {s | Excepted packets retransmit s}.ncard < 2 ^ 64 := by
  let missed := (slots packets).filter fun slot =>
    Session.toEntry (recoverFrom retransmit) slot == .missed
  let numbers := missed.map fun slot => UInt64.ofNat slot.number
  have hmem : ∀ slot ∈ missed, slot ∈ slots packets := fun slot hslot =>
    (List.mem_filter.mp hslot).1
  have hnodup : numbers.Nodup := by
    refine List.pairwise_map.mpr ((List.Pairwise.filter _ (track_pairwise _ _)).imp_of_mem ?_)
    intro a b ha hb hlt heq
    have heq := congrArg UInt64.toNat heq
    rw [toNat_number h (hmem a ha), toNat_number h (hmem b hb)] at heq
    exact absurd heq (Nat.ne_of_lt hlt)
  have hset : {s | Excepted packets retransmit s} = ↑numbers.toFinset := by
    ext s
    rw [Finset.mem_coe, List.mem_toFinset, List.mem_map]
    constructor
    · intro hexcepted
      have hslot := lost_mem_slots.mpr hexcepted.1
      refine ⟨.lost s.toNat, List.mem_filter.mpr ⟨hslot, ?_⟩, UInt64.ofNat_toNat⟩
      rw [beq_iff_eq, toEntry_missed_iff retransmit h hslot, Slot.number, UInt64.ofNat_toNat]
      exact hexcepted
    · rintro ⟨slot, hslot, rfl⟩
      have hmissed := beq_iff_eq.mp (List.mem_filter.mp hslot).2
      exact (toEntry_missed_iff retransmit h (hmem slot hslot)).mp hmissed
  have hcard : {s | Excepted packets retransmit s}.ncard = missed.length := by
    rw [hset, Set.ncard_coe_finset, List.toFinset_card_of_nodup hnodup, List.length_map]
  rw [hcard]
  constructor
  · rw [List.count, List.countP_map, List.countP_eq_length_filter]
    rfl
  · exact Nat.lt_of_le_of_lt (List.length_filter_le _ _) (length_slots_lt h)

/-! ## Exactly once -/

section Numbered

variable {M : UInt64 → Bytes}

theorem payload_of_fresh (h : ∀ p ∈ packets, p.InRange ∧ p.Carries M) {number : ℕ}
    {payload : Bytes} (hslot : .fresh number payload ∈ slots packets) :
    payload = M (UInt64.ofNat number) := by
  obtain ⟨p, hp, hle, hget⟩ := exists_packet_of_fresh hslot
  rw [(h p hp).2, List.getElem?_map] at hget
  obtain ⟨i, hi, rfl⟩ := Option.map_eq_some_iff.mp hget
  obtain ⟨hlt, rfl⟩ := List.getElem?_eq_some_iff.mp hi
  have hsum : p.sequence + UInt64.ofNat (number - p.sequence.toNat) = UInt64.ofNat number := by
    rw [← UInt64.ofNat_toNat (x := p.sequence), ← UInt64.ofNat_add, UInt64.ofNat_toNat,
      Nat.add_sub_cancel' hle]
  rw [List.getElem_range, hsum]

/-- A number that comes up is missed, or comes with the message of the session. -/
theorem toEntry_eq (h : ∀ p ∈ packets, p.InRange ∧ p.Carries M)
    (hretransmit : ∀ s payload, recoverFrom retransmit s = some payload → payload = M s)
    {slot : Slot Bytes} (hslot : slot ∈ slots packets) :
    let s := UInt64.ofNat slot.number
    Session.toEntry (recoverFrom retransmit) slot = .missed ∧ Excepted packets retransmit s ∨
      Session.toEntry (recoverFrom retransmit) slot = .message s (M s) ∧
        ¬ Excepted packets retransmit s := by
  have hmissed := toEntry_missed_iff retransmit (fun p hp => (h p hp).1) hslot
  dsimp only
  rw [← hmissed]
  cases slot with
  | fresh number payload =>
    right
    rw [Session.toEntry, payload_of_fresh h hslot]
    exact ⟨rfl, fun heq => nomatch heq⟩
  | lost number =>
    rw [Session.toEntry]
    cases hrecover : recoverFrom retransmit (UInt64.ofNat number) with
    | none => exact .inl ⟨rfl, rfl⟩
    | some payload =>
      right
      rw [hretransmit _ _ hrecover]
      exact ⟨rfl, fun heq => nomatch heq⟩

/-- The event of a number that comes up. -/
theorem answer_of_slot (h : ∀ p ∈ packets, p.InRange ∧ p.Carries M)
    (hretransmit : ∀ s payload, recoverFrom retransmit s = some payload → payload = M s)
    {slot : Slot Bytes} (hslot : slot ∈ slots packets) {event : MarketDataEvent} :
    (Session.toEntry (recoverFrom retransmit) slot).answer.join = some event ↔
      ¬ Excepted packets retransmit (UInt64.ofNat slot.number) ∧
        ∃ e, decodeMessage (M (UInt64.ofNat slot.number)) = .event e ∧
          event = { e with sequence := UInt64.ofNat slot.number } := by
  rcases toEntry_eq h hretransmit hslot with ⟨hentry, hexcepted⟩ | ⟨hentry, hexcepted⟩
  · rw [hentry]
    simp [Entry.answer, hexcepted]
  · rw [hentry, Entry.answer]
    cases hdecode : decodeMessage (M (UInt64.ofNat slot.number)) with
    | malformed => simp
    | skipped => simp
    | event e =>
      constructor
      · intro heq
        exact ⟨hexcepted, e, rfl, (Option.some.inj heq).symm⟩
      · rintro ⟨-, e', he, rfl⟩
        cases he
        rfl

/-- The events come in the order of their numbers. -/
theorem events_pairwise (h : ∀ p ∈ packets, p.InRange ∧ p.Carries M)
    (hretransmit : ∀ s payload, recoverFrom retransmit s = some payload → payload = M s) :
    (events ((slots packets).map (Session.toEntry (recoverFrom retransmit)))).Pairwise
      fun a b => a.sequence < b.sequence := by
  rw [events, List.filterMap_map, List.pairwise_filterMap]
  refine (track_pairwise _ _).imp_of_mem fun {a b} ha hb hlt x hx y hy => ?_
  have hrange := fun p hp => (h p hp).1
  obtain ⟨-, e, -, rfl⟩ := (answer_of_slot h hretransmit ha).mp hx
  obtain ⟨-, e', -, rfl⟩ := (answer_of_slot h hretransmit hb).mp hy
  rw [UInt64.lt_iff_toNat_lt]
  dsimp only
  rw [toNat_number hrange ha, toNat_number hrange hb]
  exact hlt

theorem mem_events_iff (h : ∀ p ∈ packets, p.InRange ∧ p.Carries M)
    (hretransmit : ∀ s payload, recoverFrom retransmit s = some payload → payload = M s)
    {event : MarketDataEvent} :
    event ∈ events ((slots packets).map (Session.toEntry (recoverFrom retransmit))) ↔
      ∃ s, Spanned packets s ∧ ¬ Excepted packets retransmit s ∧
        ∃ e, decodeMessage (M s) = .event e ∧ event = { e with sequence := s } := by
  rw [events, List.filterMap_map, List.mem_filterMap]
  constructor
  · rintro ⟨slot, hslot, hanswer⟩
    obtain ⟨hexcepted, e, hdecode, rfl⟩ := (answer_of_slot h hretransmit hslot).mp hanswer
    have hnumber := toNat_number (fun p hp => (h p hp).1) hslot
    exact ⟨_, exists_slot_iff.mp ⟨slot, hslot, hnumber.symm⟩, hexcepted, e, hdecode, rfl⟩
  · rintro ⟨s, hspanned, hexcepted, e, hdecode, rfl⟩
    obtain ⟨slot, hslot, hnumber⟩ := exists_slot_iff.mpr hspanned
    have hs : UInt64.ofNat slot.number = s := by rw [hnumber, UInt64.ofNat_toNat]
    refine ⟨slot, hslot, (answer_of_slot h hretransmit hslot).mpr ?_⟩
    rw [hs]
    exact ⟨hexcepted, e, hdecode, rfl⟩

end Numbered

/-- Draining delivers the events of a numbered session exactly once and in order, except those that
were in a gap and could not be recovered, and counts the exceptions. -/
theorem exactly_once (M : UInt64 → Bytes) (hM : ∀ s, decodeMessage (M s) ≠ .malformed)
    (retransmit : Option RetransmitSource)
    (hretransmit : ∀ s payload, recoverFrom retransmit s = some payload → payload = M s)
    (datagrams : List Datagram)
    (hdatagrams : ∀ p ∈ dataPackets datagrams, p.InRange ∧ p.Carries M) :
    let packets := dataPackets datagrams
    let result := MoldUdp64Connector.feed.drain
      (.ofSource ⟨datagrams.map Datagram.encode, false⟩ retransmit)
    result.1.Pairwise (fun a b => a.sequence < b.sequence) ∧
      (∀ event, event ∈ result.1 ↔
        ∃ s, Spanned packets s ∧ ¬ Excepted packets retransmit s ∧
          ∃ e, decodeMessage (M s) = .event e ∧ event = { e with sequence := s }) ∧
      result.2.messagesMissed.toNat = {s | Excepted packets retransmit s}.ncard ∧
      result.2.failed = false := by
  have hrange := fun p hp => (hdatagrams p hp).1
  have hcontent := content_slots retransmit hrange
  have hgoes : Unbroken
      (MoldUdp64Connector.session ⟨datagrams.map Datagram.encode, false⟩ retransmit) := by
    rw [← unbroken_content, hcontent]
    intro entry hmem
    obtain ⟨slot, hslot, rfl⟩ := List.mem_map.mp hmem
    rcases toEntry_eq hdatagrams hretransmit hslot with ⟨hentry, -⟩ | ⟨hentry, -⟩
    · rw [hentry]
      simp [Entry.answer]
    · rw [hentry, Entry.answer]
      cases hdecode : decodeMessage (M (UInt64.ofNat slot.number)) with
      | malformed => exact absurd hdecode (hM _)
      | event event => simp
      | skipped => simp
  obtain ⟨hevents, -, hfailed, hmissed⟩ := MoldUdp64Connector.drain_unbroken hgoes
  rw [← events_content, hcontent] at hevents
  rw [hcontent] at hmissed
  obtain ⟨hcount, hlt⟩ := count_missed retransmit hrange
  refine ⟨?_, fun event => ?_, ?_, hfailed⟩
  · rw [hevents]
    exact events_pairwise hdatagrams hretransmit
  · rw [hevents]
    exact mem_events_iff hdatagrams hretransmit
  · rw [hmissed, hcount, UInt64.toNat_ofNat', Nat.mod_eq_of_lt hlt]

/-- A delete with sequence number 3, behind a lost message. -/
def lateDatagram : Datagram := .data (deletePacket 3)

theorem lost_message_counted :
    let result := MoldUdp64Connector.feed.drain
      (.ofSource ⟨[deleteDatagram, lateDatagram].map Datagram.encode, false⟩ none)
    result.2.messagesMissed.toNat =
        {s | Excepted (dataPackets [deleteDatagram, lateDatagram]) none s}.ncard ∧
      result.2.failed = false := by
  have h := exactly_once (fun _ => deleteMessage) (fun _ => by decide) none
    (fun _ _ h => nomatch h) [deleteDatagram, lateDatagram] ?_
  · exact h.2.2
  · intro p hp
    rcases List.mem_cons.mp hp with rfl | hp
    · exact ⟨by unfold DataPacket.InRange; decide, rfl⟩
    · rw [List.mem_singleton.mp hp]
      exact ⟨by unfold DataPacket.InRange; decide, rfl⟩

end MarketEngine
