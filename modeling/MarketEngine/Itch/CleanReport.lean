import MarketEngine.Itch.Delivery

/-! # What a clean report of a session says

The header of an end-of-session packet carries the next sequence number, and
the connector does not look at it. A report without a failure and without a
missed message says nothing about messages lost behind the last packet.
-/

namespace MarketEngine

open Tracking

variable {packets : List DataPacket} {retransmit : Option RetransmitSource} {s : UInt64}
variable {payload : Bytes}

/-- The first packet that reaches a sequence number carries this message for it. -/
def Fresh (packets : List DataPacket) (s : UInt64) (payload : Bytes) : Prop :=
  ∃ pre p post, packets = pre ++ p :: post ∧ (∀ q ∈ pre, q.batch.next ≤ s.toNat) ∧
    p.sequence ≤ s ∧ p.payloads[s.toNat - p.sequence.toNat]? = some payload

/-- A message is met in a packet, or is recovered. -/
def Met (packets : List DataPacket) (retransmit : Option RetransmitSource) (s : UInt64)
    (payload : Bytes) : Prop :=
  Fresh packets s payload ∨ InGap packets s ∧ recoverFrom retransmit s = some payload

/-- A message that is met is malformed. -/
def Faulty (packets : List DataPacket) (retransmit : Option RetransmitSource) : Prop :=
  ∃ s payload, Met packets retransmit s payload ∧ decodeMessage payload = .malformed

theorem fresh_mem_slots : .fresh s.toNat payload ∈ slots packets ↔ Fresh packets s payload := by
  rw [slots, fresh_mem_track]
  constructor
  · rintro ⟨pre, b, post, heq, hreach, hle, hget⟩
    obtain ⟨pre, rest, rfl, rfl, hrest⟩ := List.map_eq_append_iff.mp heq
    obtain ⟨p, post, rfl, rfl, rfl⟩ := List.map_eq_cons_iff.mp hrest
    obtain ⟨-, hall⟩ := reach_le_iff.mp hreach
    exact ⟨pre, p, post, rfl, fun q hq => hall q.batch (List.mem_map_of_mem hq),
      UInt64.le_iff_toNat_le.mpr hle, hget⟩
  · rintro ⟨pre, p, post, rfl, hall, hle, hget⟩
    have hle := UInt64.le_iff_toNat_le.mp hle
    refine ⟨pre.map DataPacket.batch, p.batch, post.map DataPacket.batch, ?_, ?_, hle, hget⟩
    · rw [List.map_append, List.map_cons]
    · exact reach_batches_le (fun _ => hle) hall

/-- The messages that come up are the ones that are met. -/
theorem message_iff_met (h : ∀ p ∈ packets, p.InRange) :
    .message s payload ∈ (slots packets).map (Session.toEntry (recoverFrom retransmit)) ↔
      Met packets retransmit s payload := by
  rw [List.mem_map, Met, ← fresh_mem_slots, ← lost_mem_slots]
  constructor
  · rintro ⟨slot, hslot, hentry⟩
    have hnumber := toNat_number h hslot
    cases slot with
    | fresh number payload' =>
      cases hentry
      left
      rw [show (UInt64.ofNat number).toNat = number from hnumber]
      exact hslot
    | lost number =>
      rw [Session.toEntry] at hentry
      cases hrecover : recoverFrom retransmit (UInt64.ofNat number) with
      | none =>
        rw [hrecover] at hentry
        cases hentry
      | some payload' =>
        rw [hrecover] at hentry
        cases hentry
        right
        rw [show (UInt64.ofNat number).toNat = number from hnumber]
        exact ⟨hslot, hrecover⟩
  · rintro (hslot | ⟨hslot, hrecover⟩)
    · refine ⟨_, hslot, ?_⟩
      rw [Session.toEntry, UInt64.ofNat_toNat]
    · refine ⟨_, hslot, ?_⟩
      rw [Session.toEntry, UInt64.ofNat_toNat, hrecover]

theorem unbroken_iff (h : ∀ p ∈ packets, p.InRange) :
    Unbroken ((slots packets).map (Session.toEntry (recoverFrom retransmit))) ↔
      ¬ Faulty packets retransmit := by
  constructor
  · rintro hgoes ⟨s, payload, hmet, hmalformed⟩
    apply hgoes _ ((message_iff_met h).mpr hmet)
    rw [Entry.answer, hmalformed]
  · intro hsound entry hmem hstop
    cases entry with
    | message s payload =>
      rw [Entry.answer] at hstop
      cases hdecode : decodeMessage payload with
      | malformed => exact hsound ⟨s, payload, (message_iff_met h).mp hmem, hdecode⟩
      | event event =>
        rw [hdecode] at hstop
        cases hstop
      | skipped =>
        rw [hdecode] at hstop
        cases hstop
    | missed => cases hstop
    | ended => cases hstop
    | broken =>
      obtain ⟨slot, -, hentry⟩ := List.mem_map.mp hmem
      rcases Session.toEntry_cases (recoverFrom retransmit) slot with hmissed | ⟨_, hmessage⟩
      · cases hmissed.symm.trans hentry
      · cases hmessage.symm.trans hentry

/-- Nothing is missed exactly if there are no exceptions. -/
theorem missed_eq_zero_iff (h : ∀ p ∈ packets, p.InRange) :
    UInt64.ofNat (((slots packets).map
        (Session.toEntry (recoverFrom retransmit))).count .missed) = 0 ↔
      ∀ s, ¬ Excepted packets retransmit s := by
  have hlt : ((slots packets).map
      (Session.toEntry (recoverFrom retransmit))).count .missed < 2 ^ 64 := by
    apply Nat.lt_of_le_of_lt List.count_le_length
    rw [List.length_map]
    exact length_slots_lt h
  have hzero : ∀ n < 2 ^ 64, UInt64.ofNat n = 0 ↔ n = 0 := by
    intro n hn
    rw [← UInt64.toNat_inj, UInt64.toNat_ofNat', Nat.mod_eq_of_lt hn]
    rfl
  rw [hzero _ hlt, List.count_eq_zero, List.mem_map]
  constructor
  · intro hnone s hexcepted
    have hslot := lost_mem_slots.mpr hexcepted.1
    refine hnone ⟨_, hslot, (toEntry_missed_iff retransmit h hslot).mpr ?_⟩
    rw [Slot.number, UInt64.ofNat_toNat]
    exact hexcepted
  · rintro hnone ⟨slot, hslot, hentry⟩
    exact hnone _ ((toEntry_missed_iff retransmit h hslot).mp hentry)

/-- An end of session behind well-formed datagrams comes up. -/
theorem ended_mem_entries {recover : UInt64 → Option Bytes} {cursor : Option UInt64}
    {datagrams : List Datagram} {session : SessionName} {q : UInt64} :
    .ended ∈ Session.entries recover false cursor
      ((datagrams ++ [Datagram.endOfSession session q]).map Datagram.received) := by
  induction datagrams generalizing cursor with
  | nil => exact List.mem_cons_self ..
  | cons datagram datagrams ih =>
    cases datagram with
    | heartbeat session sequence => exact ih
    | endOfSession session sequence => exact List.mem_cons_self ..
    | data p =>
      rw [List.cons_append, List.map_cons, Datagram.received, Session.entries]
      apply List.mem_append_right _
      split_ifs with hdone hshort
      · exact ih
      · exact List.mem_cons_of_mem _ ih
      · rw [Session.live, if_pos rfl]
        exact List.mem_append_right _ ih

theorem dataPackets_append_end (datagrams : List Datagram) (session : SessionName) (q : UInt64) :
    dataPackets (datagrams ++ [Datagram.endOfSession session q]) = dataPackets datagrams := by
  rw [dataPackets, List.filterMap_append]
  exact List.append_nil _

namespace MoldUdp64Connector

/-- A drain has a clean report: no failure, the end of the session, and nothing missed. -/
def Clean (c : MoldUdp64Connector) : Prop :=
  c.failed = false ∧ c.endOfSession = true ∧ c.messagesMissed = 0

/-- The report of a session that ends is clean when no message in it is malformed or missed. -/
theorem clean_iff {c : MoldUdp64Connector} {entries : List Entry} {source : DatagramSource}
    (hended : .ended ∈ entries)
    (hreport : c.report =
      (untilStop entries).foldl Report.note (ofSource source retransmit).report) :
    c.Clean ↔ Unbroken entries ∧ UInt64.ofNat ((content entries).count .missed) = 0 := by
  by_cases hgoes : Unbroken entries
  · rw [hgoes.untilStop] at hreport
    obtain ⟨-, hfailed, hmissed⟩ := report_unbroken hgoes hreport
    have hend : c.endOfSession = true :=
      (congrArg Report.endOfSession hreport).trans (foldl_note_ended _ hended)
    rw [Clean, hmissed]
    exact ⟨fun h => ⟨hgoes, h.2.2⟩, fun h => ⟨hfailed, hend, h.2⟩⟩
  · have hfailed : c.failed = true :=
      (congrArg Report.failed hreport).trans (foldl_untilStop_failed _ hgoes)
    exact ⟨fun h => (nomatch hfailed.symm.trans h.1), fun h => absurd h.1 hgoes⟩

end MoldUdp64Connector

/-- The highest sequence number that comes up does not go beyond the packets. -/
theorem not_mem_of_reached (retransmit : Option RetransmitSource)
    (h : ∀ p ∈ packets, p.InRange) {p : DataPacket}
    (hfirst : packets.head? = some p) {q : UInt64} (hall : ∀ r ∈ packets, r.batch.next < q.toNat) :
    ∃ s, p.sequence ≤ s ∧ s < q ∧ ∀ payload,
      .message s payload ∉ (slots packets).map (Session.toEntry (recoverFrom retransmit)) := by
  have hp : p ∈ packets := List.mem_of_head? hfirst
  have hstart : slots packets = track p.sequence.toNat (packets.map DataPacket.batch) := by
    rw [slots, hfirst]
    rfl
  have hle := le_reach p.sequence.toNat (packets.map DataPacket.batch)
  have hreach : reach p.sequence.toNat (packets.map DataPacket.batch) ≤ q.toNat - 1 := by
    rw [reach_le_iff]
    constructor
    · have := hall p hp
      have : p.sequence.toNat ≤ p.batch.next := Nat.le_add_right _ _
      omega
    · intro b hb
      obtain ⟨r, hr, rfl⟩ := List.mem_map.mp hb
      exact Nat.le_pred_of_lt (hall r hr)
  have hq := q.toNat_lt
  have hpos : 0 < q.toNat := Nat.lt_of_le_of_lt (Nat.zero_le _) (hall p hp)
  generalize hn : reach p.sequence.toNat (packets.map DataPacket.batch) = n at hle hreach
  have hs : (UInt64.ofNat n).toNat = n := by rw [UInt64.toNat_ofNat', Nat.mod_eq_of_lt (by omega)]
  refine ⟨UInt64.ofNat n, ?_, ?_, fun payload hmem => ?_⟩
  · rw [UInt64.le_iff_toNat_le, hs]
    exact hle
  · rw [UInt64.lt_iff_toNat_lt, hs]
    omega
  · obtain ⟨slot, hslot, hentry⟩ := List.mem_map.mp hmem
    have hnumber : slot.number = n := by
      rcases Session.toEntry_cases (recoverFrom retransmit) slot with hmissed | ⟨_, hmessage⟩
      · cases hmissed.symm.trans hentry
      · have hsequence := (Entry.message.inj (hmessage.symm.trans hentry)).1
        rw [← toNat_number h hslot, hsequence, hs]
    rw [hstart] at hslot
    have hlt := (exists_mem_track.mp ⟨slot, hslot, hnumber⟩).2
    omega

/-- A clean report is truthful exactly if the end of the session is where the packets reach, or
the report is not clean: something could not be recovered or is malformed. -/
theorem clean_report_truthful_iff (datagrams : List Datagram) (session : SessionName) (q : UInt64)
    (retransmit : Option RetransmitSource) (hrange : ∀ p ∈ dataPackets datagrams, p.InRange) :
    let packets := dataPackets datagrams
    let c := MoldUdp64Connector.ofSource
      ⟨(datagrams ++ [Datagram.endOfSession session q]).map Datagram.encode, false⟩ retransmit
    ((MoldUdp64Connector.feed.drain c).2.Clean →
        ∀ p, packets.head? = some p → ∀ s, p.sequence ≤ s → s < q → c.Processed s) ↔
      packets = [] ∨ (∃ p ∈ packets, q.toNat ≤ p.batch.next) ∨
        (∃ s, Excepted packets retransmit s) ∨ Faulty packets retransmit := by
  have hpackets := dataPackets_append_end datagrams session q
  have hranges : ∀ p ∈ dataPackets (datagrams ++ [Datagram.endOfSession session q]), p.InRange :=
    hpackets.symm ▸ hrange
  have hcontent := content_slots retransmit hranges
  have hended : .ended ∈ MoldUdp64Connector.session
      ⟨(datagrams ++ [Datagram.endOfSession session q]).map Datagram.encode, false⟩ retransmit := by
    rw [MoldUdp64Connector.session_encode]
    exact ended_mem_entries
  rw [hpackets] at hcontent
  dsimp only
  generalize hsource : DatagramSource.mk _ _ = source at hcontent hended ⊢
  have htells := MoldUdp64Connector.tells_ofSource source retransmit
  have hclean := MoldUdp64Connector.clean_iff hended (MoldUdp64Connector.drain_eq htells).2
  rw [hclean, ← unbroken_content, hcontent, unbroken_iff hrange, missed_eq_zero_iff hrange]
  constructor
  · intro h
    by_contra hnot
    push Not at hnot
    obtain ⟨hne, hshort, hrecovered, hsound⟩ := hnot
    obtain ⟨p, hfirst⟩ : ∃ p, (dataPackets datagrams).head? = some p :=
      Option.ne_none_iff_exists'.mp fun hnone => hne (List.head?_eq_none_iff.mp hnone)
    obtain ⟨s, hle, hlt, hnotMem⟩ := not_mem_of_reached retransmit hrange hfirst hshort
    obtain ⟨payload, hmem⟩ := (h ⟨hsound, hrecovered⟩ p hfirst s hle hlt).mem htells
    apply hnotMem payload
    rw [← hcontent]
    exact List.mem_filter.mpr ⟨hmem, decide_eq_true (by exact fun h => nomatch h)⟩
  · rintro hwhen ⟨hsound, hrecovered⟩ p hfirst s hle hlt
    rcases hwhen with hnil | ⟨r, hr, hq⟩ | ⟨s', hexcepted⟩ | hfaulty
    · rw [hnil] at hfirst
      cases hfirst
    · have hspanned : Spanned (dataPackets datagrams) s :=
        ⟨p, r, hfirst, hr, hle, Nat.lt_of_lt_of_le (UInt64.lt_iff_toNat_lt.mp hlt) hq⟩
      obtain ⟨slot, hslot, hnumber⟩ := exists_slot_iff.mpr hspanned
      have hs : UInt64.ofNat slot.number = s := by rw [hnumber, UInt64.ofNat_toNat]
      rcases Session.toEntry_cases (recoverFrom retransmit) slot with hmissed | ⟨payload, hmessage⟩
      · exact absurd ((toEntry_missed_iff retransmit hrange hslot).mp hmissed) (hrecovered _)
      · have hmem := List.mem_map_of_mem (f := Session.toEntry (recoverFrom retransmit)) hslot
        rw [hmessage, hs, ← hcontent] at hmem
        refine htells.processed ?_ (List.mem_filter.mp hmem).1
        rw [← unbroken_content, hcontent, unbroken_iff hrange]
        exact hsound
    · exact absurd hexcepted (hrecovered s')
    · exact absurd hfaulty hsound

/-- A session of one message that ends at 2. -/
theorem whole_session_truthful :
    let c := MoldUdp64Connector.ofSource
      ⟨([deleteDatagram] ++ [Datagram.endOfSession ⟨List.replicate 10 0, rfl⟩ 2]).map
        Datagram.encode, false⟩ none
    (MoldUdp64Connector.feed.drain c).2.Clean →
      ∀ p, (dataPackets [deleteDatagram]).head? = some p → ∀ s, p.sequence ≤ s → s < 2 →
        c.Processed s := by
  refine (clean_report_truthful_iff [deleteDatagram] ⟨List.replicate 10 0, rfl⟩ 2 none ?_).mpr
    (.inr (.inl ⟨_, List.mem_singleton_self _, ?_⟩))
  · intro p hp
    rw [List.mem_singleton.mp hp]
    unfold DataPacket.InRange
    decide
  · decide

/-- Message 2 is lost, the session ends at 3, and the report is clean. -/
theorem lost_tail_reported_clean :
    ¬ (let c := MoldUdp64Connector.ofSource
        ⟨([deleteDatagram] ++ [Datagram.endOfSession ⟨List.replicate 10 0, rfl⟩ 3]).map
          Datagram.encode, false⟩ none
      (MoldUdp64Connector.feed.drain c).2.Clean →
        ∀ p, (dataPackets [deleteDatagram]).head? = some p → ∀ s, p.sequence ≤ s → s < 3 →
          c.Processed s) := by
  intro h
  have hsession : MoldUdp64Connector.session
      ⟨([deleteDatagram] ++ [Datagram.endOfSession ⟨List.replicate 10 0, rfl⟩ 3]).map
        Datagram.encode, false⟩ none = [.message 1 deleteMessage, .ended] := by
    decide
  have htells := MoldUdp64Connector.tells_ofSource
    ⟨([deleteDatagram] ++ [Datagram.endOfSession ⟨List.replicate 10 0, rfl⟩ 3]).map
      Datagram.encode, false⟩ none
  rw [hsession] at htells
  have hclean := MoldUdp64Connector.clean_iff (List.mem_cons_of_mem _ (List.mem_singleton_self _))
    (MoldUdp64Connector.drain_eq htells).2
  obtain ⟨payload, hmem⟩ := (h (hclean.mpr ⟨by unfold Unbroken; decide, by decide⟩) _ rfl 2
    (by decide) (by decide)).mem htells
  rcases List.mem_cons.mp hmem with h | h
  · exact absurd (Entry.message.inj h).1 (by decide)
  · cases List.mem_singleton.mp h

end MarketEngine
