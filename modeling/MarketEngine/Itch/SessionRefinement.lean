import MarketEngine.Itch.MoldUdp64Connector
import MarketEngine.Itch.Session

/-! # The connector goes through a session

Whatever its cursors do meanwhile, the entries still to come of a MoldUDP64
connector are those of its datagrams, and every pass of `next` takes some off
the front.
-/

namespace MarketEngine

namespace MoldUdp64Connector

def report (c : MoldUdp64Connector) : Report :=
  ⟨c.failed, c.endOfSession, c.messagesMissed, c.messagesDecoded⟩

/-- The entries of the datagrams still in the source. -/
def later (c : MoldUdp64Connector) (cursor : Option UInt64) : List Entry :=
  Session.entries c.recover c.source.failed cursor (c.source.rest.map Received.ofBytes)

/-- The payloads that can be read of what is left of the packet. -/
def unreadBlocks (c : MoldUdp64Connector) : List Bytes :=
  c.packet.blocksFrom (c.packet.messageCount - c.localIndex) c.offset

/-- The entries of what is left of the packet and of the source. -/
def fromPacket (c : MoldUdp64Connector) : List Entry :=
  Session.live c.messageSequence c.unreadBlocks
    (c.unreadBlocks.length = c.packet.messageCount - c.localIndex) fun next => c.later (some next)

/-- The sequence number that is expected, if there is one. -/
def cursor (c : MoldUdp64Connector) : Option UInt64 :=
  if c.initialized then some c.expected else none

/-- The entries still to come. -/
def upcoming (c : MoldUdp64Connector) : List Entry :=
  (if c.recovering then
      Session.gap c.recover c.recoverNext (c.recoverEnd.toNat - c.recoverNext.toNat)
    else []) ++
  if c.havePacket then c.fromPacket else c.later c.cursor

/-- What the cursors say while there is a packet. -/
structure Ok (c : MoldUdp64Connector) : Prop where
  recovering : c.recovering = true → c.havePacket = true
  initialized : c.havePacket = true → c.initialized = true
  index_le : c.havePacket = true → c.localIndex ≤ c.packet.messageCount
  expected : c.havePacket = true → c.localIndex = c.packet.messageCount →
    c.expected = c.messageSequence

/-- Between packets. -/
structure Idle (c : MoldUdp64Connector) : Prop where
  recovering : c.recovering = false
  havePacket : c.havePacket = false

/-- What is ahead of a connector, and what it has reported. -/
structure Prospect where
  entries : List Entry
  report : Report

def prospect (c : MoldUdp64Connector) : Prospect := ⟨c.upcoming, c.report⟩

/-- Some entries are gone through. -/
structure Moves (p : Prospect) (taken : List Entry) (c : MoldUdp64Connector) : Prop where
  ok : c.Ok
  upcoming : p.entries = taken ++ c.upcoming
  report : c.report = taken.foldl Report.note p.report

/-- The last entry is a stop, and it stays. -/
structure Sticks (p : Prospect) (taken : List Entry) (c : MoldUdp64Connector) : Prop where
  ok : c.Ok
  upcoming : p.entries = taken ++ [.broken]
  stuck : c.upcoming = [.broken]
  report : c.report = (taken ++ [Entry.broken]).foldl Report.note p.report

variable {c c' : MoldUdp64Connector} {p : Prospect} {taken taken' : List Entry}

theorem Moves.trans (h : Moves p taken c) (h' : Moves c.prospect taken' c') :
    Moves p (taken ++ taken') c' where
  ok := h'.ok
  upcoming := by rw [h.upcoming, List.append_assoc, ← h'.upcoming, prospect]
  report := by rw [h'.report, List.foldl_append, ← h.report, prospect]

theorem Moves.sticks (h : Moves p taken c) (h' : Sticks c.prospect taken' c') :
    Sticks p (taken ++ taken') c' where
  ok := h'.ok
  upcoming := by rw [h.upcoming, List.append_assoc, ← h'.upcoming, prospect]
  stuck := h'.stuck
  report := by simp only [h'.report, prospect, h.report, List.foldl_append]

theorem Idle.ok (h : c.Idle) : c.Ok where
  recovering hrec := nomatch h.recovering.symm.trans hrec
  initialized hhave := nomatch h.havePacket.symm.trans hhave
  index_le hhave := nomatch h.havePacket.symm.trans hhave
  expected hhave := nomatch h.havePacket.symm.trans hhave

theorem Idle.upcoming (h : c.Idle) : c.upcoming = c.later c.cursor := by
  rw [MoldUdp64Connector.upcoming, h.recovering, h.havePacket]
  rfl

/-! ## Loading a packet -/

/-- Skipping stays inside the packet, or finds that a block is missing. -/
theorem skipSeen_spec (packet : MoldUdp64Packet) (seen offset localIndex : ℕ)
    (hle : localIndex ≤ packet.messageCount) :
    let skipped := packet.skipSeen seen offset localIndex
    let unread := packet.blocksFrom (packet.messageCount - localIndex) offset
    let passed := min seen (packet.messageCount - localIndex)
    (skipped.1 = true ∧ passed ≤ unread.length ∧ skipped.2.2 = localIndex + passed ∧
        packet.blocksFrom (packet.messageCount - skipped.2.2) skipped.2.1 = unread.drop passed) ∨
      (skipped.1 = false ∧ unread.length < passed) := by
  induction seen generalizing offset localIndex with
  | zero =>
    dsimp only
    rw [MoldUdp64Packet.skipSeen, Nat.zero_min]
    exact .inl ⟨rfl, Nat.zero_le _, rfl, rfl⟩
  | succ seen ih =>
    dsimp only
    rw [MoldUdp64Packet.skipSeen]
    split_ifs with hlt
    · obtain ⟨n, hn⟩ : ∃ n, packet.messageCount - localIndex = n + 1 :=
        ⟨packet.messageCount - (localIndex + 1), by omega⟩
      have hn' : packet.messageCount - (localIndex + 1) = n := by omega
      rw [hn, MoldUdp64Packet.blocksFrom]
      rcases hread : packet.readBlock offset with _ | ⟨payload, next⟩
      · right
        refine ⟨rfl, ?_⟩
        dsimp only
        rw [List.length_nil]
        omega
      · have ih := ih next (localIndex + 1) hlt
        dsimp only at ih ⊢
        rw [hn'] at ih
        rw [Nat.succ_min_succ, List.length_cons, List.drop_succ_cons]
        rcases ih with ⟨htrue, hpassed, hindex, hunread⟩ | ⟨hfalse, hshort⟩
        · refine .inl ⟨htrue, Nat.succ_le_succ hpassed, ?_, hunread⟩
          rw [hindex]
          omega
        · exact .inr ⟨hfalse, Nat.succ_lt_succ hshort⟩
    · have hzero : packet.messageCount - localIndex = 0 := by omega
      rw [hzero, Nat.min_zero]
      exact .inl ⟨rfl, Nat.zero_le _, rfl, rfl⟩

/-- How a datagram is taken: nothing to deliver, a packet to deliver, a stop, or the end. -/
inductive Loaded (p : Prospect) : MoldUdp64Connector ⊕ (Bool × MoldUdp64Connector) → Prop
  | goes {c : MoldUdp64Connector} {taken : List Entry} (hquiet : Quiet taken) (hidle : c.Idle)
      (hmoves : Moves p taken c) : Loaded p (.inl c)
  | ready {c : MoldUdp64Connector} {taken : List Entry} (hquiet : Quiet taken)
      (hmoves : Moves p taken c) : Loaded p (.inr (true, c))
  | stops {c : MoldUdp64Connector} {taken : List Entry} (hquiet : Quiet taken)
      (hmoves : Moves p (taken ++ [.broken]) c) : Loaded p (.inr (false, c))
  | ends {c : MoldUdp64Connector} {taken : List Entry} (hquiet : Quiet taken)
      (hmoves : Moves p taken c) (hend : c.upcoming = []) : Loaded p (.inr (false, c))
  | sticks {c : MoldUdp64Connector} {taken : List Entry} (hquiet : Quiet taken)
      (hsticks : Sticks p taken c) : Loaded p (.inr (false, c))

theorem start_eq (c : MoldUdp64Connector) :
    c.start = { c with initialized := true, expected := c.cursor.getD c.packet.sequence } := by
  unfold start cursor
  split_ifs with h
  · rw [Option.getD_some, ← h]
  · rfl

theorem recover_none (h : c.retransmit.isSome = false) (sequence : UInt64) :
    c.recover sequence = none := by
  have hnone : c.retransmit = none := by simpa using h
  rw [recover, recoverFrom, hnone, Option.bind_none]

theorem gap_of_none {recover : UInt64 → Option Bytes} (h : ∀ sequence, recover sequence = none)
    (first : UInt64) (n : ℕ) : Session.gap recover first n = List.replicate n .missed := by
  induction n generalizing first with
  | zero => rfl
  | succ n ih =>
    rw [Session.gap, h, ih]
    rfl

theorem foldl_note_replicate (r : Report) (n : ℕ) :
    (List.replicate n Entry.missed).foldl Report.note r =
      { r with messagesMissed := r.messagesMissed + UInt64.ofNat n } := by
  induction n generalizing r with
  | zero =>
    have : UInt64.ofNat 0 = 0 := rfl
    rw [this, UInt64.add_zero]
    rfl
  | succ n ih =>
    have : UInt64.ofNat (n + 1) = 1 + UInt64.ofNat n := by
      rw [UInt64.ofNat_add, UInt64.add_comm]
      rfl
    rw [List.replicate_succ, List.foldl_cons, ih, Report.note, this, UInt64.add_assoc]

theorem ofNat_sub {a b : UInt64} (h : b ≤ a) : UInt64.ofNat (a.toNat - b.toNat) = a - b := by
  rw [← UInt64.toNat_sub_of_le a b h, UInt64.ofNat_toNat]

theorem ok_of_lt (hhave : c.havePacket = true) (hinit : c.initialized = true)
    (hlt : c.localIndex < c.packet.messageCount) : c.Ok where
  recovering _ := hhave
  initialized _ := hinit
  index_le _ := Nat.le_of_lt hlt
  expected _ heq := absurd heq (Nat.ne_of_lt hlt)

/-- What is left of a packet, when its place in the packet is where its messages say. -/
theorem fromPacket_eq (hle : c.localIndex ≤ c.packet.blocks.length)
    (hunread : c.unreadBlocks = c.packet.blocks.drop c.localIndex) :
    c.fromPacket =
      Session.live (c.packet.sequence + UInt64.ofNat c.localIndex)
        (c.packet.blocks.drop c.localIndex)
        (c.packet.blocks.length = c.packet.messageCount) fun next => c.later (some next) := by
  have hlength : c.packet.blocks.length ≤ c.packet.messageCount :=
    MoldUdp64Packet.length_blocksFrom_le _ _
  have hcomplete : decide (c.packet.blocks.length - c.localIndex =
      c.packet.messageCount - c.localIndex) =
      decide (c.packet.blocks.length = c.packet.messageCount) :=
    decide_eq_decide.mpr (by omega)
  rw [fromPacket, hunread, List.length_drop, hcomplete]
  rfl

theorem fromPacket_start (hoffset : c.offset = kMoldHeaderSize) (hindex : c.localIndex = 0) :
    c.fromPacket =
      Session.live c.packet.sequence c.packet.blocks
        (c.packet.blocks.length = c.packet.messageCount) fun next => c.later (some next) := by
  have hunread : c.unreadBlocks = c.packet.blocks.drop c.localIndex := by
    rw [unreadBlocks, hindex, hoffset]
    rfl
  have hsequence : c.packet.sequence + UInt64.ofNat 0 = c.packet.sequence := UInt64.add_zero _
  rw [fromPacket_eq (hindex ▸ Nat.zero_le _) hunread, hindex, hsequence, List.drop_zero]

/-- A data packet that is not behind. -/
theorem place_ahead (hidle : c.Idle) (hindex : c.localIndex = 0)
    (hpos : 0 < c.packet.messageCount)
    (hle : (c.cursor.getD c.packet.sequence).toNat ≤ c.packet.sequence.toNat) :
    Loaded
      ⟨Session.gap c.recover (c.cursor.getD c.packet.sequence)
        (c.packet.sequence.toNat - (c.cursor.getD c.packet.sequence).toNat) ++ c.fromPacket,
        c.report⟩
      c.place := by
  have hle' := UInt64.le_iff_toNat_le.mpr hle
  rw [place, start_eq]
  dsimp only
  generalize c.cursor.getD c.packet.sequence = e at hle hle' ⊢
  split_ifs with hlt hgt hwhole hall
  · unfold enterGap
    dsimp only
    split_ifs with hretransmit
    · refine .ready Quiet.nil ⟨ok_of_lt rfl rfl (hindex ▸ hpos), ?_, rfl⟩
      rfl
    · have hnone : c.retransmit.isSome = false := by simpa using hretransmit
      refine .ready (Quiet.replicate_missed (c.packet.sequence.toNat - e.toNat))
        ⟨ok_of_lt rfl rfl (hindex ▸ hpos), ?_, ?_⟩
      · rw [gap_of_none (recover_none hnone)]
        dsimp only
        rw [upcoming]
        dsimp only
        rw [hidle.recovering]
        rfl
      · rw [foldl_note_replicate, ofNat_sub hle']
        rfl
  · exact absurd hle' (UInt64.not_le.mpr hgt)
  · exact absurd hle' (UInt64.not_le.mpr hgt)
  · exact absurd hle' (UInt64.not_le.mpr hgt)
  · have heq : c.packet.sequence.toNat - e.toNat = 0 := by
      have := UInt64.le_iff_toNat_le.mp (UInt64.not_lt.mp hlt)
      omega
    refine .ready Quiet.nil ⟨ok_of_lt rfl rfl (hindex ▸ hpos), ?_, rfl⟩
    rw [heq, upcoming]
    dsimp only
    rw [hidle.recovering]
    rfl

/-- Where a packet that is behind is taken up again. -/
theorem place_of_lt {e : UInt64} (he : c.cursor.getD c.packet.sequence = e)
    (hlt : c.packet.sequence < e) {whole : Bool} {offset localIndex : ℕ}
    (hskip : c.packet.skipSeen (e.toNat - c.packet.sequence.toNat) c.offset c.localIndex =
      (whole, offset, localIndex)) :
    c.place =
      let c : MoldUdp64Connector :=
        { c with initialized := true, expected := e, offset, localIndex }
      if whole = false then .inr (false, { c with failed := true })
      else if c.packet.messageCount ≤ c.localIndex then .inl c
      else .inr (true, { c with havePacket := true }) := by
  have hseen : (e - c.packet.sequence).toNat = e.toNat - c.packet.sequence.toNat :=
    UInt64.toNat_sub_of_le e c.packet.sequence (UInt64.le_of_lt hlt)
  rw [place, start_eq, he]
  dsimp only
  rw [if_neg (UInt64.not_lt.mpr (UInt64.le_of_lt hlt)), if_pos hlt]
  unfold skipOverlap
  dsimp only
  rw [hseen, hskip]

/-- A data packet that is behind. -/
theorem place_behind (hidle : c.Idle) (hoffset : c.offset = kMoldHeaderSize)
    (hindex : c.localIndex = 0)
    (hlt : c.packet.sequence.toNat < (c.cursor.getD c.packet.sequence).toNat) :
    Loaded
      ⟨Session.entries c.recover c.source.failed c.cursor
        (.data c.packet.sequence c.packet.blocks
            (c.packet.blocks.length = c.packet.messageCount) ::
          c.source.rest.map Received.ofBytes), c.report⟩
      c.place := by
  have hpos : 0 < (c.cursor.getD c.packet.sequence).toNat - c.packet.sequence.toNat := by omega
  rw [Session.entries_behind rfl rfl hpos]
  generalize he : c.cursor.getD c.packet.sequence = e at hlt hpos ⊢
  have hlength : c.packet.blocks.length ≤ c.packet.messageCount :=
    MoldUdp64Packet.length_blocksFrom_le _ _
  have hspec := skipSeen_spec c.packet (e.toNat - c.packet.sequence.toNat) c.offset c.localIndex
    (hindex ▸ Nat.zero_le _)
  rcases hskip : c.packet.skipSeen (e.toNat - c.packet.sequence.toNat) c.offset c.localIndex with
    ⟨whole, offset, localIndex⟩
  rw [place_of_lt he (UInt64.lt_iff_toNat_lt.mpr hlt) hskip]
  rw [hskip, hindex, Nat.sub_zero, hoffset] at hspec
  dsimp only at hspec ⊢
  rw [Nat.zero_add] at hspec
  generalize e.toNat - c.packet.sequence.toNat = seen at hspec hpos ⊢
  change (_ ∧ _ ≤ c.packet.blocks.length ∧ _ ∧ _ = c.packet.blocks.drop _) ∨
    _ ∧ c.packet.blocks.length < _ at hspec
  rcases hspec with ⟨rfl, hpassed, hplace, hunread⟩ | ⟨rfl, hshort⟩
  · rw [if_neg (Bool.noConfusion : ¬ true = false)]
    by_cases hall : c.packet.messageCount ≤ localIndex
    · have hcomplete : c.packet.blocks.length = c.packet.messageCount := by omega
      have hdone : c.packet.blocks.length ≤ seen := by omega
      rw [if_pos hall, if_pos ⟨decide_eq_true hcomplete, hdone⟩]
      have hidle' : Idle { c with offset, localIndex, initialized := true, expected := e } :=
        ⟨hidle.recovering, hidle.havePacket⟩
      exact .goes Quiet.nil hidle' ⟨hidle'.ok, hidle'.upcoming.symm, rfl⟩
    · obtain rfl : localIndex = seen := by omega
      rw [Nat.min_eq_left (Nat.le_of_lt (Nat.not_le.mp hall))] at hpassed hunread
      have hrest : ¬ (decide (c.packet.blocks.length = c.packet.messageCount) = true ∧
          c.packet.blocks.length ≤ localIndex) := by
        rintro ⟨hcomplete, hdone⟩
        have := of_decide_eq_true hcomplete
        omega
      have hwhole : ¬ (decide (c.packet.blocks.length = c.packet.messageCount) = false ∧
          c.packet.blocks.length < localIndex) := by
        rintro ⟨_, hshort⟩
        omega
      rw [if_neg hall, if_neg hrest, if_neg hwhole]
      have hfrom := fromPacket_eq (c := { c with offset, localIndex, initialized := true,
                                                 expected := e, havePacket := true })
        hpassed hunread
      refine .ready Quiet.nil ⟨ok_of_lt rfl rfl (Nat.not_le.mp hall), ?_, rfl⟩
      rw [upcoming, hfrom]
      dsimp only
      rw [hidle.recovering]
      rfl
  · rw [if_pos rfl, if_neg (fun h => by have := of_decide_eq_true h.1; omega),
      if_pos ⟨decide_eq_false (by omega), by omega⟩]
    have hidle' : Idle { c with offset, localIndex, initialized := true, expected := e,
                                failed := true } :=
      ⟨hidle.recovering, hidle.havePacket⟩
    refine .stops Quiet.nil ⟨hidle'.ok, ?_, rfl⟩
    rw [hidle'.upcoming]
    rfl

/-- A data packet, compared with what is expected. -/
theorem place_loaded (hidle : c.Idle) (hoffset : c.offset = kMoldHeaderSize)
    (hindex : c.localIndex = 0) (hpos : 0 < c.packet.messageCount) :
    Loaded
      ⟨Session.entries c.recover c.source.failed c.cursor
        (.data c.packet.sequence c.packet.blocks
            (c.packet.blocks.length = c.packet.messageCount) ::
          c.source.rest.map Received.ofBytes), c.report⟩
      c.place := by
  rcases Nat.lt_or_ge c.packet.sequence.toNat (c.cursor.getD c.packet.sequence).toNat with hlt | hge
  · exact place_behind hidle hoffset hindex hlt
  · have hne : decide (c.packet.blocks.length = c.packet.messageCount) = true →
        c.packet.blocks ≠ [] := by
      intro hcomplete hnil
      rw [hnil, decide_eq_true_eq] at hcomplete
      exact absurd hcomplete (Nat.ne_of_lt hpos)
    have hahead := place_ahead hidle hindex hpos hge
    rw [fromPacket_start hoffset hindex] at hahead
    rw [Session.entries_ahead rfl hge hne]
    exact hahead

/-- One datagram. -/
theorem loadPass_loaded (hidle : c.Idle) : Loaded c.prospect c.loadPass := by
  have hupcoming := hidle.upcoming
  rw [later] at hupcoming
  rw [prospect, hupcoming]
  unfold loadPass
  split
  · next hrest =>
    rw [hrest]
    split_ifs with hfails
    · have hidle' : Idle { c with failed := true } := ⟨hidle.recovering, hidle.havePacket⟩
      have hstuck : upcoming { c with failed := true } = [.broken] := by
        rw [hidle'.upcoming, later]
        dsimp only
        rw [hrest, hfails]
        rfl
      refine .sticks Quiet.nil ⟨hidle'.ok, ?_, hstuck, rfl⟩
      rw [hfails]
      rfl
    · have hfails : c.source.failed = false := by simpa using hfails
      have hend : c.upcoming = [] := by
        rw [hupcoming, hrest, hfails]
        rfl
      refine .ends Quiet.nil ⟨hidle.ok, ?_, rfl⟩ hend
      rw [hend, hfails]
      rfl
  · next datagram rest hrest =>
    rw [hrest, List.map_cons, Received.ofBytes]
    dsimp only
    rcases hparse : MoldUdp64Packet.parse datagram with _ | packet
    · have hidle' : Idle { c with source := { c.source with rest }, failed := true } :=
        ⟨hidle.recovering, hidle.havePacket⟩
      refine .stops Quiet.nil ⟨hidle'.ok, ?_, rfl⟩
      rw [hidle'.upcoming]
      rfl
    · have hidle' : Idle { c with source := { c.source with rest }, packet,
                                  offset := kMoldHeaderSize, localIndex := 0 } :=
        ⟨hidle.recovering, hidle.havePacket⟩
      dsimp only
      split_ifs with hend hbeat
      · have hidle'' : Idle { c with source := { c.source with rest }, packet,
                                     offset := kMoldHeaderSize, localIndex := 0,
                                     endOfSession := true } :=
          ⟨hidle.recovering, hidle.havePacket⟩
        refine .goes Quiet.single_ended hidle'' ⟨hidle''.ok, ?_, rfl⟩
        rw [hidle''.upcoming]
        rfl
      · refine .goes Quiet.nil hidle' ⟨hidle'.ok, ?_, rfl⟩
        rw [hidle'.upcoming]
        rfl
      · have hpos : 0 < packet.messageCount := by
          refine Nat.pos_of_ne_zero fun hzero => hbeat ?_
          exact decide_eq_true (UInt16.toNat_inj.mp hzero)
        exact place_loaded hidle' rfl rfl hpos

/-- Datagrams are taken until there is something to deliver. -/
theorem loadNextPacket_loaded (hidle : c.Idle) : Loaded c.prospect (.inr c.loadNextPacket) := by
  refine loadLoop.run_invariant
    (I := fun t => t.Idle ∧ ∃ taken, Quiet taken ∧ Moves c.prospect taken t)
    (Q := fun r => Loaded c.prospect (.inr r)) ?_ ?_
    ⟨hidle, [], Quiet.nil, hidle.ok, rfl, rfl⟩
  · rintro t t' ⟨ht, taken, hquiet, hmoves⟩ hpass
    have hload := loadPass_loaded ht
    rw [show t.loadPass = .inl t' from hpass] at hload
    cases hload with
    | goes hquiet' hidle' hmoves' =>
      exact ⟨hidle', _, hquiet.append hquiet', hmoves.trans hmoves'⟩
  · rintro t r ⟨ht, taken, hquiet, hmoves⟩ hpass
    have hload := loadPass_loaded ht
    rw [show t.loadPass = .inr r from hpass] at hload
    cases hload with
    | ready hquiet' hmoves' => exact .ready (hquiet.append hquiet') (hmoves.trans hmoves')
    | stops hquiet' hmoves' =>
      have hboth := hmoves.trans hmoves'
      rw [← List.append_assoc] at hboth
      exact .stops (hquiet.append hquiet') hboth
    | ends hquiet' hmoves' hend =>
      exact .ends (hquiet.append hquiet') (hmoves.trans hmoves') hend
    | sticks hquiet' hsticks =>
      exact .sticks (hquiet.append hquiet') (hmoves.sticks hsticks)

/-! ## A pass of `next` -/

/-- What a pass takes off the entries to come, and how it ends. -/
inductive Outcome (c : MoldUdp64Connector) :
    MoldUdp64Connector ⊕ (Option MarketDataEvent × MoldUdp64Connector) → Prop
  | goes {c' : MoldUdp64Connector} {taken : List Entry} (hmoves : Moves c.prospect taken c')
      (hsilent : Silent taken) (hvisit : taken.filterMap Entry.visit = c.current.toList) :
      Outcome c (.inl c')
  | returns {c' : MoldUdp64Connector} {taken : List Entry} {last : Entry}
      {answer : Option MarketDataEvent} (hmoves : Moves c.prospect (taken ++ [last]) c')
      (hsilent : Silent taken) (hanswer : last.answer = some answer)
      (hvisit : (taken ++ [last]).filterMap Entry.visit = c.current.toList) :
      Outcome c (.inr (answer, c'))
  | ends {c' : MoldUdp64Connector} {taken : List Entry} (hmoves : Moves c.prospect taken c')
      (hsilent : Silent taken) (hvisit : taken.filterMap Entry.visit = c.current.toList)
      (hend : c'.upcoming = []) : Outcome c (.inr (none, c'))
  | sticks {c' : MoldUdp64Connector} {taken : List Entry} (hsticks : Sticks c.prospect taken c')
      (hsilent : Silent taken) (hvisit : taken.filterMap Entry.visit = c.current.toList) :
      Outcome c (.inr (none, c'))

/-- Delivering the message at the front. -/
theorem deliver_outcome {sequence : UInt64} {payload : Bytes} (hok : c'.Ok)
    (hupcoming : c.upcoming = .message sequence payload :: c'.upcoming)
    (hreport : c'.report = c.report) (hcurrent : c.current = some (sequence, payload)) :
    Outcome c (c'.deliver sequence payload) := by
  have hvisit : [Entry.message sequence payload].filterMap Entry.visit = c.current.toList := by
    rw [hcurrent]
    rfl
  have hreturns {c'' : MoldUdp64Connector} {answer : Option MarketDataEvent} (hok : c''.Ok)
      (hsame : c''.upcoming = c'.upcoming)
      (hnote : c''.report = c.report.note (.message sequence payload))
      (hanswer : (Entry.message sequence payload).answer = some answer) :
      Outcome c (.inr (answer, c'')) := by
    have hmoves : Moves c.prospect ([] ++ [.message sequence payload]) c'' :=
      ⟨hok, hupcoming.trans (congrArg (_ :: ·) hsame.symm), hnote⟩
    exact .returns hmoves Silent.nil hanswer hvisit
  unfold deliver
  cases hdecode : decodeMessage payload with
  | malformed =>
    have hok' : Ok { c' with failed := true } :=
      ⟨hok.recovering, hok.initialized, hok.index_le, hok.expected⟩
    apply hreturns hok' rfl
    · rw [← hreport, Report.note, hdecode]
      rfl
    · rw [Entry.answer, hdecode]
  | event event =>
    have hok' : Ok { c' with
        lastSequence := sequence, messagesDecoded := c'.messagesDecoded + 1 } :=
      ⟨hok.recovering, hok.initialized, hok.index_le, hok.expected⟩
    apply hreturns hok' rfl
    · rw [← hreport, Report.note, hdecode]
      rfl
    · rw [Entry.answer, hdecode]
  | skipped =>
    have hmoves : Moves c.prospect [.message sequence payload] c' := by
      refine ⟨hok, hupcoming, ?_⟩
      rw [prospect, ← hreport, List.foldl_cons, Report.note, hdecode]
      rfl
    refine .goes hmoves (fun entry hmem => ?_) hvisit
    rw [List.mem_singleton.mp hmem, Entry.answer, hdecode]

/-- In the window of a gap, the next sequence number is at the front. -/
theorem Recovering.upcoming (hgap : c.Recovering) :
    c.upcoming =
      (match c.recover c.recoverNext with
        | none => .missed
        | some payload => .message c.recoverNext payload) :: c.pastRecovered.upcoming := by
  have hlt := UInt64.lt_iff_toNat_lt.mp hgap.2
  have hnext := hgap.toNat_next
  obtain ⟨n, hn⟩ : ∃ n, c.recoverEnd.toNat - c.recoverNext.toNat = n + 1 :=
    ⟨c.recoverEnd.toNat - (c.recoverNext.toNat + 1), by omega⟩
  have hn' : c.recoverEnd.toNat - (c.recoverNext + 1).toNat = n := by omega
  rw [MoldUdp64Connector.upcoming, MoldUdp64Connector.upcoming, pastRecovered]
  dsimp only
  rw [if_pos hgap.1, if_pos hgap.1, hn, hn', Session.gap, List.cons_append]
  rfl

/-- Outside the window of a gap, only the packet and the source count. -/
theorem upcoming_of_not_recovering (hgap : ¬ c.Recovering) :
    c.upcoming = if c.havePacket then c.fromPacket else c.later c.cursor := by
  rw [upcoming]
  split
  · next hrec =>
    have hle := UInt64.le_iff_toNat_le.mp (UInt64.not_lt.mp fun hlt => hgap ⟨hrec, hlt⟩)
    rw [Nat.sub_eq_zero_of_le hle]
    rfl
  · rfl

/-- Behind a packet that is used up there is the next datagram. -/
theorem upcoming_of_drained (hok : c.Ok) (hgap : ¬ c.Recovering) (hdrained : c.Drained) :
    c.upcoming = upcoming { c with recovering := false, havePacket := false } := by
  rw [upcoming_of_not_recovering hgap, Idle.upcoming ⟨rfl, rfl⟩]
  split
  · next hhave =>
    have hindex : c.localIndex = c.packet.messageCount := by
      apply Nat.le_antisymm (hok.index_le hhave)
      exact hdrained.resolve_left fun hnot => nomatch hhave.symm.trans hnot
    have hunread : c.unreadBlocks = [] := by
      rw [unreadBlocks, hindex, Nat.sub_self]
      rfl
    have hnext : c.messageSequence + UInt64.ofNat 0 = c.expected := by
      rw [hok.expected hhave hindex]
      exact UInt64.add_zero _
    have hcursor : c.cursor = some c.expected := if_pos (hok.initialized hhave)
    rw [fromPacket, hunread, hindex, Nat.sub_self]
    change c.later (some (c.messageSequence + UInt64.ofNat 0)) = c.later c.cursor
    rw [hnext, hcursor]
  · rfl

/-- What loading does behind a packet that is used up. -/
theorem loaded_of_drained (hok : c.Ok) (hgap : ¬ c.Recovering) (hdrained : c.Drained) :
    Loaded c.prospect
      (.inr (loadNextPacket { c with recovering := false, havePacket := false })) := by
  have hloaded := loadNextPacket_loaded (c := { c with recovering := false, havePacket := false })
    ⟨rfl, rfl⟩
  rwa [prospect, ← upcoming_of_drained hok hgap hdrained] at hloaded

theorem havePacket_of_not_drained (hdrained : ¬ c.Drained) :
    c.havePacket = true ∧ c.localIndex < c.packet.messageCount := by
  rw [Drained, not_or, Bool.not_eq_false, Nat.not_le] at hdrained
  exact hdrained

/-- In a packet, its next message is at the front. -/
theorem upcoming_of_read (hgap : ¬ c.Recovering) (hdrained : ¬ c.Drained) {payload : Bytes}
    {offset : ℕ} (hread : c.packet.readBlock c.offset = some (payload, offset)) :
    c.upcoming = .message c.messageSequence payload ::
      (pastMessage { c with recovering := false } offset).upcoming := by
  obtain ⟨hhave, hlt⟩ := havePacket_of_not_drained hdrained
  obtain ⟨n, hn⟩ : ∃ n, c.packet.messageCount - c.localIndex = n + 1 :=
    ⟨c.packet.messageCount - (c.localIndex + 1), by omega⟩
  have hn' : c.packet.messageCount - (c.localIndex + 1) = n := by omega
  have hunread : c.unreadBlocks = payload :: c.packet.blocksFrom n offset := by
    rw [unreadBlocks, hn, MoldUdp64Packet.blocksFrom, hread]
  have hnext : c.packet.sequence + UInt64.ofNat (c.localIndex + 1) = c.messageSequence + 1 := by
    rw [messageSequence, UInt64.ofNat_add, ← UInt64.add_assoc]
    rfl
  have hcomplete : decide ((payload :: c.packet.blocksFrom n offset).length = n + 1) =
      decide ((c.packet.blocksFrom n offset).length = n) :=
    decide_eq_decide.mpr (by rw [List.length_cons, Nat.add_right_cancel_iff])
  have hpast : (pastMessage { c with recovering := false } offset).upcoming =
      Session.live (c.messageSequence + 1) (c.packet.blocksFrom n offset)
        ((c.packet.blocksFrom n offset).length = n) fun next => c.later (some next) := by
    rw [upcoming_of_not_recovering (fun h => Bool.false_ne_true h.1), pastMessage]
    dsimp only
    rw [if_pos hhave, fromPacket, unreadBlocks, messageSequence]
    dsimp only
    rw [hn', hnext]
    rfl
  rw [upcoming_of_not_recovering hgap, if_pos hhave, fromPacket, hunread, hn, hcomplete,
    Session.live_cons, hpast]

/-- A missing block is a stop that stays. -/
theorem upcoming_of_torn (hgap : ¬ c.Recovering) (hdrained : ¬ c.Drained)
    (hread : c.packet.readBlock c.offset = none) : c.upcoming = [.broken] := by
  obtain ⟨hhave, hlt⟩ := havePacket_of_not_drained hdrained
  obtain ⟨n, hn⟩ : ∃ n, c.packet.messageCount - c.localIndex = n + 1 :=
    ⟨c.packet.messageCount - (c.localIndex + 1), by omega⟩
  have hunread : c.unreadBlocks = [] := by
    rw [unreadBlocks, hn, MoldUdp64Packet.blocksFrom, hread]
  rw [upcoming_of_not_recovering hgap, if_pos hhave, fromPacket, hunread, hn]
  rfl

theorem Ok.pastRecovered (hok : c.Ok) : c.pastRecovered.Ok :=
  ⟨hok.recovering, hok.initialized, hok.index_le, hok.expected⟩

theorem Ok.pastMessage (hok : c.Ok) (hdrained : ¬ c.Drained) (offset : ℕ) :
    (pastMessage { c with recovering := false } offset).Ok := by
  obtain ⟨hhave, hlt⟩ := havePacket_of_not_drained hdrained
  refine ⟨fun hrec => (nomatch hrec), hok.initialized, fun _ => hlt, fun _ _ => ?_⟩
  rw [messageSequence, MoldUdp64Connector.pastMessage]
  dsimp only
  rw [messageSequence, UInt64.ofNat_add, ← UInt64.add_assoc]
  rfl

/-- A packet that is read to its end has no message at its front, and the next one is loaded. -/
theorem drained_loads (hok : c.Ok) (hgap : ¬ c.Recovering) (hdrained : c.Drained)
    {loaded : Bool × MoldUdp64Connector}
    (hload : loadNextPacket { c with recovering := false, havePacket := false } = loaded) :
    c.current = none ∧ Loaded c.prospect (.inr loaded) := by
  rw [← hload]
  exact ⟨by rw [current, if_neg hgap, if_pos hdrained], loaded_of_drained hok hgap hdrained⟩

/-- Every pass goes through the entries that are to come. -/
theorem pass_outcome (hok : c.Ok) : Outcome c c.pass := by
  cases c.pass_cases with
  | missed hgap hnone hpass =>
    have hupcoming := hgap.upcoming
    have hcurrent : c.current = none := by
      rw [current, if_pos hgap, hnone]
      rfl
    rw [hnone] at hupcoming
    rw [hpass]
    have hmoves : Moves c.prospect [.missed]
        { c.pastRecovered with messagesMissed := c.messagesMissed + 1 } :=
      ⟨⟨hok.recovering, hok.initialized, hok.index_le, hok.expected⟩, hupcoming, rfl⟩
    exact .goes hmoves Quiet.single_missed.silent (by rw [hcurrent]; rfl)
  | recovered payload hgap hsome hpass =>
    have hupcoming := hgap.upcoming
    have hcurrent : c.current = some (c.recoverNext, payload) := by
      rw [current, if_pos hgap, hsome]
      rfl
    rw [hsome] at hupcoming
    rw [hpass]
    exact deliver_outcome hok.pastRecovered hupcoming rfl hcurrent
  | loaded c' hgap hdrained hload hpass =>
    obtain ⟨hcurrent, hloaded⟩ := drained_loads hok hgap hdrained hload
    rw [hpass]
    cases hloaded with
    | ready hquiet hmoves =>
      exact .goes hmoves hquiet.silent (by rw [hquiet.visits, hcurrent]; rfl)
  | stopped c' hgap hdrained hload hpass =>
    obtain ⟨hcurrent, hloaded⟩ := drained_loads hok hgap hdrained hload
    rw [hpass]
    cases hloaded with
    | stops hquiet hmoves =>
      refine .returns hmoves hquiet.silent rfl ?_
      rw [List.filterMap_append, hquiet.visits, hcurrent]
      rfl
    | ends hquiet hmoves hend =>
      exact .ends hmoves hquiet.silent (by rw [hquiet.visits, hcurrent]; rfl) hend
    | sticks hquiet hsticks =>
      exact .sticks hsticks hquiet.silent (by rw [hquiet.visits, hcurrent]; rfl)
  | torn hgap hdrained hnone hpass =>
    have hcurrent : c.current = none := by
      rw [current, if_neg hgap, if_neg hdrained, hnone]
      rfl
    have hstuck := upcoming_of_torn (c := { c with recovering := false, failed := true })
      (fun h => Bool.false_ne_true h.1) hdrained hnone
    have hok' : Ok { c with recovering := false, failed := true } :=
      ⟨fun hrec => (nomatch hrec), hok.initialized, hok.index_le, hok.expected⟩
    rw [hpass]
    have hsticks : Sticks c.prospect [] { c with recovering := false, failed := true } :=
      ⟨hok', upcoming_of_torn hgap hdrained hnone, hstuck, rfl⟩
    exact .sticks hsticks Silent.nil (by rw [hcurrent]; rfl)
  | read payload offset hgap hdrained hsome hpass =>
    have hcurrent : c.current = some (c.messageSequence, payload) := by
      rw [current, if_neg hgap, if_neg hdrained, hsome]
      rfl
    rw [hpass]
    exact deliver_outcome (hok.pastMessage hdrained offset) (upcoming_of_read hgap hdrained hsome)
      rfl hcurrent

end MoldUdp64Connector

end MarketEngine
