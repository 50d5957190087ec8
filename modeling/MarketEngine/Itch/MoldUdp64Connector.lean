import MarketEngine.Itch.MoldUdp64
import MarketEngine.Kit.Feed

/-! # The MoldUDP64 connector

Four cursors move at different times: the sequence number expected next, the
place in the current packet, the part of an overlap still to skip, and the
window of a gap that is being recovered.
-/

namespace MarketEngine

/-- The datagrams still to come, and whether the source fails behind them. -/
structure DatagramSource where
  rest : List Bytes
  failed : Bool := false

abbrev RetransmitSource := UInt64 → Option Bytes

/-- What the retransmit source has for a sequence number, if there is a source. -/
def recoverFrom (retransmit : Option RetransmitSource) (sequence : UInt64) : Option Bytes :=
  retransmit.bind fun source => source sequence

structure MoldUdp64Connector where
  source : DatagramSource
  retransmit : Option RetransmitSource
  packet : MoldUdp64Packet := {}
  offset : ℕ := 0
  localIndex : ℕ := 0
  havePacket : Bool := false
  initialized : Bool := false
  failed : Bool := false
  endOfSession : Bool := false
  recovering : Bool := false
  recoverNext : UInt64 := 0
  recoverEnd : UInt64 := 0
  expected : UInt64 := 0
  lastSequence : UInt64 := 0
  gapsDetected : UInt64 := 0
  messagesMissed : UInt64 := 0
  messagesDecoded : ℕ := 0

/-- Skip the messages of an overlap, as far as the packet goes. -/
def MoldUdp64Packet.skipSeen (packet : MoldUdp64Packet) : ℕ → ℕ → ℕ → Bool × ℕ × ℕ
  | 0, offset, localIndex => (true, offset, localIndex)
  | alreadySeen + 1, offset, localIndex =>
    if localIndex < packet.messageCount then
      match packet.readBlock offset with
      | none => (false, offset, localIndex)
      | some (_, offset) => packet.skipSeen alreadySeen offset (localIndex + 1)
    else (true, offset, localIndex)

namespace MoldUdp64Connector

def ofSource (source : DatagramSource) (retransmit : Option RetransmitSource) :
    MoldUdp64Connector := { source, retransmit }

def recover (c : MoldUdp64Connector) : UInt64 → Option Bytes := recoverFrom c.retransmit

/-- The first data packet says what is expected. -/
def start (c : MoldUdp64Connector) : MoldUdp64Connector :=
  if c.initialized then c else { c with initialized := true, expected := c.packet.sequence }

/-- Recover the sequence numbers before the packet, or count them as missed. -/
def enterGap (c : MoldUdp64Connector) : MoldUdp64Connector :=
  let seq := c.packet.sequence
  let c := { c with gapsDetected := c.gapsDetected + 1 }
  if c.retransmit.isSome then
    { c with recoverNext := c.expected, recoverEnd := seq, recovering := true }
  else { c with messagesMissed := c.messagesMissed + (seq - c.expected), expected := seq }

/-- Skip the messages of the packet that were delivered before. -/
def skipOverlap (c : MoldUdp64Connector) : Bool × MoldUdp64Connector :=
  let (whole, offset, localIndex) :=
    c.packet.skipSeen (c.expected - c.packet.sequence).toNat c.offset c.localIndex
  (whole, { c with offset, localIndex })

/-- Compare a data packet with what is expected: a gap, an overlap, or neither. -/
def place (c : MoldUdp64Connector) : MoldUdp64Connector ⊕ (Bool × MoldUdp64Connector) :=
  let seq := c.packet.sequence
  let c := c.start
  if c.expected < seq then .inr (true, { c.enterGap with havePacket := true })
  else if seq < c.expected then
    let (whole, c) := c.skipOverlap
    if whole = false then .inr (false, { c with failed := true })
    else if c.packet.messageCount ≤ c.localIndex then .inl c
    else .inr (true, { c with havePacket := true })
  else .inr (true, { c with havePacket := true })

/-- One datagram of the loop in `loadNextPacket`. -/
def loadPass (c : MoldUdp64Connector) : MoldUdp64Connector ⊕ (Bool × MoldUdp64Connector) :=
  match c.source.rest with
  | [] => .inr (false, if c.source.failed then { c with failed := true } else c)
  | datagram :: rest =>
    let c := { c with source := { c.source with rest } }
    match MoldUdp64Packet.parse datagram with
    | none => .inr (false, { c with failed := true })
    | some packet =>
      let c := { c with packet, offset := kMoldHeaderSize, localIndex := 0 }
      if packet.endOfSession then .inl { c with endOfSession := true }
      else if packet.heartbeat then .inl c
      else c.place

/-- Hand on a message, unless it is not for the book. -/
def deliver (c : MoldUdp64Connector) (sequence : UInt64) (payload : Bytes) :
    MoldUdp64Connector ⊕ (Option MarketDataEvent × MoldUdp64Connector) :=
  match decodeMessage payload with
  | .malformed => .inr (none, { c with failed := true })
  | .event event =>
    .inr (some { event with sequence },
      { c with lastSequence := sequence, messagesDecoded := c.messagesDecoded + 1 })
  | .skipped => .inl c

/-- The state a pass leaves, whether it goes on or returns. -/
def left {β : Type} : MoldUdp64Connector ⊕ (β × MoldUdp64Connector) → MoldUdp64Connector
  | .inl c => c
  | .inr (_, c) => c

theorem start_source (c : MoldUdp64Connector) : c.start.source = c.source := by
  unfold start
  split <;> rfl

theorem enterGap_source (c : MoldUdp64Connector) : c.enterGap.source = c.source := by
  unfold enterGap
  dsimp only
  split <;> rfl

theorem place_source (c : MoldUdp64Connector) : (left c.place).source = c.source := by
  rw [← c.start_source]
  unfold place
  dsimp only
  split_ifs
  · exact c.start.enterGap_source
  all_goals rfl

/-- A pass takes a datagram, if there is one. -/
theorem loadPass_source (c : MoldUdp64Connector) :
    (left c.loadPass).source.rest = c.source.rest.tail := by
  unfold loadPass
  split
  · next hrest =>
    rw [hrest]
    split_ifs <;> exact hrest
  · next datagram rest hrest =>
    rw [hrest]
    dsimp only
    split
    · rfl
    · split_ifs
      · rfl
      · rfl
      · rw [place_source]
        rfl

def loadLoop : Loop MoldUdp64Connector (Bool × MoldUdp64Connector) where
  body := loadPass
  measure c := c.source.rest.length
  decreases c c' hpass := by
    have hsource := c.loadPass_source
    have hrest : c.source.rest ≠ [] := by
      intro hnil
      unfold loadPass at hpass
      rw [hnil] at hpass
      cases hpass
    rw [hpass, left] at hsource
    rw [hsource, List.length_tail]
    have := List.length_pos_iff.mpr hrest
    omega

/-- Take datagrams until one has something to deliver. -/
def loadNextPacket (c : MoldUdp64Connector) : Bool × MoldUdp64Connector := loadLoop.run c

/-- The window of a gap is not used up. -/
def Recovering (c : MoldUdp64Connector) : Prop := c.recovering ∧ c.recoverNext < c.recoverEnd

instance (c : MoldUdp64Connector) : Decidable c.Recovering := instDecidableAnd

/-- The current packet is used up, or there is none. -/
def Drained (c : MoldUdp64Connector) : Prop :=
  c.havePacket = false ∨ c.packet.messageCount ≤ c.localIndex

instance (c : MoldUdp64Connector) : Decidable c.Drained := instDecidableOr

/-- The sequence number of the message at the place in the packet. -/
def messageSequence (c : MoldUdp64Connector) : UInt64 :=
  c.packet.sequence + UInt64.ofNat c.localIndex

/-- Past one message of the window of a gap. -/
def pastRecovered (c : MoldUdp64Connector) : MoldUdp64Connector :=
  { c with recoverNext := c.recoverNext + 1 }

/-- Past one message of the packet. -/
def pastMessage (c : MoldUdp64Connector) (offset : ℕ) : MoldUdp64Connector :=
  { c with offset, localIndex := c.localIndex + 1, expected := c.messageSequence + 1,
           lastSequence := c.messageSequence }

/-- One pass of the loop in `next`. -/
def pass (c : MoldUdp64Connector) :
    MoldUdp64Connector ⊕ (Option MarketDataEvent × MoldUdp64Connector) :=
  if c.Recovering then
    match c.recover c.recoverNext with
    | none => .inl { c.pastRecovered with messagesMissed := c.messagesMissed + 1 }
    | some payload => c.pastRecovered.deliver c.recoverNext payload
  else
    let c := { c with recovering := false }
    if c.Drained then
      match ({ c with havePacket := false } : MoldUdp64Connector).loadNextPacket with
      | (false, c) => .inr (none, c)
      | (true, c) => .inl c
    else
      match c.packet.readBlock c.offset with
      | none => .inr (none, { c with failed := true })
      | some (payload, offset) => (c.pastMessage offset).deliver c.messageSequence payload

/-- The message that a pass decodes. -/
def current (c : MoldUdp64Connector) : Option (UInt64 × Bytes) :=
  if c.Recovering then (c.recover c.recoverNext).map fun payload => (c.recoverNext, payload)
  else if c.Drained then none
  else (c.packet.readBlock c.offset).map fun (payload, _) => (c.messageSequence, payload)

/-- What a pass can do. -/
inductive PassCase (c : MoldUdp64Connector) : Prop
  | missed (hgap : c.Recovering) (hnone : c.recover c.recoverNext = none)
      (hpass : c.pass = .inl { c.pastRecovered with messagesMissed := c.messagesMissed + 1 })
  | recovered (payload : Bytes) (hgap : c.Recovering)
      (hsome : c.recover c.recoverNext = some payload)
      (hpass : c.pass = c.pastRecovered.deliver c.recoverNext payload)
  | loaded (c' : MoldUdp64Connector) (hgap : ¬ c.Recovering) (hdrained : c.Drained)
      (hload : loadNextPacket { c with recovering := false, havePacket := false } = (true, c'))
      (hpass : c.pass = .inl c')
  | stopped (c' : MoldUdp64Connector) (hgap : ¬ c.Recovering) (hdrained : c.Drained)
      (hload : loadNextPacket { c with recovering := false, havePacket := false } = (false, c'))
      (hpass : c.pass = .inr (none, c'))
  | torn (hgap : ¬ c.Recovering) (hdrained : ¬ c.Drained)
      (hnone : c.packet.readBlock c.offset = none)
      (hpass : c.pass = .inr (none, { c with recovering := false, failed := true }))
  | read (payload : Bytes) (offset : ℕ) (hgap : ¬ c.Recovering) (hdrained : ¬ c.Drained)
      (hsome : c.packet.readBlock c.offset = some (payload, offset))
      (hpass : c.pass =
        (pastMessage { c with recovering := false } offset).deliver c.messageSequence payload)

theorem pass_cases (c : MoldUdp64Connector) : c.PassCase := by
  by_cases hgap : c.Recovering
  · cases hrecover : c.recover c.recoverNext with
    | none => exact .missed hgap hrecover (by rw [pass, if_pos hgap, hrecover])
    | some payload => exact .recovered payload hgap hrecover (by rw [pass, if_pos hgap, hrecover])
  · by_cases hdrained : c.Drained
    · have hpass : c.pass =
          match loadNextPacket { c with recovering := false, havePacket := false } with
          | (false, c) => .inr (none, c)
          | (true, c) => .inl c := by
        rw [pass, if_neg hgap]
        exact if_pos hdrained
      rcases hload : loadNextPacket { c with recovering := false, havePacket := false } with
        ⟨_ | _, c'⟩
      · rw [hload] at hpass
        exact .stopped c' hgap hdrained hload hpass
      · rw [hload] at hpass
        exact .loaded c' hgap hdrained hload hpass
    · have hpass : c.pass =
          match c.packet.readBlock c.offset with
          | none => .inr (none, { c with recovering := false, failed := true })
          | some (payload, offset) =>
            (pastMessage { c with recovering := false } offset).deliver c.messageSequence
              payload := by
        rw [pass, if_neg hgap]
        exact if_neg hdrained
      rcases hread : c.packet.readBlock c.offset with _ | ⟨payload, offset⟩
      · rw [hread] at hpass
        exact .torn hgap hdrained hread hpass
      · rw [hread] at hpass
        exact .read payload offset hgap hdrained hread hpass

/-- What is left of the datagrams, of a gap and of the packet. -/
def measure (c : MoldUdp64Connector) : ℕ :=
  c.source.rest.length * 2 ^ 65 +
    ((if c.recovering then c.recoverEnd.toNat - c.recoverNext.toNat else 0) +
      (if c.havePacket then c.packet.messageCount - c.localIndex else 0))

theorem loadNextPacket_lt {c c' : MoldUdp64Connector} (h : c.loadNextPacket = (true, c')) :
    c'.source.rest.length < c.source.rest.length := by
  have hrun := loadLoop.run_invariant
    (I := fun t => t.source.rest.length ≤ c.source.rest.length)
    (Q := fun r => r.1 = true → r.2.source.rest.length < c.source.rest.length) ?_ ?_
    (Nat.le_refl _)
  · rw [show loadLoop.run c = (true, c') from h] at hrun
    exact hrun rfl
  · intro t t' hle hpass
    exact Nat.le_trans (Nat.le_of_lt (loadLoop.decreases t t' hpass)) hle
  · rintro t ⟨ready, t'⟩ hle hpass rfl
    have hsource := t.loadPass_source
    have hrest : t.source.rest ≠ [] := by
      intro hnil
      replace hpass : t.loadPass = .inr (true, t') := hpass
      unfold loadPass at hpass
      rw [hnil] at hpass
      cases hpass
    rw [show t.loadPass = .inr (true, t') from hpass, left] at hsource
    rw [hsource, List.length_tail]
    have := List.length_pos_iff.mpr hrest
    omega

theorem deliver_measure (c : MoldUdp64Connector) (sequence : UInt64) (payload : Bytes) :
    (left (c.deliver sequence payload)).measure = c.measure := by
  unfold deliver
  split <;> rfl

/-- What is in progress is less than a datagram counts for. -/
theorem measure_lt (c : MoldUdp64Connector) :
    c.measure < (c.source.rest.length + 1) * 2 ^ 65 := by
  have hrecover := c.recoverEnd.toNat_lt
  have hcount := c.packet.count.toNat_lt
  unfold measure MoldUdp64Packet.messageCount
  split_ifs <;> omega

/-- A step of a drain: a pass that goes on or returns an event. -/
def Step (c c' : MoldUdp64Connector) : Prop :=
  c.pass = .inl c' ∨ ∃ event, c.pass = .inr (some event, c')

theorem Step.left_eq {c c' : MoldUdp64Connector} (h : Step c c') : left c.pass = c' := by
  rcases h with h | ⟨event, h⟩ <;> rw [h] <;> rfl

theorem Recovering.toNat_next {c : MoldUdp64Connector} (h : c.Recovering) :
    (c.recoverNext + 1).toNat = c.recoverNext.toNat + 1 := by
  have hlt := UInt64.lt_iff_toNat_lt.mp h.2
  have := c.recoverEnd.toNat_lt
  rw [UInt64.toNat_add]
  exact Nat.mod_eq_of_lt (by change c.recoverNext.toNat + 1 < 2 ^ 64; omega)

theorem Recovering.measure_lt {c : MoldUdp64Connector} (h : c.Recovering) :
    c.pastRecovered.measure < c.measure := by
  have hlt := UInt64.lt_iff_toNat_lt.mp h.2
  unfold measure pastRecovered
  dsimp only
  rw [if_pos h.1, if_pos h.1, h.toNat_next]
  omega

theorem Step.measure_lt {c c' : MoldUdp64Connector} (h : Step c c') : c'.measure < c.measure := by
  have hleft := h.left_eq
  cases c.pass_cases with
  | missed hgap hnone hpass =>
    rw [← hleft, hpass]
    exact hgap.measure_lt
  | recovered payload hgap hsome hpass =>
    rw [← hleft, hpass, deliver_measure]
    exact hgap.measure_lt
  | loaded c₁ hgap hdrained hload hpass =>
    rw [hpass] at hleft
    obtain rfl : c₁ = c' := hleft
    have hmul := Nat.mul_le_mul_right (2 ^ 65) (Nat.succ_le_of_lt (loadNextPacket_lt hload))
    have hc : c.source.rest.length * 2 ^ 65 ≤ c.measure := Nat.le_add_right _ _
    exact Nat.lt_of_lt_of_le c₁.measure_lt (Nat.le_trans hmul hc)
  | stopped c₁ hgap hdrained hload hpass =>
    rcases h with h | ⟨event, h⟩ <;> cases hpass.symm.trans h
  | torn hgap hdrained hnone hpass =>
    rcases h with h | ⟨event, h⟩ <;> cases hpass.symm.trans h
  | read payload offset hgap hdrained hsome hpass =>
    rw [← hleft, hpass, deliver_measure]
    rw [Drained, not_or, Bool.not_eq_false, Nat.not_le] at hdrained
    unfold measure pastMessage
    dsimp only
    rw [if_pos hdrained.1, if_pos hdrained.1, if_neg Bool.false_ne_true]
    have := hdrained.2
    omega

def nextLoop : Loop MoldUdp64Connector (Option MarketDataEvent × MoldUdp64Connector) where
  body := pass
  measure := measure
  decreases _ _ hpass := Step.measure_lt (.inl hpass)

def next (c : MoldUdp64Connector) : Option MarketDataEvent × MoldUdp64Connector := nextLoop.run c

theorem next_lt {c c' : MoldUdp64Connector} {event : MarketDataEvent}
    (h : c.next = (some event, c')) : c'.measure < c.measure := by
  have hrun := nextLoop.run_invariant (I := fun t => t.measure ≤ c.measure)
    (Q := fun r => r.1.isSome = true → r.2.measure < c.measure) ?_ ?_ (Nat.le_refl _)
  · rw [show nextLoop.run c = (some event, c') from h] at hrun
    exact hrun rfl
  · intro t t' hle hpass
    exact Nat.le_trans (Nat.le_of_lt (Step.measure_lt (.inl hpass))) hle
  · rintro t ⟨_ | event, t'⟩ hle hpass
    · exact fun hsome => nomatch hsome
    · exact fun _ => Nat.lt_of_lt_of_le (Step.measure_lt (.inr ⟨event, hpass⟩)) hle

/-- The calls of `next`. -/
def feed : Feed MoldUdp64Connector MarketDataEvent where
  next := next
  measure := measure
  decreases _ _ _ hnext := next_lt hnext

end MoldUdp64Connector

end MarketEngine
