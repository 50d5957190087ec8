import MarketEngine.Book.MultiSymbol
import MarketEngine.Kit.Feed
import MarketEngine.Research.QueueModel

/-! # The study of passive orders

`itch_queue` posts one hypothetical order at a time and counts how many fill. Its
counters are those of a sequence of trials that do not overlap: each follows one
posted order until it fills or its time is out.
-/

namespace MarketEngine.Research

open OrderBook

variable {c : Capacity} {F σ : Type}

/-- The arguments of the tool. -/
structure StudyConfig (F : Type) where
  locate : SymbolId
  side : Side := .buy
  size : Quantity := 100
  timeout : ℕ := 1000
  multiplier : F

/-- The local variables of the loop. -/
structure QueueStudy (F : Type) (c : Capacity) where
  book : OrderBook c
  active : Option (QueueModel F) := none
  eventsSincePost : ℕ := 0
  posted : ℕ := 0
  full : ℕ := 0
  any : ℕ := 0
  eventsToFull : List ℕ := []

namespace QueueStudy

variable {config : StudyConfig F} {t : QueueStudy F c} {event : MarketDataEvent}
  {events : List MarketDataEvent} {book : OrderBook c} {m : QueueModel F}

def start (F : Type) (c : Capacity) : QueueStudy F c where
  book := fresh c

/-- The lambda of the loop; `m` is the active order. -/
def resolve (t : QueueStudy F c) (m : QueueModel F) (filled : Bool) : QueueStudy F c :=
  let t := if filled then
      { t with full := t.full + 1, eventsToFull := t.eventsToFull ++ [t.eventsSincePost] }
    else t
  let t := if m.filled > 0 then { t with any := t.any + 1 } else t
  { t with active := none }

section Resolve

variable (t : QueueStudy F c) (m : QueueModel F) (filled : Bool)

@[simp] theorem resolve_book : (t.resolve m filled).book = t.book := by
  unfold resolve
  dsimp only
  split_ifs <;> rfl

@[simp] theorem resolve_posted : (t.resolve m filled).posted = t.posted := by
  unfold resolve
  dsimp only
  split_ifs <;> rfl

@[simp] theorem resolve_full :
    (t.resolve m filled).full = t.full + if filled then 1 else 0 := by
  unfold resolve
  dsimp only
  split_ifs <;> rfl

@[simp] theorem resolve_any :
    (t.resolve m filled).any = t.any + if m.filled > 0 then 1 else 0 := by
  unfold resolve
  dsimp only
  split_ifs <;> rfl

@[simp] theorem resolve_eventsToFull : (t.resolve m filled).eventsToFull =
    t.eventsToFull ++ if filled then [t.eventsSincePost] else [] := by
  unfold resolve
  dsimp only
  split_ifs <;> simp

end Resolve

variable [QueueDouble F]

/-- The active order sees the event, with the book before it. -/
def react (config : StudyConfig F) (t : QueueStudy F c) (event : MarketDataEvent) :
    QueueStudy F c :=
  match t.active with
  | none => t
  | some m =>
    let m := m.onEvent event t.book
    let t := { t with active := some m, eventsSincePost := t.eventsSincePost + 1 }
    if m.fullyFilled then t.resolve m true
    else if t.eventsSincePost ≥ config.timeout then t.resolve m false
    else t

/-- The order that is posted at the best level of a book. -/
def posting (config : StudyConfig F) (book : OrderBook c) (timestampNs : UInt64) :
    Option (QueueModel F) :=
  let top := if config.side = .buy then book.bestBid else book.bestAsk
  top.map fun top =>
    .create config.side top.priceTicks config.size top.totalQuantity config.multiplier
      (book.levelOrderIds config.side top.priceTicks).toFinset timestampNs

/-- A new order is posted when there is none. -/
def post (config : StudyConfig F) (t : QueueStudy F c) (event : MarketDataEvent) :
    QueueStudy F c :=
  match t.active with
  | some _ => t
  | none =>
    match posting config t.book event.exchangeTimestampNs with
    | none => t
    | some m => { t with active := some m, eventsSincePost := 0, posted := t.posted + 1 }

/-- One event of the symbol. -/
def pass (config : StudyConfig F) (t : QueueStudy F c) (event : MarketDataEvent) :
    QueueStudy F c :=
  let t := react config t event
  let t := { t with book := (t.book.processEvent event).2 }
  post config t event

def loop (config : StudyConfig F) (connector : Feed σ MarketDataEvent) (s : σ) (c : Capacity) :
    QueueStudy F c × σ :=
  connector.consume (fun t event =>
    if event.symbol = config.locate then (pass config t event, false) else (t, false))
    (start F c) s

/-- The partial fills, with that of an order that is still active. -/
def anyFills (t : QueueStudy F c) : ℕ :=
  if t.active.any fun m => m.filled > 0 then t.any + 1 else t.any

theorem loop_eq (config : StudyConfig F) (connector : Feed σ MarketDataEvent) (s : σ)
    (c : Capacity) : (loop config connector s c).1 =
      (MultiSymbolBook.onSymbol config.locate (connector.drain s).1).foldl (pass config)
        (start F c) := by
  have hgoes : ∀ (events : List MarketDataEvent) (t : QueueStudy F c),
      Feed.foldUntil (fun t event => (pass config t event, false)) t events =
        events.foldl (pass config) t := by
    intro events
    induction events with
    | nil => exact fun _ => rfl
    | cons event events ih => exact fun t => ih _
  have hskip := Feed.foldUntil_filter (fun t event => (pass config t event, false))
    (fun event => event.symbol = config.locate) (start F c) (connector.drain s).1
  simp only [decide_eq_true_eq] at hskip
  rw [loop, Feed.consume_eq, hskip, hgoes]
  rfl

/-! ## Trials -/

/-- An order that is posted behind some events and then followed over some more. -/
structure Trial where
  past : List MarketDataEvent
  followed : List MarketDataEvent
  deriving DecidableEq

namespace Trial

variable {trial : Trial}

/-- The events up to the end of the trial. -/
def span (trial : Trial) : List MarketDataEvent := trial.past ++ trial.followed

/-- A model that follows a book over some events. -/
def follow (m : QueueModel F) (book : OrderBook c) : List MarketDataEvent → QueueModel F
  | [] => m
  | event :: events => follow (m.onEvent event book) (book.processEvent event).2 events

theorem follow_append (m : QueueModel F) (book : OrderBook c) (events : List MarketDataEvent)
    (event : MarketDataEvent) : follow m book (events ++ [event]) =
      (follow m book events).onEvent event (book.processAll events) := by
  induction events generalizing m book with
  | nil => rfl
  | cons e events ih => exact ih _ _

/-- The order that is posted behind some events. -/
def posted (config : StudyConfig F) (c : Capacity) (past : List MarketDataEvent) :
    Option (QueueModel F) :=
  past.getLast?.bind fun event =>
    posting config ((fresh c).processAll past) event.exchangeTimestampNs

/-- The order of the trial after the given ones of the events. -/
def order (config : StudyConfig F) (c : Capacity) (trial : Trial)
    (followed : List MarketDataEvent) : Option (QueueModel F) :=
  (posted config c trial.past).map fun m => follow m ((fresh c).processAll trial.past) followed

/-- The order is filled at the end. -/
def full (config : StudyConfig F) (c : Capacity) (trial : Trial) : Bool :=
  (trial.order config c trial.followed).any QueueModel.fullyFilled

/-- Some of the order is filled at the end. -/
def filled (config : StudyConfig F) (c : Capacity) (trial : Trial) : Bool :=
  (trial.order config c trial.followed).any fun m => m.filled > 0

/-- The trial may go on: neither was the order filled behind one of the events nor was its time
out. -/
def Goes (config : StudyConfig F) (c : Capacity) (trial : Trial) : Prop :=
  (posted config c trial.past).isSome ∧
    ∀ followed, followed <+: trial.followed → followed ≠ [] →
      (trial.order config c followed).any QueueModel.fullyFilled = false ∧
        followed.length < config.timeout

/-- The last of the events has filled the order, or has seen its time out. -/
def Ends (config : StudyConfig F) (c : Capacity) (trial : Trial) : Prop :=
  ∃ followed event, trial.followed = followed ++ [event] ∧
    Goes config c ⟨trial.past, followed⟩ ∧
      (trial.full config c = true ∨ config.timeout ≤ trial.followed.length)

/-- Another event that neither fills the order nor takes up its time. -/
theorem Goes.extend (h : trial.Goes config c)
    (hfull : Trial.full config c ⟨trial.past, trial.followed ++ [event]⟩ = false)
    (htime : trial.followed.length + 1 < config.timeout) :
    Trial.Goes config c ⟨trial.past, trial.followed ++ [event]⟩ := by
  refine ⟨h.1, ?_⟩
  rintro followed hprefix hne
  rcases List.prefix_concat_iff.mp hprefix with rfl | hprefix
  · exact ⟨hfull, by simpa using htime⟩
  · exact h.2 followed hprefix hne

end Trial

/-! ## The loop runs trials -/

/-- The trials that have ended and the one that goes on are what the loop has counted. The moments
before the `n`-th are accounted for. -/
structure Explains (config : StudyConfig F) (events : List MarketDataEvent) (t : QueueStudy F c)
    (n : ℕ) (ended : List Trial) (current : Option Trial) : Prop where
  book : t.book = (fresh c).processAll events
  posted : t.posted = ended.length + current.toList.length
  full : t.full = ended.countP (Trial.full config c)
  any : t.any = ended.countP (Trial.filled config c)
  times : t.eventsToFull = (ended.filter (Trial.full config c)).map (·.followed.length)
  ends : ∀ trial ∈ ended, trial.Ends config c ∧ trial.span <+: events
  apart : (ended ++ current.toList).Pairwise fun trial later => trial.span <+: later.past
  active : t.active = current.bind fun trial => trial.order config c trial.followed
  goes : ∀ trial ∈ current, trial.Goes config c ∧ trial.span = events ∧
    t.eventsSincePost = trial.followed.length
  covered : ∀ past, past <+: events → past.length < n → (Trial.posted config c past).isSome →
    (∃ trial ∈ ended, trial.past <+: past ∧ past.length < trial.span.length) ∨
      ∃ trial ∈ current, trial.past <+: past

variable {n : ℕ} {ended : List Trial} {current : Option Trial}

theorem explains_start (config : StudyConfig F) (c : Capacity) :
    Explains config [] (start F c) 1 [] none where
  book := rfl
  posted := rfl
  full := rfl
  any := rfl
  times := rfl
  ends := by simp
  apart := .nil
  active := rfl
  goes := by simp
  covered past hpast _ hsome := by
    rw [List.prefix_nil.mp hpast] at hsome
    cases hsome

/-- A pass up to where an order may be posted. -/
def advance (config : StudyConfig F) (t : QueueStudy F c) (event : MarketDataEvent) :
    QueueStudy F c :=
  { react config t event with book := ((react config t event).book.processEvent event).2 }

theorem posted_append (config : StudyConfig F) (c : Capacity) (events : List MarketDataEvent)
    (event : MarketDataEvent) : Trial.posted config c (events ++ [event]) =
      posting config ((fresh c).processAll (events ++ [event])) event.exchangeTimestampNs := by
  simp [Trial.posted]

/-- The prefixes of a list and one more item. -/
theorem prefix_of_length_lt {past : List MarketDataEvent} (h : past <+: events ++ [event])
    (hlt : past.length < events.length + 1) : past <+: events := by
  rcases List.prefix_concat_iff.mp h with rfl | h
  · simp at hlt
  · exact h

theorem Explains.advance (h : Explains config events t (events.length + 1) ended current)
    (event : MarketDataEvent) : ∃ ended' current', Explains config (events ++ [event])
      (advance config t event) (events.length + 1) ended' current' := by
  have hnext : (t.book.processEvent event).2 = (fresh c).processAll (events ++ [event]) := by
    rw [processAll_append, ← h.book]
    rfl
  have hends : ∀ trial ∈ ended, trial.Ends config c ∧ trial.span <+: events ++ [event] :=
    fun trial htrial => ⟨(h.ends trial htrial).1,
      (h.ends trial htrial).2.trans (List.prefix_append _ _)⟩
  cases current with
  | none =>
    have hreact : react config t event = t := by
      unfold react
      rw [h.active]
      rfl
    refine ⟨ended, none, ?_⟩
    unfold QueueStudy.advance
    rw [hreact]
    exact { h with
      book := hnext
      ends := hends
      goes := by simp
      covered := fun past hpast hlt => h.covered past (prefix_of_length_lt hpast hlt) hlt }
  | some trial =>
    obtain ⟨hgoes, hspan, hsince⟩ := h.goes trial rfl
    obtain ⟨m₀, hm₀⟩ := Option.isSome_iff_exists.mp hgoes.1
    have hactive : t.active = some (Trial.follow m₀ ((fresh c).processAll trial.past)
        trial.followed) := by
      rw [h.active, Option.bind_some, Trial.order, hm₀]
      rfl
    let next : Trial := ⟨trial.past, trial.followed ++ [event]⟩
    generalize hm : Trial.follow m₀ ((fresh c).processAll trial.past) trial.followed = m at *
    have horder : next.order config c next.followed = some (m.onEvent event t.book) := by
      rw [Trial.order, hm₀, Option.map_some, Trial.follow_append, hm, ← processAll_append]
      exact congrArg (fun events => some (m.onEvent event ((fresh c).processAll events))) hspan
        |>.trans (by rw [h.book])
    have hspan' : next.span = events ++ [event] := by
      rw [← hspan]
      exact (List.append_assoc ..).symm
    generalize hm' : m.onEvent event t.book = m' at *
    have hfull : next.full config c = m'.fullyFilled := by rw [Trial.full, horder]; rfl
    have hfilled : next.filled config c = decide (m'.filled > 0) := by
      rw [Trial.filled, horder]
      rfl
    let reacted : QueueStudy F c :=
      { t with active := some m', eventsSincePost := t.eventsSincePost + 1 }
    by_cases hend : m'.fullyFilled = true ∨ config.timeout ≤ t.eventsSincePost + 1
    · have hreact : react config t event = reacted.resolve m' m'.fullyFilled := by
        unfold react
        rw [hactive]
        dsimp only
        rw [hm']
        cases hf : m'.fullyFilled with
        | true => rfl
        | false =>
          rw [hf] at hend
          exact if_pos (by simpa using hend)
      refine ⟨ended ++ [next], none, ?_⟩
      unfold QueueStudy.advance
      rw [hreact]
      have hnextEnds : next.Ends config c := by
        refine ⟨trial.followed, event, rfl, hgoes, ?_⟩
        simpa [next, hfull, hsince] using hend
      constructor
      · simpa [reacted] using hnext
      · simpa [reacted] using h.posted
      · simp [reacted, h.full, hfull]
      · simp [reacted, h.any, hfilled]
      · cases hf : m'.fullyFilled <;> simp [reacted, h.times, hfull, hf, hsince, next]
      · rintro trial' htrial
        rcases List.mem_append.mp htrial with htrial | htrial
        · exact hends trial' htrial
        · rw [List.mem_singleton.mp htrial, hspan']
          exact ⟨hnextEnds, List.prefix_rfl⟩
      · simpa [List.pairwise_append, next] using h.apart
      · rfl
      · simp
      · rintro past hpast hlt hsome
        rcases h.covered past (prefix_of_length_lt hpast hlt) hlt hsome with
          ⟨trial', htrial, hin⟩ | ⟨trial', htrial, hin⟩
        · exact .inl ⟨trial', List.mem_append_left _ htrial, hin⟩
        · obtain rfl := Option.some.inj htrial
          exact .inl ⟨next, by simp, hin, by simpa [hspan'] using hlt⟩
    · have hreact : react config t event = reacted := by
        obtain ⟨hf, htime⟩ := not_or.mp hend
        unfold react
        rw [hactive]
        dsimp only
        rw [hm', if_neg hf]
        exact if_neg htime
      refine ⟨ended, some next, ?_⟩
      unfold QueueStudy.advance
      rw [hreact]
      have hnextGoes : next.Goes config c := by
        refine hgoes.extend ?_ ?_
        · exact hfull.trans (Bool.eq_false_iff.mpr (not_or.mp hend).1)
        · simpa [hsince] using (not_or.mp hend).2
      constructor
      · exact hnext
      · exact h.posted
      · exact h.full
      · exact h.any
      · exact h.times
      · exact hends
      · simpa [List.pairwise_append, next] using h.apart
      · exact horder.symm
      · rintro trial' htrial
        obtain rfl := Option.some.inj htrial
        exact ⟨hnextGoes, hspan', by simp [reacted, hsince, next]⟩
      · rintro past hpast hlt hsome
        rcases h.covered past (prefix_of_length_lt hpast hlt) hlt hsome with
          hin | ⟨trial', htrial, hin⟩
        · exact .inl hin
        · obtain rfl := Option.some.inj htrial
          exact .inr ⟨next, rfl, hin⟩

theorem Explains.post (h : Explains config (events ++ [event]) t (events.length + 1) ended current) :
    ∃ current', Explains config (events ++ [event]) (post config t event) (events.length + 2) ended
      current' := by
  -- only the last moment is not accounted for yet
  have hlast : ∀ past, past <+: events ++ [event] → past.length < events.length + 2 →
      past = events ++ [event] ∨ past.length < events.length + 1 := by
    rintro past hpast hlt
    rcases List.prefix_concat_iff.mp hpast with rfl | hpast
    · exact .inl rfl
    · exact .inr (Nat.lt_succ_of_le hpast.length_le)
  cases current with
  | some trial =>
    obtain ⟨hgoes, hspan, -⟩ := h.goes trial rfl
    obtain ⟨m, hm⟩ := Option.isSome_iff_exists.mp hgoes.1
    have hpost : QueueStudy.post config t event = t := by
      unfold QueueStudy.post
      rw [h.active, Option.bind_some, Trial.order, hm]
      rfl
    refine ⟨some trial, { hpost ▸ h with covered := fun past hpast hlt hsome => ?_ }⟩
    rcases hlast past hpast hlt with rfl | hlt
    · exact .inr ⟨trial, rfl, hspan ▸ List.prefix_append _ _⟩
    · exact h.covered past hpast hlt hsome
  | none =>
    have hactive : t.active = none := h.active
    cases hposting : posting config t.book event.exchangeTimestampNs with
    | none =>
      have hpost : QueueStudy.post config t event = t := by
        unfold QueueStudy.post
        rw [hactive]
        dsimp only
        rw [hposting]
      refine ⟨none, { hpost ▸ h with covered := fun past hpast hlt hsome => ?_ }⟩
      rcases hlast past hpast hlt with rfl | hlt
      · rw [posted_append, ← h.book, hposting] at hsome
        cases hsome
      · exact h.covered past hpast hlt hsome
    | some m =>
      have hpost : QueueStudy.post config t event =
          { t with active := some m, eventsSincePost := 0, posted := t.posted + 1 } := by
        unfold QueueStudy.post
        rw [hactive]
        dsimp only
        rw [hposting]
      have hposted : Trial.posted config c (events ++ [event]) = some m := by
        rw [posted_append, ← h.book, hposting]
      refine ⟨some ⟨events ++ [event], []⟩, ?_⟩
      rw [hpost]
      constructor
      · exact h.book
      · simpa using h.posted
      · exact h.full
      · exact h.any
      · exact h.times
      · exact h.ends
      · have hapart := h.apart
        rw [Option.toList_none, List.append_nil] at hapart
        simpa [List.pairwise_append] using ⟨hapart, fun trial htrial => (h.ends trial htrial).2⟩
      · simp [Trial.order, hposted, Trial.follow]
      · rintro trial htrial
        obtain rfl := Option.some.inj htrial
        refine ⟨⟨by rw [hposted]; rfl, ?_⟩, List.append_nil _, rfl⟩
        rintro followed hprefix hne
        exact absurd (List.prefix_nil.mp hprefix) hne
      · rintro past hpast hlt hsome
        rcases hlast past hpast hlt with rfl | hlt
        · exact .inr ⟨_, rfl, List.prefix_rfl⟩
        · rcases h.covered past hpast hlt hsome with hin | ⟨trial, htrial, -⟩
          · exact .inl hin
          · cases htrial

theorem foldl_explains (config : StudyConfig F) (c : Capacity) (events : List MarketDataEvent) :
    ∃ ended current, Explains config events (events.foldl (pass config) (start F c))
      (events.length + 1) ended current := by
  induction events using List.reverseRecOn with
  | nil => exact ⟨[], none, explains_start config c⟩
  | append_singleton events event ih =>
    obtain ⟨ended, current, h⟩ := ih
    obtain ⟨ended', current', h'⟩ := h.advance event
    obtain ⟨current'', h''⟩ := h'.post
    rw [List.foldl_append, List.length_append]
    exact ⟨ended', current'', h''⟩

/-! ## Time -/

/-- Trials that do not overlap share out the events. -/
theorem sum_followed {trials : List Trial} {first last : ℕ}
    (hapart : trials.Pairwise fun trial later => trial.span <+: later.past)
    (hfirst : ∀ trial ∈ trials, first ≤ trial.past.length)
    (hlast : ∀ trial ∈ trials, trial.span.length ≤ last) (hle : first ≤ last) :
    first + (trials.map (·.followed.length)).sum ≤ last := by
  induction trials generalizing first with
  | nil => simpa using hle
  | cons trial trials ih =>
    obtain ⟨hnext, hapart⟩ := List.pairwise_cons.mp hapart
    obtain ⟨hpast, -⟩ := List.forall_mem_cons.mp hfirst
    obtain ⟨hspan, hlast⟩ := List.forall_mem_cons.mp hlast
    have hrest := ih hapart (fun later hlater => (hnext later hlater).length_le) hlast hspan
    rw [Trial.span, List.length_append] at hrest
    rw [List.map_cons, List.sum_cons]
    omega

theorem Trial.Ends.length_le {trial : Trial} (h : trial.Ends config c) :
    0 < trial.followed.length ∧ trial.followed.length ≤ max config.timeout 1 := by
  obtain ⟨followed, event, hfollowed, hgoes, -⟩ := h
  rw [hfollowed, List.length_append]
  cases hnil : followed with
  | nil => simp
  | cons e rest =>
    have hlt := (hgoes.2 followed List.prefix_rfl (by simp [hnil])).2
    rw [← hnil]
    simp only [List.length_singleton]
    omega

/-- The loop posts an order whenever there is a level to join and no order is followed, follows it
until it is filled or its time is out, and counts these trials. -/
theorem study_counts_trials (config : StudyConfig F) (connector : Feed σ MarketDataEvent) (s : σ)
    (c : Capacity) :
    let events := MultiSymbolBook.onSymbol config.locate (connector.drain s).1
    let t := (loop config connector s c).1
    ∃ (ended : List Trial) (current : Option Trial),
      (∀ trial ∈ ended, trial.Ends config c ∧ trial.span <+: events) ∧
      (∀ trial ∈ current, trial.Goes config c ∧ trial.span = events) ∧
      (ended ++ current.toList).Pairwise (fun trial later => trial.span <+: later.past) ∧
      (∀ past, past <+: events → (Trial.posted config c past).isSome →
        (∃ trial ∈ ended, trial.past <+: past ∧ past.length < trial.span.length) ∨
          ∃ trial ∈ current, trial.past <+: past) ∧
      t.posted = (ended ++ current.toList).length ∧
      t.full = ended.countP (Trial.full config c) ∧
      t.anyFills = (ended ++ current.toList).countP (Trial.filled config c) ∧
      t.eventsToFull = (ended.filter (Trial.full config c)).map (·.followed.length) ∧
      (∀ k ∈ t.eventsToFull, 0 < k ∧ k ≤ max config.timeout 1) ∧
      t.eventsToFull.sum ≤ events.length := by
  rintro events t
  obtain ⟨ended, current, h⟩ := foldl_explains config c events
  rw [← loop_eq] at h
  refine ⟨ended, current, h.ends, ?_, h.apart, ?_, ?_, h.full, ?_, h.times, ?_, ?_⟩
  · exact fun trial htrial => ⟨(h.goes trial htrial).1, (h.goes trial htrial).2.1⟩
  · exact fun past hpast => h.covered past hpast (Nat.lt_succ_of_le hpast.length_le)
  · rw [List.length_append]
    exact h.posted
  · rw [anyFills, h.any, h.active, List.countP_append]
    cases current with
    | none => rfl
    | some trial =>
      change (if trial.filled config c = true then _ else _) = _
      cases hfilled : trial.filled config c <;> simp [hfilled]
  · rintro k hk
    rw [h.times] at hk
    obtain ⟨trial, htrial, rfl⟩ := List.mem_map.mp hk
    exact (h.ends trial (List.mem_filter.mp htrial).1).1.length_le
  · rw [h.times]
    have hapart := (List.pairwise_append.mp h.apart).1.sublist
      (List.filter_sublist (p := Trial.full config c))
    have hsum := sum_followed hapart (fun _ _ => Nat.zero_le _)
      (fun trial htrial => (h.ends trial (List.mem_filter.mp htrial).1).2.length_le)
      (Nat.zero_le _)
    rwa [Nat.zero_add] at hsum

/-! ## The summary -/

/-- The median of the events to a full fill, and 0 when there is none. -/
def median (t : QueueStudy F c) : ℕ :=
  let sorted := sortBy (fun a b => a < b) t.eventsToFull
  sorted.getD (sorted.length / 2) 0

omit [QueueDouble F] in
/-- No more than half of the fills took fewer events, and no more than half took more. -/
theorem median_splits (t : QueueStudy F c) (h : t.eventsToFull ≠ []) :
    t.median ∈ t.eventsToFull ∧
      2 * t.eventsToFull.countP (· < t.median) ≤ t.eventsToFull.length ∧
      2 * t.eventsToFull.countP (t.median < ·) ≤ t.eventsToFull.length := by
  have hperm := Sorting.sortBy_perm (fun a b : ℕ => decide (a < b)) t.eventsToFull
  have hsorted : (sortBy (fun a b : ℕ => a < b) t.eventsToFull).Pairwise fun a b => id a ≤ id b :=
    Sorting.sortBy_le (by simp) _
  rw [median]
  generalize sortBy (fun a b : ℕ => decide (a < b)) t.eventsToFull = l at *
  have hpos : 0 < l.length := by
    rw [hperm.length_eq]
    exact List.length_pos_iff.mpr h
  have hhalf : l.length / 2 < l.length := by omega
  have hsplit : l.take (l.length / 2) ++ l[l.length / 2] :: l.drop (l.length / 2 + 1) = l := by
    rw [List.getElem_cons_drop, List.take_append_drop]
  have hmedian : l.getD (l.length / 2) 0 = l[l.length / 2] := by simp [hhalf]
  rw [hmedian, ← hperm.mem_iff, ← hperm.countP_eq, ← hperm.countP_eq,
    ← hperm.length_eq]
  obtain ⟨hbelow, habove⟩ := Sorting.countP_around (hsplit.symm ▸ hsorted)
  rw [hsplit, List.length_take] at hbelow
  rw [hsplit, List.length_drop] at habove
  refine ⟨List.getElem_mem hhalf, ?_, ?_⟩
  · omega
  · omega

end QueueStudy

end MarketEngine.Research
