import Mathlib.Logic.Relation
import MarketEngine.Itch.SessionRefinement

/-! # Calls of `next` and whole drains

The answers of a MoldUDP64 connector are those of the entries of its datagrams,
draining it goes as far as the first entry that stops it, and what it has
decoded on the way are the messages up to there.
-/

namespace MarketEngine

namespace MoldUdp64Connector

/-- These entries are to come, or the stop that stays has been reported. -/
def Tells (entries : List Entry) (c : MoldUdp64Connector) : Prop :=
  c.Ok ∧ (c.upcoming = entries ∨ entries = [] ∧ c.upcoming = [.broken] ∧ c.failed = true)

/-- What a pass takes off the entries that are told. -/
inductive Takes (c : MoldUdp64Connector) (entries : List Entry) :
    MoldUdp64Connector ⊕ (Option MarketDataEvent × MoldUdp64Connector) → Prop
  | goes {c' : MoldUdp64Connector} {taken later : List Entry} (hentries : entries = taken ++ later)
      (htells : Tells later c') (hreport : c'.report = taken.foldl Report.note c.report)
      (hsilent : Silent taken) (hvisit : taken.filterMap Entry.visit = c.current.toList) :
      Takes c entries (.inl c')
  | returns {c' : MoldUdp64Connector} {taken later : List Entry} {last : Entry}
      {answer : Option MarketDataEvent} (hentries : entries = (taken ++ [last]) ++ later)
      (htells : Tells later c') (hreport : c'.report = (taken ++ [last]).foldl Report.note c.report)
      (hsilent : Silent taken) (hanswer : last.answer = some answer)
      (hvisit : (taken ++ [last]).filterMap Entry.visit = c.current.toList) :
      Takes c entries (.inr (answer, c'))
  | ends {c' : MoldUdp64Connector} (htells : Tells [] c')
      (hreport : c'.report = entries.foldl Report.note c.report) (hsilent : Silent entries)
      (hvisit : entries.filterMap Entry.visit = c.current.toList) :
      Takes c entries (.inr (none, c'))

variable {c c' : MoldUdp64Connector} {entries taken : List Entry}

theorem report_note_broken (h : c.failed = true) : c.report.note .broken = c.report := by
  rw [Report.note, report, h]

theorem failed_of_broken {r : Report} (hreport : c.report = (taken ++ [Entry.broken]).foldl
    Report.note r) : c.failed = true := by
  rw [List.foldl_append] at hreport
  exact congrArg Report.failed hreport

/-- Every pass goes through the entries that are told. -/
theorem Tells.pass (h : Tells entries c) : Takes c entries c.pass := by
  obtain ⟨hok, hall | ⟨rfl, hbroken, hfailed⟩⟩ := h
  · have hout := pass_outcome hok
    generalize c.pass = result at hout ⊢
    cases hout with
    | goes hmoves hsilent hvisit =>
      exact .goes (hall.symm.trans hmoves.upcoming) ⟨hmoves.ok, .inl rfl⟩ hmoves.report hsilent
        hvisit
    | returns hmoves hsilent hanswer hvisit =>
      exact .returns (hall.symm.trans hmoves.upcoming) ⟨hmoves.ok, .inl rfl⟩ hmoves.report hsilent
        hanswer hvisit
    | ends hmoves hsilent hvisit hend =>
      have hupcoming := hall.symm.trans hmoves.upcoming
      rw [hend, List.append_nil] at hupcoming
      rw [hupcoming]
      exact .ends ⟨hmoves.ok, .inl hend⟩ hmoves.report hsilent hvisit
    | sticks hsticks hsilent hvisit =>
      have hupcoming := hall.symm.trans hsticks.upcoming
      refine .returns (hupcoming.trans (List.append_nil _).symm)
        ⟨hsticks.ok, .inr ⟨rfl, hsticks.stuck, failed_of_broken hsticks.report⟩⟩ hsticks.report
        hsilent rfl ?_
      rw [List.filterMap_append, hvisit]
      exact List.append_nil _
  · have hout := pass_outcome hok
    generalize c.pass = result at hout ⊢
    cases hout with
    | goes hmoves hsilent hvisit =>
      have hupcoming := hmoves.upcoming.symm.trans hbroken
      rcases List.append_eq_singleton_iff.mp hupcoming with ⟨rfl, hstuck⟩ | ⟨rfl, -⟩
      · have hfailed' : _ = c.failed := congrArg Report.failed hmoves.report
        exact .goes rfl ⟨hmoves.ok, .inr ⟨rfl, hstuck, hfailed'.trans hfailed⟩⟩ hmoves.report
          Silent.nil hvisit
      · cases hsilent _ (List.mem_singleton_self _)
    | @returns c' taken last answer hmoves hsilent hanswer hvisit =>
      have hupcoming := hmoves.upcoming.symm.trans hbroken
      rcases List.append_eq_singleton_iff.mp hupcoming with ⟨hnil, -⟩ | ⟨hlast, hend⟩
      · cases (List.append_eq_nil_iff.mp hnil).2
      · obtain ⟨rfl, hlast⟩ := List.append_eq_singleton_iff.mp hlast |>.resolve_right
          fun h => nomatch h.2
        cases hlast
        cases hanswer
        exact .ends ⟨hmoves.ok, .inl hend⟩ (hmoves.report.trans (report_note_broken hfailed))
          Silent.nil hvisit
    | ends hmoves hsilent hvisit hend =>
      have hupcoming := hmoves.upcoming.symm.trans hbroken
      rcases List.append_eq_singleton_iff.mp hupcoming with ⟨rfl, hstuck⟩ | ⟨rfl, -⟩
      · cases hend.symm.trans hstuck
      · cases hsilent _ (List.mem_singleton_self _)
    | sticks hsticks hsilent hvisit =>
      have hupcoming := hsticks.upcoming.symm.trans hbroken
      rcases List.append_eq_singleton_iff.mp hupcoming with ⟨rfl, -⟩ | ⟨rfl, hnil⟩
      · exact .ends ⟨hsticks.ok, .inr ⟨rfl, hsticks.stuck, failed_of_broken hsticks.report⟩⟩
          (hsticks.report.trans (report_note_broken hfailed)) Silent.nil hvisit
      · cases hsilent _ (List.mem_singleton_self _)

/-- The answers of `next` are those of the entries. -/
theorem feed_follows :
    feed.Follows fun script c => ∃ entries, Tells entries c ∧
      script = entries.filterMap Entry.answer := by
  refine Feed.follows_of_loop (l := nextLoop) (fun _ => rfl) ?_ ?_
  · rintro _ c c' ⟨entries, htells, rfl⟩ hbody
    have htakes := htells.pass
    rw [show c.pass = .inl c' from hbody] at htakes
    cases htakes with
    | goes hentries htells' hreport hsilent hvisit =>
      refine ⟨_, htells', ?_⟩
      rw [hentries, List.filterMap_append, hsilent.answers, List.nil_append]
  · rintro _ c r ⟨entries, htells, rfl⟩ hbody
    have htakes := htells.pass
    rw [show c.pass = .inr r from hbody] at htakes
    cases htakes with
    | returns hentries htells' hreport hsilent hanswer hvisit =>
      rw [hentries, List.filterMap_append, List.filterMap_append, hsilent.answers,
        List.filterMap_cons_some hanswer]
      exact ⟨rfl, _, htells', rfl⟩
    | ends htells' hreport hsilent hvisit =>
      rw [hsilent.answers]
      exact ⟨rfl, [], htells', rfl⟩

/-! ## The report of a drain -/

/-- What a drain is to report. -/
def Reports (r : Report) (c : MoldUdp64Connector) : Prop :=
  ∃ entries, Tells entries c ∧ (untilStop entries).foldl Report.note c.report = r

theorem Reports.next {r : Report} (h : Reports r c) :
    (c.next.1 ≠ none → Reports r c.next.2) ∧ (c.next.1 = none → c.next.2.report = r) := by
  refine nextLoop.run_invariant (I := Reports r)
    (Q := fun answer => (answer.1 ≠ none → Reports r answer.2) ∧
      (answer.1 = none → answer.2.report = r)) ?_ ?_ h
  · rintro c c' ⟨entries, htells, hr⟩ hbody
    have htakes := htells.pass
    rw [show c.pass = .inl c' from hbody] at htakes
    cases htakes with
    | goes hentries htells' hreport hsilent hvisit =>
      rw [hentries, hsilent.untilStop, List.foldl_append, ← hreport] at hr
      exact ⟨_, htells', hr⟩
  · rintro c answer ⟨entries, htells, hr⟩ hbody
    have htakes := htells.pass
    rw [show c.pass = .inr answer from hbody] at htakes
    cases htakes with
    | @returns c' taken later last answer hentries htells' hreport hsilent hanswer hvisit =>
      rw [hentries, List.append_assoc, hsilent.untilStop, List.singleton_append] at hr
      constructor
      · intro hsome
        have hgoes : last.answer ≠ some none := by
          rw [hanswer]
          exact fun h => hsome (Option.some.inj h)
        rw [untilStop, if_neg hgoes, ← List.singleton_append, ← List.append_assoc,
          List.foldl_append, ← hreport] at hr
        exact ⟨_, htells', hr⟩
      · rintro rfl
        rw [untilStop_stop hanswer, ← hreport] at hr
        exact hr
    | ends htells' hreport hsilent hvisit =>
      refine ⟨fun hsome => absurd rfl hsome, fun _ => ?_⟩
      have huntil : untilStop (_ ++ []) = _ ++ untilStop [] := hsilent.untilStop
      rw [List.append_nil, untilStop, List.append_nil] at huntil
      rw [huntil, ← hreport] at hr
      exact hr

/-- Draining delivers the events up to the first stop, and reports what was met up to there. -/
theorem drain_eq (h : Tells entries c) :
    (feed.drain c).1 = Feed.heard (entries.filterMap Entry.answer) ∧
      (feed.drain c).2.report = (untilStop entries).foldl Report.note c.report := by
  constructor
  · exact (feed_follows.drain ⟨entries, h, rfl⟩).1
  · refine Feed.drain_invariant
      (I := Reports ((untilStop entries).foldl Report.note c.report))
      (Q := fun t => t.report = (untilStop entries).foldl Report.note c.report) ?_ ?_
      ⟨entries, h, rfl⟩
    · intro t event ht hnext
      exact ht.next.1 fun hnone => nomatch hnext.symm.trans hnone
    · exact fun t ht hnext => ht.next.2 hnext

/-! ## What a drain decodes -/

/-- A message with this sequence number is decoded in the course of a drain. -/
def Processed (c : MoldUdp64Connector) (sequence : UInt64) : Prop :=
  ∃ c', Relation.ReflTransGen Step c c' ∧ ∃ payload, c'.current = some (sequence, payload)

theorem current_of_mem {sequence : UInt64} {payload : Bytes}
    (hvisit : taken.filterMap Entry.visit = c.current.toList)
    (hmem : .message sequence payload ∈ taken) : c.current = some (sequence, payload) := by
  have hcurrent : (sequence, payload) ∈ c.current.toList := by
    rw [← hvisit]
    exact List.mem_filterMap.mpr ⟨_, hmem, rfl⟩
  exact Option.mem_toList.mp hcurrent

theorem mem_of_current {sequence : UInt64} {payload : Bytes}
    (hvisit : taken.filterMap Entry.visit = c.current.toList)
    (hcurrent : c.current = some (sequence, payload)) : .message sequence payload ∈ taken := by
  have hmem : (sequence, payload) ∈ taken.filterMap Entry.visit := by
    rw [hvisit, hcurrent]
    exact List.mem_singleton_self _
  obtain ⟨entry, hentry, hvisited⟩ := List.mem_filterMap.mp hmem
  cases entry with
  | message sequence' payload' =>
    cases hvisited
    exact hentry
  | missed => cases hvisited
  | ended => cases hvisited
  | broken => cases hvisited

/-- A step goes on with what is told behind some entries. -/
theorem Tells.step (h : Tells entries c) (hstep : Step c c') :
    ∃ later, Tells later c' ∧ ∀ entry ∈ later, entry ∈ entries := by
  have htakes := h.pass
  rcases hstep with hpass | ⟨event, hpass⟩
  · rw [hpass] at htakes
    cases htakes with
    | goes hentries htells hreport hsilent hvisit =>
      exact ⟨_, htells, fun entry hmem => hentries ▸ List.mem_append_right _ hmem⟩
  · rw [hpass] at htakes
    cases htakes with
    | returns hentries htells hreport hsilent hanswer hvisit =>
      exact ⟨_, htells, fun entry hmem => hentries ▸ List.mem_append_right _ hmem⟩

/-- What is decoded was told. -/
theorem Processed.mem {sequence : UInt64} (h : Processed c sequence) (htells : Tells entries c) :
    ∃ payload, .message sequence payload ∈ entries := by
  obtain ⟨c', hsteps, payload, hcurrent⟩ := h
  have hlater : ∃ later, Tells later c' ∧ ∀ entry ∈ later, entry ∈ entries := by
    clear hcurrent
    induction hsteps with
    | refl => exact ⟨entries, htells, fun _ hmem => hmem⟩
    | tail _ hstep ih =>
      obtain ⟨later, hlater, hsub⟩ := ih
      obtain ⟨later', hlater', hsub'⟩ := hlater.step hstep
      exact ⟨later', hlater', fun entry hmem => hsub entry (hsub' entry hmem)⟩
  obtain ⟨later, hlater, hsub⟩ := hlater
  have htakes := hlater.pass
  refine ⟨payload, hsub _ ?_⟩
  generalize c'.pass = result at htakes
  cases htakes with
  | goes hentries _ _ _ hvisit =>
    exact hentries ▸ List.mem_append_left _ (mem_of_current hvisit hcurrent)
  | returns hentries _ _ _ _ hvisit =>
    exact hentries ▸ List.mem_append_left _ (mem_of_current hvisit hcurrent)
  | ends _ _ _ hvisit => exact mem_of_current hvisit hcurrent

/-- What is told is decoded, if nothing stops the drain. -/
theorem Tells.processed {sequence : UInt64} {payload : Bytes} (h : Tells entries c)
    (hgoes : Unbroken entries) (hmem : .message sequence payload ∈ entries) :
    Processed c sequence := by
  generalize hn : c.measure = n
  induction n using Nat.strongRecOn generalizing c entries with
  | ind n ih =>
    have htakes := h.pass
    cases hpass : c.pass with
    | inl c' =>
      rw [hpass] at htakes
      cases htakes with
      | goes hentries htells hreport hsilent hvisit =>
        rw [hentries] at hgoes hmem
        rcases List.mem_append.mp hmem with hmem | hmem
        · exact ⟨c, .refl, payload, current_of_mem hvisit hmem⟩
        · have hstep : Step c c' := .inl hpass
          obtain ⟨c'', hsteps, hcurrent⟩ := ih _ (hn ▸ hstep.measure_lt) htells
            (fun entry he => hgoes entry (List.mem_append_right _ he)) hmem rfl
          exact ⟨c'', hsteps.head hstep, hcurrent⟩
    | inr result =>
      rw [hpass] at htakes
      cases htakes with
      | @returns c' taken later last answer hentries htells hreport hsilent hanswer hvisit =>
        rw [hentries] at hgoes hmem
        rcases List.mem_append.mp hmem with hmem | hmem
        · exact ⟨c, .refl, payload, current_of_mem hvisit hmem⟩
        · have hlast := hgoes last (List.mem_append_left _
            (List.mem_append_right _ (List.mem_singleton_self _)))
          cases answer with
          | none => exact absurd hanswer hlast
          | some event =>
            have hstep : Step c c' := .inr ⟨event, hpass⟩
            obtain ⟨c'', hsteps, hcurrent⟩ := ih _ (hn ▸ hstep.measure_lt) htells
              (fun entry he => hgoes entry (List.mem_append_right _ he)) hmem rfl
            exact ⟨c'', hsteps.head hstep, hcurrent⟩
      | ends htells hreport hsilent hvisit =>
        exact ⟨c, .refl, payload, current_of_mem hvisit hmem⟩

/-! ## Sessions from their start -/

/-- The entries of the datagrams of a source, from the start of a session. -/
def session (source : DatagramSource) (retransmit : Option RetransmitSource) : List Entry :=
  Session.entries (recoverFrom retransmit) source.failed none (source.rest.map Received.ofBytes)

theorem tells_ofSource (source : DatagramSource) (retransmit : Option RetransmitSource) :
    Tells (session source retransmit) (ofSource source retransmit) := by
  have hidle : (ofSource source retransmit).Idle := ⟨rfl, rfl⟩
  exact ⟨hidle.ok, .inl hidle.upcoming⟩

/-- What is written of a session is what comes up. -/
theorem session_encode (datagrams : List Datagram) (retransmit : Option RetransmitSource) :
    session ⟨datagrams.map Datagram.encode, false⟩ retransmit =
      Session.entries (recoverFrom retransmit) false none
        (datagrams.map Datagram.received) := by
  rw [session, List.map_map]
  congr 1
  exact List.map_congr_left fun datagram _ => datagram.received_encode

/-- What is reported after a session without a stop. -/
theorem report_unbroken {source : DatagramSource} {retransmit : Option RetransmitSource}
    (h : Unbroken entries)
    (hreport : c.report = entries.foldl Report.note (ofSource source retransmit).report) :
    c.messagesDecoded = (events entries).length ∧ c.failed = false ∧
      c.messagesMissed = UInt64.ofNat ((content entries).count .missed) := by
  have hcount := congrArg Report.messagesDecoded hreport
  have hfailed := congrArg Report.failed hreport
  have hmissed := congrArg Report.messagesMissed hreport
  rw [foldl_note_decoded] at hcount
  rw [foldl_note_failed _ h] at hfailed
  rw [foldl_note_missed] at hmissed
  exact ⟨hcount.trans (Nat.zero_add _), hfailed, hmissed.trans (UInt64.zero_add _)⟩

/-- Draining a session without a stop. -/
theorem drain_unbroken {source : DatagramSource} {retransmit : Option RetransmitSource}
    (h : Unbroken (session source retransmit)) :
    let c := ofSource source retransmit
    (feed.drain c).1 = events (session source retransmit) ∧
      (feed.drain c).2.messagesDecoded = (events (session source retransmit)).length ∧
      (feed.drain c).2.failed = false ∧
      (feed.drain c).2.messagesMissed =
        UInt64.ofNat ((content (session source retransmit)).count .missed) := by
  obtain ⟨hevents, hreport⟩ := drain_eq (tells_ofSource source retransmit)
  rw [h.heard] at hevents
  rw [h.untilStop] at hreport
  exact ⟨hevents, report_unbroken h hreport⟩

end MoldUdp64Connector

end MarketEngine
