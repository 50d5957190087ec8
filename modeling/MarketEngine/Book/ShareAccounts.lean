import MarketEngine.Book.DropCopy
import MarketEngine.Book.PriorityRefinement
import MarketEngine.Kit.KeyedSum

/-! # The shares of an order

What is submitted under an id is traded, rests, is killed or is canceled, and
nothing else is. The account of an id closes over whole sessions, whoever trades
with whom.
-/

namespace MarketEngine

open Transition

variable {c : Capacity} {b b' : OrderBook c} {a : PriceTimeBook} {request : OrderRequest}
  {id : OrderId} {p : PriorityBook} {report : SubmitReport} {reports : List SubmitReport}

/-! ## Accounts -/

/-- What some fills have traded for an id, on either side of them. -/
def tradedBy (id : OrderId) (fills : List Fill) : ℕ :=
  KeyedSum.total (·.quantity.toNat) (·.takerId = id) fills +
    KeyedSum.total (·.quantity.toNat) (·.makerId = id) fills

/-- The request is let in. -/
def SubmitResult.accepts : SubmitResult → Bool
  | .rejectedInvalid | .rejectedDuplicate | .rejectedFOK | .canceled => false
  | _ => true

/-- What is left of the request is dropped. -/
def SubmitResult.kills : SubmitResult → Bool
  | .noFillKilled | .partialFillKilled | .rejectedCapacity => true
  | _ => false

namespace SubmitReport

/-- The shares that come in under an id. -/
def accepted (report : SubmitReport) (id : OrderId) : ℕ :=
  if report.request.id = id ∧ report.result.accepts then report.request.quantity.toNat else 0

/-- The shares that are dropped at once. -/
def killed (report : SubmitReport) (id : OrderId) : ℕ :=
  if report.request.id = id ∧ report.result.kills then
    report.request.quantity.toNat - filledQuantity report.fills
  else 0

theorem killed_of_kills {result : SubmitResult} {fills : List Fill} (h : result.kills = true) :
    killed ⟨request, result, fills⟩ id =
      if request.id = id then request.quantity.toNat - filledQuantity fills else 0 := by
  simp [killed, h]

theorem killed_of_keeps {result : SubmitResult} {fills : List Fill} (h : result.kills = false) :
    killed ⟨request, result, fills⟩ id = 0 := by
  simp [killed, h]

def cancels (report : SubmitReport) (id : OrderId) : Prop :=
  report.result = .canceled ∧ report.request.id = id

/-- The account is closed: a cancel alone makes shares disappear. -/
def Closes (report : SubmitReport) (id : OrderId) (before after : ℕ) : Prop :=
  after + tradedBy id report.fills + report.killed id ≤ before + report.accepted id ∧
    (¬report.cancels id →
      after + tradedBy id report.fills + report.killed id = before + report.accepted id)

end SubmitReport

/-! ## One pass over the list -/

namespace PriorityBook

/-- The shares that rest under an id. -/
def held (p : PriorityBook) (id : OrderId) : ℕ :=
  KeyedSum.total (·.quantity.toNat) (·.id = id) p.orders

theorem mem_serve {wanted : Quantity} {l : List OrderView} {o : OrderView}
    (ho : o ∈ (serve request wanted l).orders) : ∃ o' ∈ l, o'.id = o.id := by
  induction l generalizing wanted with
  | nil => exact absurd ho List.not_mem_nil
  | cons o₀ l ih =>
    have hlater : ∀ {wanted}, o ∈ (serve request wanted l).orders → ∃ o' ∈ o₀ :: l, o'.id = o.id :=
      fun ho => (ih ho).imp fun _ h => ⟨List.mem_cons_of_mem _ h.1, h.2⟩
    unfold serve at ho
    split_ifs at ho with hskip
    · rcases List.mem_cons.mp ho with rfl | ho
      · exact ⟨o, List.mem_cons_self, rfl⟩
      · exact hlater ho
    · dsimp only at ho
      split_ifs at ho with hwhole
      · exact hlater ho
      · rcases List.mem_cons.mp ho with rfl | ho
        · exact ⟨o₀, List.mem_cons_self, rfl⟩
        · exact hlater ho

/-- What a pass takes from the orders of an id is what it reports for them. -/
theorem serve_shares (request : OrderRequest) (wanted : Quantity) (l : List OrderView)
    (id : OrderId) :
    let served := serve request wanted l
    KeyedSum.total (·.quantity.toNat) (·.id = id) l =
        KeyedSum.total (·.quantity.toNat) (·.id = id) served.orders +
          KeyedSum.total (·.quantity.toNat) (·.makerId = id) served.fills ∧
      wanted.toNat = served.remaining.toNat + filledQuantity served.fills ∧
      ∀ fill ∈ served.fills, fill.takerId = request.id := by
  induction l generalizing wanted with
  | nil => simp [serve, filledQuantity, KeyedSum.total]
  | cons o l ih =>
    unfold serve
    split_ifs with hskip
    · obtain ⟨horders, hwanted, htaker⟩ := ih wanted
      exact ⟨by simp [horders, Nat.add_assoc], hwanted, htaker⟩
    · obtain ⟨horders, hwanted, htaker⟩ := ih (wanted - min wanted o.quantity)
      have hmin : (min wanted o.quantity).toNat ≤ wanted.toNat ∧
          (min wanted o.quantity).toNat ≤ o.quantity.toNat := by
        rcases Trading.min_cases wanted o.quantity with ⟨hle, hmin⟩ | ⟨hlt, hmin⟩
        · rw [hmin]
          exact ⟨le_rfl, UInt64.le_iff_toNat_le.mp hle⟩
        · rw [hmin]
          exact ⟨(UInt64.lt_iff_toNat_lt.mp hlt).le, le_rfl⟩
      have hrest := UInt64.toNat_sub_of_le _ _ (UInt64.le_iff_toNat_le.mpr hmin.1)
      have hleft := UInt64.toNat_sub_of_le _ _ (UInt64.le_iff_toNat_le.mpr hmin.2)
      dsimp only
      refine ⟨?_, ?_, List.forall_mem_cons.mpr ⟨rfl, htaker⟩⟩
      · split_ifs with hwhole
        · rw [KeyedSum.total_cons, KeyedSum.total_cons, horders, hwhole]
          dsimp only
          omega
        · rw [KeyedSum.total_cons, KeyedSum.total_cons, KeyedSum.total_cons, horders]
          dsimp only
          rw [hleft]
          split_ifs <;> omega
      · simp only [filledQuantity, List.map_cons, List.sum_cons] at hwanted ⊢
        omega

/-- An order that comes to rest brings its shares. -/
theorem held_enter (p : PriorityBook) (id' : OrderId) (side : Side) (price : Price)
    (q : Quantity) : (p.enter id' side price q).held id =
      p.held id + if id' = id then q.toNat else 0 := by
  rw [held, enter, KeyedSum.total_perm KeyOrder.enqueue_perm, KeyedSum.total_cons, Nat.add_comm]
  rfl

/-- Nothing rests under an id that is canceled. -/
theorem held_without (p : PriorityBook) (id' : OrderId) :
    (p.without id').held id = if id' = id then 0 else p.held id := by
  rw [held, without]
  split_ifs with hid
  · subst hid
    exact KeyedSum.total_eq_zero fun o ho => by simpa using (List.mem_filter.mp ho).2
  · rw [held, KeyedSum.total, KeyedSum.total, List.filter_filter]
    congr 2
    refine List.filter_congr fun o _ => ?_
    by_cases ho : o.id = id <;> simp [ho, Ne.symm hid]

/-! ## One request -/

/-- What is left of a request rests, is dropped, or is nothing. -/
theorem settle_shares (id : OrderId) (hfree : request.mayRest = true → p.find request.id = none)
    {remaining : Quantity} {fills : List Fill}
    (hremaining : request.quantity.toNat = remaining.toNat + filledQuantity fills) :
    (p.settle request remaining).1.accepts = true ∧
      (p.settle request remaining).2.held id +
          (if request.id = id then filledQuantity fills else 0) +
          (SubmitReport.killed ⟨request, (p.settle request remaining).1, fills⟩ id) =
        p.held id + if request.id = id then request.quantity.toNat else 0 := by
  unfold settle
  dsimp only
  by_cases hzero : remaining = 0
  · rw [if_pos hzero]
    subst hzero
    simp only [SubmitReport.killed, SubmitResult.kills, SubmitResult.accepts, and_false, if_false,
      UInt64.toNat_zero, Nat.zero_add, Bool.false_eq_true] at hremaining ⊢
    simp [hremaining]
  rw [if_neg hzero]
  by_cases hmay : request.mayRest = true
  · rw [if_pos hmay]
    have hrest : p.rest request.id request.side request.priceTicks remaining =
        if p.orders.length = p.capacity then (.capacityExhausted, p)
        else (.applied, p.enter request.id request.side request.priceTicks remaining) := by
      unfold rest
      rw [if_neg hzero, hfree hmay]
      rfl
    rw [hrest]
    by_cases hfull : p.orders.length = p.capacity
    · rw [if_pos hfull]
      refine ⟨rfl, ?_⟩
      dsimp only
      rw [SubmitReport.killed_of_kills rfl]
      split_ifs <;> omega
    · rw [if_neg hfull]
      dsimp only
      rw [SubmitReport.killed_of_keeps (by split_ifs <;> rfl), held_enter]
      refine ⟨by split_ifs <;> rfl, ?_⟩
      split_ifs <;> omega
  · rw [if_neg hmay]
    dsimp only
    rw [SubmitReport.killed_of_kills (by split_ifs <;> rfl)]
    refine ⟨by split_ifs <;> rfl, ?_⟩
    split_ifs <;> omega

/-- The account of an id closes over every request. -/
theorem submit_closes (p : PriorityBook) (request : OrderRequest) (id : OrderId) :
    SubmitReport.Closes ⟨request, (p.submit request).1, (p.submit request).2.1⟩ id (p.held id)
      ((p.submit request).2.2.held id) := by
  have hsame : ∀ result : SubmitResult, result.accepts = false → result.kills = false →
      SubmitReport.Closes ⟨request, result, []⟩ id (p.held id) (p.held id) := by
    rintro result haccepts hkills
    simp [SubmitReport.Closes, tradedBy, KeyedSum.total, SubmitReport.killed,
      SubmitReport.accepted, haccepts, hkills]
  unfold submit
  cases request.type with
  | cancel =>
    dsimp only
    unfold cancel
    cases p.find request.id with
    | none => exact hsame _ rfl rfl
    | some o =>
      dsimp only
      rw [held_without]
      by_cases hid : request.id = id
      · simp [SubmitReport.Closes, tradedBy, KeyedSum.total, SubmitReport.killed,
          SubmitReport.accepted, SubmitReport.cancels, SubmitResult.accepts, SubmitResult.kills,
          hid]
      · rw [if_neg hid]
        exact hsame _ rfl rfl
  | new =>
    dsimp only
    by_cases hq : request.quantity = 0
    · rw [if_pos hq]
      exact hsame _ rfl rfl
    rw [if_neg hq]
    by_cases hdup : request.mayRest = true ∧ (p.find request.id).isSome = true
    · rw [if_pos hdup]
      exact hsame _ rfl rfl
    rw [if_neg hdup]
    by_cases hfok : request.tif = .fok ∧ request.fillable p.orders < request.quantity
    · rw [if_pos hfok]
      exact hsame _ rfl rfl
    rw [if_neg hfok]
    obtain ⟨horders, hwanted, htaker⟩ := serve_shares request request.quantity p.orders id
    generalize hserved : serve request request.quantity p.orders = served at *
    let rest : PriorityBook := { p with orders := served.orders }
    have hfree : request.mayRest = true → rest.find request.id = none := by
      intro hmay
      have hnone : p.find request.id = none := by simpa [hmay] using hdup
      refine List.find?_eq_none.mpr fun o ho => ?_
      have ho : o ∈ (serve request request.quantity p.orders).orders := by rwa [hserved]
      obtain ⟨o', ho', hid⟩ := mem_serve ho
      exact hid ▸ List.find?_eq_none.mp hnone o' ho'
    obtain ⟨haccepts, haccount⟩ := settle_shares id hfree hwanted
    have htakers : KeyedSum.total (·.quantity.toNat) (·.takerId = id) served.fills =
        if request.id = id then filledQuantity served.fills else 0 := by
      split_ifs with hid
      · rw [KeyedSum.total, List.filter_eq_self.mpr fun fill hfill => by
          simp [htaker fill hfill, hid]]
        rfl
      · exact KeyedSum.total_eq_zero fun fill hfill => by rwa [htaker fill hfill]
    have hheld : p.held id = rest.held id +
        KeyedSum.total (·.quantity.toNat) (·.makerId = id) served.fills := horders
    suffices h : ((rest.settle request served.remaining).2.held id +
        tradedBy id served.fills +
        SubmitReport.killed ⟨request, (rest.settle request served.remaining).1, served.fills⟩ id) =
          p.held id + SubmitReport.accepted
            ⟨request, (rest.settle request served.remaining).1, served.fills⟩ id from
      ⟨h.le, fun _ => h⟩
    rw [tradedBy, htakers, hheld]
    simp only [SubmitReport.accepted, haccepts, and_true]
    omega

end PriorityBook

/-! ## Sessions -/

theorem total_bare {p : Fill → Prop} [DecidablePred p] (hp : ∀ fill : Fill, p fill.bare ↔ p fill)
    (fills : List Fill) : KeyedSum.total (·.quantity.toNat) p (fills.map Fill.bare) =
      KeyedSum.total (·.quantity.toNat) p fills := by
  rw [KeyedSum.total, KeyedSum.total, List.filter_map, List.map_map]
  congr 2
  exact List.filter_congr fun fill _ => decide_eq_decide.mpr (hp fill)

/-- An account does not look at the numbers of the fills. -/
theorem SubmitReport.closes_bare {result : SubmitResult} {fills : List Fill} {before after : ℕ}
    (h : SubmitReport.Closes ⟨request, result, fills.map Fill.bare⟩ id before after) :
    SubmitReport.Closes ⟨request, result, fills⟩ id before after := by
  have htraded : tradedBy id (fills.map Fill.bare) = tradedBy id fills := by
    rw [tradedBy, total_bare fun _ => Iff.rfl, total_bare fun _ => Iff.rfl, tradedBy]
  have hfilled : filledQuantity (fills.map Fill.bare) = filledQuantity fills := by
    rw [filledQuantity, List.map_map]
    rfl
  unfold Closes killed at h ⊢
  rwa [htraded, hfilled] at h

namespace OrderBook

/-- The shares that rest under an id. -/
def shares (b : OrderBook c) (id : OrderId) : ℕ :=
  (b.findOrder id).elim 0 fun order => order.quantity.toNat

theorem Represents.shares_eq (h : Represents b a) (id : OrderId) :
    b.shares id = a.view.held id := by
  have hnodup : (a.view.orders.map OrderView.id).Nodup := by
    rw [PriceTimeBook.view, List.map_map]
    exact ((ordersInPriority_perm a).map OrderView.id).nodup_iff.mpr h.nodup_ids
  have hfind : (a.view.orders.find? fun o => o.id = id) = (a.find id).map OrderView.bare :=
    PriceTimeBook.view_find h.nodup_ids id
  rw [PriorityBook.held, KeyedSum.total_key hnodup, hfind, shares, h.findOrder]
  cases a.find id <;> rfl

/-- Every report closes the account of every id. -/
theorem Represents.closes (h : Represents b a) (hq : b.HasQuantities)
    (hkeys : ¬ b.Refuses (.submit report.request))
    (hsubmits : b.SubmitsTo report.request report.result report.fills b') (id : OrderId) :
    report.Closes id (b.shares id) (b'.shares id) ∧ b'.HasQuantities ∧
      ∃ a', Represents b' a' := by
  have hanswers : b.Answers (.submit report.request, .submitted report.result report.fills) b' :=
    hsubmits
  obtain ⟨hresponse, hrep'⟩ := h.answers hkeys hanswers
  have hcloses := PriorityBook.submit_closes a.view report.request id
  rw [PriceTimeBook.view_submit (h.tidy hq)] at hcloses
  have hsubmit : a.respond (.submit report.request) =
      (.submitted (a.submit false report.request).1 (a.submit false report.request).2.1,
        (a.submit false report.request).2.2) := rfl
  rw [hsubmit] at hresponse hrep'
  generalize a.submit false report.request = answer at hresponse hrep' hcloses
  obtain ⟨result, fills, a'⟩ := answer
  obtain ⟨hresult, hfills⟩ := Response.submitted.inj hresponse
  rw [h.shares_eq, hrep'.shares_eq]
  refine ⟨?_, hq.step (Answers.step hanswers), a', hrep'⟩
  subst hresult hfills
  exact SubmitReport.closes_bare hcloses

/-- Over a session no share of an order is filled, kept or killed that was not there or was not
submitted, and unless the order is canceled every share is accounted for. -/
theorem shares_conserved {calls : List Call} (hrun : KeepsOrders c calls b)
    (hsession : b.Session reports b') (id : OrderId) :
    b'.shares id + (reports.map fun report => tradedBy id report.fills).sum +
        (reports.map fun report => report.killed id).sum ≤
      b.shares id + (reports.map fun report => report.accepted id).sum ∧
    ((∀ report ∈ reports, ¬report.cancels id) →
      b'.shares id + (reports.map fun report => tradedBy id report.fills).sum +
          (reports.map fun report => report.killed id).sum =
        b.shares id + (reports.map fun report => report.accepted id).sum) := by
  obtain ⟨a, hrep, -⟩ := hrun.represents
  suffices h : _ ∧ b'.HasQuantities ∧ ∃ a', Represents b' a' from h.1
  induction hsession with
  | start => exact ⟨⟨le_rfl, fun _ => rfl⟩, hrun.hasQuantities, a, hrep⟩
  | @next reports b₁ b₂ report _ hstep ih =>
    obtain ⟨⟨hle, heq⟩, hq₁, a₁, hrep₁⟩ := ih
    obtain ⟨⟨hstep_le, hstep_eq⟩, hq₂, hrep₂⟩ := hrep₁.closes hq₁ hstep.1 hstep.2 id
    simp only [List.map_append, List.sum_append, List.map_singleton, List.sum_singleton,
      List.forall_mem_append, List.forall_mem_singleton]
    refine ⟨⟨by omega, ?_⟩, hq₂, hrep₂⟩
    rintro ⟨hnone, hlast⟩
    have hbefore := heq hnone
    have hafter := hstep_eq hlast
    omega

/-- The shares of a request that fills two orders, one of them in part. -/
theorem five_bought_conserved :
    let b := (fresh .three).processAll threeAsks
    ∃ reports b', b.Session reports b' ∧ reports.map SubmitReport.request = [buyFiveAtTen] ∧
      b'.shares buyFiveAtTen.id +
          (reports.map fun report => tradedBy buyFiveAtTen.id report.fills).sum +
          (reports.map fun report => report.killed buyFiveAtTen.id).sum ≤
        b.shares buyFiveAtTen.id +
          (reports.map fun report => report.accepted buyFiveAtTen.id).sum := by
  intro b
  obtain ⟨result, fills, b', hsubmits⟩ := keepsOrders_threeAsks.answers buyFiveAtTen
  have hsession : b.Session [⟨buyFiveAtTen, result, fills⟩] b' :=
    .next .start ⟨keepsOrders_threeAsks.not_refuses (by decide +kernel) _, hsubmits⟩
  exact ⟨_, b', hsession, rfl, (shares_conserved keepsOrders_threeAsks hsession _).1⟩

end OrderBook

end MarketEngine
