import MarketEngine.Book.Runs
import MarketEngine.Book.Trading

/-! # Match mode leaves no crossed book

A remainder rests only when no order on the other side is reached by it, so a
book that only ever took requests has every bid below every ask.
-/

namespace MarketEngine

open Transition

variable {c : Capacity} {b b' : OrderBook c} {a : PriceTimeBook} {request : OrderRequest}
  {t : Trading} {refused : Bool}

namespace PriceTimeBook

/-- Every bid is below every ask. -/
def Uncrossed (a : PriceTimeBook) : Prop :=
  ∀ o ∈ a.resting, ∀ o' ∈ a.resting, o.side = .buy → o'.side = .sell → o.priceTicks < o'.priceTicks

/-- Orders of the same sides and prices are uncrossed too. -/
theorem Uncrossed.of_keys {a' : PriceTimeBook} (h : a.Uncrossed)
    (hkeys : ∀ o' ∈ a'.resting, ∃ o ∈ a.resting, o.key = o'.key) : a'.Uncrossed := by
  intro o₁ h₁ o₂ h₂ hbuy hsell
  obtain ⟨m₁, hm₁, hk₁⟩ := hkeys o₁ h₁
  obtain ⟨m₂, hm₂, hk₂⟩ := hkeys o₂ h₂
  obtain ⟨hs₁, hp₁⟩ := LevelKey.mk.inj hk₁
  obtain ⟨hs₂, hp₂⟩ := LevelKey.mk.inj hk₂
  rw [← hp₁, ← hp₂]
  exact h m₁ hm₁ m₂ hm₂ (hs₁.trans hbuy) (hs₂.trans hsell)

theorem Uncrossed.without (h : a.Uncrossed) (id : OrderId) : (a.without id).Uncrossed :=
  h.of_keys fun o ho => ⟨o, (List.mem_filter.mp ho).1, rfl⟩

theorem Uncrossed.traded (h : a.Uncrossed) (request : OrderRequest) :
    (a.traded request).book.Uncrossed :=
  h.of_keys fun _ ho =>
    have ⟨o', ho', _, hkey⟩ := Trading.origin_matchAll ho
    ⟨o', ho', hkey⟩

/-- An order that reaches no other side may rest. -/
theorem Uncrossed.enter (h : a.Uncrossed) (hlimit : request.orderType = .limit)
    (hnone : request.bestMaker a.resting = none) (q : Quantity) :
    (a.enter request.id request.side request.priceTicks q).Uncrossed := by
  have hreach : ∀ o ∈ a.resting, o.side = request.side.opposite →
      request.crosses o.priceTicks = false := by
    intro o ho hside
    have := OrderRequest.reaches_eq_false hnone ho
    simpa [OrderRequest.reaches, hside] using this
  intro o ho o' ho' hbuy hsell
  rcases List.mem_append.mp ho with ho | ho <;> rcases List.mem_append.mp ho' with ho' | ho'
  · exact h o ho o' ho' hbuy hsell
  · obtain rfl := List.mem_singleton.mp ho'
    have := hreach o ho (by rw [hbuy, show request.side = .sell from hsell]; rfl)
    simpa [OrderRequest.crosses, hlimit, show request.side = .sell from hsell] using this
  · obtain rfl := List.mem_singleton.mp ho
    have := hreach o' ho' (by rw [hsell, show request.side = .buy from hbuy]; rfl)
    simpa [OrderRequest.crosses, hlimit, show request.side = .buy from hbuy] using this
  · obtain rfl := List.mem_singleton.mp ho
    obtain rfl := List.mem_singleton.mp ho'
    rw [hbuy] at hsell
    cases hsell

theorem Uncrossed.settle (h : t.book.Uncrossed) (hdone : t.Done request) :
    (settle refused request t).2.Uncrossed := by
  unfold PriceTimeBook.settle
  dsimp only
  by_cases hzero : t.remaining = 0
  · rw [if_pos hzero]
    exact h
  rw [if_neg hzero]
  by_cases hmay : request.mayRest = true
  · rw [if_pos hmay]
    have hlimit : request.orderType = .limit := by
      unfold OrderRequest.mayRest at hmay
      exact (of_decide_eq_true hmay).1
    have hrest : (t.book.rest refused request.id request.side request.priceTicks
        t.remaining).2.Uncrossed := by
      unfold rest
      split_ifs
      · exact h
      · exact h
      · exact h.enter hlimit (hdone.resolve_left hzero) _
    split
    · next heq => rwa [heq] at hrest
    · next heq => rwa [heq] at hrest
  · rw [if_neg hmay]
    exact h

/-- A request leaves no crossed book. -/
theorem Uncrossed.submit (h : a.Uncrossed) (refused : Bool) (request : OrderRequest) :
    (a.submit refused request).2.2.Uncrossed := by
  unfold PriceTimeBook.submit
  split
  · have hcancel : (a.cancel request.id).2.Uncrossed := by
      unfold cancel
      split
      · exact h
      · exact h.without _
    split
    · next heq => rwa [heq] at hcancel
    · next heq => rwa [heq] at hcancel
  · split_ifs
    · exact h
    · exact h
    · exact h
    · exact (h.traded request).settle (a.traded_done request)

end PriceTimeBook

namespace OrderBook

/-- The best level of a side belongs to an order. -/
theorem exists_of_best {side : Side} {level : LevelView} (h : a.best side = some level) :
    ∃ o ∈ a.resting, o.side = side ∧ o.priceTicks = level.priceTicks := by
  have hmem := ((mem_levels a level).mp (List.mem_of_find?_eq_some h)).1
  have hside : level.side = side := by simpa using List.find?_some h
  obtain ⟨o, ho, hkey⟩ := List.mem_map.mp hmem
  obtain ⟨hs, hp⟩ := LevelKey.mk.inj hkey
  exact ⟨o, ho, hs.trans hside, hp⟩

theorem Represents.bids_below_asks (h : Represents b a) (huncrossed : a.Uncrossed) :
    ¬ ∃ bid ask, b.bestBid = some bid ∧ b.bestAsk = some ask ∧
      bid.priceTicks ≥ ask.priceTicks := by
  rintro ⟨bid, ask, hbid, hask, hge⟩
  rw [h.bestBid] at hbid
  rw [h.bestAsk] at hask
  obtain ⟨o, ho, hbuy, hop⟩ := exists_of_best hbid
  obtain ⟨o', ho', hsell, hop'⟩ := exists_of_best hask
  have hlt := huncrossed o ho o' ho' hbuy hsell
  rw [hop, hop', Int64.lt_iff_toInt_lt] at hlt
  rw [ge_iff_le, Int64.le_iff_toInt_le] at hge
  omega

/-- A book that only took requests stands for an uncrossed price-time book. -/
theorem submits_represents {requests : List OrderRequest}
    (hrun : Run Step (fresh c) (requests.map .submit) b) :
    ∃ a, Represents b a ∧ a.Uncrossed := by
  induction requests using List.reverseRecOn generalizing b with
  | nil =>
    obtain rfl := hrun.eq_of_nil
    exact ⟨.empty c, fresh_represents c, by simp [PriceTimeBook.Uncrossed, PriceTimeBook.empty]⟩
  | append_singleton requests request ih =>
    rw [List.map_append] at hrun
    obtain ⟨b₁, hrun, hstep⟩ := hrun.last
    obtain ⟨a, hrep, huncrossed⟩ := ih hrun
    obtain ⟨refused, hrep', -⟩ := hrep.step id (show b₁.Step (.submit request) b from hstep)
    exact ⟨_, hrep', huncrossed.submit refused request⟩

theorem submits_run (c : Capacity) (requests : List OrderRequest) :
    ∃ b, Run Step (fresh c) (requests.map .submit) b := by
  induction requests using List.reverseRecOn with
  | nil => exact ⟨_, .start⟩
  | append_singleton requests request ih =>
    obtain ⟨b, hrun⟩ := ih
    obtain ⟨a, hrep, -⟩ := submits_represents hrun
    obtain ⟨refused, b', hsubmits, -⟩ := hrep.submitsTo request
    rw [List.map_append]
    exact ⟨b', hrun.next ⟨_, _, hsubmits⟩⟩

/-- Every list of requests runs to its end, and no such run leaves a crossed book. -/
theorem submits_uncrossed (c : Capacity) (requests : List OrderRequest) :
    (∃ b, Run Step (fresh c) (requests.map .submit) b) ∧
      ∀ b, Run Step (fresh c) (requests.map .submit) b →
        ¬ ∃ bid ask, b.bestBid = some bid ∧ b.bestAsk = some ask ∧
          bid.priceTicks ≥ ask.priceTicks := by
  refine ⟨submits_run c requests, fun b hrun => ?_⟩
  obtain ⟨a, hrep, huncrossed⟩ := submits_represents hrun
  exact hrep.bids_below_asks huncrossed

end OrderBook

end MarketEngine
