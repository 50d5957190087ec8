import MarketEngine.Book.Sweep
import MarketEngine.Kit.Machine

/-! # Dialogues with a book

A dialogue is a run together with what the book answers to each call.
-/

namespace MarketEngine

open Transition

variable {c : Capacity} {b b' : OrderBook c} {a : PriceTimeBook} {call : Call}
  {calls : List Call}

/-- What a book answers to a call. -/
inductive Response
  | processed (result : ProcessResult)
  | submitted (result : SubmitResult) (fills : List Fill)
  deriving DecidableEq

/-- The answer and the next state of a price-time book that no key is refused. -/
def PriceTimeBook.respond (a : PriceTimeBook) : Call → Response × PriceTimeBook
  | .event event =>
    let (result, a) := a.process false event
    (.processed result, a)
  | .submit request =>
    let (result, fills, a) := a.submit false request
    (.submitted result fills, a)

namespace OrderBook

/-- The book answers the call and becomes `b'`. -/
def Answers (b : OrderBook c) (label : Call × Response) (b' : OrderBook c) : Prop :=
  match label with
  | (.event event, .processed result) => b.processEvent event = (result, b')
  | (.submit request, .submitted result fills) => b.SubmitsTo request result fills b'
  | _ => False

theorem Answers.step {response : Response} (h : b.Answers (call, response) b') :
    b.Step call b' := by
  cases call with
  | event event =>
    cases response with
    | processed result => exact congrArg Prod.snd h
    | submitted => cases h
  | submit request =>
    cases response with
    | processed => cases h
    | submitted result fills => exact ⟨result, fills, h⟩

/-- A represented book answers as its price-time book. -/
theorem Represents.answers (h : Represents b a) {response : Response}
    (hkeys : ¬ b.Refuses call) (hanswers : b.Answers (call, response) b') :
    response = (a.respond call).1 ∧ Represents b' (a.respond call).2 := by
  cases call with
  | event event =>
    cases response with
    | submitted => cases hanswers
    | processed result =>
      have hfalse : b.eventRefused event = false := Bool.eq_false_iff.mpr hkeys
      obtain ⟨hresult, hrep⟩ := h.processEvent event fun hr => hkeys hr.2
      have hanswers : b.processEvent event = (result, b') := hanswers
      rw [hanswers, hfalse] at hresult hrep
      exact ⟨congrArg _ hresult, hrep⟩
  | submit request =>
    cases response with
    | processed => cases hanswers
    | submitted result fills =>
      obtain ⟨refused, b'', hsubmits, hrep, hiff⟩ := h.submitsTo request
      obtain rfl : refused = false := Bool.eq_false_iff.mpr fun hr => hkeys (hiff.mp hr)
      obtain ⟨rfl, rfl, rfl⟩ := SubmitsTo.unique (c := c) hanswers hsubmits
      exact ⟨rfl, hrep⟩

end OrderBook

end MarketEngine
