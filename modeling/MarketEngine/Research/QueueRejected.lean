import MarketEngine.Book.Quantities
import MarketEngine.Research.QueueModel

/-! # Events that the book rejects

The queue model sees an event before the book decides about it. It tests only the
level of the order, so it counts trades and cancels of more than the order has and
replaces that the book turns away.
-/

namespace MarketEngine.Research.QueueModel

open OrderBook Transition

variable {c : Capacity} {book : OrderBook c} {m : QueueModel ℚ} {event : MarketDataEvent}
  {order : OrderView} {id : OrderId} {q : Quantity}

end MarketEngine.Research.QueueModel
