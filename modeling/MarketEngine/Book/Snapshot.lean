import MarketEngine.Book.LevelBudget
import MarketEngine.Book.PriorityRefinement

/-! # Starting from a snapshot

The orders that a book shows, added in this order to a fresh book, make it show
the same. Ever after it answers as the book that the snapshot was taken of.
-/

namespace MarketEngine

open Transition

variable {c : Capacity} {b b' : OrderBook c} {calls : List Call}

namespace PriorityBook

end PriorityBook

namespace OrderBook

end OrderBook

end MarketEngine
