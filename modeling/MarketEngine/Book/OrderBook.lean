import Mathlib.Data.UInt
import MarketEngine.Kit.ProbeTable
import MarketEngine.Market.Checksum
import MarketEngine.Market.Priority

/-! # The order book

Orders and price levels live in two fixed pools threaded with free lists. Two
hash indexes find an order by id and a level by side and price, each level keeps
its orders in a doubly linked FIFO list, and one binary heap for each side orders
the levels by price. An index is `none` where the source stores `npos`.
-/

namespace MarketEngine

/-- `UINT32_MAX`, the `npos` of the source. -/
def npos : ℕ := 4294967295

/-- The pool sizes the constructor accepts. -/
structure Capacity where
  val : ℕ
  pos : 0 < val
  le : val ≤ npos

/-- The constructor's check of `max_orders`. -/
def Capacity.ofNat? (maxOrders : ℕ) : Except String Capacity :=
  if h : maxOrders = 0 ∨ maxOrders > npos then
    .error "max_orders must fit in uint32_t and be non-zero"
  else
    .ok ⟨maxOrders, by omega, by omega⟩

/-- The smallest pools. -/
def Capacity.one : Capacity := ⟨1, by decide, by decide⟩

def Capacity.two : Capacity := ⟨2, by decide, by decide⟩

def Capacity.three : Capacity := ⟨3, by decide, by decide⟩

abbrev Index (c : Capacity) := Fin c.val

instance (c : Capacity) : NeZero c.val := ⟨c.pos.ne'⟩

/-- Double `result` until it reaches `value`. -/
def growPowerOfTwo (value : ℕ) : ℕ → ℕ → ℕ
  | 0, result => result
  | fuel + 1, result =>
    if result < value then growPowerOfTwo value fuel (result <<< 1) else result

def nextPowerOfTwo (value : ℕ) : ℕ := growPowerOfTwo value value 1

theorem growPowerOfTwo_pos (value fuel : ℕ) {result : ℕ} (h : 0 < result) :
    0 < growPowerOfTwo value fuel result := by
  induction fuel generalizing result with
  | zero => exact h
  | succ fuel ih =>
    unfold growPowerOfTwo
    split
    · exact ih (by rw [Nat.shiftLeft_eq]; omega)
    · exact h

/-- The number of slots of either hash index. -/
def tableSize (c : Capacity) : ℕ := nextPowerOfTwo (c.val * 2)

instance (c : Capacity) : NeZero (tableSize c) :=
  ⟨(growPowerOfTwo_pos _ _ Nat.one_pos).ne'⟩

def mix (value : UInt64) : UInt64 :=
  let value := value ^^^ (value >>> 30)
  let value := value * 0xbf58476d1ce4e5b9
  let value := value ^^^ (value >>> 27)
  let value := value * 0x94d049bb133111eb
  value ^^^ (value >>> 31)

structure Order (c : Capacity) where
  id : OrderId := 0
  price : Price := 0
  quantity : Quantity := 0
  priority : UInt64 := 0
  level : Option (Index c) := none
  prev : Option (Index c) := none
  next : Option (Index c) := none
  nextFree : Option (Index c) := none
  side : Side := .buy
  active : Bool := false
  deriving DecidableEq

structure Level (c : Capacity) where
  price : Price := 0
  totalQuantity : Quantity := 0
  orderCount : UInt64 := 0
  head : Option (Index c) := none
  tail : Option (Index c) := none
  nextFree : Option (Index c) := none
  heapPos : ℕ := npos
  side : Side := .buy
  active : Bool := false
  deriving DecidableEq

/-! ## The price ladder

The ladder functions touch the level pool (for `heap_pos`), one heap array and
its size. -/

/-- What the ladder of one side works on. -/
structure Ladder (c : Capacity) where
  levels : Pool (Level c) c.val
  heap : Pool (Index c) c.val
  size : ℕ

namespace Ladder

variable {c : Capacity}

/-- Closer to the top of the book. -/
def before (L : Ladder c) (side : Side) (a b : Index c) : Bool :=
  match side with
  | .buy => (L.levels.get a).price > (L.levels.get b).price
  | .sell => (L.levels.get a).price < (L.levels.get b).price

/-- Store a level at a heap position and point the level back at it. -/
def place (L : Ladder c) (pos : ℕ) (index : Index c) : Ladder c :=
  { L with
    heap := L.heap.write pos index
    levels := L.levels.modify index fun level => { level with heapPos := pos } }

/-- Exchange two heap positions with their back-pointers. -/
def swap (L : Ladder c) (i j : ℕ) : Ladder c :=
  let x := L.heap.read i
  let y := L.heap.read j
  (L.place i y).place j x

def siftUp (side : Side) : ℕ → ℕ → Ladder c → Ladder c
  | 0, _, L => L
  | fuel + 1, pos, L =>
    if pos = 0 then L
    else
      let parent := (pos - 1) / 2
      if L.before side (L.heap.read pos) (L.heap.read parent) then
        siftUp side fuel parent (L.swap pos parent)
      else L

/-- Prefer a child that is in the heap and strictly closer to the top. -/
def pick (L : Ladder c) (side : Side) (best child : ℕ) : ℕ :=
  if child < L.size ∧ L.before side (L.heap.read child) (L.heap.read best) then child else best

/-- The position among `pos` and its children whose level is closest to the top. -/
def bestOf (L : Ladder c) (side : Side) (pos : ℕ) : ℕ :=
  let left := 2 * pos + 1
  let right := 2 * pos + 2
  L.pick side (L.pick side pos left) right

def siftDown (side : Side) : ℕ → ℕ → Ladder c → Ladder c
  | 0, _, L => L
  | fuel + 1, pos, L =>
    let best := L.bestOf side pos
    if best = pos then L else siftDown side fuel best (L.swap pos best)

def push (L : Ladder c) (side : Side) (index : Index c) : Ladder c :=
  let pos := L.size
  let L := ({ L with size := L.size + 1 } : Ladder c).place pos index
  L.siftUp side pos pos

/-- A level taken off the ladder has no heap position. -/
def forget (L : Ladder c) (index : Index c) : Ladder c :=
  { L with levels := L.levels.modify index fun level => { level with heapPos := npos } }

def remove (L : Ladder c) (side : Side) (index : Index c) : Ladder c :=
  let pos := (L.levels.get index).heapPos
  let L : Ladder c := { L with size := L.size - 1 }
  let L :=
    if pos = L.size then L
    else
      let L := L.place pos (L.heap.read L.size)
      let L := L.siftDown side L.size pos
      L.siftUp side pos pos
  L.forget index

def top (L : Ladder c) : Option (Index c) :=
  if L.size = 0 then none else some (L.heap.read 0)

end Ladder

structure OrderBook (c : Capacity) where
  orders : Pool (Order c) c.val
  levels : Pool (Level c) c.val
  orderLookup : Pool (ProbeSlot OrderId (Index c)) (tableSize c)
  levelLookup : Pool (ProbeSlot LevelKey (Index c)) (tableSize c)
  bidHeap : Pool (Index c) c.val
  askHeap : Pool (Index c) c.val
  bidHeapSize : ℕ
  askHeapSize : ℕ
  freeOrder : Option (Index c)
  freeLevel : Option (Index c)
  activeOrders : ℕ
  nextPriority : UInt64
  fillSequence : UInt64

namespace OrderBook

variable {c : Capacity}

/-- The free list a pool starts with: every slot points at the one after it. -/
def initialNext (i : Index c) : Option (Index c) :=
  if h : i.val + 1 < c.val then some ⟨i.val + 1, h⟩ else none

/-- The constructor. -/
def fresh (c : Capacity) : OrderBook c where
  orders := ⟨fun i => { nextFree := initialNext i }⟩
  levels := ⟨fun i => { nextFree := initialNext i }⟩
  orderLookup := ⟨fun _ => .empty⟩
  levelLookup := ⟨fun _ => .empty⟩
  bidHeap := ⟨fun _ => 0⟩
  askHeap := ⟨fun _ => 0⟩
  bidHeapSize := 0
  askHeapSize := 0
  freeOrder := some 0
  freeLevel := some 0
  activeOrders := 0
  nextPriority := 0
  fillSequence := 0

/-! ## The two hash indexes

`& mask` is reduction modulo the table size, a power of two. -/

def orderHome (c : Capacity) (id : OrderId) : Fin (tableSize c) :=
  Fin.ofNat _ (mix id).toNat

def levelHome (c : Capacity) (key : LevelKey) : Fin (tableSize c) :=
  let salt : UInt64 := match key.side with
    | .buy => 0
    | .sell => 0x9e3779b97f4a7c15
  Fin.ofNat _ (mix (key.price.toUInt64 ^^^ salt)).toNat

def findOrderIndex (b : OrderBook c) (id : OrderId) : Option (Index c) :=
  ProbeTable.lookup b.orderLookup (orderHome c id) id

def findLevelIndex (b : OrderBook c) (side : Side) (price : Price) : Option (Index c) :=
  ProbeTable.lookup b.levelLookup (levelHome c ⟨side, price⟩) ⟨side, price⟩

/-- Insert an id; when the table holds no empty slot a tombstone is reused. -/
def insertOrderLookup (b : OrderBook c) (id : OrderId) (value : Index c) : Bool × OrderBook c :=
  match ProbeTable.destination b.orderLookup (tableSize c) (orderHome c id) none with
  | .ok slot => (true, { b with orderLookup := b.orderLookup.set slot (.occupied id value) })
  | .error (some tombstone) =>
    (true, { b with orderLookup := b.orderLookup.set tombstone (.occupied id value) })
  | .error none => (false, b)

def eraseOrderLookup (b : OrderBook c) (id : OrderId) : OrderBook c :=
  { b with orderLookup := ProbeTable.erase b.orderLookup (orderHome c id) id }

/-- Insert a level key. Unlike `insertOrderLookup` it has no fallback to a tombstone. -/
def insertLevelLookup (b : OrderBook c) (side : Side) (price : Price) (value : Index c) :
    Bool × OrderBook c :=
  match ProbeTable.destination b.levelLookup (tableSize c) (levelHome c ⟨side, price⟩) none with
  | .ok slot =>
    (true, { b with levelLookup := b.levelLookup.set slot (.occupied ⟨side, price⟩ value) })
  | .error _ => (false, b)

def eraseLevelLookup (b : OrderBook c) (side : Side) (price : Price) : OrderBook c :=
  { b with levelLookup :=
      ProbeTable.erase b.levelLookup (levelHome c ⟨side, price⟩) ⟨side, price⟩ }

/-! ## Ladders of the book -/

def ladder (b : OrderBook c) : Side → Ladder c
  | .buy => ⟨b.levels, b.bidHeap, b.bidHeapSize⟩
  | .sell => ⟨b.levels, b.askHeap, b.askHeapSize⟩

def setLadder (b : OrderBook c) (L : Ladder c) : Side → OrderBook c
  | .buy => { b with levels := L.levels, bidHeap := L.heap, bidHeapSize := L.size }
  | .sell => { b with levels := L.levels, askHeap := L.heap, askHeapSize := L.size }

def ladderPush (b : OrderBook c) (side : Side) (index : Index c) : OrderBook c :=
  b.setLadder ((b.ladder side).push side index) side

def ladderRemove (b : OrderBook c) (side : Side) (index : Index c) : OrderBook c :=
  b.setLadder ((b.ladder side).remove side index) side

def ladderTop (b : OrderBook c) (side : Side) : Option (Index c) := (b.ladder side).top

/-! ## Levels -/

/-- Make a level out of the free slot at `index`. -/
def takeLevelSlot (b : OrderBook c) (index : Index c) (side : Side) (price : Price) :
    OrderBook c :=
  { b with
    freeLevel := (b.levels.get index).nextFree
    levels := b.levels.set index { price := price, side := side, active := true } }

def freeLevelSlot (b : OrderBook c) (index : Index c) : OrderBook c :=
  { b with
    levels := b.levels.modify index fun level =>
      { level with active := false, nextFree := b.freeLevel }
    freeLevel := some index }

/-- The level at a side and price, created if need be; `none` if that fails. -/
def acquireLevel (b : OrderBook c) (side : Side) (price : Price) :
    Option (Index c) × OrderBook c :=
  match b.findLevelIndex side price with
  | some existing => (some existing, b)
  | none =>
    match b.freeLevel with
    | none => (none, b)
    | some index =>
      match (b.takeLevelSlot index side price).insertLevelLookup side price index with
      | (false, b) => (none, b.freeLevelSlot index)
      | (true, b) => (some index, b.ladderPush side index)

def releaseLevel (b : OrderBook c) (index : Index c) : OrderBook c :=
  let side := (b.levels.get index).side
  let price := (b.levels.get index).price
  ((b.ladderRemove side index).eraseLevelLookup side price).freeLevelSlot index

def linkTail (b : OrderBook c) (orderIndex levelIndex : Index c) : OrderBook c :=
  let level := b.levels.get levelIndex
  let quantity := (b.orders.get orderIndex).quantity
  let orders := b.orders.modify orderIndex fun order =>
    { order with prev := level.tail, next := none }
  let orders := match level.tail with
    | some tail => orders.modify tail fun order => { order with next := some orderIndex }
    | none => orders
  { b with
    orders := orders
    levels := b.levels.set levelIndex { level with
      head := if level.tail = none then some orderIndex else level.head
      tail := some orderIndex
      totalQuantity := level.totalQuantity + quantity
      orderCount := level.orderCount + 1 } }

/-- Join the neighbours of an order and take it off its level. -/
def detach (b : OrderBook c) (orderIndex levelIndex : Index c) : OrderBook c :=
  let order := b.orders.get orderIndex
  let level := b.levels.get levelIndex
  let orders := match order.prev with
    | some prev => b.orders.modify prev fun o => { o with next := order.next }
    | none => b.orders
  let orders := match order.next with
    | some next => orders.modify next fun o => { o with prev := order.prev }
    | none => orders
  { b with
    orders := orders.modify orderIndex fun o => { o with prev := none, next := none }
    levels := b.levels.set levelIndex { level with
      head := if order.prev = none then order.next else level.head
      tail := if order.next = none then order.prev else level.tail
      totalQuantity := level.totalQuantity - order.quantity
      orderCount := level.orderCount - 1 } }

def unlink (b : OrderBook c) (orderIndex : Index c) : OrderBook c :=
  match (b.orders.get orderIndex).level with
  | none => b
  | some levelIndex =>
    let b := b.detach orderIndex levelIndex
    if (b.levels.get levelIndex).orderCount = 0 then b.releaseLevel levelIndex else b

def freeOrderSlot (b : OrderBook c) (orderIndex : Index c) : OrderBook c :=
  { b with
    orders := b.orders.modify orderIndex fun order =>
      { order with active := false, nextFree := b.freeOrder }
    freeOrder := some orderIndex }

/-! ## Apply mode -/

/-- Make an order out of the free slot at `orderIndex`. -/
def takeOrderSlot (b : OrderBook c) (orderIndex : Index c) (id : OrderId) (side : Side)
    (price : Price) (quantity : Quantity) (levelIndex : Index c) : OrderBook c :=
  { b with
    freeOrder := (b.orders.get orderIndex).nextFree
    orders := b.orders.set orderIndex
      { id := id, price := price, quantity := quantity, priority := b.nextPriority,
        level := some levelIndex, side := side, active := true }
    nextPriority := b.nextPriority + 1 }

/-- Insert a fresh resting order. -/
def restOrder (b : OrderBook c) (id : OrderId) (side : Side) (price : Price)
    (quantity : Quantity) : ProcessResult × OrderBook c :=
  if quantity = 0 then (.invalidQuantity, b)
  else if (b.findOrderIndex id).isSome then (.duplicateOrderId, b)
  else
    match b.freeOrder with
    | none => (.capacityExhausted, b)
    | some orderIndex =>
      match b.acquireLevel side price with
      | (none, b) => (.capacityExhausted, b)
      | (some levelIndex, b) =>
        let b := b.takeOrderSlot orderIndex id side price quantity levelIndex
        let b := b.linkTail orderIndex levelIndex
        match b.insertOrderLookup id orderIndex with
        | (false, b) => (.capacityExhausted, (b.unlink orderIndex).freeOrderSlot orderIndex)
        | (true, b) => (.applied, { b with activeOrders := b.activeOrders + 1 })

def add (b : OrderBook c) (event : MarketDataEvent) : ProcessResult × OrderBook c :=
  b.restOrder event.orderId event.side event.priceTicks event.quantity

/-- Give an order the side, price and quantity of the event and a new priority. -/
def moveOrder (b : OrderBook c) (index : Index c) (event : MarketDataEvent) (target : Index c) :
    OrderBook c :=
  { b with
    orders := b.orders.modify index fun o =>
      { o with side := event.side, price := event.priceTicks, quantity := event.quantity,
               priority := b.nextPriority, level := some target }
    nextPriority := b.nextPriority + 1 }

def modify (b : OrderBook c) (event : MarketDataEvent) : ProcessResult × OrderBook c :=
  if event.quantity = 0 then (.invalidQuantity, b)
  else
    match b.findOrderIndex event.orderId with
    | none => (.orderNotFound, b)
    | some index =>
      let order := b.orders.get index
      if order.side = event.side ∧ order.price = event.priceTicks then
        let levels := match order.level with
          | some level => b.levels.modify level fun l =>
              { l with totalQuantity := l.totalQuantity - order.quantity + event.quantity }
          | none => b.levels
        (.applied, { b with
          levels := levels
          orders := b.orders.modify index fun o => { o with quantity := event.quantity } })
      else if b.findLevelIndex event.side event.priceTicks = none ∧ b.freeLevel = none ∧
          (order.level.any fun level => (b.levels.get level).orderCount > 1) then
        (.capacityExhausted, b)
      else
        match (b.unlink index).acquireLevel event.side event.priceTicks with
        | (none, b) => (.capacityExhausted, b)
        | (some target, b) =>
          (.applied, (b.moveOrder index event target).linkTail index target)

def cancel (b : OrderBook c) (id : OrderId) : ProcessResult × OrderBook c :=
  match b.findOrderIndex id with
  | none => (.orderNotFound, b)
  | some index =>
    let b := ((b.unlink index).eraseOrderLookup id).freeOrderSlot index
    (.applied, { b with activeOrders := b.activeOrders - 1 })

def replace (b : OrderBook c) (event : MarketDataEvent) : ProcessResult × OrderBook c :=
  if event.quantity = 0 then (.invalidQuantity, b)
  else
    match b.findOrderIndex event.orderId with
    | none => (.orderNotFound, b)
    | some index =>
      let side := (b.orders.get index).side
      if event.newOrderId ≠ event.orderId ∧ (b.findOrderIndex event.newOrderId).isSome then
        (.duplicateOrderId, b)
      else
        (b.cancel event.orderId).2.restOrder event.newOrderId side event.priceTicks event.quantity

def trade (b : OrderBook c) (id : OrderId) (quantity : Quantity) : ProcessResult × OrderBook c :=
  if quantity = 0 then (.invalidQuantity, b)
  else
    match b.findOrderIndex id with
    | none => (.orderNotFound, b)
    | some index =>
      let order := b.orders.get index
      if quantity > order.quantity then (.invalidQuantity, b)
      else if quantity = order.quantity then b.cancel id
      else
        let levels := match order.level with
          | some level => b.levels.modify level fun l =>
              { l with totalQuantity := l.totalQuantity - quantity }
          | none => b.levels
        (.applied, { b with
          levels := levels
          orders := b.orders.modify index fun o => { o with quantity := o.quantity - quantity } })

/-- Apply an event the exchange has already decided. -/
def processEvent (b : OrderBook c) (event : MarketDataEvent) : ProcessResult × OrderBook c :=
  match event.type with
  | .add => b.add event
  | .modify => b.modify event
  | .cancel => b.cancel event.orderId
  | .trade => b.trade event.orderId event.quantity
  | .reduce => b.trade event.orderId event.quantity
  | .replace => b.replace event

end OrderBook

end MarketEngine
