import MarketEngine.Market.Event
import Mathlib.Data.List.Perm.Basic

/-! # State checksum

An order-independent 64-bit digest of the resting orders.
-/

namespace MarketEngine

def checksumMix (value : UInt64) : UInt64 :=
  let value := value ^^^ (value >>> 30)
  let value := value * 0xbf58476d1ce4e5b9
  let value := value ^^^ (value >>> 27)
  let value := value * 0x94d049bb133111eb
  value ^^^ (value >>> 31)

/-- `std::rotl` on 64 bits. -/
def rotl (value : UInt64) (count : UInt64) : UInt64 :=
  (value <<< count) ||| (value >>> (64 - count))

def orderChecksum (order : OrderView) : UInt64 :=
  let value := checksumMix order.id
  let value := value ^^^ rotl (checksumMix order.priceTicks.toUInt64) 11
  let value := value ^^^ rotl (checksumMix order.quantity) 23
  let value := value ^^^ rotl (checksumMix order.priority) 37
  let value := value ^^^
    match order.side with
    | .buy => 0x6a09e667f3bcc909
    | .sell => 0xbb67ae8584caa73b
  checksumMix value

/-- The digest of a list of orders. -/
def stateChecksum (orders : List OrderView) : UInt64 :=
  orders.foldl (fun result order => result ^^^ orderChecksum order)
    (checksumMix (UInt64.ofNat orders.length))

/-- The digest does not depend on the order of the list. -/
theorem stateChecksum_perm {orders orders' : List OrderView} (h : orders.Perm orders') :
    stateChecksum orders = stateChecksum orders' := by
  rw [stateChecksum, stateChecksum, h.length_eq]
  apply h.foldl_eq'
  intro x _ y _ z
  rw [UInt64.xor_assoc, UInt64.xor_comm (orderChecksum x), ← UInt64.xor_assoc]

end MarketEngine
