import ImageRegion.Error

namespace ImageRegion

inductive Allotment
  | storage (bytes : Array UInt8)
  | refused (error : Error)
  /-- The allocator gave up without an answer, and so does the decode that asked. -/
  | abandoned (message : String)

structure Allocator where
  account : Option Nat
  allot : Nat → Allotment

namespace Allocator

def addressable : Nat := 0x800000000000

def heap : Allocator where
  account := none
  allot bytes :=
    if addressable ≤ bytes then .refused (.outOfMemory bytes) else .storage (.replicate bytes 0)

structure Policy where
  max : Option Nat
  slack : Nat
  fill : UInt8
  abandons : Option String

def bounded (account : Nat) (p : Policy) : Allocator where
  account := some account
  allot bytes :=
    match p.abandons with
    | some message => .abandoned message
    | none =>
      if p.max.any (· < bytes) ∨ addressable ≤ bytes + p.slack then .refused (.outOfMemory bytes)
      else .storage (.replicate (bytes + p.slack) p.fill)

end Allocator

end ImageRegion
