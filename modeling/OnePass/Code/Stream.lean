import OnePass.Code.Instruction

/-!
# Instruction streams

A stream grows at its end. The place of an instruction is its handle, by which a branch is pointed at its target once the target
is known; a handle stays good until the stream is cut below it.
-/

namespace OnePass

/-- An instruction stream. -/
structure Stream where
  code : Array Instruction := #[]
  deriving DecidableEq, Repr, Inhabited

namespace Stream

/-- The stream without instructions. -/
def empty : Stream := {}

/-- The number of instructions, which is the handle of the next one. -/
def size (s : Stream) : Nat := s.code.size

/-- Appends an instruction. -/
def emit (s : Stream) (i : Instruction) : Stream := ⟨s.code.push i⟩

/-- Appends instructions. -/
def emitAll (s : Stream) (is : List Instruction) : Stream := is.foldl emit s

/-- How far the branch at a handle has to go to reach the next instruction to be emitted. -/
def distance (s : Stream) (handle : Nat) : Int64 := Int64.ofInt ((s.size : Int) - handle - 1)

/-- Points the branch at a handle to the next instruction to be emitted, if there is an instruction at that handle. -/
def patch? (s : Stream) (handle : Nat) : Option Stream :=
  if handle < s.size then some ⟨s.code.modify handle fun i => { i with operand := s.distance handle }⟩ else none

/-- Replaces the header of the marker at a handle. -/
def setHeader (s : Stream) (handle : Nat) (header : Header) : Stream :=
  ⟨s.code.modify handle fun i => { i with header := some header }⟩

/-- Drops every instruction from a handle on. -/
def truncate (s : Stream) (handle : Nat) : Stream := ⟨s.code.take handle⟩

/-- `patch?` at a handle from outside, which may be negative. -/
def patchAt? (s : Stream) (handle : Int) : Option Stream := if handle < 0 then none else s.patch? handle.toNat

/-- `truncate` at a handle from outside: none if that is negative. -/
def truncateAt? (s : Stream) (handle : Int) : Option Stream :=
  if handle < 0 then none else some (s.truncate handle.toNat)

end Stream

end OnePass
