import ForthJit.Machine.Assembler
import ForthJit.Memory.CodeHeap

/-!
# Stack frames

A word that makes calls or has local slots keeps the frame pointer and the link register on the
stack, with the slots below them.
-/

namespace ForthJit

/-- The stack frame of a compiled word. -/
structure Frame where
  /-- The frame pointer and the link register are saved. -/
  needed : Bool
  /-- Bytes for local slots, a multiple of 16. -/
  size : Nat
  deriving DecidableEq

namespace Frame

/-- A word needs a frame if it makes calls or has local slots. -/
def create (leaf : Bool) (slots : Nat) : Frame :=
  { needed := !leaf || 0 < slots, size := nextMultiple (slots * 8) 16 }

/-- Frame setup, in at most `prologueSlots` instructions. -/
def prologue (frame : Frame) : Except EncodeError (List Instruction) :=
  if frame.needed then do
    let save ← Asm.stpPre .fp .lr .sp (-16)
    let setup := [save, Asm.movSp .fp .sp]
    if 0 < frame.size then
      return setup ++ [← Asm.subI .sp .sp (BitVec.ofNat 64 frame.size)]
    return setup
  else
    .ok []

/-- Frame removal. -/
def epilogue (frame : Frame) : Except EncodeError (List Instruction) :=
  if frame.needed then do
    let release := if 0 < frame.size then [Asm.movSp .sp .fp] else []
    return release ++ [← Asm.ldpPost .fp .lr .sp 16]
  else
    .ok []

end Frame

end ForthJit
