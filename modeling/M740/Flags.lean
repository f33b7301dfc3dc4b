import M740.Word

/-!
# Status flags

Seven flags, and their packed form: one byte with bit 4 free. The free bit marks, in a byte on the
stack, that it was pushed by a software break; it is never part of the flags themselves.
-/

namespace M740

/-- Names for the seven flags. -/
inductive Flag where
  | negative
  | overflow
  | indexMode
  | decimal
  | interruptDisable
  | zero
  | carry
  deriving DecidableEq, Repr

/-- The seven flags, by their usual letters. -/
structure Flags where
  n : Bool := false
  v : Bool := false
  t : Bool := false
  d : Bool := false
  i : Bool := false
  z : Bool := false
  c : Bool := false
  deriving DecidableEq, Repr

/-- Bit 4 of a pushed status byte: the push was made by a software break. -/
def breakMarker : Byte := 0x10

namespace Flag

def all : List Flag :=
  [.negative, .overflow, .indexMode, .decimal, .interruptDisable, .zero, .carry]

/-- The flag's bit in the packed status byte. -/
def mask : Flag → Byte
  | .negative => 0x80
  | .overflow => 0x40
  | .indexMode => 0x20
  | .decimal => 0x08
  | .interruptDisable => 0x04
  | .zero => 0x02
  | .carry => 0x01

end Flag

namespace Flags

def get (f : Flags) : Flag → Bool
  | .negative => f.n
  | .overflow => f.v
  | .indexMode => f.t
  | .decimal => f.d
  | .interruptDisable => f.i
  | .zero => f.z
  | .carry => f.c

def set (f : Flags) (value : Bool) : Flag → Flags
  | .negative => { f with n := value }
  | .overflow => { f with v := value }
  | .indexMode => { f with t := value }
  | .decimal => { f with d := value }
  | .interruptDisable => { f with i := value }
  | .zero => { f with z := value }
  | .carry => { f with c := value }

/-- The packed status byte; bit 4 is clear. -/
def pack (f : Flags) : Byte :=
  (Flag.all.filter f.get).foldl (fun b flag => b ||| flag.mask) 0

/-- The flags a status byte holds; bit 4 is ignored. -/
def unpack (b : Byte) : Flags where
  n := b &&& Flag.mask .negative != 0
  v := b &&& Flag.mask .overflow != 0
  t := b &&& Flag.mask .indexMode != 0
  d := b &&& Flag.mask .decimal != 0
  i := b &&& Flag.mask .interruptDisable != 0
  z := b &&& Flag.mask .zero != 0
  c := b &&& Flag.mask .carry != 0

/-- N and Z as `value` sets them. -/
def describing (f : Flags) (value : Byte) : Flags :=
  { f with n := value.negative, z := value == 0 }

theorem unpack_pack (f : Flags) : unpack f.pack = f := by
  obtain ⟨n, v, t, d, i, z, c⟩ := f
  revert n v t d i z c
  decide

theorem pack_unpack (b : Byte) : (unpack b).pack = b &&& ~~~breakMarker := by
  revert b
  decide +kernel

end Flags

end M740
