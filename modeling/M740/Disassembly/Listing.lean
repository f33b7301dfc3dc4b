import M740.Disassembly.Entry

/-!
# Listings

A listing takes bytes apart from the first to the last. Bytes without a meaning, and those of an
instruction that the end cuts off, become data. Addresses wrap at the top of the space.
-/

namespace M740

namespace Entry

/-- The first entry of a nonempty listing. -/
def first (address : Address) (opcode : Byte) (rest : List Byte) : Entry :=
  let address := Address.toWord address
  (ofBytes? address (opcode :: rest)).getD (data address opcode)

end Entry

namespace Listing

/-- The entries for the bytes that begin at an address. -/
def entries (address : Address) : List Byte → List Entry
  | [] => []
  | opcode :: rest =>
    let e := Entry.first address opcode rest
    e :: entries (address + Address.zeroPage e.size) (rest.drop e.operands.length)
termination_by bytes => bytes.length
decreasing_by
  simp only [List.length_drop, List.length_cons]
  omega

/-- Takes apart bytes that begin at a host address. -/
def disassemble (start : Word) (bytes : List Byte) : List Entry :=
  entries (Address.ofWord start) bytes

end Listing

/-- The entry behind its address. -/
def Entry.line? (e : Entry) : Option String :=
  e.text?.map fun text => Hex.word e.address ++ " " ++ text

end M740
