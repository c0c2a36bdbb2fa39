/-
The format of a program file: the records of the native modules, the constant table and the
cells of the code, each field little-endian as the host lays it out in memory. An `Image` is the
content of a file within the capacities of `tvm_program_t`, and `Image.bytes` its bytes.
-/
import TileVm.Lib.LittleEndian
import TileVm.Vm.Program

namespace TileVm

open LittleEndian

/-! ## Opcodes in memory -/

/-- `sizeof(opcode_t)`: the type at 0, the operand's type at 8 and its payload at 16. -/
def opcodeSize : Nat := 24

/-- The seven bytes of padding after each of the two types of an `opcode_t`. -/
structure Padding where
  afterType : BitVec 56
  afterOperandType : BitVec 56

/-- An `opcode_t` in memory. -/
def Opcode.bytes (pad : Padding) (c : Opcode) : List Byte :=
  c.type :: encode 7 pad.afterType.toNat ++
    (c.operand.type :: encode 7 pad.afterOperandType.toNat ++ encode 8 c.operand.ui64.toNat)

/-- The `opcode_t` that a cell of memory holds. -/
def Opcode.ofBytes (bs : List Byte) : Opcode :=
  ⟨bs.getD 0 0, ⟨bs.getD 8 0, .ofNat 64 (decode (bs.drop 16))⟩⟩

theorem Opcode.length_bytes (pad : Padding) (c : Opcode) : (c.bytes pad).length = opcodeSize := by
  simp [Opcode.bytes, opcodeSize]

theorem Opcode.ofBytes_bytes (pad : Padding) (c : Opcode) : Opcode.ofBytes (c.bytes pad) = c := by
  have htype : (c.bytes pad).getD 0 0 = c.type := rfl
  have hotype : (c.bytes pad).getD 8 0 = c.operand.type := rfl
  have hdrop : (c.bytes pad).drop 16 = encode 8 c.operand.ui64.toNat := rfl
  rw [Opcode.ofBytes, htype, hotype, hdrop, decode_encode_of_lt c.operand.ui64.isLt, BitVec.ofNat_toNat,
    BitVec.setWidth_eq]

/-! ## Images -/

/-- A native function of a file. -/
structure ImageCfun where
  name : CStr
  rtype : Byte
  atypes : List Byte
  name_lt : name.length < 256
  acount_lt : atypes.length < 256 ^ 2

/-- A native module of a file. -/
structure ImageModule where
  name : CStr
  cfuns : List ImageCfun
  name_lt : name.length < 256
  cfuns_le : cfuns.length ≤ tvmMetadataMaxCfunCapacity

/-- The constant table of a file. Without referances no data follows, whatever `dataSize` says. -/
structure ImageTable where
  referances : List Nat
  dataSize : Nat
  data : List Byte
  referanceCount_lt : referances.length < 256 ^ 8
  referances_lt : ∀ a ∈ referances, a < 256 ^ 8
  dataSize_lt : dataSize < 256 ^ 8
  data_length : data.length = if referances = [] then 0 else dataSize

/-- The content of a file; a cell is an `opcode_t` in memory. -/
structure Image where
  modules : List ImageModule
  table : ImageTable
  cells : List (List Byte)
  modules_le : modules.length ≤ tvmMetadataMaxModuleCapacity
  cells_size : ∀ c ∈ cells, c.length = opcodeSize
  cells_le : cells.length ≤ tvmProgramCapacity

def ImageCfun.bytes (f : ImageCfun) : List Byte :=
  encode 1 f.name.length ++ f.name ++ encode 2 f.atypes.length ++ encode 1 f.rtype.toNat ++ f.atypes

def ImageModule.bytes (m : ImageModule) : List Byte :=
  encode 1 m.name.length ++ m.name ++ encode 4 m.cfuns.length ++ m.cfuns.flatMap ImageCfun.bytes

def ImageTable.bytes (t : ImageTable) : List Byte :=
  encode 8 t.referances.length ++ encode 8 t.dataSize ++ t.referances.flatMap (encode 8) ++ t.data

def Image.bytes (img : Image) : List Byte :=
  encode 4 img.modules.length ++ img.modules.flatMap ImageModule.bytes ++ img.table.bytes ++ img.cells.flatten

/-- Every referance is the address of a byte of the data. -/
def ImageTable.InData (t : ImageTable) : Prop := ∀ a ∈ t.referances, a < t.dataSize

end TileVm
