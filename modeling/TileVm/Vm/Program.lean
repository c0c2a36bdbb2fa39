/-
A loaded program (`tvm_program_t`): the metadata of its native functions, its constant table and
its code, in arrays of the declared capacities; and the faults by which a step leaves the
behaviour that C defines.
-/
import TileVm.Lib.CArray
import TileVm.Lib.Post
import TileVm.Vm.Object

namespace TileVm

/-! ## Faults -/

/-- The arrays of fixed or recorded length that the code indexes. -/
inductive ArrayName where
  | stack
  | returnStack
  | localVars
  | globalVars
  | code
  | modules
  | cfuns
  | vargs
  | atypes
  | referances
  | constData
  | labelDecls
  | labelCalls
  | procDecls
  | tempVal
deriving DecidableEq, Repr

/-- Undefined behaviour and crashes: what the C program does there is not determined by the
source. A faulting step has no next state. -/
inductive Fault where
  /-- an index past the end of an array -/
  | outOfBounds (array : ArrayName)
  /-- an access to a frame that is not allocated -/
  | useAfterFree
  /-- `free` of a frame that is not allocated -/
  | badFree
  /-- a use of a frame link that was never written -/
  | wildLink
  /-- a use of a value that was never written, a short `fread` included -/
  | uninitialized
  /-- an unchecked `malloc` or `realloc` that returned `NULL` -/
  | outOfMemory
  /-- a load or store through an address with nothing behind it -/
  | badAddress
  /-- integer division overflow, or a shift count outside `[0, 31]` -/
  | undefinedArith
  /-- a use of a `NULL` name, operand or function -/
  | nullPointer
deriving DecidableEq, Repr

/-! ## Programs -/

/-- `tvm_program_cfun_t`. `acount` is a `uint16_t`. -/
structure TvmProgramCfun where
  rtype : Byte
  atypes : List Byte
  acount : Nat
  symbolName : Option CStr
deriving DecidableEq, Repr

/-- `tvm_program_metadata_module_t`. -/
structure TvmProgramMetadataModule where
  cfuns : CArray TvmProgramCfun tvmMetadataMaxCfunCapacity
  moduleName : Option CStr
  cfunCount : Nat

/-- `tvm_program_metadata_t`, without the unused creation date. -/
structure TvmProgramMetadata where
  modules : CArray TvmProgramMetadataModule tvmMetadataMaxModuleCapacity
  moduleCount : Nat

/-- `tvm_const_table`: `referances` and `data` are the contents behind the two pointers. -/
structure TvmConstTable where
  referances : List Nat
  referanceCount : Nat
  data : List Byte
  dataSize : Nat
deriving DecidableEq, Repr

/-- `tvm_program_t`. -/
structure TvmProgram where
  metadata : TvmProgramMetadata
  constTable : TvmConstTable
  code : CArray Opcode tvmProgramCapacity
  size : Nat

def TvmProgramCfun.zero : TvmProgramCfun := ⟨0, [], 0, none⟩

def TvmProgramMetadataModule.zero : TvmProgramMetadataModule := ⟨.fill TvmProgramCfun.zero, none, 0⟩

def TvmConstTable.zero : TvmConstTable := ⟨[], 0, [], 0⟩

/-- The zero-initialized program of `tvm_init` and `tasm_translator_init`. -/
def TvmProgram.zero : TvmProgram where
  metadata := ⟨.fill TvmProgramMetadataModule.zero, 0⟩
  constTable := TvmConstTable.zero
  code := .fill Opcode.zero
  size := 0

/-- `code[i]`. -/
def TvmProgram.fetch (p : TvmProgram) (i : Nat) : Except Fault Opcode :=
  p.code.load (.outOfBounds .code) i

/-- The entry `modules[0].cfuns[id]`. -/
def TvmProgram.cfun (p : TvmProgram) (id : Nat) : Except Fault TvmProgramCfun := do
  let m ← p.metadata.modules.load (.outOfBounds .modules) 0
  m.cfuns.load (.outOfBounds .cfuns) id

end TileVm
