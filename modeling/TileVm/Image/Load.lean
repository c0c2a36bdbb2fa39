/-
The loader of the program file: a chain of unchecked reads, each subtracted from the size of the
file; what remains of that size gives the size of the code.
-/
import TileVm.Image.Format

namespace TileVm

open LittleEndian

/-! ## Reading -/

/-- The open file: the bytes from its position on, how many bytes were asked for past its end,
`byte_size`, and whether `byte_size` has been negative. -/
structure ImageReader where
  rest : List Byte
  missing : Nat
  byteSize : BitVec 64
  negative : Bool

/-- The file after `fopen`, and `byte_size` after `ftell`. -/
def ImageReader.ofFile (file : List Byte) : ImageReader := ⟨file, 0, .ofNat 64 file.length, false⟩

/-- A part of the load. -/
abbrev Load (α : Type) := StateT ImageReader (Except Fault) α

/-- The string in a buffer that ends with a NUL. -/
def cstring (buffer : List Byte) : CStr := buffer.takeWhile (· ≠ 0)

section

-- what uninitialized variables and fresh memory hold, in the order in which a read leaves it there
variable (stale : Nat → Byte)

/-- `fread` of `n` bytes, with its result ignored. A byte that the file does not have leaves its
destination as it was. -/
def fread (n : Nat) : Load (List Byte) := fun r =>
  let short := n - r.rest.length
  .ok (r.rest.take n ++ (List.range short).map fun i => stale (r.missing + i),
    { r with rest := r.rest.drop n, missing := r.missing + short })

/-- `byte_size -= n`: the `long` is converted to the `size_t` of `n` and back. -/
def shrink (n : Nat) : Load Unit := fun r =>
  let byteSize := r.byteSize - .ofNat 64 n
  .ok ((), { r with byteSize, negative := r.negative || byteSize.msb })

/-- A field of `n` bytes: its `fread`, and the subtraction that follows each. -/
def freadField (n : Nat) : Load (List Byte) := do
  let bytes ← fread stale n
  shrink n
  return bytes

/-- A number of `w` bytes. -/
def freadNumber (w : Nat) : Load Nat := do
  let bytes ← freadField stale w
  return decode bytes

/-! ## The loader -/

/-- One turn of the loop over `cfuns`, up to its stores. -/
def loadCfun : Load TvmProgramCfun := do
  let symbolNameLen ← freadNumber stale 1
  let symbolName ← freadField stale symbolNameLen
  let acount ← freadNumber stale 2
  let rtype ← freadNumber stale 1
  let atypes ← freadField stale acount
  return ⟨.ofNat 8 rtype, atypes, acount, some (cstring symbolName)⟩

/-- The loop over `cfuns`, with `n` turns to go. -/
def loadCfuns (cfuns : CArray TvmProgramCfun tvmMetadataMaxCfunCapacity) (i : Nat) :
    Nat → Load (CArray TvmProgramCfun tvmMetadataMaxCfunCapacity)
  | 0 => return cfuns
  | n + 1 => do
    let cfun ← loadCfun stale
    let cfuns ← StateT.lift (cfuns.store (.outOfBounds .cfuns) i cfun)
    loadCfuns cfuns (i + 1) n

/-- One turn of the loop over `modules`. -/
def loadModule (modules : CArray TvmProgramMetadataModule tvmMetadataMaxModuleCapacity) (k : Nat) :
    Load (CArray TvmProgramMetadataModule tvmMetadataMaxModuleCapacity) := do
  let moduleNameLen ← freadNumber stale 1
  let moduleName ← freadField stale moduleNameLen
  let m ← StateT.lift (modules.load (.outOfBounds .modules) k)
  let cfunCount ← freadNumber stale 4
  let cfuns ← loadCfuns stale m.cfuns 0 cfunCount
  StateT.lift (modules.store (.outOfBounds .modules) k ⟨cfuns, some (cstring moduleName), cfunCount⟩)

/-- The loop over `modules`, with `n` turns to go. -/
def loadModules (modules : CArray TvmProgramMetadataModule tvmMetadataMaxModuleCapacity) (k : Nat) :
    Nat → Load (CArray TvmProgramMetadataModule tvmMetadataMaxModuleCapacity)
  | 0 => return modules
  | n + 1 => do
    let modules ← loadModule stale modules k
    loadModules modules (k + 1) n

/-- The arrays of the constant table. Its two pointers are set only when there are referances. -/
def loadConstArrays (table : TvmConstTable) (referanceCount dataSize : Nat) : Load TvmConstTable :=
  if referanceCount > 0 then do
    let referances ← freadField stale (8 * referanceCount)
    let data ← freadField stale dataSize
    return ⟨decodeList 8 referanceCount referances, referanceCount, data, dataSize⟩
  else return { table with referanceCount, dataSize }

/-- The constant table. -/
def loadConstTable (table : TvmConstTable) : Load TvmConstTable := do
  let referanceCount ← freadNumber stale 8
  let dataSize ← freadNumber stale 8
  loadConstArrays stale table referanceCount dataSize

/-- The metadata and the constant table. -/
def loadHeader (p : TvmProgram) : Load (TvmProgramMetadata × TvmConstTable) := do
  let moduleCount ← freadNumber stale 4
  let modules ← loadModules stale p.metadata.modules 0 moduleCount
  let constTable ← loadConstTable stale p.constTable
  return (⟨modules, moduleCount⟩, constTable)

/-- `fread(code, opcode_size, size, file)`, with `n` cells to go: it stores what the file has. -/
def loadCode (code : CArray Opcode tvmProgramCapacity) (i : Nat) : Nat → Load (CArray Opcode tvmProgramCapacity)
  | 0 => return code
  | n + 1 => do
    let r ← get
    if r.rest.isEmpty then
      set { r with missing := r.missing + opcodeSize * (n + 1) }
      return code
    else do
      let cell ← fread stale opcodeSize
      let code ← StateT.lift (code.store (.outOfBounds .code) i (Opcode.ofBytes cell))
      loadCode code (i + 1) n

/-- `tvm_load_program_from_file` after `ftell`. -/
def loadImage (p : TvmProgram) : Load TvmProgram := do
  let (metadata, constTable) ← loadHeader stale p
  let r ← get
  -- the `long` is converted to `size_t`: a negative `byte_size` is a huge size
  let size := r.byteSize.toNat / opcodeSize
  let code ← loadCode stale p.code 0 size
  return ⟨metadata, constTable, code, size⟩

end

/-- Why a load does not return: `exit(EXIT_FAILURE)` after a message of `perror`, or a fault. -/
inductive LoadStop where
  | exit (message : CStr)
  | fault (e : Fault)
deriving DecidableEq, Repr

/-- `tvm_load_program_from_file`, `none` for a path that does not open. `arena_alloc` is taken to
return enough storage. The reader that comes with the program is the file at `fclose`. -/
def tvmLoadProgramFromFile (stale : Nat → Byte) (p : TvmProgram) (file : Option (List Byte)) :
    Except LoadStop (TvmProgram × ImageReader) :=
  match file with
  | none => .error (.exit (cstr "Failed to open file"))
  | some bytes => (loadImage stale p (.ofFile bytes)).mapError .fault

end TileVm
