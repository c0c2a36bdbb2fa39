/-
The writer of the program file: the native functions of every library named on the command line,
the constant table, and the code as it lies in memory.
-/
import TileVm.Image.Format
import TileVm.Tasm.Translator

namespace TileVm

open LittleEndian

def maxLibCount : Nat := 32

/-- `cli_parsed_args_t`, the library names: `clib_names[MAX_LIB_COUNT]` up to `clib_count`. -/
structure CliParsedArgs where
  clibNames : List CStr
  clibCount_le : clibNames.length ≤ maxLibCount

/-- The first `n` entries behind a pointer. -/
def firstEntries {α : Type} (array : ArrayName) (entries : List α) (n : Nat) : Except Fault (List α) :=
  if n ≤ entries.length then .ok (entries.take n) else .error (.outOfBounds array)

/-- `uint8_t len = strlen(name)`, and the name: as many bytes as `len` says. -/
def nameRecord (name : CStr) : List Byte := encode 1 name.length ++ name.take (name.length % 2 ^ 8)

/-- The record of a function. -/
def cfunRecord (f : TvmProgramCfun) : Except Fault (List Byte) := do
  let name ← match f.symbolName with
    | some name => .ok name
    | none => .error .nullPointer
  let atypes ← firstEntries .atypes f.atypes f.acount
  return nameRecord name ++ encode 2 f.acount ++ encode 1 f.rtype.toNat ++ atypes

/-- The records of `cfuns[i]` to `cfuns[i + n - 1]`. -/
def cfunRecords (cfuns : CArray TvmProgramCfun tvmMetadataMaxCfunCapacity) : Nat → Nat → Except Fault (List Byte)
  | _, 0 => .ok []
  | i, n + 1 => do
    let f ← cfuns.load (.outOfBounds .cfuns) i
    let record ← cfunRecord f
    let records ← cfunRecords cfuns (i + 1) n
    return record ++ records

/-- The record of `modules[k]`, which takes the name of its library first. -/
def moduleRecord (modules : CArray TvmProgramMetadataModule tvmMetadataMaxModuleCapacity) (k : Nat) (name : CStr) :
    Except Fault (CArray TvmProgramMetadataModule tvmMetadataMaxModuleCapacity × List Byte) := do
  let m ← modules.load (.outOfBounds .modules) k
  let modules ← modules.store (.outOfBounds .modules) k { m with moduleName := some name }
  let cfuns ← cfunRecords m.cfuns 0 m.cfunCount
  return (modules, nameRecord name ++ encode 4 m.cfunCount ++ cfuns)

/-- The records of the modules from `modules[k]` on, one for each library name. -/
def moduleRecords (modules : CArray TvmProgramMetadataModule tvmMetadataMaxModuleCapacity) (k : Nat) :
    List CStr → Except Fault (CArray TvmProgramMetadataModule tvmMetadataMaxModuleCapacity × List Byte)
  | [] => .ok (modules, [])
  | name :: names => do
    let (modules, record) ← moduleRecord modules k name
    let (modules, records) ← moduleRecords modules (k + 1) names
    return (modules, record ++ records)

/-- The constant table; without referances nothing follows its two sizes. -/
def constTableRecord (table : TvmConstTable) : Except Fault (List Byte) := do
  let sizes := encode 8 table.referanceCount ++ encode 8 table.dataSize
  if table.referanceCount > 0 then do
    let referances ← firstEntries .referances table.referances table.referanceCount
    let data ← firstEntries .constData table.data table.dataSize
    return sizes ++ referances.flatMap (encode 8) ++ data
  else return sizes

/-- The cells of `code[i]` to `code[i + n - 1]`. C leaves the padding of a stored opcode open. -/
def codeRecord (pad : Nat → Padding) (code : CArray Opcode tvmProgramCapacity) : Nat → Nat → Except Fault (List Byte)
  | _, 0 => .ok []
  | i, n + 1 => do
    let c ← code.load (.outOfBounds .code) i
    let cells ← codeRecord pad code (i + 1) n
    return c.bytes (pad i) ++ cells

/-- `tasm_translator_generate_bin`: the bytes of the file it opens and writes. -/
def tasmTranslatorGenerateBin (pad : Nat → Padding) (t : TasmTranslator) (args : CliParsedArgs) :
    Except Fault (TasmTranslator × List Byte) := do
  let moduleCount := args.clibNames.length
  let (modules, records) ← moduleRecords t.program.metadata.modules 0 args.clibNames
  let table ← constTableRecord t.program.constTable
  let code ← codeRecord pad t.program.code 0 t.program.size
  return ({ t with program := { t.program with metadata := { modules, moduleCount } } },
    encode 4 moduleCount ++ records ++ table ++ code)

end TileVm
