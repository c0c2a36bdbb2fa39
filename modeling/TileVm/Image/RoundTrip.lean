/-
The round trip through the program file: what the writer writes for a translator state within the
capacities is an image, and the loader makes the state's program of it.
-/
import Mathlib.Data.List.TakeWhile
import TileVm.Image.Generate
import TileVm.Image.LoadSafety

namespace TileVm

open LittleEndian

/-! ## Translator states within their capacities -/

/-- A name that the one-byte length field can hold. -/
structure NameFits (name : CStr) : Prop where
  length_le : name.length ≤ 255
  noNul : 0 ∉ name

structure CfunFits (f : TvmProgramCfun) : Prop where
  name : ∃ name, f.symbolName = some name ∧ NameFits name
  acount : f.acount = f.atypes.length
  acount_lt : f.acount < 2 ^ 16

structure ModuleFits (m : TvmProgramMetadataModule) : Prop where
  cfunCount : m.cfunCount ≤ tvmMetadataMaxCfunCapacity
  cfuns : ∀ i f, i < m.cfunCount → m.cfuns.get? i = some f → CfunFits f

/-- The counts of the table are the lengths of its arrays and fit a `size_t`, as do the referances. -/
structure TableFits (t : TvmConstTable) : Prop where
  referanceCount : t.referanceCount = t.referances.length
  referanceCount_lt : t.referanceCount < 2 ^ 64
  referances_lt : ∀ a ∈ t.referances, a < 2 ^ 64
  dataSize : t.dataSize = t.data.length
  dataSize_lt : t.dataSize < 2 ^ 64
  empty : t.referances = [] → t.data = []

/-- The translator and the library names are within their capacities. -/
structure WithinCapacity (t : TasmTranslator) (args : CliParsedArgs) : Prop where
  clibNames : ∀ name ∈ args.clibNames, NameFits name
  modules : ∀ k m, k < args.clibNames.length → t.program.metadata.modules.get? k = some m → ModuleFits m
  table : TableFits t.program.constTable
  size : t.program.size ≤ tvmProgramCapacity

/-! ## The writer writes images -/

theorem nameRecord_of_fits {name : CStr} (h : NameFits name) : nameRecord name = encode 1 name.length ++ name := by
  have hmod : name.length % 2 ^ 8 = name.length := Nat.mod_eq_of_lt (Nat.lt_succ_of_le h.length_le)
  rw [nameRecord, hmod, List.take_length]

theorem cstring_of_fits {name : CStr} (h : NameFits name) : cstring name = name := by
  rw [cstring, List.takeWhile_eq_self_iff]
  intro b hb
  have hne : b ≠ 0 := fun hzero => h.noNul (hzero ▸ hb)
  simpa using hne

theorem firstEntries_all {α : Type} (array : ArrayName) (entries : List α) :
    firstEntries array entries entries.length = .ok entries := by
  rw [firstEntries, if_pos (Nat.le_refl _), List.take_length]

theorem cfunRecord_bytes {f : TvmProgramCfun} (h : CfunFits f) :
    ∃ c : ImageCfun, cfunRecord f = .ok c.bytes ∧ c.toCfun = f := by
  obtain ⟨rtype, atypes, acount, symbolName⟩ := f
  obtain ⟨⟨name, hsome, hname⟩, hcount, hlt⟩ := h
  have hcount : acount = atypes.length := hcount
  have hsome : symbolName = some name := hsome
  subst hcount hsome
  refine ⟨⟨name, rtype, atypes, Nat.lt_succ_of_le hname.length_le, hlt⟩, ?_, ?_⟩
  · have hrun : cfunRecord ⟨rtype, atypes, atypes.length, some name⟩ =
        .ok (nameRecord name ++ encode 2 atypes.length ++ encode 1 rtype.toNat ++ atypes) := by
      simp only [cfunRecord, firstEntries_all]
      rfl
    rw [hrun, nameRecord_of_fits hname]
    rfl
  · simp only [ImageCfun.toCfun, cstring_of_fits hname]

theorem cfunRecords_bytes (cfuns : CArray TvmProgramCfun tvmMetadataMaxCfunCapacity) (n i : Nat)
    (hn : i + n ≤ tvmMetadataMaxCfunCapacity)
    (h : ∀ j f, j < i + n → cfuns.get? j = some f → CfunFits f) :
    ∃ cs : List ImageCfun, cs.length = n ∧ cfunRecords cfuns i n = .ok (cs.flatMap ImageCfun.bytes) ∧
      ∀ j < n, (cs.map ImageCfun.toCfun)[j]? = cfuns.get? (i + j) := by
  induction n generalizing i with
  | zero => exact ⟨[], rfl, rfl, fun j hj => absurd hj (Nat.not_lt_zero j)⟩
  | succ n ih =>
    have hget : cfuns.get? i = some (cfuns.cell ⟨i, by omega⟩) := cfuns.get?_of_lt (by omega)
    obtain ⟨c, hrecord, hc⟩ := cfunRecord_bytes (h i _ (by omega) hget)
    obtain ⟨cs, hlen, hrecords, hcs⟩ := ih (i + 1) (by omega) fun j f hj hf => h j f (by omega) hf
    refine ⟨c :: cs, by rw [List.length_cons, hlen], ?_, ?_⟩
    · rw [cfunRecords, Except.bind_of_ok (CArray.load_ok.2 hget), Except.bind_of_ok hrecord,
        Except.bind_of_ok hrecords]
      rfl
    · intro j hj
      cases j with
      | zero => rw [Nat.add_zero, hget, ← hc]; rfl
      | succ j =>
        rw [show i + (j + 1) = i + 1 + j by omega, ← hcs j (by omega)]
        rfl

/-- The module of a file for a library's name and the functions of an entry. -/
structure ModuleOf (name : CStr) (m : TvmProgramMetadataModule) (im : ImageModule) : Prop where
  name : im.name = name
  cfunCount : im.cfuns.length = m.cfunCount
  cfuns : ∀ i < m.cfunCount, (im.cfuns.map ImageCfun.toCfun)[i]? = m.cfuns.get? i

theorem moduleRecord_bytes {modules : CArray TvmProgramMetadataModule tvmMetadataMaxModuleCapacity} {k : Nat}
    {m : TvmProgramMetadataModule} {name : CStr} (hm : modules.get? k = some m) (hname : NameFits name)
    (hfits : ModuleFits m) : ∃ (modules' : _) (im : ImageModule), moduleRecord modules k name = .ok (modules', im.bytes) ∧
      ModuleOf name m im ∧ ∀ j ≠ k, modules'.get? j = modules.get? j := by
  obtain ⟨cs, hlen, hrecords, hcs⟩ := cfunRecords_bytes m.cfuns m.cfunCount 0
    (by rw [Nat.zero_add]; exact hfits.cfunCount) fun j f hj hf => hfits.cfuns j f (by omega) hf
  let im : ImageModule := ⟨name, cs, Nat.lt_succ_of_le hname.length_le, hlen ▸ hfits.cfunCount⟩
  have hbytes : im.bytes = encode 1 name.length ++ name ++ encode 4 m.cfunCount ++ cs.flatMap ImageCfun.bytes := by
    rw [← hlen]
    rfl
  have hstore : modules.store (Fault.outOfBounds .modules) k { m with moduleName := some name } = .ok _ :=
    CArray.store_ok.2 ⟨CArray.get?_lt hm, rfl⟩
  refine ⟨modules.put k { m with moduleName := some name }, im, ?_,
    ⟨rfl, hlen, fun i hi => by rw [hcs i hi, Nat.zero_add]⟩, fun j hj => CArray.get?_put_of_ne _ _ hj⟩
  rw [moduleRecord, Except.bind_of_ok (CArray.load_ok.2 hm), Except.bind_of_ok hstore, Except.bind_of_ok hrecords,
    hbytes, nameRecord_of_fits hname]
  rfl

theorem moduleRecords_bytes {names : List CStr} (modules : CArray TvmProgramMetadataModule tvmMetadataMaxModuleCapacity)
    (k : Nat) (hk : k + names.length ≤ tvmMetadataMaxModuleCapacity) (hnames : ∀ name ∈ names, NameFits name)
    (hfits : ∀ j m, k ≤ j → j < k + names.length → modules.get? j = some m → ModuleFits m) :
    ∃ (modules' : _) (ims : List ImageModule),
      moduleRecords modules k names = .ok (modules', ims.flatMap ImageModule.bytes) ∧ ims.length = names.length ∧
      ∀ j name m, names[j]? = some name → modules.get? (k + j) = some m →
        ∃ im, ims[j]? = some im ∧ ModuleOf name m im := by
  induction names generalizing modules k with
  | nil => exact ⟨modules, [], rfl, rfl, fun j name m hj => nomatch hj⟩
  | cons name names ih =>
    rw [List.length_cons] at hk hfits
    have hm : modules.get? k = some (modules.cell ⟨k, by omega⟩) := modules.get?_of_lt (by omega)
    obtain ⟨modules₁, im, hrecord, him, hsame⟩ :=
      moduleRecord_bytes hm (hnames name (List.mem_cons_self ..)) (hfits k _ (Nat.le_refl k) (by omega) hm)
    -- writing a module leaves the modules behind it as they are
    obtain ⟨modules₂, ims, hrecords, hlen, hims⟩ := ih modules₁ (k + 1) (by omega)
      (fun n hn => hnames n (List.mem_cons_of_mem name hn)) (by
        intro j m hkj hj hget
        rw [hsame j (by omega)] at hget
        exact hfits j m (by omega) (by omega) hget)
    refine ⟨modules₂, im :: ims, ?_, by rw [List.length_cons, List.length_cons, hlen], ?_⟩
    · rw [moduleRecords, Except.bind_of_ok hrecord]
      show (moduleRecords modules₁ (k + 1) names >>= _) = _
      rw [Except.bind_of_ok hrecords]
      rfl
    · intro j name' m hj hget
      cases j with
      | zero =>
        cases hj
        rw [Nat.add_zero, hm] at hget
        cases hget
        exact ⟨im, rfl, him⟩
      | succ j =>
        rw [show k + (j + 1) = k + 1 + j by omega, ← hsame _ (by omega)] at hget
        exact hims j name' m hj hget

theorem constTableRecord_bytes {table : TvmConstTable} (h : TableFits table) :
    ∃ t : ImageTable, constTableRecord table = .ok t.bytes ∧ t.toConstTable = table := by
  obtain ⟨referances, count, data, dataSize⟩ := table
  obtain ⟨hcount, hcount_lt, hrefs, hsize, hsize_lt, hempty⟩ := h
  obtain rfl : count = referances.length := hcount
  obtain rfl : dataSize = data.length := hsize
  have hlength : data.length = if referances = [] then 0 else data.length := by
    split
    · rename_i hnil
      exact List.length_eq_zero_iff.2 (hempty hnil)
    · rfl
  refine ⟨⟨referances, data.length, data, hcount_lt, hrefs, hsize_lt, hlength⟩, ?_, rfl⟩
  cases referances with
  | nil =>
    have hdata : data = [] := hempty rfl
    subst hdata
    rfl
  | cons a as =>
    have hpos : (a :: as).length > 0 := Nat.succ_pos _
    simp only [constTableRecord, if_pos hpos, firstEntries_all]
    rfl

theorem codeRecord_bytes (pad : Nat → Padding) (code : CArray Opcode tvmProgramCapacity) (n i : Nat)
    (hn : i + n ≤ tvmProgramCapacity) :
    ∃ cells : List (List Byte), cells.length = n ∧ (∀ c ∈ cells, c.length = opcodeSize) ∧
      codeRecord pad code i n = .ok cells.flatten ∧ ∀ j < n, (cells.map Opcode.ofBytes)[j]? = code.get? (i + j) := by
  induction n generalizing i with
  | zero => exact ⟨[], rfl, nofun, rfl, fun j hj => absurd hj (Nat.not_lt_zero j)⟩
  | succ n ih =>
    have hget : code.get? i = some (code.cell ⟨i, by omega⟩) := code.get?_of_lt (by omega)
    obtain ⟨cells, hlen, hsizes, hrun, hcells⟩ := ih (i + 1) (by omega)
    generalize code.cell ⟨i, by omega⟩ = c at hget
    refine ⟨c.bytes (pad i) :: cells, by rw [List.length_cons, hlen],
      List.forall_mem_cons.2 ⟨Opcode.length_bytes (pad i) c, hsizes⟩, ?_, ?_⟩
    · rw [codeRecord, Except.bind_of_ok (CArray.load_ok.2 hget), Except.bind_of_ok hrun]
      rfl
    · intro j hj
      cases j with
      | zero =>
        rw [Nat.add_zero, hget]
        exact congrArg some (Opcode.ofBytes_bytes (pad i) c)
      | succ j =>
        rw [show i + (j + 1) = i + 1 + j by omega, ← hcells j (by omega)]
        rfl

/-! ## The round trip -/

/-- `p` is the program of the translator `t` with the library names as its modules. -/
structure ProgramOf (t : TasmTranslator) (args : CliParsedArgs) (p : TvmProgram) : Prop where
  moduleCount : p.metadata.moduleCount = args.clibNames.length
  modules : ∀ k name m, args.clibNames[k]? = some name → t.program.metadata.modules.get? k = some m →
    ∃ m', p.metadata.modules.get? k = some m' ∧ m'.moduleName = some name ∧ m'.cfunCount = m.cfunCount ∧
      ∀ i < m.cfunCount, m'.cfuns.get? i = m.cfuns.get? i
  constTable : p.constTable = t.program.constTable
  size : p.size = t.program.size
  code : ∀ i < t.program.size, p.code.get? i = t.program.code.get? i

/-- The file of a translator state within the capacities is the file of an image. -/
theorem generate_bytes (pad : Nat → Padding) {t : TasmTranslator} {args : CliParsedArgs} (h : WithinCapacity t args) :
    ∃ (t' : TasmTranslator) (img : Image), tasmTranslatorGenerateBin pad t args = .ok (t', img.bytes) ∧
      img.modules.length = args.clibNames.length ∧
      (∀ k name m, args.clibNames[k]? = some name → t.program.metadata.modules.get? k = some m →
        ∃ im, img.modules[k]? = some im ∧ ModuleOf name m im) ∧
      img.table.toConstTable = t.program.constTable ∧ img.cells.length = t.program.size ∧
      ∀ j < t.program.size, (img.cells.map Opcode.ofBytes)[j]? = t.program.code.get? j := by
  have hcount : args.clibNames.length ≤ tvmMetadataMaxModuleCapacity := args.clibCount_le
  obtain ⟨modules, ims, hmodules, hlen, hims⟩ := moduleRecords_bytes t.program.metadata.modules 0
    (by rw [Nat.zero_add]; exact hcount) h.clibNames fun j m _ hj hm => h.modules j m (by omega) hm
  obtain ⟨table, htable, htableEq⟩ := constTableRecord_bytes h.table
  obtain ⟨cells, hcellsLen, hsizes, hcode, hcells⟩ := codeRecord_bytes pad t.program.code t.program.size 0
    (by rw [Nat.zero_add]; exact h.size)
  have hrun : tasmTranslatorGenerateBin pad t args =
      .ok ({ t with program := { t.program with metadata := ⟨modules, args.clibNames.length⟩ } },
        encode 4 args.clibNames.length ++ ims.flatMap ImageModule.bytes ++ table.bytes ++ cells.flatten) := by
    simp only [tasmTranslatorGenerateBin, hmodules, htable, hcode]
    rfl
  rw [← hlen] at hrun
  refine ⟨_, ⟨ims, table, cells, hlen ▸ hcount, hsizes, hcellsLen ▸ h.size⟩, hrun, hlen, ?_, htableEq, hcellsLen, ?_⟩
  · intro k name m hk hm
    exact hims k name m hk (by rw [Nat.zero_add]; exact hm)
  · intro j hj
    rw [hcells j hj, Nat.zero_add]

/-- The loader makes of the file of a translator state the state's program, whatever the padding of
the stored opcodes and the memory it loads into held. -/
theorem load_generate (stale : Nat → Byte) (pad : Nat → Padding) (t : TasmTranslator) (args : CliParsedArgs)
    (h : WithinCapacity t args) : ∃ t' bytes p r, tasmTranslatorGenerateBin pad t args = .ok (t', bytes) ∧
      tvmLoadProgramFromFile stale TvmProgram.zero (some bytes) = .ok (p, r) ∧ ProgramOf t args p := by
  obtain ⟨t', img, hgen, hcount, hmodules, htable, hsize, hcells⟩ := generate_bytes pad h
  obtain ⟨metadata, r, hholds, hload, -, -⟩ := loadImage_bytes stale img (show ([] : List Byte).length < opcodeSize by decide)
  rw [List.append_nil] at hload
  refine ⟨t', img.bytes, _, r, hgen, load_ok.2 hload, hholds.moduleCount.trans hcount, ?_, htable, hsize, ?_⟩
  · intro k name m hk hm
    obtain ⟨im, him, hof⟩ := hmodules k name m hk hm
    obtain ⟨old, hold⟩ := hholds.modules k im him
    -- the name ends at the first NUL of its record
    have hname : cstring im.name = name := by
      rw [hof.name]
      exact cstring_of_fits (h.clibNames name (List.mem_of_getElem? hk))
    refine ⟨_, hold, congrArg some hname, hof.cfunCount, ?_⟩
    intro i hi
    have hi' : i < (im.cfuns.map ImageCfun.toCfun).length := by
      rw [List.length_map, hof.cfunCount]
      exact hi
    have hget := old.cfuns.get?_putAll (i := 0) (im.cfuns.map ImageCfun.toCfun)
      (by rw [Nat.zero_add, List.length_map]; exact im.cfuns_le) hi'
    rw [Nat.zero_add] at hget
    exact hget.trans (hof.cfuns i hi)
  · intro i hi
    have hget := TvmProgram.zero.code.get?_putAll (i := 0) (img.cells.map Opcode.ofBytes) (j := i)
      (by rw [Nat.zero_add, List.length_map]; exact img.cells_le) (by rw [List.length_map, hsize]; exact hi)
    rw [Nat.zero_add] at hget
    exact hget.trans (hcells i hi)

/-- A function `pow(f64, f64)`, a function `abs(i32)`, and one without arguments. -/
def powFun : TvmProgramCfun := ⟨CType.float64.code, [CType.float64.code, CType.float64.code], 2, some (cstr "pow")⟩
def absFun : TvmProgramCfun := ⟨CType.int32.code, [CType.int32.code], 1, some (cstr "abs")⟩
def nowFun : TvmProgramCfun := ⟨CType.uint64.code, [], 0, some (cstr "now")⟩

/-- A translator with two modules, of two functions and of one, three constants and three opcodes. -/
def twoModules : TasmTranslator :=
  let zero := TvmProgramMetadataModule.zero
  let program := TvmProgram.zero
  { tasmTranslatorInit with
    program :=
      { metadata :=
          { modules := program.metadata.modules.putAll 0
              [⟨zero.cfuns.putAll 0 [powFun, absFun], none, 2⟩, ⟨zero.cfuns.putAll 0 [nowFun], none, 1⟩]
            moduleCount := 0 }
        constTable := ⟨[0, 4, 6], 3, [1, 0, 0, 0, 104, 105, 97], 7⟩
        code := program.code.putAll 0
          [⟨OpType.push.code, ⟨StackObjType.number.code, 5⟩⟩, ⟨OpType.native.code, ⟨StackObjType.number.code, 1⟩⟩,
            ⟨OpType.halt.code, .zero⟩]
        size := 3 } }

/-- The command line `-l m -l c`. -/
def twoLibs : CliParsedArgs := ⟨[cstr "m", cstr "c"], by decide⟩

theorem twoModules_withinCapacity : WithinCapacity twoModules twoLibs := by
  refine ⟨?_, ?_, ⟨rfl, by decide, by decide, rfl, by decide, nofun⟩, by decide⟩
  · exact List.forall_mem_cons.2 ⟨⟨by decide, by decide⟩, List.forall_mem_singleton.2 ⟨by decide, by decide⟩⟩
  · intro k m hk hm
    have hk : k < 2 := hk
    obtain rfl | rfl : k = 0 ∨ k = 1 := by omega
    · cases hm
      refine ⟨by decide, fun i f hi hf => ?_⟩
      have hi : i < 2 := hi
      obtain rfl | rfl : i = 0 ∨ i = 1 := by omega
      · cases hf
        exact ⟨⟨_, rfl, by decide, by decide⟩, rfl, by decide⟩
      · cases hf
        exact ⟨⟨_, rfl, by decide, by decide⟩, rfl, by decide⟩
    · cases hm
      refine ⟨by decide, fun i f hi hf => ?_⟩
      obtain rfl : i = 0 := Nat.lt_one_iff.1 hi
      cases hf
      exact ⟨⟨_, rfl, by decide, by decide⟩, rfl, by decide⟩

theorem load_generate_two : ∃ t' bytes p r,
    tasmTranslatorGenerateBin (fun _ => ⟨1, 2⟩) twoModules twoLibs = .ok (t', bytes) ∧
    tvmLoadProgramFromFile (fun _ => 0) TvmProgram.zero (some bytes) = .ok (p, r) ∧ ProgramOf twoModules twoLibs p :=
  load_generate (fun _ => 0) (fun _ => ⟨1, 2⟩) twoModules twoLibs twoModules_withinCapacity

end TileVm
