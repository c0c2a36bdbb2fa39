/-
The declarations of a source in the program that is loaded from its file: the k-th `@cfun` is the
k-th function of the first module, and the i-th `@data` is the i-th constant, at the offset that the
constants before it leave, where `loadc` and `aloadc` find it.
-/
import TileVm.Image.Assembled
import TileVm.Vm.DeadSlots
import TileVm.Vm.Memory

namespace TileVm

open LittleEndian

/-! ## Words of the table -/

/-- The word that the four bytes of a number make is the number. -/
theorem ofLeBytes_encode (v : BitVec 32) : (ofLeBytes (encode 4 v.toNat)).setWidth 32 = v := by
  have hlt : v.toNat < 2 ^ 32 := v.isLt
  apply BitVec.eq_of_toNat_eq
  rw [BitVec.toNat_setWidth, ofLeBytes_toNat (by simp), decode_encode_of_lt hlt]
  exact Nat.mod_eq_of_lt hlt

/-- The bytes of a constant stand at its offset. -/
theorem constBytes_at {vs : List TasmAst} {i : Nat} {v : TasmAst} (h : vs[i]? = some v) :
    ((vs.flatMap constBytes).drop ((vs.take i).flatMap constBytes).length).take (constBytes v).length = constBytes v := by
  obtain ⟨hi, rfl⟩ := List.getElem?_eq_some_iff.mp h
  have hsplit : vs.flatMap constBytes = (vs.take i).flatMap constBytes ++ (constBytes vs[i] ++ (vs.drop (i + 1)).flatMap constBytes) := by
    rw [← List.flatMap_cons, List.getElem_cons_drop, ← List.flatMap_append, List.take_append_drop]
  rw [hsplit, List.drop_left, List.take_left]

/-! ## Declarations in a loaded program -/

/-- Whether an item is an `@data` line. -/
def Item.isData : Item → Bool
  | .metadata (.data _) => true
  | _ => false

theorem constsOf_length {ast : TasmAst} (h : Complete ast) : (constsOf ast.items).length = ast.items.countP Item.isData := by
  rw [constsOf, List.length_filterMap_eq_countP]
  refine List.countP_congr fun i hi => ?_
  unfold Item.const? Item.isData
  split
  · simpa using h.values _ hi
  · simp

/-- The program holds the functions and the constants of a document. -/
structure HoldsDeclarations (items : List Item) (p : TvmProgram) : Prop where
  referanceCount : p.constTable.referanceCount = items.countP Item.isData
  referances_length : p.constTable.referances.length = items.countP Item.isData
  referances : ∀ i < items.countP Item.isData,
    p.constTable.referances[i]? = some (((constsOf items).take i).flatMap constBytes).length
  data : p.constTable.data = (constsOf items).flatMap constBytes
  dataSize : p.constTable.dataSize = p.constTable.data.length
  functions : ∃ m, p.metadata.modules.get? 0 = some m ∧ m.cfunCount = (cfunsOf items).length ∧
    ∀ (k : Nat) (f : TvmProgramCfun), (cfunsOf items)[k]? = some f → f.acount = f.atypes.length ∧ m.cfuns.get? k = some f

/-- The step succeeds, pushes `o` and goes on to the next instruction. -/
def Pushes {W : Type} (vm : Vm W) (o : ObjectT) (x : Except Fault (Ret W)) : Prop :=
  x = done ({ vm with stack := vm.stack.put vm.sp o }.setSp (vm.sp + 1)).next

namespace HoldsDeclarations

variable {W : Type} {items : List Item} {vm : Vm W} {inst : Opcode} {i : Nat}

theorem referance_of {p : TvmProgram} (h : HoldsDeclarations items p) {v : TasmAst} (hv : (constsOf items)[i]? = some v)
    (hcount : (constsOf items).length = items.countP Item.isData) : ¬ p.constTable.referanceCount ≤ i ∧
      p.constTable.referances[i]? = some (((constsOf items).take i).flatMap constBytes).length := by
  have hi := (List.getElem?_eq_some_iff.mp hv).1
  rw [hcount] at hi
  constructor
  · rw [h.referanceCount]
    omega
  · exact h.referances i hi

/-- `loadc` on a number pushes the number. -/
theorem loadc (h : HoldsDeclarations items vm.program) (hcount : (constsOf items).length = items.countP Item.isData)
    (hsp : vm.sp < tvmStackCapacity) (hi : inst.operand.ui32.toNat = i) {text : CStr} {v : BitVec 32}
    (hv : (constsOf items)[i]? = some (.number text v)) : ∃ o, o.ui32 = v ∧ Pushes vm o (opLoadc inst vm) := by
  subst hi
  obtain ⟨hguard, href⟩ := h.referance_of hv hcount
  have hbytes := constBytes_at hv
  rw [← h.data] at hbytes
  simp only [constBytes, length_encode] at hbytes
  obtain ⟨old, hold⟩ : ∃ old, vm.stack.get? vm.sp = some old := ⟨_, CArray.get?_of_lt vm.stack hsp⟩
  refine ⟨old.setUi32 v, ObjectT.ui32_setUi32 old v, ?_⟩
  unfold Pushes opLoadc
  rw [if_neg (Nat.not_le_of_lt hsp), if_neg hguard, Except.bind_of_ok (referance_ok.2 href)]
  dsimp only
  rw [hbytes, if_neg (by simp), ofLeBytes_encode]
  exact pushWith_ok hold

/-- `aloadc` pushes the address of the first byte. -/
theorem aloadc (h : HoldsDeclarations items vm.program) (hcount : (constsOf items).length = items.countP Item.isData)
    (env : Env W) (hsp : vm.sp < tvmStackCapacity) (hi : inst.operand.ui32.toNat = i) {v : TasmAst}
    (hv : (constsOf items)[i]? = some v) : ∃ o,
      o.ui64 = env.constBase + BitVec.ofNat 64 (((constsOf items).take i).flatMap constBytes).length ∧
      Pushes vm o (opAloadc env inst vm) := by
  subst hi
  obtain ⟨hguard, href⟩ := h.referance_of hv hcount
  obtain ⟨old, hold⟩ : ∃ old, vm.stack.get? vm.sp = some old := ⟨_, CArray.get?_of_lt vm.stack hsp⟩
  refine ⟨old.setUi64 _, rfl, ?_⟩
  unfold Pushes opAloadc
  rw [if_neg (Nat.not_le_of_lt hsp), if_neg hguard, Except.bind_of_ok (referance_ok.2 href)]
  exact pushWith_ok hold

end HoldsDeclarations

/-- The program of an accepted source holds its declarations, when functions have fewer than 2^16 arguments and there is
a library to put them in. -/
theorem Assembles.holdsDeclarations {text : List Byte} {ast : TasmAst} {t : TasmTranslator} (h : Assembles text ast t)
    {args : CliParsedArgs} {p : TvmProgram} (hp : ProgramOf t.written args.written p) (hlib : 0 < args.clibNames.length)
    (hargs : ∀ f ∈ cfunsOf ast.items, f.atypes.length < 2 ^ 16) : HoldsDeclarations ast.items p := by
  have hcount := constsOf_length h.complete
  have htable : p.constTable = constTableOf (constsOf ast.items) := hp.constTable.trans h.tabled.constTable
  constructor
  · rw [htable]
    exact hcount
  · rw [htable, ← hcount]
    exact offsets_length ..
  · intro i hi
    rw [htable]
    exact (offsets_getElem? 0 (hcount ▸ hi)).trans (by rw [Nat.zero_add])
  · rw [htable]
    rfl
  · rw [htable]
    rfl
  · obtain ⟨m, hm, hmcount, -, hcells⟩ := h.tabled.cfuns
    have hname : args.written.clibNames[0]? = some (writtenName args.clibNames[0]) := by
      simp [CliParsedArgs.written, hlib]
    have hwritten : t.written.program.metadata.modules.get? 0 = some m.written :=
      (CArray.get?_map _ _ 0).trans (by rw [hm]; rfl)
    obtain ⟨m', hm', -, hcount', hcells'⟩ := hp.modules 0 _ _ hname hwritten
    refine ⟨m', hm', hcount'.trans hmcount, fun k f hf => ?_⟩
    have hk := (List.getElem?_eq_some_iff.mp hf).1
    have hmem := List.mem_of_getElem? hf
    obtain ⟨-, -, -, hacount⟩ := h.cfun_fits hmem
    refine ⟨hacount.trans (Nat.mod_eq_of_lt (hargs f hmem)), ?_⟩
    rw [hcells' k (show k < m.cfunCount from hmcount ▸ hk)]
    refine (CArray.get?_map _ m.cfuns k).trans ?_
    rw [hcells k (by omega), hf, Option.map_some, h.cfun_written hmem (hargs f hmem)]

/-- For every accepted source with functions of fewer than 2^16 arguments, assembled with a library, saved and loaded: the
program holds the declarations, `loadc i` on a number pushes it, and `aloadc i` the address of the first byte of constant `i`. -/
theorem declarations_loaded {text : List Byte} {ast : TasmAst} {t : TasmTranslator} (h : Assembles text ast t)
    (hmem : WithinMemory ast.items) (hargs : ∀ f ∈ cfunsOf ast.items, f.atypes.length < 2 ^ 16) {args : CliParsedArgs}
    (hlibs : args.CStrings) (hlib : 0 < args.clibNames.length) (stale : Nat → Byte) (pad : Nat → Padding) :
    ∃ t' bytes p r, tasmTranslatorGenerateBin pad t args = .ok (t', bytes) ∧
      tvmLoadProgramFromFile stale TvmProgram.zero (some bytes) = .ok (p, r) ∧ HoldsDeclarations ast.items p ∧
      ∀ (W : Type) (env : Env W) (vm : Vm W) (inst : Opcode) (i : Nat), vm.program = p → vm.sp < tvmStackCapacity →
        inst.operand.ui32.toNat = i →
        (∀ text v, (constsOf ast.items)[i]? = some (.number text v) →
          ∃ o, o.ui32 = v ∧ Pushes vm o (tvmExecOp env .loadc inst vm)) ∧
        (∀ v, (constsOf ast.items)[i]? = some v →
          ∃ o, o.ui64 = env.constBase + BitVec.ofNat 64 (((constsOf ast.items).take i).flatMap constBytes).length ∧
            Pushes vm o (tvmExecOp env .aloadc inst vm)) := by
  obtain ⟨t', bytes, p, r, hgen, hload, hp⟩ := h.loads hmem hlibs stale pad
  have hcount := constsOf_length h.complete
  refine ⟨t', bytes, p, r, hgen, hload, h.holdsDeclarations hp hlib hargs, ?_⟩
  rintro W env vm inst i rfl hsp hi
  have hholds := h.holdsDeclarations hp hlib hargs
  exact ⟨fun text v hv => hholds.loadc hcount hsp hi hv, fun v hv => hholds.aloadc hcount env hsp hi hv⟩

/-- The text `@data "ab"`, `@cfun i32 f ptr`, `@data -7`. -/
def twoConstants : List Byte := cstr "@data \"ab\"\n@cfun i32 f ptr\n@data -7\n"

def twoConstantsTokens : List TasmToken :=
  [⟨.atSign, some (cstr "@")⟩, ⟨.data, some (cstr "data")⟩, ⟨.quota, some (cstr "\"")⟩, ⟨.string, some (cstr "ab")⟩,
    ⟨.quota, some (cstr "\"")⟩, ⟨.endline, some (cstr "endl")⟩,
    ⟨.atSign, some (cstr "@")⟩, ⟨.cfunction, some (cstr "cfun")⟩, ⟨.tci .int32, some (cstr "i32")⟩, ⟨.id, some (cstr "f")⟩,
    ⟨.tci .ptr, some (cstr "ptr")⟩, ⟨.endline, some (cstr "endl")⟩,
    ⟨.atSign, some (cstr "@")⟩, ⟨.data, some (cstr "data")⟩, ⟨.minus, some (cstr "-")⟩, ⟨.decimalNumber, some (cstr "7")⟩,
    ⟨.endline, some (cstr "endl")⟩]

def twoConstantsAst : TasmAst :=
  .file [.data (some (.string (cstr "ab") 2)), .cfunction CType.int32.code [CType.ptr.code] 1 (some (cstr "f")),
    .data (some (.number (cstr "-7") (-7)))]

theorem twoConstants_assembles : ∃ t, Assembles twoConstants twoConstantsAst t :=
  assembles_of_run 40 (show (runOf 40 40 _).map (·.1) = some twoConstantsTokens by decide +kernel) ⟨_, rfl, rfl⟩ (by decide +kernel)

theorem declarations_loaded_two : ∃ t t' bytes p r, Assembles twoConstants twoConstantsAst t ∧
    tasmTranslatorGenerateBin (fun _ => ⟨1, 2⟩) t oneLib = .ok (t', bytes) ∧
      tvmLoadProgramFromFile (fun _ => 0) TvmProgram.zero (some bytes) = .ok (p, r) ∧
      HoldsDeclarations twoConstantsAst.items p ∧
      ∀ (W : Type) (env : Env W) (vm : Vm W) (inst : Opcode) (i : Nat), vm.program = p → vm.sp < tvmStackCapacity →
        inst.operand.ui32.toNat = i →
        (∀ text v, (constsOf twoConstantsAst.items)[i]? = some (.number text v) →
          ∃ o, o.ui32 = v ∧ Pushes vm o (tvmExecOp env .loadc inst vm)) ∧
        (∀ v, (constsOf twoConstantsAst.items)[i]? = some v →
          ∃ o, o.ui64 = env.constBase + BitVec.ofNat 64 (((constsOf twoConstantsAst.items).take i).flatMap constBytes).length ∧
            Pushes vm o (tvmExecOp env .aloadc inst vm)) := by
  obtain ⟨t, ht⟩ := twoConstants_assembles
  obtain ⟨t', bytes, p, r, hgen, hload, hholds⟩ := declarations_loaded ht ⟨by decide, by decide⟩
    (by simp [cfunsOf, twoConstantsAst, TasmAst.items, fileItems, lineItem, Item.cfun?]) oneLib_strings (by decide)
    (fun _ => 0) fun _ => ⟨1, 2⟩
  exact ⟨t, t', bytes, p, r, ht, hgen, hload, hholds⟩

end TileVm
