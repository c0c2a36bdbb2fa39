/-
More code behind a source, from the two texts to the two processes. Where the run of a source never
leaves it, a source with more instructions, labels and procs behind it is assembled to a program that
does the same: `main` of the machine prints the same and ends in the same way.
-/
import TileVm.Image.Renamed
import TileVm.Image.Toolchain
import TileVm.Tasm.Appended

namespace TileVm

open LittleEndian
open Activation (Comes)

variable {W : Type} {text text' : List Byte} {ast ast' : TasmAst} {t t' t₁ t₁' : TasmTranslator} {items extra : List Item}
  {args : CliParsedArgs} {pad pad' : Nat → Padding} {stale : Nat → Byte} {bytes bytes' : List Byte} {p p' : TvmProgram}
  {r r' : ImageReader}

/-! ## The documents -/

theorem append_noCallShadows (h : NoCallShadows (items ++ extra)) : NoCallShadows items := by
  intro x pre c post heq hcall hpre hpost a b a' b' hlabel hproc
  refine h x pre c (post ++ extra) (by rw [heq]; simp) hcall hpre ?_ a (b ++ extra) a' (b' ++ extra) ?_ ?_
  · obtain ⟨i, hi, hjump⟩ := hpost
    exact ⟨i, List.mem_append_left _ hi, hjump⟩
  · rw [hlabel]
    simp
  · rw [hproc]
    simp

/-- Code behind a document adds no declaration. -/
theorem append_declared {α : Type} {f : Item → Option α} (hf : ∀ i : Item, i.isCode = true → f i = none)
    (hcode : ∀ i ∈ extra, i.isCode = true) : (items ++ extra).filterMap f = items.filterMap f := by
  have hnone : extra.filterMap f = [] := List.filterMap_eq_nil_iff.mpr fun i hi => hf i (hcode i hi)
  rw [List.filterMap_append, hnone, List.append_nil]

theorem append_cfunsOf (hcode : ∀ i ∈ extra, i.isCode = true) : cfunsOf (items ++ extra) = cfunsOf items :=
  append_declared Item.cfun?_code hcode

theorem append_constsOf (hcode : ∀ i ∈ extra, i.isCode = true) : constsOf (items ++ extra) = constsOf items :=
  append_declared Item.const?_code hcode

/-! ## The files -/

/-- A file is a header of the functions, constants and libraries, and the cells of the code. -/
theorem generate_split (hfits : t.program.size ≤ tvmProgramCapacity) (h : tasmTranslatorGenerateBin pad t args = .ok (t₁, bytes)) :
    ∃ modules records table code, moduleRecords t.program.metadata.modules 0 args.clibNames = .ok (modules, records) ∧
      constTableRecord t.program.constTable = .ok table ∧ code.length = opcodeSize * t.program.size ∧
      bytes = encode 4 args.clibNames.length ++ records ++ table ++ code := by
  obtain ⟨⟨modules, records⟩, hrecords, h⟩ := Except.bind_ok h
  obtain ⟨table, htable, h⟩ := Except.bind_ok h
  obtain ⟨code, hcode, h⟩ := Except.bind_ok h
  cases h
  obtain ⟨cells, hcount, hsizes, hcells, -⟩ := codeRecord_bytes pad t.program.code t.program.size 0 (by rwa [Nat.zero_add])
  cases hcode.symm.trans hcells
  exact ⟨modules, records, table, cells.flatten, hrecords, htable, by rw [length_cells hsizes, hcount], rfl⟩

/-- Files of the same functions, constants and libraries begin with the same header. -/
theorem generate_header (hfits : t.program.size ≤ tvmProgramCapacity) (hfits' : t'.program.size ≤ tvmProgramCapacity)
    (hmodules : SameModules t.program.metadata.modules t'.program.metadata.modules)
    (hconsts : t'.program.constTable = t.program.constTable) (h : tasmTranslatorGenerateBin pad t args = .ok (t₁, bytes))
    (h' : tasmTranslatorGenerateBin pad' t' args = .ok (t₁', bytes')) : ∃ header code code',
      bytes = header ++ code ∧ bytes' = header ++ code' ∧ code.length = opcodeSize * t.program.size := by
  obtain ⟨modules, records, table, code, hrecords, htable, hlen, rfl⟩ := generate_split hfits h
  obtain ⟨modules', records', table', code', hrecords', htable', -, rfl⟩ := generate_split hfits' h'
  obtain ⟨⟨ms, rs⟩, hsame, -, hrs⟩ := (moduleRecords_follows hmodules).result _ hrecords trivial
  cases hsame.symm.trans hrecords'
  obtain rfl : records' = records := hrs
  rw [hconsts] at htable'
  cases htable.symm.trans htable'
  exact ⟨_, code, code', rfl, rfl, hlen⟩

/-- The metadata of a loaded program is what the header of its file holds. -/
theorem load_metadata {img : Image} {metadata : TvmProgramMetadata} {code : List Byte}
    (hdec : fieldTape.Decodes (loadHeader stale TvmProgram.zero) (metadata, img.table.toConstTable) img.headerBytes)
    (hfile : bytes = img.headerBytes ++ code) (hload : tvmLoadProgramFromFile stale .zero (some bytes) = .ok (p, r)) :
    p.metadata = metadata := by
  obtain ⟨r₁, hheader, -⟩ := hdec (.ofFile bytes) code hfile
  have hrun := load_ok.1 hload
  rw [loadImage_of_header stale hheader] at hrun
  obtain ⟨⟨cells, r₂⟩, -, hdone⟩ := Except.bind_ok hrun
  cases hdone
  rfl

/-- Programs loaded from files of the same functions, constants and libraries have the same metadata. -/
theorem Assembles.sameMetadata (h : Assembles text ast t) (h' : Assembles text' ast' t') (hmem : WithinMemory ast.items)
    (hargs : args.CStrings) (hcfuns : cfunsOf ast'.items = cfunsOf ast.items) (hconsts : constsOf ast'.items = constsOf ast.items)
    (hgen : tasmTranslatorGenerateBin pad t args = .ok (t₁, bytes))
    (hgen' : tasmTranslatorGenerateBin pad' t' args = .ok (t₁', bytes'))
    (hload : tvmLoadProgramFromFile stale .zero (some bytes) = .ok (p, r))
    (hload' : tvmLoadProgramFromFile stale .zero (some bytes') = .ok (p', r')) : p'.metadata = p.metadata := by
  have hfits : t.program.size ≤ tvmProgramCapacity := h.translated.size ▸ h.translated.fits
  have hfits' : t'.program.size ≤ tvmProgramCapacity := h'.translated.size ▸ h'.translated.fits
  have hsame : t'.program.constTable = t.program.constTable := by
    rw [h.tabled.constTable, h'.tabled.constTable, hconsts]
  obtain ⟨header, code, code', hfile, hfile', hlen⟩ :=
    generate_header hfits hfits' (h.tabled.sameModules h'.tabled hcfuns) hsame hgen hgen'
  -- the first file is that of an image
  obtain ⟨t₂, img, himg, -, -, -, hcells, -⟩ := generate_bytes pad (h.withinCapacity hmem hargs)
  obtain ⟨t₃, himg⟩ := generate_written pad himg
  cases hgen.symm.trans himg
  have hcells : img.cells.length = t.program.size := hcells
  have hheader : img.headerBytes = header := by
    rw [img.bytes_eq] at hfile
    refine (List.append_inj' hfile ?_).1
    rw [length_cells img.cells_size, hcells, hlen]
  obtain ⟨metadata, -, hdec⟩ := loadHeader_decodes stale img
  rw [load_metadata hdec (hheader.symm ▸ hfile') hload', load_metadata hdec img.bytes_eq hload]

/-! ## The processes -/

section Processes

variable {env : Env W} {pf : Platform W} {tci : Tci} {out : List Byte} {world : W} {vm : Vm W}

theorem prepareFunctions_congr (h : p'.metadata = p.metadata) : ∀ (n i : Nat) (tci : Tci),
    Tci.prepareFunctions pf p' i n tci = Tci.prepareFunctions pf p i n tci
  | 0, _, _ => rfl
  | n + 1, i, tci => by
    have hcfun : p'.cfun i = p.cfun i := by
      unfold TvmProgram.cfun
      rw [h]
    unfold Tci.prepareFunctions
    rw [hcfun]
    split
    · rfl
    · refine congrArg _ (funext fun m => congrArg _ (funext fun func => ?_))
      exact prepareFunctions_congr h n (i + 1) _

/-- The library of a program is that of its metadata. -/
theorem mainLibrary_congr (h : p'.metadata = p.metadata) (world : W) : tvmMainLibrary pf p' world = tvmMainLibrary pf p world := by
  have hmodule : module0 p' = module0 p := by
    unfold module0
    rw [h]
  unfold tvmMainLibrary Tci.metaprogramToFfi
  rw [h, hmodule]
  simp only [prepareFunctions_congr h]

/-- Without its library `main` does not return. -/
theorem tvmMain_unopened {files : CStr → Option (List Byte)} {cmd fileName : CStr} {s : TciStop}
    (hinit : tvmInit env .zero world = .ok vm) (hload : tvmLoadProgramFromFile stale .zero (files fileName) = .ok (p, r))
    (hlibrary : tvmMainLibrary pf p world = .error s) (fuel : Nat) :
    tvmMain env pf stale files fuel [cmd, fileName] world = .error (.fault (.run (.tci s))) := by
  obtain ⟨hprogram, hworld⟩ := tvmInit_fields hinit
  show ((tvmInit env .zero world).mapError _ >>= _) = _
  have hvm : (Except.ok vm : Except Fault (Vm W)).mapError (fun f => Stop.fault (MainStop.run (.tci (.fault f)))) = .ok vm := rfl
  rw [hinit, hvm, Except.bind_of_ok rfl, hprogram, hload]
  show ((tvmMainLibrary pf p vm.world).mapError _ >>= _) = _
  rw [hworld, hlibrary]
  rfl

/-- Two programs with the same functions that come to the same with every library: `main` ends alike on their files. -/
theorem main_alike {files files' : CStr → Option (List Byte)} {cmd fileName : CStr} (hinit : tvmInit env .zero world = .ok vm)
    (hload : tvmLoadProgramFromFile stale .zero (files fileName) = .ok (p, r))
    (hload' : tvmLoadProgramFromFile stale .zero (files' fileName) = .ok (p', r')) (hmeta : p'.metadata = p.metadata)
    (hcomes : ∀ tci world' r,
      Comes (fun fuel => (tvmRun (env.withTci pf tci) fuel { vm with program := p, world := world' }).map Vm.data) r ↔
        Comes (fun fuel => (tvmRun (env.withTci pf tci) fuel { vm with program := p', world := world' }).map Vm.data) r) :
    (∀ e, (∃ fuel, tvmMain env pf stale files fuel [cmd, fileName] world = .ok e) ↔
      ∃ fuel, tvmMain env pf stale files' fuel [cmd, fileName] world = .ok e) ∧
    ∀ x, (∃ fuel, tvmMain env pf stale files fuel [cmd, fileName] world = .error (.fault (.run (.exit x)))) ↔
      ∃ fuel, tvmMain env pf stale files' fuel [cmd, fileName] world = .error (.fault (.run (.exit x))) := by
  cases hlibrary : tvmMainLibrary pf p world with
  | error s =>
    have hlibrary' : tvmMainLibrary pf p' world = .error s := (mainLibrary_congr hmeta world).trans hlibrary
    simp only [tvmMain_unopened hinit hload hlibrary, tvmMain_unopened hinit hload' hlibrary', implies_true, and_self]
  | ok library =>
    obtain ⟨tci, out, world'⟩ := library
    have hlibrary' : tvmMainLibrary pf p' world = .ok (tci, out, world') := (mainLibrary_congr hmeta world).trans hlibrary
    constructor
    · intro e
      simp only [tvmMain_returns hinit hload hlibrary, tvmMain_returns hinit hload' hlibrary']
      constructor
      · rintro ⟨fuel, d, w, hrun, hrest⟩
        obtain ⟨fuel', hrun'⟩ := (hcomes tci world' (.ok d)).1 ⟨fuel, hrun⟩
        exact ⟨fuel', d, w, hrun', hrest⟩
      · rintro ⟨fuel, d, w, hrun, hrest⟩
        obtain ⟨fuel', hrun'⟩ := (hcomes tci world' (.ok d)).2 ⟨fuel, hrun⟩
        exact ⟨fuel', d, w, hrun', hrest⟩
    · intro x
      simp only [tvmMain_raises hinit hload hlibrary, tvmMain_raises hinit hload' hlibrary']
      exact hcomes tci world' (.error (.exit x))

end Processes

/-- The text of a call, and behind it a proc that prints and that nobody calls. -/
def callPrintMore : List Byte := callPrint ++ cstr "proc q\npush 7\nputc\nret\nendp\n"

def callPrintMoreTokens : List TasmToken :=
  callPrintTokens ++ [⟨.proc, some (cstr "proc")⟩, ⟨.id, some (cstr "q")⟩, endlToken,
    ⟨.op .push, some (cstr "push")⟩, ⟨.decimalNumber, some (cstr "7")⟩, endlToken,
    ⟨.op .putc, some (cstr "putc")⟩, endlToken, ⟨.op .ret, some (cstr "ret")⟩, endlToken,
    ⟨.endp, some (cstr "endp")⟩, endlToken]

def callPrintMoreAst : TasmAst :=
  .file [.op .call (some (cstr "call")) (some (.labelCall (some (cstr "p")))), .op .halt (some (cstr "hlt")) none,
    .proc (some (cstr "p"))
      [.op .push (some (cstr "push")) (some (.number (cstr "42") 42)), .op .putc (some (cstr "putc")) none,
        .op .ret (some (cstr "ret")) none],
    .proc (some (cstr "q"))
      [.op .push (some (cstr "push")) (some (.number (cstr "7") 7)), .op .putc (some (cstr "putc")) none,
        .op .ret (some (cstr "ret")) none]]

theorem callPrintMore_assembles : ∃ t, Assembles callPrintMore callPrintMoreAst t :=
  assembles_of_run 50 (show (runOf 50 50 _).map (·.1) = some callPrintMoreTokens by decide +kernel) ⟨_, rfl, rfl⟩
    (by decide +kernel)

theorem callPrintMore_noCallShadows : NoCallShadows callPrintMoreAst.items := by
  rintro x pre c post heq - - ⟨_, hi, o, ho, rfl⟩
  have hmem : Item.inst none o (some (.labelCall (some x))) ∈ callPrintMoreAst.items := by rw [heq]; simp [hi]
  simp [callPrintMoreAst, TasmAst.items, fileItems, lineItem] at hmem
  rw [hmem.1] at ho
  exact absurd ho (by decide)

theorem callPrint_closed : ClosedDocument callPrintAst.items := ⟨by decide, by decide⟩

end TileVm
