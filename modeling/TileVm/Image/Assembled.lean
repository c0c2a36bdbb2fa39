/-
Programs that the assembler accepts, from their text to the program that the machine loads: their
tree is complete, the translator's tables are those of the document, and the program file carries
them over.
-/
import TileVm.Image.Written
import TileVm.Tasm.LexerReports
import TileVm.Tasm.Metadata

namespace TileVm

/-- The assembler accepts the text, with this tree, and leaves the translator in this state. -/
structure Assembles (text : List Byte) (ast : TasmAst) (t : TasmTranslator) : Prop where
  parses : ∃ ts fuel p, LexTokens (tasmLexerInit (marked text)) ts ∧
    tasmParseFile fuel (tasmParserInit ts) = .ok (ast, p) ∧ p.isErr = false
  translates : tasmTranslate ast = .ok t
  resolved : t.symbols.err = false

theorem IdName.isSome {name : Option CStr} (h : IdName name) : name.isSome = true := by
  obtain ⟨v, rfl, -⟩ := h
  rfl

/-- A short name fits the one-byte length field and holds no NUL. -/
theorem ShortName.fits {name : CStr} (h : ShortName (some name)) : NameFits name := by
  obtain ⟨⟨v, hv, hall⟩, hlen⟩ := h
  cases hv
  constructor
  · have := hlen name rfl
    omega
  · intro hmem
    exact absurd (hall 0 hmem) (by decide)

/-- The counts of the constants and of their bytes are those of arrays in memory. -/
structure WithinMemory (items : List Item) : Prop where
  consts : (constsOf items).length < 2 ^ 64
  bytes : ((constsOf items).flatMap constBytes).length < 2 ^ 64

/-- The library names are C strings. -/
def CliParsedArgs.CStrings (args : CliParsedArgs) : Prop := ∀ name ∈ args.clibNames, 0 ∉ name

namespace Assembles

variable {text : List Byte} {ast : TasmAst} {t : TasmTranslator}

theorem wellFormed (h : Assembles text ast t) : WellFormed ShortName ast := by
  obtain ⟨ts, fuel, p, hlex, hparse, hp⟩ := h.parses
  exact wellFormed_of_parse (ids_init hlex.shortNames) hparse hp

theorem idNames (h : Assembles text ast t) : WellFormed IdName ast := by
  obtain ⟨ts, fuel, p, hlex, hparse, hp⟩ := h.parses
  exact wellFormed_of_parse (ids_init fun tok htok hid => (hlex.shortNames tok htok hid).1) hparse hp

theorem complete (h : Assembles text ast t) : Complete ast := by
  obtain ⟨ts, fuel, p, hlex, hparse, hp⟩ := h.parses
  exact complete_of_values hlex.texts hlex.ne_eof hparse hp (values_of_translate h.wellFormed h.translates)

theorem translated (h : Assembles text ast t) : Translated ast t := TileVm.translated h.wellFormed h.translates h.resolved

theorem tabled (h : Assembles text ast t) : Tabled ast.items t := TileVm.tabled h.complete h.translates

theorem fits (h : Assembles text ast t) : ∀ i ∈ ast.items, ItemFits ShortName i := items_fit h.wellFormed

/-- A function of the document has a short name, and its count is that of its types in 16 bits. -/
theorem cfun_fits (h : Assembles text ast t) {f : TvmProgramCfun} (hf : f ∈ cfunsOf ast.items) :
    ∃ name, f.symbolName = some name ∧ NameFits name ∧ f.acount = f.atypes.length % 2 ^ 16 := by
  obtain ⟨i, hi, hfi⟩ := List.mem_filterMap.mp hf
  cases h.fits i hi with
  | inst | label | proc => cases hfi
  | metadata node hnode hline =>
    cases hnode with
    | line _ h => exact absurd h hline
    | proc | cstruct | data => cases hfi
    | cfunction rtype atypes name hn =>
      cases hfi
      obtain ⟨v, rfl⟩ := Option.isSome_iff_exists.mp hn.1.isSome
      exact ⟨v, rfl, hn.fits, rfl⟩

theorem cfun_written_fits (h : Assembles text ast t) {f : TvmProgramCfun} (hf : f ∈ cfunsOf ast.items) :
    CfunFits f.written := by
  obtain ⟨name, hname, hfits, hcount⟩ := h.cfun_fits hf
  constructor
  · refine ⟨name, ?_, hfits⟩
    rw [TvmProgramCfun.written, hname, Option.map_some, writtenName_of_fits hfits]
  · simp only [TvmProgramCfun.written, List.length_take, hcount]
    exact (Nat.min_eq_left (Nat.mod_le _ _)).symm
  · simp only [TvmProgramCfun.written, hcount]
    exact Nat.mod_lt _ (by decide)

/-- A function with fewer than 2^16 arguments is written as it is. -/
theorem cfun_written (h : Assembles text ast t) {f : TvmProgramCfun} (hf : f ∈ cfunsOf ast.items)
    (hlt : f.atypes.length < 2 ^ 16) : f.written = f := by
  obtain ⟨name, hname, hfits, hcount⟩ := h.cfun_fits hf
  obtain ⟨rtype, atypes, acount, symbolName⟩ := f
  cases hname
  have hcount : acount = atypes.length := hcount.trans (Nat.mod_eq_of_lt hlt)
  simp only [TvmProgramCfun.written, hcount, List.take_length, Option.map_some, writtenName_of_fits hfits]

theorem withinCapacity (h : Assembles text ast t) (hmem : WithinMemory ast.items) {args : CliParsedArgs}
    (hlibs : args.CStrings) : WithinCapacity t.written args.written where
  clibNames := by
    intro name hname
    obtain ⟨name', hname', rfl⟩ := List.mem_map.mp hname
    exact writtenName_fits (hlibs name' hname')
  modules := by
    intro k m' _ hm'
    obtain ⟨m, hm, rfl⟩ := Option.map_eq_some_iff.mp ((CArray.get?_map _ t.program.metadata.modules k).symm.trans hm')
    obtain ⟨m₀, hm₀, hcount, hroom, hcells⟩ := h.tabled.cfuns
    -- all functions are in the first module
    by_cases hk : k = 0
    · subst hk
      cases hm.symm.trans hm₀
      constructor
      · exact hcount ▸ hroom
      · intro i f' hi hf'
        have hget := (CArray.get?_map TvmProgramCfun.written m.cfuns i).symm.trans hf'
        rw [hcells i hi] at hget
        obtain ⟨f, hf, rfl⟩ := Option.map_eq_some_iff.mp hget
        exact h.cfun_written_fits (List.mem_of_getElem? hf)
    · have hzero : m.written.cfunCount = 0 := h.tabled.others k m hk hm
      exact ⟨by omega, fun i f hi => by omega⟩
  table := by
    have htable : t.written.program.constTable = constTableOf (constsOf ast.items) := h.tabled.constTable
    rw [htable]
    refine ⟨?_, hmem.consts, ?_, rfl, hmem.bytes, ?_⟩
    · simp [constTableOf]
    · intro a ha
      have hle := offsets_le ha
      have hlt := hmem.bytes
      omega
    · intro hnil
      have hlen := congrArg List.length hnil
      simp only [constTableOf, offsets_length, List.length_nil, List.length_eq_zero_iff] at hlen
      simp [constTableOf, hlen]
  size := by
    have hsize : t.written.program.size = instCount ast.items := h.translated.size
    rw [hsize]
    exact h.translated.fits

/-- The file of an accepted source is written, and loaded again. -/
theorem loads (h : Assembles text ast t) (hmem : WithinMemory ast.items) {args : CliParsedArgs} (hlibs : args.CStrings)
    (stale : Nat → Byte) (pad : Nat → Padding) : ∃ t' bytes p r, tasmTranslatorGenerateBin pad t args = .ok (t', bytes) ∧
      tvmLoadProgramFromFile stale TvmProgram.zero (some bytes) = .ok (p, r) ∧ ProgramOf t.written args.written p := by
  obtain ⟨t₁, bytes, p, r, hgen, hload, hp⟩ := load_generate stale pad _ _ (h.withinCapacity hmem hlibs)
  obtain ⟨t', hgen⟩ := generate_written pad hgen
  exact ⟨t', bytes, p, r, hgen, hload, hp⟩

end Assembles

/-! ## Running the assembler -/

theorem assembles_of_run {text : List Byte} {ts : List TasmToken} {ast : TasmAst} (fuel : Nat)
    (hlex : (runOf fuel fuel (tasmLexerInit (marked text))).map (·.1) = some ts)
    (hparse : ∃ p, tasmParseFile fuel (tasmParserInit ts) = .ok (ast, p) ∧ p.isErr = false)
    (htr : (tasmTranslate ast).okAnd (fun t => !t.symbols.err) = true) : ∃ t, Assembles text ast t := by
  obtain ⟨⟨ts, lx⟩, hrun, rfl⟩ := Option.map_eq_some_iff.mp hlex
  obtain ⟨p, hparse, hp⟩ := hparse
  obtain ⟨t, htr, ht⟩ := Except.okAnd_eq_true htr
  exact ⟨t, ⟨ts, fuel, p, (runOf_lex hrun).tokens, hparse, hp⟩, htr, by simpa using ht⟩

/-- The command line `-l m`. -/
def oneLib : CliParsedArgs := ⟨[cstr "m"], by decide⟩

theorem oneLib_strings : oneLib.CStrings := by
  unfold CliParsedArgs.CStrings
  decide

end TileVm
