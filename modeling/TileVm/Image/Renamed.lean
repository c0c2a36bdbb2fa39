/-
Other names and other places, from the text to the program file: a source whose names are changed
consistently, or whose declarations are moved, is accepted as before, and its program file is the
same, byte by byte.
-/
import Mathlib.Logic.Equiv.Basic
import TileVm.Image.Assembled
import TileVm.Tasm.Renaming

namespace TileVm

open Except (Follows)

/-! ## What the writer reads -/

/-- The same functions are declared. -/
structure SameFuns (m m' : TvmProgramMetadataModule) : Prop where
  count : m'.cfunCount = m.cfunCount
  cells : ∀ i < m.cfunCount, m'.cfuns.get? i = m.cfuns.get? i

/-- The modules declare the same functions. -/
def SameModules (a a' : CArray TvmProgramMetadataModule tvmMetadataMaxModuleCapacity) : Prop :=
  ∀ k m m', a.get? k = some m → a'.get? k = some m' → SameFuns m m'

section Writer

variable {a a' : CArray TvmProgramMetadataModule tvmMetadataMaxModuleCapacity}

theorem load_congr {α ε : Type} {n i : Nat} {b b' : CArray α n} (e : ε) (h : b'.get? i = b.get? i) :
    b'.load e i = b.load e i := by
  unfold CArray.load
  rw [h]

theorem cfunRecords_congr {b b' : CArray TvmProgramCfun tvmMetadataMaxCfunCapacity} {n : Nat} :
    ∀ {i : Nat}, (∀ j, i ≤ j → j < i + n → b'.get? j = b.get? j) → cfunRecords b' i n = cfunRecords b i n := by
  induction n with
  | zero => exact fun _ => rfl
  | succ n ih =>
    intro i h
    have hrest : cfunRecords b' (i + 1) n = cfunRecords b (i + 1) n := ih fun j hj hlt => h j (by omega) (by omega)
    unfold cfunRecords
    rw [load_congr _ (h i (Nat.le_refl i) (by omega)), hrest]

theorem codeRecord_congr {pad : Nat → Padding} {b b' : CArray Opcode tvmProgramCapacity} {n : Nat} :
    ∀ {i : Nat}, (∀ j, i ≤ j → j < i + n → b'.get? j = b.get? j) → codeRecord pad b' i n = codeRecord pad b i n := by
  induction n with
  | zero => exact fun _ => rfl
  | succ n ih =>
    intro i h
    have hrest : codeRecord pad b' (i + 1) n = codeRecord pad b (i + 1) n := ih fun j hj hlt => h j (by omega) (by omega)
    unfold codeRecord
    rw [load_congr _ (h i (Nat.le_refl i) (by omega)), hrest]

/-- A module is written as the other one is. -/
theorem moduleRecord_follows (h : SameModules a a') (k : Nat) (name : CStr) :
    Follows True (fun _ => True) (fun r r' => SameModules r.1 r'.1 ∧ r'.2 = r.2) (moduleRecord a k name)
      (moduleRecord a' k name) := by
  unfold moduleRecord
  by_cases hk : k < tvmMetadataMaxModuleCapacity
  · obtain ⟨m, hm⟩ : ∃ m, a.get? k = some m := ⟨_, CArray.get?_of_lt a hk⟩
    obtain ⟨m', hm'⟩ : ∃ m', a'.get? k = some m' := ⟨_, CArray.get?_of_lt a' hk⟩
    have hsame := h k m m' hm hm'
    have hrecords : cfunRecords m'.cfuns 0 m'.cfunCount = cfunRecords m.cfuns 0 m.cfunCount := by
      rw [hsame.count]
      exact cfunRecords_congr fun j _ hj => hsame.cells j (by omega)
    rw [Except.bind_of_ok (CArray.load_ok.2 hm), Except.bind_of_ok (CArray.load_ok.2 hm'),
      Except.bind_of_ok (CArray.store_ok.2 ⟨hk, rfl⟩), Except.bind_of_ok (CArray.store_ok.2 ⟨hk, rfl⟩), hrecords, hsame.count]
    refine .bind_same rfl fun records _ => .ok fun _ => ⟨fun j n n' hn hn' => ?_, rfl⟩
    by_cases hj : j = k
    · subst hj
      rw [CArray.get?_put_self _ _ hk] at hn hn'
      cases hn
      cases hn'
      exact ⟨rfl, hsame.cells⟩
    · rw [CArray.get?_put_of_ne _ _ hj] at hn hn'
      exact h j n n' hn hn'
  · have hload {b : CArray TvmProgramMetadataModule tvmMetadataMaxModuleCapacity} :
        b.load (Fault.outOfBounds .modules) k = .error (.outOfBounds .modules) := by
      unfold CArray.load
      rw [CArray.get?_of_le b (by omega)]
    rw [hload, hload]
    exact .error _

theorem moduleRecords_follows {names : List CStr} : ∀ {k : Nat} {a a'}, SameModules a a' →
    Follows True (fun _ => True) (fun r r' => SameModules r.1 r'.1 ∧ r'.2 = r.2) (moduleRecords a k names)
      (moduleRecords a' k names) := by
  induction names with
  | nil => exact fun h => .ok fun _ => ⟨h, rfl⟩
  | cons name names ih =>
    intro k a a' h
    unfold moduleRecords
    refine .bind (moduleRecord_follows h k name) fun r r' _ hr => .bind (ih hr.1) fun s s' _ hs => .ok fun _ => ?_
    exact ⟨hs.1, by rw [hr.2, hs.2]⟩

/-- The writer writes the same file for translators with the same functions, constants and opcodes. -/
theorem generate_same {t t' : TasmTranslator} (hmodules : SameModules t.program.metadata.modules t'.program.metadata.modules)
    (hconsts : t'.program.constTable = t.program.constTable) (hsize : t'.program.size = t.program.size)
    (hcode : ∀ k < t.program.size, t'.program.code.get? k = t.program.code.get? k) (pad : Nat → Padding)
    (args : CliParsedArgs) :
    (tasmTranslatorGenerateBin pad t' args).map (·.2) = (tasmTranslatorGenerateBin pad t args).map (·.2) := by
  have hbytes : codeRecord pad t'.program.code 0 t'.program.size = codeRecord pad t.program.code 0 t.program.size := by
    rw [hsize]
    exact codeRecord_congr fun j _ hj => hcode j (by omega)
  have hfollows : Follows True (fun _ => True) (fun r r' => r'.2 = r.2) (tasmTranslatorGenerateBin pad t args)
      (tasmTranslatorGenerateBin pad t' args) := by
    unfold tasmTranslatorGenerateBin
    rw [hconsts, hbytes]
    refine .bind (moduleRecords_follows hmodules) fun r r' _ hr => .bind_same rfl fun table _ => .bind_same rfl fun code _ => ?_
    exact .ok fun _ => by rw [hr.2]
  cases hx : tasmTranslatorGenerateBin pad t args with
  | error e => rw [hfollows.fault trivial e hx]
  | ok r =>
    obtain ⟨r', hr', heq⟩ := hfollows.result r hx trivial
    rw [hr']
    exact congrArg Except.ok heq

end Writer

/-! ## Sources -/

/-- The parser accepts the text, with this tree. -/
def Parses (text : List Byte) (ast : TasmAst) : Prop :=
  ∃ ts fuel p, LexTokens (tasmLexerInit (marked text)) ts ∧ tasmParseFile fuel (tasmParserInit ts) = .ok (ast, p) ∧
    p.isErr = false

section Sources

variable {ρ : Renaming} {text text' : List Byte} {ast ast' : TasmAst} {t t' : TasmTranslator}

theorem Parses.idNames (h : Parses text ast) : WellFormed IdName ast := by
  obtain ⟨ts, fuel, p, hlex, hparse, hp⟩ := h
  exact wellFormed_of_parse (ids_init fun tok htok hid => (hlex.shortNames tok htok hid).1) hparse hp

theorem Parses.complete (h : Parses text ast)
    (hvalues : ∀ value, .metadata (.data value) ∈ ast.items → value.isSome = true) : Complete ast := by
  obtain ⟨ts, fuel, p, hlex, hparse, hp⟩ := h
  exact complete_of_values hlex.texts hlex.ne_eof hparse hp hvalues

theorem Assembles.values (h : Assembles text ast t) :
    ∀ value, .metadata (.data value) ∈ ast.items → value.isSome = true := values_of_translate h.wellFormed h.translates

theorem Renaming.Relates.values {items items' : List Item} (h : ρ.Relates items items') (value : Option TasmAst) :
    .metadata (.data value) ∈ items' ↔ .metadata (.data value) ∈ items := by
  have hmem (items : List Item) : Item.metadata (.data value) ∈ items ↔
      Item.metadata (.data value) ∈ items.filter (fun i => !i.isCode) :=
    (List.mem_filter.trans (and_iff_left rfl)).symm
  rw [hmem items', hmem items, h.metadata]

/-- The same functions. -/
theorem Tabled.sameModules {items items' : List Item} (ht : Tabled items t) (ht' : Tabled items' t')
    (hcfuns : cfunsOf items' = cfunsOf items) : SameModules t.program.metadata.modules t'.program.metadata.modules := by
  intro k m m' hm hm'
  obtain ⟨m₀, hm₀, hcount, -, hcells⟩ := ht.cfuns
  obtain ⟨m₀', hm₀', hcount', -, hcells'⟩ := ht'.cfuns
  by_cases hk : k = 0
  · subst hk
    cases hm.symm.trans hm₀
    cases hm'.symm.trans hm₀'
    have hsame : m'.cfunCount = m.cfunCount := by rw [hcount, hcount', hcfuns]
    exact ⟨hsame, fun i hi => by rw [hcells i hi, hcells' i (hsame ▸ hi), hcfuns]⟩
  · have hzero := ht.others k m hk hm
    have hzero' := ht'.others k m' hk hm'
    exact ⟨by rw [hzero, hzero'], fun i hi => absurd hi (by omega)⟩

theorem Renaming.Relates.generates (h : ρ.Relates ast.items ast'.items) (ht : Assembles text ast t)
    (ht' : Assembles text' ast' t') (pad : Nat → Padding) (args : CliParsedArgs) :
    (tasmTranslatorGenerateBin pad t' args).map (·.2) = (tasmTranslatorGenerateBin pad t args).map (·.2) := by
  have hsize : t'.program.size = t.program.size := by rw [ht.translated.size, ht'.translated.size, h.instCount]
  refine generate_same (ht.tabled.sameModules ht'.tabled h.cfunsOf) ?_ hsize (fun k hk => ?_) pad args
  · rw [ht.tabled.constTable, ht'.tabled.constTable, h.constsOf]
  · exact h.code_eq (items_fit ht.idNames) ht.translated ht'.translated hk

/-- For every two sources that the parser accepts, one with the code of the other under new names and with its declarations
at any places: the assembler accepts both or neither, and writes the same program file for both, whatever the libraries. -/
theorem renamed_generates (ρ : Renaming) (hparse : Parses text ast) (hparse' : Parses text' ast')
    (h : ρ.Relates ast.items ast'.items) : ((∃ t', Assembles text' ast' t') ↔ ∃ t, Assembles text ast t) ∧
      ∀ t t', Assembles text ast t → Assembles text' ast' t' → ∀ pad args,
        (tasmTranslatorGenerateBin pad t' args).map (·.2) = (tasmTranslatorGenerateBin pad t args).map (·.2) := by
  refine ⟨?_, fun t t' ht ht' => h.generates ht ht'⟩
  constructor
  · rintro ⟨t', ht'⟩
    have hast := hparse.complete fun value hv => ht'.values value ((h.values value).mpr hv)
    obtain ⟨t, htr, herr⟩ := (h.accepted_iff hast hparse.idNames ht'.complete hparse'.idNames).mp ⟨t', ht'.translates, ht'.resolved⟩
    exact ⟨t, hparse, htr, herr⟩
  · rintro ⟨t, ht⟩
    have hast' := hparse'.complete fun value hv => ht.values value ((h.values value).mp hv)
    obtain ⟨t', htr, herr⟩ := (h.accepted_iff ht.complete hparse.idNames hast' hparse'.idNames).mpr ⟨t, ht.translates, ht.resolved⟩
    exact ⟨t', hparse', htr, herr⟩

end Sources

theorem swap_id {a b x : CStr} (ha : IdName (some a)) (hb : IdName (some b)) (hx : IdName (some x)) :
    IdName (some (Equiv.swap a b x)) := by
  rw [Equiv.swap_apply_def]
  split
  · exact hb
  · split
    · exact ha
    · exact hx

/-- `p` and `q` exchanged at file level, `x` and `y` in every proc. -/
def Renaming.exchange {p q x y : CStr} (hp : IdName (some p)) (hq : IdName (some q)) (hx : IdName (some x))
    (hy : IdName (some y)) : Renaming where
  outer := Equiv.swap p q
  inner _ := Equiv.swap x y
  outer_id _ := swap_id hp hq
  inner_id _ _ := swap_id hx hy
  outer_inj _ _ _ _ h := (Equiv.swap p q).injective h
  inner_inj _ _ _ _ _ h := (Equiv.swap x y).injective h

/-- A constant, a call of a proc, and the proc, with a jump to a label of its own. -/
def namedText : List Byte := cstr "@data 7\ncall p\nhlt\nproc p\njmp e\ne:\nret\nendp\n"

/-- The constant stands behind the call, and the names are others. -/
def renamedText : List Byte := cstr "call q\nhlt\n@data 7\nproc q\njmp z\nz:\nret\nendp\n"

/-- The instructions before the proc, and the proc, with these names. -/
def namedCode (p e : CStr) : List TasmAst × TasmAst :=
  ([.op .call (some (cstr "call")) (some (.labelCall (some p))), .op .halt (some (cstr "hlt")) none],
    .proc (some p) [.op .jmp (some (cstr "jmp")) (some (.labelCall (some e))), .labelDecl (some e),
      .op .ret (some (cstr "ret")) none])

def sevenDecl : TasmAst := .data (some (.number (cstr "7") 7))

def namedAst : TasmAst := .file (sevenDecl :: (namedCode (cstr "p") (cstr "e")).1 ++ [(namedCode (cstr "p") (cstr "e")).2])

def renamedAst : TasmAst := .file ((namedCode (cstr "q") (cstr "z")).1 ++ [sevenDecl, (namedCode (cstr "q") (cstr "z")).2])

theorem one_id {c : Byte} (h : isIdChar c = true) : IdName (some [c]) := ⟨[c], rfl, by simpa using h⟩

def oneLetter : Renaming := .exchange (p := [chr 'p']) (q := [chr 'q']) (x := [chr 'e']) (y := [chr 'z']) (one_id (by decide))
  (one_id (by decide)) (one_id (by decide)) (one_id (by decide))

theorem oneLetter_relates : oneLetter.Relates namedAst.items renamedAst.items := ⟨rfl, rfl⟩

def endlToken : TasmToken := ⟨.endline, some (cstr "endl")⟩

def declTokens : List TasmToken :=
  [⟨.atSign, some (cstr "@")⟩, ⟨.data, some (cstr "data")⟩, ⟨.decimalNumber, some (cstr "7")⟩, endlToken]

/-- The tokens of the instructions before the proc, and of the proc, with these names. -/
def codeTokens (p e : CStr) : List TasmToken × List TasmToken :=
  ([⟨.op .call, some (cstr "call")⟩, ⟨.id, some p⟩, endlToken, ⟨.op .halt, some (cstr "hlt")⟩, endlToken],
    [⟨.proc, some (cstr "proc")⟩, ⟨.id, some p⟩, endlToken, ⟨.op .jmp, some (cstr "jmp")⟩, ⟨.id, some e⟩, endlToken,
      ⟨.id, some e⟩, ⟨.colon, some (cstr ":")⟩, endlToken, ⟨.op .ret, some (cstr "ret")⟩, endlToken,
      ⟨.endp, some (cstr "endp")⟩, endlToken])

def namedTokens : List TasmToken :=
  declTokens ++ (codeTokens (cstr "p") (cstr "e")).1 ++ (codeTokens (cstr "p") (cstr "e")).2

def renamedTokens : List TasmToken :=
  (codeTokens (cstr "q") (cstr "z")).1 ++ declTokens ++ (codeTokens (cstr "q") (cstr "z")).2

theorem parses_of_run {text : List Byte} {ts : List TasmToken} {ast : TasmAst} (fuel : Nat)
    (hlex : (runOf fuel fuel (tasmLexerInit (marked text))).map (·.1) = some ts)
    (hparse : ∃ p, tasmParseFile fuel (tasmParserInit ts) = .ok (ast, p) ∧ p.isErr = false) : Parses text ast := by
  obtain ⟨⟨ts, lx⟩, hrun, rfl⟩ := Option.map_eq_some_iff.mp hlex
  obtain ⟨p, hparse, hp⟩ := hparse
  exact ⟨ts, fuel, p, (runOf_lex hrun).tokens, hparse, hp⟩

theorem named_parses : Parses namedText namedAst :=
  parses_of_run 40 (show (runOf 40 40 _).map (·.1) = some namedTokens by decide +kernel) ⟨_, rfl, rfl⟩

theorem renamed_parses : Parses renamedText renamedAst :=
  parses_of_run 40 (show (runOf 40 40 _).map (·.1) = some renamedTokens by decide +kernel) ⟨_, rfl, rfl⟩

/-- Both texts are accepted, and the same bytes are written for them. -/
theorem renamed_generates_letters : ∃ t t' t₁ t₁' bytes, Assembles namedText namedAst t ∧
    Assembles renamedText renamedAst t' ∧ tasmTranslatorGenerateBin (fun _ => ⟨1, 2⟩) t oneLib = .ok (t₁, bytes) ∧
    tasmTranslatorGenerateBin (fun _ => ⟨1, 2⟩) t' oneLib = .ok (t₁', bytes) := by
  obtain ⟨haccepted, hsame⟩ := renamed_generates oneLetter named_parses renamed_parses oneLetter_relates
  obtain ⟨t, htr, ht⟩ : ∃ t, tasmTranslate namedAst = .ok t ∧ (!t.symbols.err) = true := Except.okAnd_eq_true (by decide +kernel)
  have ht : Assembles namedText namedAst t := ⟨named_parses, htr, by simpa using ht⟩
  obtain ⟨t', ht'⟩ := haccepted.mpr ⟨t, ht⟩
  obtain ⟨t₁, bytes, -, -, hgen, -⟩ := ht.loads ⟨by decide, by decide⟩ oneLib_strings (fun _ => 0) fun _ => ⟨1, 2⟩
  have hgen' := hsame t t' ht ht' (fun _ => ⟨1, 2⟩) oneLib
  rw [hgen] at hgen'
  obtain ⟨⟨t₁', _⟩, hgen', hbytes⟩ := Except.map_eq_ok hgen'
  cases hbytes
  exact ⟨t, t', t₁, t₁', bytes, ht, ht', hgen, hgen'⟩

end TileVm
