/-
The tables of the translator are filled without a look at their capacities. What keeps a store inside
its array is the document alone: the declarations up to the first duplicate, and the instructions,
names and functions up to the first name without an address or constant without a value.
-/
import TileVm.Tasm.LexerReports
import TileVm.Tasm.PrintParse
import TileVm.Tasm.TranslatorReports

namespace TileVm

variable {t t' : TasmTranslator} {items pre : List Item} {i : Item} {n : CStr}

/-! ## Passes that declare -/

/-- `step` appends the names of its items to `table`, ends the process at a duplicate, and checks no capacity. -/
structure DeclaringPass (step : TasmTranslator → Item → Tr TasmTranslator) (name? : Item → Option CStr)
    (table : TasmTranslator → List Symbol) (array : ArrayName) (capacity : Nat) (report : CStr → TranslatorReport) : Prop where
  other : ∀ t i, ItemFits (fun name => name.isSome = true) i → name? i = none →
    ∃ t', step t i = .ok t' ∧ (table t').map (·.name) = (table t).map (·.name)
  new : ∀ t i n, name? i = some n → n ∉ (table t).map (·.name) → (table t).length < capacity →
    ∃ t', step t i = .ok t' ∧ (table t').map (·.name) = (table t).map (·.name) ++ [n]
  full : ∀ t i n, name? i = some n → n ∉ (table t).map (·.name) → capacity ≤ (table t).length →
    step t i = .error (.fault (.outOfBounds array))
  duplicate : ∀ t i n, name? i = some n → n ∈ (table t).map (·.name) → step t i = .error (.exit (report n))

/-- As long as they are distinct, the names fit into the array. -/
def NamesRoom (name? : Item → Option CStr) (capacity : Nat) (items : List Item) : Prop :=
  ∀ pre, pre <+: items → (pre.filterMap name?).Nodup → (pre.filterMap name?).length ≤ capacity

section DeclaringPass

variable {step : TasmTranslator → Item → Tr TasmTranslator} {name? : Item → Option CStr}
  {table : TasmTranslator → List Symbol} {array : ArrayName} {capacity : Nat} {report : CStr → TranslatorReport}

theorem filterMap_snoc {α β : Type} (f : α → Option β) (l : List α) (a : α) :
    (l ++ [a]).filterMap f = l.filterMap f ++ (f a).toList := by
  cases h : f a <;> simp [h]

/-- Distinct names that fit are all declared. -/
theorem DeclaringPass.total (h : DeclaringPass step name? table array capacity report)
    (hfit : ∀ i ∈ items, ItemFits (fun name => name.isSome = true) i) (h0 : table t = [])
    (hnodup : (items.filterMap name?).Nodup) (hroom : (items.filterMap name?).length ≤ capacity) :
    ∃ t', items.foldlM step t = .ok t' ∧ (table t').map (·.name) = items.filterMap name? := by
  apply Except.foldlM_total (fun pre t => (table t).map (·.name) = pre.filterMap name?) items [] t ?_ (by simp [h0])
  rintro pre i post c heq hc
  rw [List.nil_append] at heq
  rw [filterMap_snoc]
  cases hn : name? i with
  | none =>
    obtain ⟨c', hs, hsame⟩ := h.other c i (hfit i (by simp [heq])) hn
    exact ⟨c', hs, by simp [hsame, hc]⟩
  | some n =>
    obtain ⟨hnew, hlt⟩ := next_name heq hn hnodup hroom
    rw [← hc] at hnew
    rw [← hc, List.length_map] at hlt
    obtain ⟨c', hs, hadd⟩ := h.new c i n hn hnew hlt
    exact ⟨c', hs, by simp [hadd, hc]⟩

/-- The first name too many is stored behind the array. -/
theorem DeclaringPass.overrun (h : DeclaringPass step name? table array capacity report)
    (hfit : ∀ i ∈ items, ItemFits (fun name => name.isSome = true) i) (h0 : table t = [])
    (hroom : ¬ NamesRoom name? capacity items) : items.foldlM step t = .error (.fault (.outOfBounds array)) := by
  unfold NamesRoom at hroom
  push Not at hroom
  obtain ⟨bad, hbad, hnodup, hlen⟩ := hroom
  -- the first item at which the names are too many
  obtain ⟨pre, i, post, rfl, hle, hlt⟩ := List.exists_first_fail
    (Q := fun l : List Item => (l.filterMap name?).length ≤ capacity) (Nat.zero_le _) (Nat.not_le_of_lt hlen)
  obtain ⟨rest, rfl⟩ := hbad
  have hpre : (pre.filterMap name?).Nodup := by
    rw [List.filterMap_append] at hnodup
    exact (List.nodup_append.mp hnodup).1
  obtain ⟨c, hrun, hc⟩ := h.total (fun i hi => hfit i (by simp [hi])) h0 hpre hle
  rw [filterMap_snoc] at hlt
  cases hn : name? i with
  | none => simp [hn] at hlt; omega
  | some n =>
    have hnew : n ∉ pre.filterMap name? := by
      rw [List.filterMap_append, List.filterMap_cons, hn] at hnodup
      exact fun hmem => (List.nodup_append.mp hnodup).2.2 n hmem n (List.mem_cons_self ..) rfl
    rw [← hc] at hnew
    have hfull : capacity ≤ (table c).length := by
      have hsize := congrArg List.length hc
      rw [List.length_map] at hsize
      simp [hn] at hlt
      omega
    rw [List.append_assoc, List.cons_append]
    exact Except.foldlM_stop hrun (h.full c i n hn hnew hfull)

/-- The first duplicate is reported. -/
theorem DeclaringPass.duplicated (h : DeclaringPass step name? table array capacity report)
    (hfit : ∀ i ∈ items, ItemFits (fun name => name.isSome = true) i) (h0 : table t = [])
    (hroom : NamesRoom name? capacity items) (hnodup : ¬ (items.filterMap name?).Nodup) :
    ∃ n, items.foldlM step t = .error (.exit (report n)) := by
  obtain ⟨pre, i, post, rfl, hpre, hdup⟩ :=
    List.exists_first_fail (Q := fun l : List Item => (l.filterMap name?).Nodup) (by simp) hnodup
  obtain ⟨c, hrun, hc⟩ := h.total (fun i hi => hfit i (by simp [hi])) h0 hpre (hroom pre (List.prefix_append ..) hpre)
  rw [filterMap_snoc] at hdup
  cases hn : name? i with
  | none => simp [hn, hpre] at hdup
  | some n =>
    have hmem : n ∈ (table c).map (·.name) := by
      rw [hc]
      by_contra hnew
      refine hdup (List.nodup_append.mpr ⟨hpre, by simp [hn], ?_⟩)
      rintro a ha b hb rfl
      simp only [hn, Option.toList_some, List.mem_singleton] at hb
      exact hnew (hb ▸ ha)
    exact ⟨n, Except.foldlM_stop hrun (h.duplicate c i n hn hmem)⟩

end DeclaringPass

theorem pushSymbol_full {array : ArrayName} {capacity : Nat} {table : List Symbol} (s : Symbol) (h : capacity ≤ table.length) :
    pushSymbol array capacity table s = .error (.fault (.outOfBounds array)) := if_neg (Nat.not_lt.2 h)

/-- `tasm_resolve_procs`. -/
theorem procs_declaring : DeclaringPass procStep Item.procName? (·.symbols.procDecls) .procDecls symbolProcDeclCapacity
    .duplicatedProc where
  other t i hfit hn := by
    cases hfit with
    | inst | label | metadata => exact ⟨_, rfl, rfl⟩
    | proc name hsome =>
      obtain ⟨n, rfl⟩ := Option.isSome_iff_exists.mp hsome
      cases hn
  new t i n hn hnew hroom := by
    cases i with
    | proc name =>
      obtain rfl : name = some n := hn
      obtain ⟨t', hs⟩ := declareProc_total hnew hroom
      obtain ⟨m, hm, -, rfl⟩ := declareProc_ok hs
      cases hm
      exact ⟨_, hs, by simp⟩
    | inst | label | metadata => cases hn
  full t i n hn hnew hfull := by
    cases i with
    | proc name =>
      obtain rfl : name = some n := hn
      have hany : t.symbols.procDecls.any (·.name == n) = false := by simpa [List.any_eq_false] using hnew
      show declareProc t (some n) = _
      unfold declareProc
      rw [Except.bind_of_ok (show nonNull (some n) = .ok n from rfl), hany, pushSymbol_full _ hfull]
      rfl
    | inst | label | metadata => cases hn
  duplicate t i n hn hmem := by
    cases i with
    | proc name =>
      obtain rfl : name = some n := hn
      have hany : t.symbols.procDecls.any (·.name == n) = true := by simpa using hmem
      show declareProc t (some n) = _
      unfold declareProc
      rw [Except.bind_of_ok (show nonNull (some n) = .ok n from rfl), hany]
      rfl
    | inst | label | metadata => cases hn

/-- `tasm_resolve_labels`. -/
theorem labels_declaring : DeclaringPass labelStep Item.labelName? (·.symbols.labelDecls) .labelDecls symbolLabelDeclCapacity
    .duplicatedLabel where
  other t i hfit hn := by
    cases hfit with
    | inst | proc | metadata => exact ⟨_, rfl, rfl⟩
    | label scope name _ hsome =>
      obtain ⟨n, rfl⟩ := Option.isSome_iff_exists.mp hsome
      cases hn
  new t i n hn hnew hroom := by
    cases i with
    | label scope name =>
      obtain ⟨l, rfl, rfl⟩ := Option.map_eq_some_iff.mp hn
      obtain ⟨t', hs⟩ := declareLabel_total hnew hroom
      obtain ⟨m, hm, -, rfl⟩ := declareLabel_ok hs
      cases hm
      exact ⟨_, hs, by simp⟩
    | inst | proc | metadata => cases hn
  full t i n hn hnew hfull := by
    cases i with
    | label scope name =>
      obtain ⟨l, rfl, rfl⟩ := Option.map_eq_some_iff.mp hn
      have hany : t.symbols.labelDecls.any (·.name == labelName scope l) = false := by
        simpa [List.any_eq_false] using hnew
      show declareLabel t scope (some l) = _
      unfold declareLabel
      rw [Except.bind_of_ok (show nonNull (some l) = .ok l from rfl)]
      dsimp only
      rw [hany, pushSymbol_full _ hfull]
      rfl
    | inst | proc | metadata => cases hn
  duplicate t i n hn hmem := by
    cases i with
    | label scope name =>
      obtain ⟨l, rfl, rfl⟩ := Option.map_eq_some_iff.mp hn
      have hany : t.symbols.labelDecls.any (·.name == labelName scope l) = true := by simpa using hmem
      show declareLabel t scope (some l) = _
      unfold declareLabel
      rw [Except.bind_of_ok (show nonNull (some l) = .ok l from rfl)]
      dsimp only
      rw [hany]
      rfl
    | inst | proc | metadata => cases hn

/-! ## The pass that emits -/

/-- A store behind an array. -/
abbrev Overruns (x : Tr TasmTranslator) : Prop := ∃ array, x = .error (.fault (.outOfBounds array))

theorem programPush_full (c : Opcode) (h : ¬ t.program.size < tvmProgramCapacity) : Overruns (programPush t c) := by
  have hstore : t.program.code.store (Fault.outOfBounds .code) t.program.size c = .error (.outOfBounds .code) := if_neg h
  unfold programPush
  rw [hstore]
  exact ⟨.code, rfl⟩

/-- A name that has an address goes to the end of the log. -/
theorem translateLabelCall_found (scope : Option CStr) (isCall : Bool) (l : CStr) {addr : BitVec 32}
    (haddr : addr = if scope.isNone && isCall then intAddr t.symbols.procDecls (labelName scope l)
      else intAddr t.symbols.labelDecls (labelName scope l)) (hfound : addr ≠ -1) :
    translateLabelCall t scope isCall (some l) =
      (pushSymbol .labelCalls symbolLabelCallCapacity t.symbols.labelCalls ⟨(addr.signExtend 64).toNat, labelName scope l⟩).map
        fun labelCalls => ({ t with symbols := { t.symbols with labelCalls } }, labelName scope l) := by
  unfold translateLabelCall
  rw [Except.bind_of_ok (show nonNull (some l) = .ok l from rfl)]
  dsimp only
  rw [← haddr, if_neg hfound]
  cases pushSymbol .labelCalls symbolLabelCallCapacity t.symbols.labelCalls ⟨(addr.signExtend 64).toNat, labelName scope l⟩ <;>
    rfl

/-- An instruction with its name resolved for which there is no room is stored behind an array. -/
theorem inst_full {scope : Option CStr} {o : OpType} {operand : Option TasmAst}
    (hfit : o.operandKind.Fits (fun name => name.isSome = true) operand) (hg : Given operand)
    (hlog : LogFound t.symbols.labelCalls) (hres : Resolved t.symbols (.inst scope o operand))
    (hfull : ¬ t.program.size < tvmProgramCapacity ∨
      (Item.inst scope o operand).loggedName?.isSome = true ∧ ¬ t.symbols.labelCalls.length < symbolLabelCallCapacity) :
    Overruns (tasmTranslateLine t scope false (.op o none operand)) := by
  -- what the label call leaves, where there is room for it: the program is full
  have named {isCall : Bool} {l : CStr} {next : TasmTranslator × CStr → Tr TasmTranslator} {sc : Option CStr} {addr : BitVec 32}
      (haddr : addr = if sc.isNone && isCall then intAddr t.symbols.procDecls (labelName sc l)
        else intAddr t.symbols.labelDecls (labelName sc l)) (hfound : addr ≠ -1)
      (hnext : ¬ t.program.size < tvmProgramCapacity → ∀ log, log = t.symbols.labelCalls ++ [⟨(addr.signExtend 64).toNat, labelName sc l⟩] →
        Overruns (next ({ t with symbols := { t.symbols with labelCalls := log } }, labelName sc l))) :
      Overruns (translateLabelCall t sc isCall (some l) >>= next) := by
    rw [translateLabelCall_found sc isCall l haddr hfound]
    by_cases hcalls : t.symbols.labelCalls.length < symbolLabelCallCapacity
    · rw [pushSymbol_total _ hcalls]
      exact hnext (hfull.resolve_right fun h => h.2 hcalls) _ rfl
    · rw [pushSymbol_full _ (Nat.le_of_not_lt hcalls)]
      exact ⟨.labelCalls, rfl⟩
  have push (hnone : (Item.inst scope o operand).loggedName? = none) (c : Opcode) : Overruns (programPush t c) :=
    programPush_full c (hfull.resolve_right fun h => by rw [hnone] at h; cases h.1)
  generalize hk : o.operandKind = kind at hfit
  cases hfit with
  | nothing =>
    rw [translateLine_nothing hk]
    exact push rfl _
  | pushNumber text v =>
    obtain rfl := operandKind_push hk
    exact push rfl _
  | pushChar c =>
    obtain rfl := operandKind_push hk
    obtain ⟨s, rfl⟩ := Option.isSome_iff_exists.mp ((hg _ rfl).char c rfl)
    exact push rfl _
  | int text v =>
    rw [translateLine_int hk]
    exact push rfl _
  | jumpNumber text v =>
    rw [(translateLine_jump hk t scope _).1]
    exact push rfl _
  | jumpLabel n hn =>
    obtain ⟨l, rfl⟩ := Option.isSome_iff_exists.mp hn
    rw [(translateLine_jump hk t scope _).1]
    have hfound : intAddr t.symbols.labelDecls (labelName scope l) ≠ -1 := hres.1 _ (by simp [Item.jumpName?, hk])
    unfold translateJump
    rw [Except.bind_of_ok (show nonNull _ = .ok (TasmAst.labelCall (some l)) from rfl)]
    refine named (by simp) hfound fun hsize log hlogged => ?_
    -- the entry just logged has the name, so the lookup in the log succeeds
    have hmem : ∃ e ∈ log, e.name = labelName scope l := ⟨_, hlogged ▸ List.mem_append_right _ (List.mem_singleton_self _), rfl⟩
    obtain ⟨e, he, -, hf⟩ := find_of_mem hmem
    have hentry := hlog.snoc hfound (labelName scope l) e (hlogged ▸ he)
    rw [← intAddr_find hf] at hentry
    dsimp only
    rw [if_neg hentry]
    exact programPush_full _ hsize
  | label n hn =>
    obtain rfl := operandKind_label hk
    obtain ⟨l, rfl⟩ := Option.isSome_iff_exists.mp hn
    have hfound : intAddr t.symbols.procDecls l ≠ -1 := hres.2 l rfl
    show Overruns (translateCall t _)
    unfold translateCall
    rw [Except.bind_of_ok (show nonNull _ = .ok (TasmAst.labelCall (some l)) from rfl)]
    refine named rfl hfound fun hsize log _ => ?_
    dsimp only
    rw [if_neg (show ¬ intAddr t.symbols.procDecls (labelName none l) = -1 from hfound)]
    exact programPush_full _ hsize

theorem emitRoom_snoc : EmitRoom (pre ++ [i]) ↔ (pre.filterMap Item.loggedName?).length + i.loggedName?.toList.length ≤ symbolLabelCallCapacity ∧
    instCount pre + i.size ≤ tvmProgramCapacity ∧
      (cfunsOf pre).length + i.cfun?.toList.length ≤ tvmMetadataMaxCfunCapacity := by
  constructor
  · rintro ⟨hcalls, hinsts, hcfuns⟩
    rw [filterMap_snoc, List.length_append] at hcalls
    unfold cfunsOf at hcfuns
    rw [filterMap_snoc, List.length_append] at hcfuns
    exact ⟨hcalls, by simpa using hinsts, hcfuns⟩
  · rintro ⟨hcalls, hinsts, hcfuns⟩
    refine ⟨?_, by simpa using hinsts, ?_⟩
    · rw [filterMap_snoc, List.length_append]
      exact hcalls
    · unfold cfunsOf
      rw [filterMap_snoc, List.length_append]
      exact hcfuns

/-- The first item for which there is no room is stored behind an array. -/
theorem emit_full {t₀ : TasmTranslator} (hi : ItemComplete i) (hres : Resolved t.symbols i) (hem : Emitted t₀ pre t)
    (htab : Tabled pre t) (hroom : EmitRoom pre) (hfull : ¬ EmitRoom (pre ++ [i])) : Overruns (emitStep t i) := by
  rw [emitRoom_snoc] at hfull
  -- only an item that takes a place can fill a table
  have same (hlogged : i.loggedName? = none) (hsize : i.size = 0) (hcfun : i.cfun? = none) : False := by
    refine hfull ⟨?_, ?_, ?_⟩
    · simpa [hlogged] using hroom.calls
    · simpa [hsize] using hroom.insts
    · simpa [hcfun] using hroom.cfuns
  cases hi.fits with
  | inst scope o operand _ hfit =>
    refine inst_full hfit hi.literal hem.found hres ?_
    rw [hem.size, hem.log_length]
    by_contra hnot
    obtain ⟨hsize, hlogged⟩ := not_or.1 hnot
    refine hfull ⟨?_, by simpa [Item.size] using Decidable.not_not.1 hsize, by simpa [Item.cfun?] using hroom.cfuns⟩
    cases hname : (Item.inst scope o operand).loggedName? with
    | none => simpa [hname] using hroom.calls
    | some n =>
      have hlt : (pre.filterMap Item.loggedName?).length < symbolLabelCallCapacity := by
        by_contra hge
        exact hlogged ⟨by simp [hname], hge⟩
      simpa using hlt
  | label | proc => exact (same rfl rfl rfl).elim
  | metadata node hnode hline =>
    cases hnode with
    | line _ h => exact absurd h hline
    | proc | cstruct | data => exact (same rfl rfl rfl).elim
    | cfunction rtype atypes name =>
      obtain ⟨m, hm, hcount, -⟩ := htab.cfuns
      -- the function table is the one without room
      have hge : ¬ m.cfunCount < tvmMetadataMaxCfunCapacity := by
        intro hlt
        rw [hcount] at hlt
        refine hfull ⟨by simpa [Item.loggedName?, Item.jumpName?, Item.callName?] using hroom.calls, ?_, ?_⟩
        · simpa [Item.size] using hroom.insts
        · simpa [Item.cfun?] using hlt
      have hstore : m.cfuns.store (Fault.outOfBounds .cfuns) m.cfunCount ⟨rtype, atypes, atypes.length % 2 ^ 16, name⟩ =
          .error (.outOfBounds .cfuns) := if_neg hge
      show Overruns (tasmTranslateCfunction t rtype atypes name)
      unfold tasmTranslateCfunction
      dsimp only
      rw [Except.bind_of_ok (CArray.load_ok.2 hm), Except.bind_of_error hstore]
      exact ⟨.cfuns, rfl⟩

/-! ## Files -/

/-- The symbol tables behind the two passes that declare. -/
def tablesOf (items : List Item) : SymbolTable where
  labelDecls := declared Item.labelName? 0 items
  labelAddressPointer := instCount items
  labelCalls := []
  procDecls := declared Item.procName? 0 items
  procAddressPointer := instCount items
  err := false

/-- The third pass gets past the item: its name has an address, its constant a value. -/
def Passable (s : SymbolTable) (i : Item) : Prop :=
  Resolved s i ∧ ∀ value, i = .metadata (.data value) → value.isSome = true

/-- The declarations up to the first duplicate fit into their arrays, and what the third pass gets to fits into its own. -/
structure HasRoom (items : List Item) : Prop where
  procs : NamesRoom Item.procName? symbolProcDeclCapacity items
  labels : (items.filterMap Item.procName?).Nodup → NamesRoom Item.labelName? symbolLabelDeclCapacity items
  emitted : (items.filterMap Item.procName?).Nodup → (items.filterMap Item.labelName?).Nodup →
    ∀ pre, pre <+: items → (∀ i ∈ pre, Passable (tablesOf items) i) → EmitRoom pre

/-- An error is reported: a duplicate ends the process, or the third pass comes to a name without an address. -/
inductive Reported (ast : TasmAst) : Prop
  | duplicated {r : TranslatorReport} (exit : tasmTranslate ast = .error (.exit r))
  | unresolved {t₁ t₂ t : TasmTranslator} {pre post : List Item} {i : Item} (procs : tasmResolveProcs tasmTranslatorInit ast = .ok t₁)
      (labels : tasmResolveLabels t₁ none ast = .ok t₂) (split : ast.items = pre ++ i :: post)
      (reached : pre.foldlM emitStep t₂ = .ok t) (name : ¬ Resolved t.symbols i)

/-- Every table is within its array. -/
structure InTables (t : TasmTranslator) : Prop where
  labels : t.symbols.labelDecls.length ≤ symbolLabelDeclCapacity
  calls : t.symbols.labelCalls.length ≤ symbolLabelCallCapacity
  procs : t.symbols.procDecls.length ≤ symbolProcDeclCapacity
  code : t.program.size ≤ tvmProgramCapacity
  cfuns : ∀ m, t.program.metadata.modules.get? 0 = some m → m.cfunCount ≤ tvmMetadataMaxCfunCapacity

/-- The translation reports an error, or stores nothing behind an array and leaves the tables within theirs. -/
def TablesKept (ast : TasmAst) : Prop :=
  Reported ast ∨ (∀ a, tasmTranslate ast ≠ .error (.fault (.outOfBounds a))) ∧ ∀ t, tasmTranslate ast = .ok t → InTables t

section Files

variable {ast : TasmAst}

/-- The state of the translator behind the two passes that declare. -/
def declaredState (items : List Item) : TasmTranslator := { tasmTranslatorInit with symbols := tablesOf items }

/-- The two passes that declare, on a document with distinct names and room for them. -/
theorem declaring_passes (hast : WellFormed (fun name => name.isSome = true) ast) (hprocs : (ast.items.filterMap Item.procName?).Nodup)
    (hroom : NamesRoom Item.procName? symbolProcDeclCapacity ast.items) :
    ∃ t₁, tasmResolveProcs tasmTranslatorInit ast = .ok t₁ ∧ t₁.symbols.labelDecls = [] ∧
      ((ast.items.filterMap Item.labelName?).Nodup → NamesRoom Item.labelName? symbolLabelDeclCapacity ast.items →
        tasmResolveLabels t₁ none ast = .ok (declaredState ast.items)) := by
  obtain ⟨t₁, h₁, -⟩ := procs_declaring.total (t := tasmTranslatorInit) (items_fit hast) rfl hprocs
    (hroom _ (List.prefix_refl _) hprocs)
  obtain ⟨rfl, -, -⟩ := procs_resolved rfl rfl h₁
  let t₁ : TasmTranslator := { tasmTranslatorInit with symbols := { tasmTranslatorInit.symbols with
    procDecls := declared Item.procName? 0 ast.items, procAddressPointer := instCount ast.items } }
  refine ⟨t₁, (resolveProcs_eq hast _).trans h₁, rfl, fun hlabels hlabelRoom => ?_⟩
  obtain ⟨t₂, h₂, -⟩ := labels_declaring.total (t := t₁) (items_fit hast) rfl hlabels
    (hlabelRoom _ (List.prefix_refl _) hlabels)
  rw [resolveLabels_eq hast, h₂]
  obtain ⟨rfl, -, -⟩ := labels_resolved rfl rfl h₂
  rfl

theorem declaredState_beforeUnit (items : List Item) : BeforeUnit (declaredState items) := ⟨rfl, rfl, rfl, rfl⟩

/-- The items that the third pass gets past are emitted, if there is room. -/
theorem passable_emitted (hitems : ∀ i ∈ ast.items, Given i.literal?) (hast : WellFormed (fun name => name.isSome = true) ast)
    (hpre : pre <+: ast.items) (hpass : ∀ i ∈ pre, Passable (tablesOf ast.items) i) (hroom : EmitRoom pre) :
    ∃ t, pre.foldlM emitStep (declaredState ast.items) = .ok t ∧ t.symbols.err = false ∧
      Emitted (declaredState ast.items) pre t ∧ Tabled pre t :=
  emitted_total (declaredState_beforeUnit _) (fun i hi => ⟨items_fit hast i (hpre.subset hi), hitems i (hpre.subset hi), (hpass i hi).2⟩)
    (fun i hi => (hpass i hi).1) hroom

/-- The names resolved during the third pass are those of the declarations. -/
theorem emitted_resolved_iff (h : Emitted (declaredState items) pre t) : Resolved t.symbols i ↔ Resolved (tablesOf items) i := by
  rw [h.symbols]
  rfl

theorem EmitRoom.of_prefix (h : EmitRoom items) (hpre : pre <+: items) : EmitRoom pre := by
  obtain ⟨rest, rfl⟩ := hpre
  have hcalls := h.calls
  have hinsts := h.insts
  have hcfuns := h.cfuns
  unfold cfunsOf at hcfuns
  rw [List.filterMap_append, List.length_append] at hcalls hcfuns
  rw [instCount_append] at hinsts
  exact ⟨Nat.le_of_add_right_le hcalls, Nat.le_of_add_right_le hinsts, Nat.le_of_add_right_le hcfuns⟩

/-- A run that ends with a store behind an array, and no report before it. -/
theorem not_kept {a : ArrayName} (hfault : tasmTranslate ast = .error (.fault (.outOfBounds a)))
    (hsilent : ∀ t₁ t₂ pre i post t, tasmResolveProcs tasmTranslatorInit ast = .ok t₁ → tasmResolveLabels t₁ none ast = .ok t₂ →
      ast.items = pre ++ i :: post → pre.foldlM emitStep t₂ = .ok t → Resolved t.symbols i) : ¬ TablesKept ast := by
  rintro ((⟨exit⟩ | ⟨procs, labels, split, reached, name⟩) | ⟨hnever, -⟩)
  · cases hfault.symm.trans exit
  · exact name (hsilent _ _ _ _ _ _ procs labels split reached)
  · exact hnever a hfault

/-- Where the third pass comes to an item for which there is no room, it has reported nothing. -/
theorem overrun_not_kept (hast : WellFormed (fun name => name.isSome = true) ast) (hitems : ∀ i ∈ ast.items, Given i.literal?)
    (h₁ : tasmResolveProcs tasmTranslatorInit ast = .ok t) (h₂ : tasmResolveLabels t none ast = .ok (declaredState ast.items))
    {bad : List Item} (hbad : bad <+: ast.items) (hpass : ∀ i ∈ bad, Passable (tablesOf ast.items) i) (hfull : ¬ EmitRoom bad) :
    ¬ TablesKept ast := by
  have hnone : EmitRoom [] := ⟨Nat.zero_le _, Nat.zero_le _, Nat.zero_le _⟩
  obtain ⟨pre, i, post, rfl, hroom, hnext⟩ := List.exists_first_fail hnone hfull
  obtain ⟨rest, hrest⟩ := hbad
  have hsplit : ast.items = pre ++ i :: (post ++ rest) := by rw [← hrest]; simp
  have hpre : pre <+: ast.items := ⟨i :: (post ++ rest), hsplit.symm⟩
  have hi : i ∈ ast.items := by rw [hsplit]; simp
  have hpassi := hpass i (by simp)
  obtain ⟨c, hrun, -, hem, htab⟩ := passable_emitted hitems hast hpre (fun j hj => hpass j (by simp [hj])) hroom
  obtain ⟨a, hfault⟩ := emit_full ⟨items_fit hast i hi, hitems i hi, hpassi.2⟩ ((emitted_resolved_iff hem).2 hpassi.1)
    hem htab hroom hnext
  have hstop (tail : List Item) : (pre ++ i :: tail).foldlM emitStep (declaredState ast.items) = .error (.fault (.outOfBounds a)) :=
    Except.foldlM_stop hrun hfault
  refine not_kept (a := a) ?_ ?_
  · unfold tasmTranslate
    rw [Except.bind_of_ok h₁, Except.bind_of_ok h₂, translateUnit_eq hast]
    exact (congrArg (fun l => List.foldlM emitStep (declaredState ast.items) l) hsplit).trans (hstop _)
  · intro t₁ t₂ pre' i' post' t' h₁' h₂' hsplit' hreached
    cases h₁.symm.trans h₁'
    cases h₂.symm.trans h₂'
    have hnext' : pre' ++ [i'] <+: ast.items := ⟨post', by simp [hsplit']⟩
    have hstart : pre ++ [i] <+: ast.items := ⟨post ++ rest, by simp [hsplit]⟩
    -- the pass does not get behind the item that has no room
    rcases Nat.lt_or_ge pre.length pre'.length with hlt | hle
    · obtain ⟨tail, rfl⟩ : pre ++ [i] <+: pre' :=
        List.prefix_of_prefix_length_le hstart ⟨i' :: post', hsplit'.symm⟩ (by simpa using hlt)
      rw [List.append_assoc, List.singleton_append, hstop] at hreached
      cases hreached
    · have hsub : pre' <+: pre := List.prefix_of_prefix_length_le ⟨i' :: post', hsplit'.symm⟩ hpre hle
      have hmem : i' ∈ pre ++ [i] := by
        apply (List.prefix_of_prefix_length_le hnext' hstart (by simpa using hle)).subset
        simp
      have hpass' (j : Item) (hj : j ∈ pre ++ [i]) : Passable (tablesOf ast.items) j := hpass j (by
        rw [← List.singleton_append, ← List.append_assoc]
        exact List.mem_append_left _ hj)
      obtain ⟨c', hrun', -, hem', -⟩ := passable_emitted hitems hast (hsub.trans hpre)
        (fun j hj => hpass' j (List.mem_append_left _ (hsub.subset hj))) (hroom.of_prefix hsub)
      cases hrun'.symm.trans hreached
      exact (emitted_resolved_iff hem').2 (hpass' i' hmem).1

/-- A constant without a value is read through a null pointer. -/
theorem emitStep_null (t : TasmTranslator) : emitStep t (.metadata (.data none)) = .error (.fault .nullPointer) := rfl

/-- The procs that do not fit. -/
theorem procs_not_kept (hast : WellFormed (fun name => name.isSome = true) ast)
    (hroom : ¬ NamesRoom Item.procName? symbolProcDeclCapacity ast.items) : ¬ TablesKept ast := by
  have hfault := procs_declaring.overrun (t := tasmTranslatorInit) (items_fit hast) rfl hroom
  rw [← resolveProcs_eq hast] at hfault
  refine not_kept (a := .procDecls) ?_ fun t₁ t₂ pre i post t h₁ => ?_
  · unfold tasmTranslate
    rw [Except.bind_of_error hfault]
  · cases hfault.symm.trans h₁

/-- The labels that do not fit, behind procs that do. -/
theorem labels_not_kept (hast : WellFormed (fun name => name.isSome = true) ast) (hprocs : (ast.items.filterMap Item.procName?).Nodup)
    (hprocRoom : NamesRoom Item.procName? symbolProcDeclCapacity ast.items)
    (hroom : ¬ NamesRoom Item.labelName? symbolLabelDeclCapacity ast.items) : ¬ TablesKept ast := by
  obtain ⟨t₁, h₁, hnone, -⟩ := declaring_passes hast hprocs hprocRoom
  have hfault := labels_declaring.overrun (items_fit hast) hnone hroom
  rw [← resolveLabels_eq hast] at hfault
  refine not_kept (a := .labelDecls) ?_ fun t₁' t₂ pre i post t h₁' h₂ => ?_
  · unfold tasmTranslate
    rw [Except.bind_of_ok h₁, Except.bind_of_error hfault]
  · cases h₁.symm.trans h₁'
    cases hfault.symm.trans h₂

/-- The third pass behind the two that declare. -/
theorem translate_declared (hast : WellFormed (fun name => name.isSome = true) ast) {t₁ : TasmTranslator}
    (h₁ : tasmResolveProcs tasmTranslatorInit ast = .ok t₁) (h₂ : tasmResolveLabels t₁ none ast = .ok (declaredState ast.items)) :
    tasmTranslate ast = ast.items.foldlM emitStep (declaredState ast.items) := by
  unfold tasmTranslate
  rw [Except.bind_of_ok h₁, Except.bind_of_ok h₂, translateUnit_eq hast]

/-- A translation that gets past every item leaves its tables within their arrays. -/
theorem passable_kept (hast : WellFormed (fun name => name.isSome = true) ast) (hitems : ∀ i ∈ ast.items, Given i.literal?)
    (hprocs : (ast.items.filterMap Item.procName?).length ≤ symbolProcDeclCapacity)
    (hlabels : (ast.items.filterMap Item.labelName?).length ≤ symbolLabelDeclCapacity) (hroom : EmitRoom ast.items)
    (hpass : ∀ i ∈ ast.items, Passable (tablesOf ast.items) i)
    (htr : tasmTranslate ast = ast.items.foldlM emitStep (declaredState ast.items)) : TablesKept ast := by
  obtain ⟨t, hrun, -, hem, htab⟩ := passable_emitted hitems hast (List.prefix_refl _) hpass hroom
  rw [hrun] at htr
  refine .inr ⟨fun a ha => ?_, fun t' ht' => ?_⟩
  · cases htr.symm.trans ha
  · cases htr.symm.trans ht'
    refine ⟨?_, ?_, ?_, ?_, ?_⟩
    · rw [hem.symbols]
      exact (declared_length ..).trans_le hlabels
    · exact hem.log_length.trans_le hroom.calls
    · rw [hem.symbols]
      exact (declared_length ..).trans_le hprocs
    · exact hem.size.trans_le hroom.insts
    · intro m hm
      obtain ⟨m', hm', hcount, -⟩ := htab.cfuns
      cases hm.symm.trans hm'
      exact hcount.trans_le hroom.cfuns

/-- A translation that does not get past an item ends there: with a report of a name without an address, or at a
constant without a value. -/
theorem stuck_kept (hast : WellFormed (fun name => name.isSome = true) ast) (hitems : ∀ i ∈ ast.items, Given i.literal?)
    (hroom : ∀ pre, pre <+: ast.items → (∀ i ∈ pre, Passable (tablesOf ast.items) i) → EmitRoom pre)
    (hstuck : ¬ ∀ i ∈ ast.items, Passable (tablesOf ast.items) i) {t₁ : TasmTranslator}
    (h₁ : tasmResolveProcs tasmTranslatorInit ast = .ok t₁) (h₂ : tasmResolveLabels t₁ none ast = .ok (declaredState ast.items)) :
    TablesKept ast := by
  -- the first item that does not pass: up to it there is room
  obtain ⟨pre, i, post, hsplit, hpre, hnext⟩ := List.exists_first_fail
    (Q := fun l : List Item => ∀ i ∈ l, Passable (tablesOf ast.items) i) (by simp) hstuck
  have hi : ¬ Passable (tablesOf ast.items) i := by
    intro hi
    refine hnext fun j hj => ?_
    rcases List.mem_append.mp hj with hj | hj
    · exact hpre j hj
    · rw [List.mem_singleton] at hj
      exact hj ▸ hi
  have hsub : pre <+: ast.items := ⟨i :: post, hsplit.symm⟩
  obtain ⟨c, hrun, -, hem, -⟩ := passable_emitted hitems hast hsub hpre (hroom pre hsub hpre)
  by_cases hres : Resolved (tablesOf ast.items) i
  · -- the constant has no value
    have hnull : i = .metadata (.data none) := by
      by_contra hne
      refine hi ⟨hres, fun value heq => ?_⟩
      cases value with
      | none => exact absurd heq hne
      | some value => rfl
    subst hnull
    have hstop : tasmTranslate ast = .error (.fault .nullPointer) := by
      rw [translate_declared hast h₁ h₂]
      exact (congrArg (fun l => List.foldlM emitStep (declaredState ast.items) l) hsplit).trans
        (Except.foldlM_stop hrun (emitStep_null c))
    refine .inr ⟨fun a ha => ?_, fun t ht => ?_⟩
    · cases hstop.symm.trans ha
    · cases hstop.symm.trans ht
  · exact .inl (.unresolved h₁ h₂ hsplit hrun fun h => hres ((emitted_resolved_iff hem).1 h))

end Files

/-- The tables of an accepted program stay within their arrays, if no error is reported, exactly when the document has
no more names, instructions and functions than they hold. -/
theorem tables_kept_iff {text : List Byte} {ts : List TasmToken} {fuel : Nat} {ast : TasmAst} {p : TasmParser}
    (hlex : LexTokens (tasmLexerInit (marked text)) ts) (hparse : tasmParseFile fuel (tasmParserInit ts) = .ok (ast, p))
    (hp : p.isErr = false) : TablesKept ast ↔ HasRoom ast.items := by
  obtain ⟨hast, hitems⟩ := accepted_given hlex.texts hlex.ne_eof hparse hp
  constructor
  · intro hkept
    have hprocs : NamesRoom Item.procName? symbolProcDeclCapacity ast.items := by
      by_contra hroom
      exact procs_not_kept hast hroom hkept
    have hlabels (hnodup : (ast.items.filterMap Item.procName?).Nodup) :
        NamesRoom Item.labelName? symbolLabelDeclCapacity ast.items := by
      by_contra hroom
      exact labels_not_kept hast hnodup hprocs hroom hkept
    refine ⟨hprocs, hlabels, fun hnodup hdistinct bad hbad hpass => ?_⟩
    by_contra hfull
    -- both declaring passes return, so the third one overruns
    obtain ⟨t₁, h₁, -, h₂⟩ := declaring_passes hast hnodup hprocs
    exact overrun_not_kept hast hitems h₁ (h₂ hdistinct (hlabels hnodup)) hbad hpass hfull hkept
  · rintro ⟨hprocs, hlabels, hemitted⟩
    by_cases hnodup : (ast.items.filterMap Item.procName?).Nodup
    · obtain ⟨t₁, h₁, hnone, h₂⟩ := declaring_passes hast hnodup hprocs
      by_cases hdistinct : (ast.items.filterMap Item.labelName?).Nodup
      · -- the third pass runs to the end, or stops at the first item that it cannot pass
        have hroom := hemitted hnodup hdistinct
        have h₂ := h₂ hdistinct (hlabels hnodup)
        by_cases hpass : ∀ i ∈ ast.items, Passable (tablesOf ast.items) i
        · exact passable_kept hast hitems (hprocs _ (List.prefix_refl _) hnodup) (hlabels hnodup _ (List.prefix_refl _) hdistinct)
            (hroom _ (List.prefix_refl _) hpass) hpass (translate_declared hast h₁ h₂)
        · exact stuck_kept hast hitems hroom hpass h₁ h₂
      · obtain ⟨n, hexit⟩ := labels_declaring.duplicated (items_fit hast) hnone (hlabels hnodup) hdistinct
        rw [← resolveLabels_eq hast] at hexit
        refine .inl (.duplicated (r := .duplicatedLabel n) ?_)
        unfold tasmTranslate
        rw [Except.bind_of_ok h₁, Except.bind_of_error hexit]
    · obtain ⟨n, hexit⟩ := procs_declaring.duplicated (t := tasmTranslatorInit) (items_fit hast) rfl hprocs hnodup
      rw [← resolveProcs_eq hast] at hexit
      refine .inl (.duplicated (r := .duplicatedProc n) ?_)
      unfold tasmTranslate
      rw [Except.bind_of_error hexit]

/-- A document that is shorter than each of the arrays has room in all of them. -/
theorem hasRoom_of_length {items : List Item} (h : items.length ≤ 512) : HasRoom items := by
  have hnames (name? : Item → Option CStr) : NamesRoom name? 512 items := by
    intro pre hpre _
    exact (List.length_filterMap_le name? pre).trans (hpre.length_le.trans h)
  have hsize (i : Item) : i.size ≤ 1 := by
    cases i with
    | inst => exact Nat.le_refl 1
    | label | proc | metadata => exact Nat.zero_le 1
  have hcount (l : List Item) : instCount l ≤ l.length := by
    induction l with
    | nil => exact Nat.le_refl 0
    | cons i l ih =>
      have := hsize i
      rw [instCount_cons, List.length_cons]
      omega
  refine ⟨hnames _, fun _ => hnames _, fun _ _ pre hpre _ => ?_⟩
  have hle : pre.length ≤ 512 := hpre.length_le.trans h
  refine ⟨(List.length_filterMap_le _ pre).trans hle, ?_, (List.length_filterMap_le _ pre).trans hle⟩
  exact (hcount pre).trans (hle.trans (by decide))

/-- A function, a call, a label and a jump to it, and a proc. -/
def allTables : List Byte := cstr "@cfun i32 abs i32\ncall p\nx:\njmp x\nproc p\nnative 0\nret\nendp\n"

def allTablesTokens : List TasmToken :=
  let endl := ⟨.endline, some (cstr "endl")⟩
  [⟨.atSign, some (cstr "@")⟩, ⟨.cfunction, some (cstr "cfun")⟩, ⟨.tci .int32, some (cstr "i32")⟩, ⟨.id, some (cstr "abs")⟩,
    ⟨.tci .int32, some (cstr "i32")⟩, endl, ⟨.op .call, some (cstr "call")⟩, ⟨.id, some (cstr "p")⟩, endl,
    ⟨.id, some (cstr "x")⟩, ⟨.colon, some (cstr ":")⟩, endl, ⟨.op .jmp, some (cstr "jmp")⟩, ⟨.id, some (cstr "x")⟩, endl,
    ⟨.proc, some (cstr "proc")⟩, ⟨.id, some (cstr "p")⟩, endl, ⟨.op .native, some (cstr "native")⟩,
    ⟨.decimalNumber, some (cstr "0")⟩, endl, ⟨.op .ret, some (cstr "ret")⟩, endl, ⟨.endp, some (cstr "endp")⟩, endl]

def allTablesAst : TasmAst :=
  .file [.cfunction CType.int32.code [CType.int32.code] 1 (some (cstr "abs")),
    .op .call (some (cstr "call")) (some (.labelCall (some (cstr "p")))), .labelDecl (some (cstr "x")),
    .op .jmp (some (cstr "jmp")) (some (.labelCall (some (cstr "x")))),
    .proc (some (cstr "p")) [.op .native (some (cstr "native")) (some (.number (cstr "0") 0)), .op .ret (some (cstr "ret")) none]]

theorem tables_kept_all : ∃ ts p, LexTokens (tasmLexerInit (marked allTables)) ts ∧
    tasmParseFile 40 (tasmParserInit ts) = .ok (allTablesAst, p) ∧ p.isErr = false ∧ TablesKept allTablesAst := by
  obtain ⟨⟨ts, lx⟩, hrun, rfl⟩ := Option.map_eq_some_iff.mp
    (show (runOf 40 40 (tasmLexerInit (marked allTables))).map (·.1) = some allTablesTokens by decide +kernel)
  obtain ⟨p, hparse, hp⟩ : ∃ p, tasmParseFile 40 (tasmParserInit allTablesTokens) = .ok (allTablesAst, p) ∧ p.isErr = false :=
    ⟨_, rfl, rfl⟩
  have hlex := (runOf_lex hrun).tokens
  exact ⟨_, p, hlex, hparse, hp, (tables_kept_iff hlex hparse hp).2 (hasRoom_of_length (by decide))⟩

/-- The text of `n` lines with the same instruction. -/
def nopText (n : Nat) : CStr := (List.replicate n (cstr "nop\n")).flatten

def nopAst : TasmAst := .op .nop (some (cstr "nop")) none

theorem nops_parsed (n : Nat) : ∃ ts fuel p, LexTokens (tasmLexerInit (marked (nopText n))) ts ∧
    tasmParseFile fuel (tasmParserInit ts) = .ok (.file (List.replicate n nopAst), p) ∧ p.isErr = false := by
  let nop : Statement := .inst ⟨.nop, false, .nothing⟩
  let row : Row := ⟨[], by simp, .line (.statement nop)⟩
  let last : Row := ⟨[], by simp, .blank⟩
  have htext : rowsText (List.replicate n row) last = nopText n := by
    induction n with
    | zero => rfl
    | succ n ih =>
      unfold rowsText nopText at ih
      simp only [rowsText, nopText, List.replicate_succ, List.flatMap_cons, List.flatten_cons, List.append_assoc]
      rw [ih]
      rfl
  have hlines : (List.replicate n row ++ [last]).filterMap (·.content.line?) =
      (List.replicate n (FileItem.statement nop)).flatMap FileItem.lines := by
    clear htext
    induction n with
    | zero => rfl
    | succ n ih => simpa [List.replicate_succ, row, Content.line?, FileItem.lines] using ih
  have hast : (List.replicate n (FileItem.statement nop)).map FileItem.ast = List.replicate n nopAst := List.map_replicate
  obtain ⟨p, hparse, hp⟩ := rows_parsed hlines (Nat.le_refl _)
  rw [hast] at hparse
  exact ⟨_, _, p, htext ▸ lexTokens_rows _ last, hparse, hp⟩

theorem nops_items (n : Nat) : (TasmAst.file (List.replicate n nopAst)).items = List.replicate n (.inst none .nop none) := by
  show (List.replicate n nopAst).flatMap fileItems = _
  induction n with
  | zero => rfl
  | succ n ih => simpa [List.replicate_succ, nopAst, fileItems, lineItem] using ih

theorem nops_count (n : Nat) : instCount (List.replicate n (.inst none .nop none)) = n := by
  simp [instCount, Item.size]

/-- 1025 instructions, one more than the program has room for. -/
theorem program_overrun : ∃ ts fuel ast p, LexTokens (tasmLexerInit (marked (nopText 1025))) ts ∧
    tasmParseFile fuel (tasmParserInit ts) = .ok (ast, p) ∧ p.isErr = false ∧ ¬ TablesKept ast := by
  obtain ⟨ts, fuel, p, hlex, hparse, hp⟩ := nops_parsed 1025
  refine ⟨ts, fuel, _, p, hlex, hparse, hp, ?_⟩
  obtain ⟨hast, hitems⟩ := accepted_given hlex.texts hlex.ne_eof hparse hp
  have hnone (name? : Item → Option CStr) (h : name? (.inst none .nop none) = none) :
      (TasmAst.file (List.replicate 1025 nopAst)).items.filterMap name? = [] := by
    rw [nops_items, List.filterMap_replicate_of_none h]
  have hprocs := hnone Item.procName? rfl
  have hlabels := hnone Item.labelName? rfl
  -- no names are declared, so nothing stops the third pass before the last instruction
  have hroom (name? : Item → Option CStr) (h : name? (.inst none .nop none) = none) (capacity : Nat) :
      NamesRoom name? capacity (TasmAst.file (List.replicate 1025 nopAst)).items := by
    intro pre hpre _
    have hle := List.IsPrefix.length_le (List.IsPrefix.filterMap name? hpre)
    rw [hnone name? h] at hle
    exact hle.trans (Nat.zero_le _)
  obtain ⟨t₁, h₁, -, h₂⟩ := declaring_passes hast (by rw [hprocs]; exact List.nodup_nil) (hroom _ rfl _)
  refine overrun_not_kept hast hitems h₁ (h₂ (by rw [hlabels]; exact List.nodup_nil) (hroom _ rfl _)) (List.prefix_refl _) ?_ ?_
  · intro i hi
    rw [nops_items] at hi
    obtain rfl := List.eq_of_mem_replicate hi
    refine ⟨⟨?_, ?_⟩, ?_⟩
    · rintro n hn
      cases hn
    · rintro n hn
      cases hn
    · rintro value hv
      cases hv
  · rintro ⟨-, hinsts, -⟩
    rw [nops_items, nops_count] at hinsts
    exact absurd hinsts (by decide)

end TileVm
