/-
Which programs the translator accepts: those whose names are in scope. Declarations are told apart
by one text, `proc$label`, and looked up by linear searches; on the identifiers of the lexer this is
the same as telling apart scopes and labels.
-/
import TileVm.Tasm.Metadata

namespace TileVm

/-! ## Scopes -/

/-- A label under its scope, the name of its proc or none at file level. -/
def Item.labelKey? : Item → Option (Option CStr × CStr)
  | .label scope (some x) => some (scope, x)
  | _ => none

/-- Procs are distinct, labels are distinct in their scope, a jump names a label of its scope, and a call a proc. -/
structure WellScoped (items : List Item) : Prop where
  procs : (items.filterMap Item.procName?).Nodup
  labels : (items.filterMap Item.labelKey?).Nodup
  jumps : ∀ scope o x, o ∈ [OpType.jmp, .jz, .jnz] → .inst scope o (some (.labelCall (some x))) ∈ items →
    .label scope (some x) ∈ items
  calls : ∀ scope x, .inst scope .call (some (.labelCall (some x))) ∈ items → .proc (some x) ∈ items

/-- The tables of the translator and the program have room for the document. -/
structure WithinTables (items : List Item) : Prop where
  procs : (items.filterMap Item.procName?).length ≤ symbolProcDeclCapacity
  labels : (items.filterMap Item.labelName?).length ≤ symbolLabelDeclCapacity
  calls : (items.filterMap Item.loggedName?).length ≤ symbolLabelCallCapacity
  insts : instCount items ≤ tvmProgramCapacity
  cfuns : (cfunsOf items).length ≤ tvmMetadataMaxCfunCapacity

theorem declared_names (name? : Item → Option CStr) (n : Nat) (items : List Item) :
    (declared name? n items).map (·.name) = items.filterMap name? := by
  induction items generalizing n with
  | nil => rfl
  | cons i items ih => cases hi : name? i <;> simp [declared, hi, ih]

theorem labelName?_eq (i : Item) : i.labelName? = i.labelKey?.map fun k => labelName k.1 k.2 := by
  cases i with
  | label scope name => cases name <;> rfl
  | inst | proc | metadata => rfl

theorem labelNames_eq (items : List Item) :
    items.filterMap Item.labelName? = (items.filterMap Item.labelKey?).map fun k => labelName k.1 k.2 := by
  rw [List.map_filterMap]
  congr 1
  funext i
  exact labelName?_eq i

theorem labelKey_eq {i : Item} {scope : Option CStr} {x : CStr} (h : i.labelKey? = some (scope, x)) :
    i = .label scope (some x) := by
  cases i with
  | label sc name =>
    cases name with
    | none => cases h
    | some y => cases h; rfl
  | inst | proc | metadata => cases h

/-- Labels are distinct in their scopes if and only if their texts are. -/
theorem labels_nodup_iff {items : List Item} (hfit : ∀ i ∈ items, ItemFits IdName i) :
    (items.filterMap Item.labelName?).Nodup ↔ (items.filterMap Item.labelKey?).Nodup := by
  rw [labelNames_eq]
  constructor
  · exact List.Nodup.of_map _
  · intro h
    refine List.Nodup.map_on ?_ h
    rintro ⟨s, x⟩ hk ⟨s', x'⟩ hk' heq
    obtain ⟨i, hi, hik⟩ := List.mem_filterMap.mp hk
    obtain ⟨i', hi', hik'⟩ := List.mem_filterMap.mp hk'
    obtain rfl := labelKey_eq hik
    obtain rfl := labelKey_eq hik'
    cases hfit _ hi with
    | label _ _ hs hn =>
      cases hfit _ hi' with
      | label _ _ hs' hn' =>
        obtain ⟨rfl, rfl⟩ := labelName_inj hs hs' hn hn' heq
        rfl

/-! ## The passes on well-scoped documents -/

section Passes

variable {t : TasmTranslator} {items : List Item}

theorem pushSymbol_total {array : ArrayName} {n : Nat} {table : List Symbol} (s : Symbol) (h : table.length < n) :
    pushSymbol array n table s = .ok (table ++ [s]) := if_pos h

theorem declareProc_total {n : CStr} (hnew : n ∉ t.symbols.procDecls.map (·.name))
    (hroom : t.symbols.procDecls.length < symbolProcDeclCapacity) : ∃ t', declareProc t (some n) = .ok t' := by
  have hany : t.symbols.procDecls.any (·.name == n) = false := by
    simpa [List.any_eq_false] using hnew
  unfold declareProc
  rw [Except.bind_of_ok (show nonNull (some n) = .ok n from rfl), hany, pushSymbol_total _ hroom]
  exact ⟨_, rfl⟩

theorem declareLabel_total {scope : Option CStr} {l : CStr} (hnew : labelName scope l ∉ t.symbols.labelDecls.map (·.name))
    (hroom : t.symbols.labelDecls.length < symbolLabelDeclCapacity) : ∃ t', declareLabel t scope (some l) = .ok t' := by
  have hany : t.symbols.labelDecls.any (·.name == labelName scope l) = false := by
    simpa [List.any_eq_false] using hnew
  unfold declareLabel
  rw [Except.bind_of_ok (show nonNull (some l) = .ok l from rfl)]
  dsimp only
  rw [hany, pushSymbol_total _ hroom]
  exact ⟨_, rfl⟩

/-- The next declaration is new and there is room for it: the names up to it are distinct. -/
theorem next_name {name? : Item → Option CStr} {pre post : List Item} {i : Item} {n : CStr} {capacity : Nat}
    (heq : items = pre ++ i :: post) (hi : name? i = some n) (hnodup : (items.filterMap name?).Nodup)
    (hroom : (items.filterMap name?).length ≤ capacity) :
    n ∉ pre.filterMap name? ∧ (pre.filterMap name?).length < capacity := by
  rw [heq, List.filterMap_append, List.filterMap_cons, hi] at hnodup hroom
  constructor
  · intro hmem
    exact (List.nodup_append.mp hnodup).2.2 n hmem n (List.mem_cons_self ..) rfl
  · simp only [List.length_append, List.length_cons] at hroom
    omega

theorem procs_total {N : Option CStr → Prop} (hN : ∀ n, N n → n.isSome = true) (hfit : ∀ i ∈ items, ItemFits N i)
    (hnodup : (items.filterMap Item.procName?).Nodup)
    (hroom : (items.filterMap Item.procName?).length ≤ symbolProcDeclCapacity) (h0 : t.symbols.procDecls = []) :
    ∃ t', items.foldlM procStep t = .ok t' := by
  suffices h : ∃ t', items.foldlM procStep t = .ok t' ∧ t'.symbols.procDecls.map (·.name) = ([] ++ items).filterMap Item.procName? by
    obtain ⟨t', h, -⟩ := h
    exact ⟨t', h⟩
  apply Except.foldlM_total (fun pre t => t.symbols.procDecls.map (·.name) = pre.filterMap Item.procName?) items [] t ?_ (by simp [h0])
  rintro pre i post c heq hc
  -- the step returns; what it returns then is the business of its lemma
  have htotal : ∃ c', procStep c i = .ok c' := by
    cases hfit i (by rw [← List.nil_append items, heq]; simp) with
    | inst | label | metadata => exact ⟨_, rfl⟩
    | proc name hn =>
      obtain ⟨n, rfl⟩ := Option.isSome_iff_exists.mp (hN name hn)
      obtain ⟨hnew, hlt⟩ := next_name heq rfl hnodup hroom
      rw [← hc, List.length_map] at hlt
      exact declareProc_total (by rwa [hc]) hlt
  obtain ⟨c', hs⟩ := htotal
  obtain ⟨-, -, rfl⟩ := procStep_ok hs
  refine ⟨_, hs, ?_⟩
  cases hn : i.procName? <;> simp [hc, hn]

theorem labels_total {N : Option CStr → Prop} (hN : ∀ n, N n → n.isSome = true) (hfit : ∀ i ∈ items, ItemFits N i)
    (hnodup : (items.filterMap Item.labelName?).Nodup)
    (hroom : (items.filterMap Item.labelName?).length ≤ symbolLabelDeclCapacity) (h0 : t.symbols.labelDecls = []) :
    ∃ t', items.foldlM labelStep t = .ok t' := by
  suffices h : ∃ t', items.foldlM labelStep t = .ok t' ∧ t'.symbols.labelDecls.map (·.name) = ([] ++ items).filterMap Item.labelName? by
    obtain ⟨t', h, -⟩ := h
    exact ⟨t', h⟩
  apply Except.foldlM_total (fun pre t => t.symbols.labelDecls.map (·.name) = pre.filterMap Item.labelName?) items [] t ?_ (by simp [h0])
  rintro pre i post c heq hc
  have htotal : ∃ c', labelStep c i = .ok c' := by
    cases hfit i (by rw [← List.nil_append items, heq]; simp) with
    | inst | proc | metadata => exact ⟨_, rfl⟩
    | label scope name _ hn =>
      obtain ⟨l, rfl⟩ := Option.isSome_iff_exists.mp (hN name hn)
      obtain ⟨hnew, hlt⟩ := next_name (n := labelName scope l) heq rfl hnodup hroom
      rw [← hc, List.length_map] at hlt
      exact declareLabel_total (by rwa [hc]) hlt
  obtain ⟨c', hs⟩ := htotal
  obtain ⟨-, -, rfl⟩ := labelStep_ok hs
  refine ⟨_, hs, ?_⟩
  cases hn : i.labelName? <;> simp [hc, hn]

/-! ## Emission -/

theorem programPush_total (c : Opcode) (h : t.program.size < tvmProgramCapacity) :
    ∃ t', programPush t c = .ok t' := by
  have hstore : t.program.code.store (Fault.outOfBounds .code) t.program.size c = .ok _ := CArray.store_ok.2 ⟨h, rfl⟩
  unfold programPush
  rw [hstore]
  exact ⟨_, rfl⟩

/-- A name that has an address is logged, if there is room. -/
theorem translateLabelCall_total (scope : Option CStr) (isCall : Bool) (l : CStr)
    (hfound : (if scope.isNone && isCall then intAddr t.symbols.procDecls (labelName scope l)
      else intAddr t.symbols.labelDecls (labelName scope l)) ≠ -1)
    (hroom : t.symbols.labelCalls.length < symbolLabelCallCapacity) :
    ∃ t', translateLabelCall t scope isCall (some l) = .ok (t', labelName scope l) ∧
      t'.symbols.err = t.symbols.err ∧ t'.program = t.program := by
  unfold translateLabelCall
  rw [Except.bind_of_ok (show nonNull (some l) = .ok l from rfl)]
  dsimp only
  rw [if_neg hfound, pushSymbol_total _ hroom]
  exact ⟨_, rfl, rfl, rfl⟩

/-- An instruction with its name resolved is translated, if there is room. -/
theorem inst_total {scope : Option CStr} {o : OpType} {operand : Option TasmAst}
    (hfit : o.operandKind.Fits (fun name => name.isSome = true) operand) (hg : Given operand)
    (hres : Resolved t.symbols (.inst scope o operand)) (hsize : t.program.size < tvmProgramCapacity)
    (hcalls : (Item.inst scope o operand).loggedName?.isSome = true →
      t.symbols.labelCalls.length < symbolLabelCallCapacity) :
    ∃ t', tasmTranslateLine t scope false (.op o none operand) = .ok t' ∧ t'.symbols.err = t.symbols.err := by
  have push (c : Opcode) : ∃ t', programPush t c = .ok t' ∧ t'.symbols.err = t.symbols.err := by
    obtain ⟨t', h⟩ := programPush_total c hsize
    exact ⟨t', h, by rw [(programPush_ok h).symbols]⟩
  -- a jump or call without an address emits nothing
  have push_or (t₁ : TasmTranslator) (hprog : t₁.program = t.program) (addr : BitVec 32) (o : OpType) :
      ∃ t', (if addr = -1 then (.ok t₁ : Tr TasmTranslator) else programPush t₁ (.withUi32 o .vmAddress addr)) = .ok t' ∧
        t'.symbols.err = t₁.symbols.err := by
    by_cases h : addr = -1
    · exact ⟨t₁, if_pos h, rfl⟩
    · obtain ⟨t', hrun⟩ := programPush_total (t := t₁) (.withUi32 o .vmAddress addr) (by rw [hprog]; exact hsize)
      exact ⟨t', by rw [if_neg h, hrun], by rw [(programPush_ok hrun).symbols]⟩
  generalize hk : o.operandKind = kind at hfit
  cases hfit with
  | nothing =>
    rw [translateLine_nothing hk]
    exact push _
  | pushNumber text v =>
    obtain rfl := operandKind_push hk
    exact push _
  | pushChar c =>
    obtain rfl := operandKind_push hk
    obtain ⟨s, rfl⟩ := Option.isSome_iff_exists.mp ((hg _ rfl).char c rfl)
    exact push _
  | int text v =>
    rw [translateLine_int hk]
    exact push _
  | jumpNumber text v =>
    rw [(translateLine_jump hk t scope _).1]
    exact push _
  | jumpLabel n hn =>
    obtain ⟨l, rfl⟩ := Option.isSome_iff_exists.mp hn
    rw [(translateLine_jump hk t scope _).1]
    -- the label is declared in the scope, so its call is logged
    have hfound : intAddr t.symbols.labelDecls (labelName scope l) ≠ -1 := hres.1 _ (by simp [Item.jumpName?, hk])
    obtain ⟨t₁, hcall, herr, hprog⟩ := translateLabelCall_total (t := t) scope false l
      (by simpa using hfound) (hcalls (by rw [loggedName_jump hk]; rfl))
    obtain ⟨t', hrun, hsame⟩ := push_or t₁ hprog (intAddr t₁.symbols.labelCalls (labelName scope l)) o
    refine ⟨t', ?_, hsame.trans herr⟩
    refine (Except.bind_of_ok (show nonNull _ = .ok (TasmAst.labelCall (some l)) from rfl)).trans ?_
    exact (Except.bind_of_ok hcall).trans hrun
  | label n hn =>
    obtain rfl := operandKind_label hk
    obtain ⟨l, rfl⟩ := Option.isSome_iff_exists.mp hn
    have hfound : intAddr t.symbols.procDecls l ≠ -1 := hres.2 l rfl
    obtain ⟨t₁, hcall, herr, hprog⟩ := translateLabelCall_total (t := t) none true l hfound (hcalls rfl)
    obtain ⟨t', hrun, hsame⟩ := push_or t₁ hprog (intAddr t₁.symbols.procDecls l) .call
    refine ⟨t', ?_, hsame.trans herr⟩
    refine (Except.bind_of_ok (show nonNull _ = .ok (TasmAst.labelCall (some l)) from rfl)).trans ?_
    exact (Except.bind_of_ok hcall).trans hrun

/-- A complete item with its name resolved is translated, if there is room. -/
theorem emit_total {i : Item} (hi : ItemComplete i) (hres : Resolved t.symbols i)
    (htab : Tabled items t) (hsize : i.size = 1 → t.program.size < tvmProgramCapacity)
    (hcalls : i.loggedName?.isSome = true → t.symbols.labelCalls.length < symbolLabelCallCapacity)
    (hfuns : i.cfun?.isSome = true → (cfunsOf items).length < tvmMetadataMaxCfunCapacity) :
    ∃ t', emitStep t i = .ok t' ∧ t'.symbols.err = t.symbols.err := by
  have hg := hi.literal
  cases hi.fits with
  | inst scope o operand _ hfit => exact inst_total hfit hg hres (hsize rfl) hcalls
  | label | proc => exact ⟨t, rfl, rfl⟩
  | metadata node hnode hline =>
    cases hnode with
    | line _ h => exact absurd h hline
    | proc name => exact ⟨_, rfl, rfl⟩
    | cstruct => exact ⟨t, rfl, rfl⟩
    | cfunction rtype atypes name =>
      obtain ⟨t', hrun, hsym, -, -⟩ := htab.cfunction rtype atypes (atypes.length % 2 ^ 16) name (hfuns rfl)
      exact ⟨t', hrun, by rw [hsym]⟩
    | data value hfit =>
      obtain ⟨v, rfl⟩ := Option.isSome_iff_exists.mp (hi.value value rfl)
      obtain ⟨t', hrun, hsym, -, -⟩ := htab.data (hfit v rfl) (hg v rfl)
      exact ⟨t', hrun, by rw [hsym]⟩

/-- The declared names that an item uses have addresses. -/
theorem WellScoped.resolved {ast : TasmAst} (h : WellScoped ast.items) (hfit : ∀ i ∈ ast.items, ItemFits IdName i)
    (hroom : instCount ast.items ≤ tvmProgramCapacity) {s : SymbolTable}
    (hprocs : s.procDecls = declared Item.procName? 0 ast.items)
    (hlabels : s.labelDecls = declared Item.labelName? 0 ast.items) {i : Item} (hi : i ∈ ast.items) :
    Resolved s i := by
  have position {name? : Item → Option CStr} {j : Item} {n : CStr} (hnodup : (ast.items.filterMap name?).Nodup)
      (hj : j ∈ ast.items) (hn : name? j = some n) : intAddr (declared name? 0 ast.items) n ≠ -1 := by
    obtain ⟨pre, post, heq⟩ := List.append_of_mem hj
    rw [intAddr_declared (by rwa [declared_names]) heq hn]
    have hle := Nat.le_trans (instCount_le heq) hroom
    intro hneg
    have := congrArg BitVec.toNat hneg
    have hcap : tvmProgramCapacity = 1024 := rfl
    simp at this
    omega
  constructor
  · intro n hn
    obtain ⟨scope, o, x, rfl, ho, rfl⟩ := jumpName_eq hn
    rw [hlabels]
    exact position ((labels_nodup_iff hfit).mpr h.labels) (h.jumps scope o x (operandKind_jump.mp ho) hi) rfl
  · intro n hn
    obtain ⟨scope, o, rfl, ho⟩ := callName_eq hn
    obtain rfl := operandKind_label ho
    rw [hprocs]
    exact position h.procs (h.calls scope n hi) rfl

theorem callLog_names (s : SymbolTable) (items : List Item) :
    (callLog s items).map (·.name) = items.filterMap Item.loggedName? := by
  rw [callLog, List.map_filterMap]
  congr 1
  funext i
  exact loggedCall_name s i

/-- What an item takes of a capacity is still free before it. -/
theorem free_before {α : Type} {f : Item → Option α} {pre post : List Item} {i : Item} {capacity : Nat}
    (heq : items = pre ++ i :: post) (hi : (f i).isSome = true) (hroom : (items.filterMap f).length ≤ capacity) :
    (pre.filterMap f).length < capacity := by
  obtain ⟨a, ha⟩ := Option.isSome_iff_exists.mp hi
  rw [heq, List.filterMap_append, List.filterMap_cons, ha] at hroom
  simp only [List.length_append, List.length_cons] at hroom
  omega

/-- The third pass has room for the calls, the instructions and the functions of some items. -/
structure EmitRoom (items : List Item) : Prop where
  calls : (items.filterMap Item.loggedName?).length ≤ symbolLabelCallCapacity
  insts : instCount items ≤ tvmProgramCapacity
  cfuns : (cfunsOf items).length ≤ tvmMetadataMaxCfunCapacity

/-- The state of the third pass before the first item. -/
structure BeforeUnit (t₀ : TasmTranslator) : Prop where
  calls : t₀.symbols.labelCalls = []
  err : t₀.symbols.err = false
  program : t₀.program = TvmProgram.zero
  beginningAddress : t₀.beginningAddress = 0

theorem BeforeUnit.emitted {t₀ : TasmTranslator} (h : BeforeUnit t₀) : Emitted t₀ [] t₀ ∧ Tabled [] t₀ := by
  have hfound : LogFound t₀.symbols.labelCalls := by simp [h.calls, LogFound]
  refine ⟨⟨?_, ?_, by simp, hfound, by simp, ?_⟩, tabled_init t₀ h.program h.beginningAddress⟩
  · rw [show callLog t₀.symbols [] = t₀.symbols.labelCalls by rw [h.calls]; rfl]
  · rw [h.program]; rfl
  · rintro pre scope o operand post heq
    simp at heq

/-- The log of the third pass is as long as the names logged. -/
theorem Emitted.log_length {t₀ t : TasmTranslator} {items : List Item} (h : Emitted t₀ items t) :
    t.symbols.labelCalls.length = (items.filterMap Item.loggedName?).length := by
  rw [h.symbols, ← callLog_names t₀.symbols items, List.length_map]

/-- The third pass returns on items with every name resolved, if there is room. -/
theorem emitted_total {items : List Item} {t₀ : TasmTranslator} (h0 : BeforeUnit t₀) (hitems : ∀ i ∈ items, ItemComplete i)
    (hres : ∀ i ∈ items, Resolved t₀.symbols i) (hroom : EmitRoom items) :
    ∃ t, items.foldlM emitStep t₀ = .ok t ∧ t.symbols.err = false ∧ Emitted t₀ items t ∧ Tabled items t := by
  have hbegin := h0.emitted
  apply Except.foldlM_total (fun pre t => t.symbols.err = false ∧ Emitted t₀ pre t ∧ Tabled pre t) items [] t₀
  · rintro pre i post c heq ⟨he, hem, htab⟩
    rw [List.nil_append] at heq
    have hi : i ∈ items := by rw [heq]; simp
    have hcomplete := hitems i hi
    have hresc : Resolved c.symbols i := by
      rw [hem.symbols]
      exact hres i hi
    have htotal := emit_total hcomplete hresc htab ?_ ?_ fun hf => free_before heq hf hroom.cfuns
    · obtain ⟨c', hs, hsame⟩ := htotal
      have he' : c'.symbols.err = false := hsame.trans he
      refine ⟨c', hs, he', ?_, htab.step hcomplete hs⟩
      rcases (emitStep_spec hcomplete.fits hem.found (.inr hem) hs).2 with h | h
      · rw [he'] at h
        cases h
      · exact h
    · intro hsize
      have := hroom.insts
      rw [heq] at this
      simp only [instCount_append, instCount_cons] at this
      rw [hem.size]
      omega
    · intro hlog
      rw [hem.log_length]
      exact free_before heq hlog hroom.calls
  · exact ⟨h0.err, hbegin⟩

end Passes

/-! ## Accepted programs -/

/-- The translator finishes a complete document within its capacities, with all names resolved, if and only if it is
well-scoped. -/
theorem translates_iff {ast : TasmAst} (hast : Complete ast) (hnames : WellFormed IdName ast)
    (hroom : WithinTables ast.items) :
    (∃ t, tasmTranslate ast = .ok t ∧ t.symbols.err = false) ↔ WellScoped ast.items := by
  have hfit := items_fit hnames
  constructor
  · rintro ⟨t, htr, herr⟩
    have h := translated hnames htr herr
    constructor
    · rw [← declared_names Item.procName? 0, ← h.procDecls]
      exact h.procsNodup
    · rw [← labels_nodup_iff hfit, ← declared_names Item.labelName? 0, ← h.labelDecls]
      exact h.labelsNodup
    · intro scope o x ho hi
      obtain ⟨pre, post, heq⟩ := List.append_of_mem hi
      obtain ⟨before, after, hdecl⟩ := h.jump_declared hfit heq (operandKind_jump.mpr ho)
      rw [hdecl]; simp
    · intro scope x hi
      obtain ⟨before, after, hdecl⟩ := h.called (x := x) hi rfl
      rw [hdecl]; simp
  · intro hscoped
    -- the three passes, each from the state that the one before returns
    have hsome (n : Option CStr) (hn : IdName n) : n.isSome = true := by
      obtain ⟨v, rfl, -⟩ := hn
      rfl
    obtain ⟨t₁, h₁⟩ := procs_total hsome hfit hscoped.procs hroom.procs (t := tasmTranslatorInit) rfl
    obtain ⟨rfl, -, -⟩ := procs_resolved rfl rfl h₁
    let t₁ := { tasmTranslatorInit with symbols := { tasmTranslatorInit.symbols with
      procDecls := declared Item.procName? 0 ast.items, procAddressPointer := instCount ast.items } }
    obtain ⟨t₂, h₂⟩ := labels_total (t := t₁) hsome hfit ((labels_nodup_iff hfit).mpr hscoped.labels) hroom.labels rfl
    obtain ⟨rfl, -, -⟩ := labels_resolved rfl rfl h₂
    let t₂ := { t₁ with symbols := { t₁.symbols with
      labelDecls := declared Item.labelName? 0 ast.items, labelAddressPointer := instCount ast.items } }
    have hunit : ∃ t, ast.items.foldlM emitStep t₂ = .ok t ∧ t.symbols.err = false ∧ _ :=
      emitted_total ⟨rfl, rfl, rfl, rfl⟩ (fun i hi => hast.item hi) (fun i hi => hscoped.resolved hfit hroom.insts rfl rfl hi)
        ⟨hroom.calls, hroom.insts, hroom.cfuns⟩
    obtain ⟨t, h₃, herr, -⟩ := hunit
    refine ⟨t, ?_, herr⟩
    unfold tasmTranslate
    rw [resolveProcs_eq hnames, Except.bind_of_ok h₁, resolveLabels_eq hnames, Except.bind_of_ok h₂,
      translateUnit_eq hnames]
    exact h₃

/-- The programs that are assembled are the well-scoped ones, and the texts of labels tell scopes apart. -/
theorem wellScoped_iff {fuel : Nat} {ts : List TasmToken} {ast : TasmAst} {p : TasmParser}
    (hnames : ∀ tok ∈ ts, tok.type = .id → IdName tok.value) (htexts : Texts ts) (heof : ∀ tok ∈ ts, tok.type ≠ .eof)
    (hparse : tasmParseFile fuel (tasmParserInit ts) = .ok (ast, p)) (hp : p.isErr = false)
    (hvalues : ∀ value, .metadata (.data value) ∈ ast.items → value.isSome = true) (hroom : WithinTables ast.items) :
    ((∃ t, tasmTranslate ast = .ok t ∧ t.symbols.err = false) ↔ WellScoped ast.items) ∧
      ∀ scope x scope' x', (∀ q, scope = some q → IdName (some q)) → (∀ q, scope' = some q → IdName (some q)) →
        IdName (some x) → IdName (some x') → labelName scope x = labelName scope' x' → scope = scope' ∧ x = x' := by
  constructor
  · exact translates_iff (complete_of_values htexts heof hparse hp hvalues)
      (wellFormed_of_parse (ids_init hnames) hparse hp) hroom
  · exact fun _ _ _ _ hs hs' hx hx' => labelName_inj hs hs' hx hx'

/-- A program with a proc and a label of one name. -/
theorem wellScoped_iff_hidden :
    ((∃ t, tasmTranslate hiddenLabelAst = .ok t ∧ t.symbols.err = false) ↔ WellScoped hiddenLabelAst.items) ∧
      labelName none fooName ≠ labelName (some fooName) fooName := by
  obtain ⟨p, hparse, hp⟩ := hiddenLabel_parses
  have hfoo : IdName (some fooName) := ⟨fooName, rfl, by decide⟩
  obtain ⟨hiff, hinj⟩ := wellScoped_iff (by simp [hiddenLabelTokens, hfoo]) (by simp [Texts, hiddenLabelTokens])
    (by decide) hparse hp (by simp [hiddenLabelAst, TasmAst.items, fileItems, lineItem])
    ⟨by decide, by decide, by decide, by decide, by decide⟩
  refine ⟨hiff, fun heq => ?_⟩
  cases (hinj _ _ _ _ (by simp) (by rintro q ⟨⟩; exact hfoo) hfoo hfoo heq).1

end TileVm
