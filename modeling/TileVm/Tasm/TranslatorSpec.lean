/-
What the three passes leave on the document of a well-formed file: the two declaration tables hold
every declaration at its position, the log of the resolved names follows the document, and there is
one opcode for each instruction, at its position.
-/
import TileVm.Tasm.Document

namespace TileVm

/-! ## Declarations -/

theorem nonNull_ok {α : Type} {x : Option α} {a : α} (h : nonNull x = .ok a) : x = some a := by
  cases x with
  | none => cases h
  | some b => cases h; rfl

theorem pushSymbol_ok {array : ArrayName} {n : Nat} {table table' : List Symbol} {s : Symbol}
    (h : pushSymbol array n table s = .ok table') : table' = table ++ [s] := by
  unfold pushSymbol at h
  split at h <;> cases h
  rfl

theorem declareProc_ok {t t' : TasmTranslator} {name : Option CStr} (h : declareProc t name = .ok t') :
    ∃ n, name = some n ∧ n ∉ t.symbols.procDecls.map (·.name) ∧
      t' = { t with symbols := { t.symbols with
        procDecls := t.symbols.procDecls ++ [⟨t.symbols.procAddressPointer, n⟩] } } := by
  unfold declareProc at h
  obtain ⟨n, hn, hrest⟩ := Except.bind_ok h
  obtain rfl := nonNull_ok hn
  split at hrest
  · cases hrest
  · rename_i hnew
    obtain ⟨table, htable, hend⟩ := Except.bind_ok hrest
    obtain rfl := pushSymbol_ok htable
    cases hend
    exact ⟨n, rfl, by simpa using hnew, rfl⟩

theorem declareLabel_ok {t t' : TasmTranslator} {scope label : Option CStr} (h : declareLabel t scope label = .ok t') :
    ∃ l, label = some l ∧ labelName scope l ∉ t.symbols.labelDecls.map (·.name) ∧
      t' = { t with symbols := { t.symbols with
        labelDecls := t.symbols.labelDecls ++ [⟨t.symbols.labelAddressPointer, labelName scope l⟩] } } := by
  unfold declareLabel at h
  obtain ⟨l, hl, hrest⟩ := Except.bind_ok h
  obtain rfl := nonNull_ok hl
  dsimp only at hrest
  split at hrest
  · cases hrest
  · rename_i hnew
    obtain ⟨table, htable, hend⟩ := Except.bind_ok hrest
    obtain rfl := pushSymbol_ok htable
    cases hend
    exact ⟨l, rfl, by simpa using hnew, rfl⟩

/-- The next item's symbol goes to the end of the table. -/
theorem declared_snoc (name? : Item → Option CStr) (items : List Item) (i : Item) :
    declared name? 0 (items ++ [i]) =
      declared name? 0 items ++ ((name? i).map fun name => ⟨instCount items, name⟩).toList := by
  simp [declared_append, declared]

theorem nodup_names_snoc {table : List Symbol} {s : Symbol} (h : (table.map (·.name)).Nodup)
    (hs : s.name ∉ table.map (·.name)) : ((table ++ [s]).map (·.name)).Nodup := by
  rw [List.map_append, List.nodup_append]
  refine ⟨h, by simp, ?_⟩
  rintro a ha b hb rfl
  simp only [List.map_cons, List.map_nil, List.mem_singleton] at hb
  exact hs (hb ▸ ha)

/-- A table after one more item: its name is new, and its symbol goes to the end. -/
theorem nodup_declared_snoc {name? : Item → Option CStr} {items : List Item} {i : Item}
    (h : ((declared name? 0 items).map (·.name)).Nodup)
    (hi : ∀ n, name? i = some n → n ∉ (declared name? 0 items).map (·.name)) :
    ((declared name? 0 (items ++ [i])).map (·.name)).Nodup := by
  rw [declared_snoc]
  cases hn : name? i with
  | none => simpa using h
  | some n => exact nodup_names_snoc h (hi n hn)

theorem procStep_ok {t t' : TasmTranslator} {i : Item} (h : procStep t i = .ok t') :
    (∀ name, i = .proc name → name.isSome = true) ∧
      (∀ n, i.procName? = some n → n ∉ t.symbols.procDecls.map (·.name)) ∧
      t' = { t with symbols := { t.symbols with
        procDecls := t.symbols.procDecls ++ (i.procName?.map fun n => ⟨t.symbols.procAddressPointer, n⟩).toList
        procAddressPointer := t.symbols.procAddressPointer + i.size } } := by
  cases i with
  | proc name =>
    obtain ⟨n, rfl, hnew, rfl⟩ := declareProc_ok h
    refine ⟨fun name he => by cases he; rfl, fun m hm => ?_, rfl⟩
    cases hm; exact hnew
  | inst | label | metadata => cases h; simp [Item.procName?, Item.size]

theorem labelStep_ok {t t' : TasmTranslator} {i : Item} (h : labelStep t i = .ok t') :
    (∀ scope name, i = .label scope name → name.isSome = true) ∧
      (∀ n, i.labelName? = some n → n ∉ t.symbols.labelDecls.map (·.name)) ∧
      t' = { t with symbols := { t.symbols with
        labelDecls := t.symbols.labelDecls ++ (i.labelName?.map fun n => ⟨t.symbols.labelAddressPointer, n⟩).toList
        labelAddressPointer := t.symbols.labelAddressPointer + i.size } } := by
  cases i with
  | label scope name =>
    obtain ⟨l, rfl, hnew, rfl⟩ := declareLabel_ok h
    refine ⟨fun sc name he => by cases he; rfl, fun m hm => ?_, rfl⟩
    cases hm; exact hnew
  | inst | proc | metadata => cases h; simp [Item.labelName?, Item.size]

/-- The state of the first pass after some items. -/
structure ProcsResolved (t₀ : TasmTranslator) (items : List Item) (t : TasmTranslator) : Prop where
  state : t = { t₀ with symbols := { t₀.symbols with
    procDecls := declared Item.procName? 0 items, procAddressPointer := instCount items } }
  nodup : ((declared Item.procName? 0 items).map (·.name)).Nodup
  named : ∀ i ∈ items, ∀ name, i = .proc name → name.isSome = true

theorem procs_resolved {t₀ t : TasmTranslator} {items : List Item} (hd : t₀.symbols.procDecls = [])
    (hp : t₀.symbols.procAddressPointer = 0) (h : items.foldlM procStep t₀ = .ok t) :
    ProcsResolved t₀ items t := by
  refine Except.foldlM_inv (ProcsResolved t₀) items [] t₀ t ?_ ⟨?_, by simp [declared], by simp⟩ h
  · rintro pre i post t t' - ⟨rfl, hnodup, hnamed⟩ hs
    obtain ⟨hname, hnew, rfl⟩ := procStep_ok hs
    refine ⟨?_, nodup_declared_snoc hnodup hnew, ?_⟩
    · simp [declared_snoc]
    · simp only [List.forall_mem_append, List.forall_mem_singleton]
      exact ⟨hnamed, hname⟩
  · rw [declared, instCount_nil, ← hd, ← hp]

/-- The state of the second pass after some items. -/
structure LabelsResolved (t₀ : TasmTranslator) (items : List Item) (t : TasmTranslator) : Prop where
  state : t = { t₀ with symbols := { t₀.symbols with
    labelDecls := declared Item.labelName? 0 items, labelAddressPointer := instCount items } }
  nodup : ((declared Item.labelName? 0 items).map (·.name)).Nodup
  named : ∀ i ∈ items, ∀ scope name, i = .label scope name → name.isSome = true

theorem labels_resolved {t₀ t : TasmTranslator} {items : List Item} (hd : t₀.symbols.labelDecls = [])
    (hp : t₀.symbols.labelAddressPointer = 0) (h : items.foldlM labelStep t₀ = .ok t) :
    LabelsResolved t₀ items t := by
  refine Except.foldlM_inv (LabelsResolved t₀) items [] t₀ t ?_ ⟨?_, by simp [declared], by simp⟩ h
  · rintro pre i post t t' - ⟨rfl, hnodup, hnamed⟩ hs
    obtain ⟨hname, hnew, rfl⟩ := labelStep_ok hs
    refine ⟨?_, nodup_declared_snoc hnodup hnew, ?_⟩
    · simp [declared_snoc]
    · simp only [List.forall_mem_append, List.forall_mem_singleton]
      exact ⟨hnamed, hname⟩
  · rw [declared, instCount_nil, ← hd, ← hp]

/-! ## Emission -/

/-- The tag of a number operand. -/
def OpType.numberType : OpType → StackObjType
  | .cln | .swap | .jmp | .jz | .jnz => .vmAddress
  | .aloadc => .dataAddress
  | _ => .number

/-- The entry of `label_calls` that an item makes: the address of the label or proc it names. -/
def loggedCall (s : SymbolTable) (i : Item) : Option Symbol :=
  match i.jumpName? with
  | some n => some ⟨((intAddr s.labelDecls n).signExtend 64).toNat, n⟩
  | none => i.callName?.map fun n => ⟨((intAddr s.procDecls n).signExtend 64).toNat, n⟩

/-- The names in an instruction that have a declaration. -/
def Resolved (s : SymbolTable) (i : Item) : Prop :=
  (∀ n, i.jumpName? = some n → intAddr s.labelDecls n ≠ -1) ∧ ∀ n, i.callName? = some n → intAddr s.procDecls n ≠ -1

/-- The opcode of an instruction, with `log` the calls logged up to and including its own. -/
def opcodeOf (s : SymbolTable) (log : List Symbol) (scope : Option CStr) (o : OpType) : Option TasmAst → Opcode
  | some (.number _ v) => .withUi32 o o.numberType v
  | some (.char (some c)) => .withUi32 o .character ((c.getD 0 0).signExtend 32)
  | some (.labelCall (some n)) =>
    .withUi32 o .vmAddress (if o.operandKind = .label then intAddr s.procDecls n else intAddr log (labelName scope n))
  | _ => .plain o

theorem translateLine_nothing {o : OpType} (h : o.operandKind = .nothing) (t : TasmTranslator)
    (scope : Option CStr) (operand : Option TasmAst) :
    tasmTranslateLine t scope false (.op o none operand) = programPush t (.plain o) := by
  cases o <;> first
    | rfl
    | cases h

theorem translateLine_int {o : OpType} (h : o.operandKind = .int) (t : TasmTranslator)
    (scope : Option CStr) (operand : Option TasmAst) :
    tasmTranslateLine t scope false (.op o none operand) = pushNumber t o o.numberType operand := by
  cases o <;> first
    | rfl
    | cases h

theorem translateLine_jump {o : OpType} (h : o.operandKind = .jump) (t : TasmTranslator)
    (scope : Option CStr) (operand : Option TasmAst) :
    tasmTranslateLine t scope false (.op o none operand) = translateJump t o scope operand ∧
      o.numberType = .vmAddress := by
  cases o <;> first
    | exact ⟨rfl, rfl⟩
    | cases h

theorem operandKind_push {o : OpType} (h : o.operandKind = .push) : o = .push := by
  cases o <;> first
    | rfl
    | cases h

theorem operandKind_label {o : OpType} (h : o.operandKind = .label) : o = .call := by
  cases o <;> first
    | rfl
    | cases h

/-- What an emitted opcode changes. -/
structure Pushed (t : TasmTranslator) (c : Opcode) (t' : TasmTranslator) : Prop where
  fits : t.program.size < tvmProgramCapacity
  code : t'.program.code = t.program.code.put t.program.size c
  size : t'.program.size = t.program.size + 1
  symbols : t'.symbols = t.symbols

theorem programPush_ok {t t' : TasmTranslator} {c : Opcode} (h : programPush t c = .ok t') : Pushed t c t' := by
  unfold programPush at h
  cases hs : t.program.code.store (Fault.outOfBounds .code) t.program.size c with
  | error e => rw [hs] at h; cases h
  | ok cells =>
    rw [hs] at h
    cases h
    obtain ⟨hlt, rfl⟩ := CArray.store_ok.mp hs
    exact ⟨hlt, rfl, rfl, rfl⟩

/-- The outcome of an instruction: an unresolved name, or one opcode, with its name logged. -/
inductive InstOutcome (t : TasmTranslator) (scope : Option CStr) (o : OpType) (operand : Option TasmAst)
    (t' : TasmTranslator) : Prop
  | unresolved (herr : t'.symbols.err = true) (hlog : t'.symbols.labelCalls = t.symbols.labelCalls)
  | emitted (log : List Symbol)
      (hlog : log = t.symbols.labelCalls ++ (loggedCall t.symbols (.inst scope o operand)).toList)
      (hres : Resolved t.symbols (.inst scope o operand))
      (hpush : Pushed { t with symbols := { t.symbols with labelCalls := log } } (opcodeOf t.symbols log scope o operand) t')

/-! ## Lookups -/

/-- An address goes through `int` and back to `size_t` unchanged in its low 32 bits. -/
theorem ofNat_signExtend (a : BitVec 32) : BitVec.ofNat 32 (a.signExtend 64).toNat = a := by
  rw [BitVec.ofNat_toNat]
  ext i hi
  simp [BitVec.getLsbD_signExtend, hi]
  omega

theorem intAddr_find {table : List Symbol} {n : CStr} {e : Symbol} (h : table.find? (·.name == n) = some e) :
    intAddr table n = .ofNat 32 e.addr := by
  rw [intAddr, getAddr, h]

theorem intAddr_missing {table : List Symbol} {n : CStr} (h : ∀ e ∈ table, e.name ≠ n) : intAddr table n = -1 := by
  have hnone : table.find? (·.name == n) = none := by
    rw [List.find?_eq_none]
    intro e he
    simpa using h e he
  rw [intAddr, getAddr, hnone]
  rfl

/-- A name in the table is found, under the first entry that has it. -/
theorem find_of_mem {table : List Symbol} {n : CStr} (h : ∃ e ∈ table, e.name = n) :
    ∃ e ∈ table, e.name = n ∧ table.find? (·.name == n) = some e := by
  obtain ⟨e, he, hn⟩ := h
  cases hf : table.find? (·.name == n) with
  | none =>
    rw [List.find?_eq_none] at hf
    exact absurd hn (by simpa using hf e he)
  | some e' => exact ⟨e', List.mem_of_find?_eq_some hf, by simpa using List.find?_some hf, rfl⟩

/-! ## One instruction -/

theorem translateLabelCall_ok {t t' : TasmTranslator} {scope label : Option CStr} {isCall : Bool} {name : CStr}
    (h : translateLabelCall t scope isCall label = .ok (t', name)) :
    ∃ l, label = some l ∧ name = labelName scope l ∧
      ∃ addr, addr = (if scope.isNone && isCall then intAddr t.symbols.procDecls name
          else intAddr t.symbols.labelDecls name) ∧
        (t'.symbols.err = true ∧ t'.symbols.labelCalls = t.symbols.labelCalls ∨
          addr ≠ -1 ∧ t' = { t with symbols := { t.symbols with
            labelCalls := t.symbols.labelCalls ++ [⟨(addr.signExtend 64).toNat, name⟩] } }) := by
  unfold translateLabelCall at h
  obtain ⟨l, hl, hrest⟩ := Except.bind_ok h
  obtain rfl := nonNull_ok hl
  refine ⟨l, rfl, ?_⟩
  dsimp only at hrest
  generalize haddr : (if scope.isNone && isCall then intAddr t.symbols.procDecls (labelName scope l)
    else intAddr t.symbols.labelDecls (labelName scope l)) = addr at hrest
  split at hrest
  · cases hrest
    exact ⟨rfl, addr, haddr.symm, .inl ⟨rfl, rfl⟩⟩
  · rename_i hne
    obtain ⟨log, hlog, hend⟩ := Except.bind_ok hrest
    obtain rfl := pushSymbol_ok hlog
    cases hend
    exact ⟨rfl, addr, haddr.symm, .inr ⟨hne, rfl⟩⟩

/-- The entries of the log are addresses that were found. -/
def LogFound (log : List Symbol) : Prop := ∀ e ∈ log, BitVec.ofNat 32 e.addr ≠ -1

theorem LogFound.snoc {log : List Symbol} (h : LogFound log) {addr : BitVec 32} (ha : addr ≠ -1) (n : CStr) :
    LogFound (log ++ [⟨(addr.signExtend 64).toNat, n⟩]) := by
  simp only [LogFound, List.forall_mem_append, List.forall_mem_singleton]
  exact ⟨h, by rwa [ofNat_signExtend]⟩

theorem jump_outcome {t t' : TasmTranslator} {scope : Option CStr} {o : OpType} {label : Option CStr}
    (hlog : LogFound t.symbols.labelCalls) (hk : o.operandKind = .jump)
    (h : translateJump t o scope (some (.labelCall label)) = .ok t') :
    InstOutcome t scope o (some (.labelCall label)) t' := by
  unfold translateJump at h
  rw [Except.bind_of_ok (show nonNull (some (TasmAst.labelCall label)) = _ from rfl)] at h
  obtain ⟨⟨t₁, name⟩, hcall, hrest⟩ := Except.bind_ok h
  obtain ⟨l, rfl, rfl, addr, haddr, hout⟩ := translateLabelCall_ok hcall
  dsimp only at hrest
  rcases hout with ⟨herr, hsame⟩ | ⟨hne, rfl⟩
  · have hsym : t'.symbols = t₁.symbols := by
      split at hrest
      · cases hrest; rfl
      · exact (programPush_ok hrest).symbols
    exact .unresolved (by rw [hsym, herr]) (by rw [hsym, hsame])
  · simp only [Bool.and_false, Bool.false_eq_true, if_false] at haddr
    have hentry : loggedCall t.symbols (.inst scope o (some (.labelCall (some l)))) =
        some ⟨(addr.signExtend 64).toNat, labelName scope l⟩ := by
      simp [loggedCall, Item.jumpName?, hk, haddr]
    -- the entry just logged has the name, so the lookup in the log succeeds
    have hmem : ∃ e ∈ t.symbols.labelCalls ++ [⟨(addr.signExtend 64).toNat, labelName scope l⟩],
        e.name = labelName scope l := ⟨_, List.mem_append_right _ (List.mem_singleton_self _), rfl⟩
    obtain ⟨e, he, -, hf⟩ := find_of_mem hmem
    have hfound := hlog.snoc hne (labelName scope l) e he
    rw [← intAddr_find hf] at hfound
    rw [if_neg hfound] at hrest
    refine .emitted _ (by rw [hentry]) ⟨fun n hn => ?_, fun n hn => ?_⟩ ?_
    · simp only [Item.jumpName?, hk, if_true, Option.map_some, Option.some.injEq] at hn
      rwa [← hn, ← haddr]
    · simp [Item.callName?, hk] at hn
    · simpa [opcodeOf, hk] using programPush_ok hrest

theorem call_outcome {t t' : TasmTranslator} {scope label : Option CStr}
    (h : translateCall t (some (.labelCall label)) = .ok t') :
    InstOutcome t scope .call (some (.labelCall label)) t' := by
  unfold translateCall at h
  rw [Except.bind_of_ok (show nonNull (some (TasmAst.labelCall label)) = _ from rfl)] at h
  obtain ⟨⟨t₁, name⟩, hcall, hrest⟩ := Except.bind_ok h
  obtain ⟨l, rfl, hname, addr, haddr, hout⟩ := translateLabelCall_ok hcall
  obtain rfl : name = l := hname
  dsimp only at hrest
  rcases hout with ⟨herr, hsame⟩ | ⟨hne, rfl⟩
  · have hsym : t'.symbols = t₁.symbols := by
      split at hrest
      · cases hrest; rfl
      · exact (programPush_ok hrest).symbols
    exact .unresolved (by rw [hsym, herr]) (by rw [hsym, hsame])
  · simp only [Option.isNone_none, Bool.and_self, if_true] at haddr
    rw [← haddr, if_neg hne] at hrest
    refine .emitted (t.symbols.labelCalls ++ [⟨(addr.signExtend 64).toNat, name⟩]) ?_ ⟨fun n hn => ?_, fun n hn => ?_⟩ ?_
    · simp [loggedCall, Item.jumpName?, Item.callName?, OpType.operandKind, haddr]
    · simp [Item.jumpName?, OpType.operandKind] at hn
    · simp only [Item.callName?, OpType.operandKind, if_true, Option.some.injEq] at hn
      rwa [← hn, ← haddr]
    · simpa [opcodeOf, OpType.operandKind, haddr, labelName] using programPush_ok hrest

/-- An instruction without a name logs nothing and is one opcode. -/
theorem emitted_of_push {t t' : TasmTranslator} {scope : Option CStr} {o : OpType} {operand : Option TasmAst}
    (hj : (Item.inst scope o operand).jumpName? = none) (hc : (Item.inst scope o operand).callName? = none)
    (h : programPush t (opcodeOf t.symbols t.symbols.labelCalls scope o operand) = .ok t') :
    InstOutcome t scope o operand t' := by
  refine .emitted t.symbols.labelCalls (by simp [loggedCall, hj, hc]) ⟨by simp [hj], by simp [hc]⟩ ?_
  exact programPush_ok h

section Steps

variable {N : Option CStr → Prop}

/-- Every operand of the right kind makes one opcode, unless its name is unresolved. -/
theorem inst_outcome {t t' : TasmTranslator} {scope : Option CStr} {o : OpType} {operand : Option TasmAst}
    (hlog : LogFound t.symbols.labelCalls) (hfit : o.operandKind.Fits N operand)
    (h : tasmTranslateLine t scope false (.op o none operand) = .ok t') : InstOutcome t scope o operand t' := by
  generalize hk : o.operandKind = kind at hfit
  cases hfit with
  | nothing =>
    rw [translateLine_nothing hk] at h
    exact emitted_of_push rfl rfl h
  | pushNumber text v =>
    obtain rfl := operandKind_push hk
    exact emitted_of_push rfl rfl h
  | pushChar c =>
    obtain rfl := operandKind_push hk
    cases c with
    | none => cases h
    | some c => exact emitted_of_push rfl rfl h
  | int text v =>
    rw [translateLine_int hk] at h
    exact emitted_of_push rfl rfl h
  | jumpNumber text v =>
    obtain ⟨heq, htype⟩ := translateLine_jump hk t scope (some (.number text v))
    rw [heq] at h
    refine emitted_of_push rfl rfl ?_
    rw [opcodeOf, htype]
    exact h
  | jumpLabel n hn =>
    rw [(translateLine_jump hk t scope (some (.labelCall n))).1] at h
    exact jump_outcome hlog hk h
  | label n hn =>
    obtain rfl := operandKind_label hk
    exact call_outcome h

/-! ## Documents of well-formed files -/

/-- The items that a well-formed file has. -/
inductive ItemFits (N : Option CStr → Prop) : Item → Prop
  | inst (scope : Option CStr) (o : OpType) (operand : Option TasmAst) (hs : ∀ p, scope = some p → N (some p))
      (h : o.operandKind.Fits N operand) : ItemFits N (.inst scope o operand)
  | label (scope name : Option CStr) (hs : ∀ p, scope = some p → N (some p)) (hn : N name) :
      ItemFits N (.label scope name)
  | proc (name : Option CStr) (hn : N name) : ItemFits N (.proc name)
  | metadata (node : TasmAst) (h : FileLine N node) (hline : ¬ ProcLine N node) : ItemFits N (.metadata node)

theorem lineItem_fits {l : TasmAst} (h : ProcLine N l) {scope : Option CStr} (hs : ∀ p, scope = some p → N (some p)) :
    ItemFits N (lineItem scope l) := by
  cases h with
  | op o name operand hfit => exact .inst scope o operand hs hfit
  | labelDecl n hn => exact .label scope n hs hn

theorem items_fit {ast : TasmAst} (h : WellFormed N ast) : ∀ i ∈ ast.items, ItemFits N i := by
  obtain ⟨lines, h⟩ := h
  intro i hi
  obtain ⟨l, hl, hi⟩ := List.mem_flatMap.mp hi
  have hfile := h l hl
  cases h l hl with
  | line _ hline =>
    have heq : fileItems l = [lineItem none l] := by cases hline <;> rfl
    rw [heq, List.mem_singleton] at hi
    rw [hi]
    exact lineItem_fits hline (by simp)
  | proc name lines hn hlines =>
    rw [fileItems, List.mem_cons, List.mem_map] at hi
    rcases hi with rfl | ⟨l', hl', rfl⟩
    · exact .proc name hn
    · exact lineItem_fits (hlines l' hl') (fun p hp => hp ▸ hn)
  | cfunction | cstruct | data =>
    rw [List.mem_singleton.mp hi]
    exact .metadata _ hfile (by rintro ⟨⟩)

/-- Metadata leaves the symbols and the code alone. -/
theorem metadata_frame {t t' : TasmTranslator} {node : TasmAst} (h : FileLine N node) (hline : ¬ ProcLine N node)
    (hs : emitStep t (.metadata node) = .ok t') :
    t'.symbols = t.symbols ∧ t'.program.code = t.program.code ∧ t'.program.size = t.program.size := by
  cases h with
  | line _ h => exact absurd h hline
  | proc | cstruct => cases hs; exact ⟨rfl, rfl, rfl⟩
  | cfunction rtype atypes name =>
    simp only [emitStep, tasmTranslateLine, tasmTranslateCfunction] at hs
    split at hs <;> cases hs
    exact ⟨rfl, rfl, rfl⟩
  | data value =>
    simp only [emitStep, tasmTranslateLine, tasmTranslateData] at hs
    obtain ⟨v, -, hs⟩ := Except.bind_ok hs
    obtain ⟨bytes, -, hs⟩ := Except.bind_ok hs
    cases hs
    exact ⟨rfl, rfl, rfl⟩

/-! ## The emission pass -/

/-- The calls logged over some items. -/
def callLog (s : SymbolTable) (items : List Item) : List Symbol := items.filterMap (loggedCall s)

/-- The state of the third pass after some items without an unresolved name. -/
structure Emitted (t₀ : TasmTranslator) (items : List Item) (t : TasmTranslator) : Prop where
  symbols : t.symbols = { t₀.symbols with labelCalls := callLog t₀.symbols items }
  size : t.program.size = instCount items
  fits : instCount items ≤ tvmProgramCapacity
  found : LogFound t.symbols.labelCalls
  resolved : ∀ i ∈ items, Resolved t₀.symbols i
  code : ∀ pre scope o operand post, items = pre ++ .inst scope o operand :: post →
    t.program.code.get? (instCount pre) =
      some (opcodeOf t₀.symbols (callLog t₀.symbols (pre ++ [.inst scope o operand])) scope o operand)

/-- An item that emits and logs nothing. -/
theorem Emitted.skip {t₀ t t' : TasmTranslator} {items : List Item} {i : Item} (h : Emitted t₀ items t)
    (hi : i.size = 0) (hj : i.jumpName? = none) (hc : i.callName? = none) (hsym : t'.symbols = t.symbols)
    (hcode : t'.program.code = t.program.code) (hsize : t'.program.size = t.program.size) :
    Emitted t₀ (items ++ [i]) t' where
  symbols := by rw [hsym, h.symbols]; simp [callLog, loggedCall, hj, hc]
  size := by simp [hsize, h.size, hi]
  fits := by simpa [hi] using h.fits
  found := by rw [hsym]; exact h.found
  resolved := by
    simp only [List.forall_mem_append, List.forall_mem_singleton]
    exact ⟨h.resolved, by simp [hj], by simp [hc]⟩
  code := by
    intro pre scope o operand post heq
    rw [hcode]
    rcases List.eq_nil_or_concat post with rfl | ⟨post, j, rfl⟩
    · have hlast := (List.append_inj' heq rfl).2
      cases hlast
      cases hi
    · refine h.code pre scope o operand post ?_
      have heq' : items ++ [i] = (pre ++ .inst scope o operand :: post) ++ [j] := by simpa using heq
      exact (List.append_inj' heq' rfl).1

/-- A logged call has an address that was found. -/
theorem Resolved.found {s : SymbolTable} {i : Item} (h : Resolved s i) {e : Symbol} (he : loggedCall s i = some e) :
    BitVec.ofNat 32 e.addr ≠ -1 := by
  unfold loggedCall at he
  cases hj : i.jumpName? with
  | some n =>
    rw [hj] at he
    cases he
    rw [ofNat_signExtend]
    exact h.1 n hj
  | none =>
    rw [hj] at he
    obtain ⟨n, hc, rfl⟩ := Option.map_eq_some_iff.mp he
    rw [ofNat_signExtend]
    exact h.2 n hc

/-- An instruction puts its opcode behind those of the items before it. -/
theorem Emitted.inst {t₀ t t' : TasmTranslator} {items : List Item} {scope : Option CStr} {o : OpType}
    {operand : Option TasmAst} (h : Emitted t₀ items t) {log : List Symbol}
    (hlog : log = t.symbols.labelCalls ++ (loggedCall t.symbols (.inst scope o operand)).toList)
    (hres : Resolved t.symbols (.inst scope o operand))
    (hpush : Pushed { t with symbols := { t.symbols with labelCalls := log } }
      (opcodeOf t.symbols log scope o operand) t') :
    Emitted t₀ (items ++ [.inst scope o operand]) t' := by
  -- the declarations are those of the first two passes
  have hsame : loggedCall t.symbols (.inst scope o operand) = loggedCall t₀.symbols (.inst scope o operand) := by
    rw [h.symbols]; rfl
  have hres₀ : Resolved t₀.symbols (.inst scope o operand) := by
    rw [h.symbols] at hres; exact hres
  have hop : opcodeOf t.symbols log scope o operand = opcodeOf t₀.symbols log scope o operand := by
    rw [h.symbols]
    unfold opcodeOf
    rfl
  have hcalls : log = callLog t₀.symbols (items ++ [.inst scope o operand]) := by
    rw [hlog, hsame, h.symbols, callLog, callLog, List.filterMap_append]
    cases hc : loggedCall t₀.symbols (.inst scope o operand) <;> simp [hc]
  have hsize : t.program.size = instCount items := h.size
  have hfits : t.program.size < tvmProgramCapacity := hpush.fits
  have hsymbols : t'.symbols = { t.symbols with labelCalls := log } := hpush.symbols
  refine ⟨?_, ?_, ?_, ?_, ?_, ?_⟩
  · rw [hsymbols, ← hcalls, h.symbols]
  · rw [hpush.size]
    simp [hsize, Item.size]
  · simp only [instCount_append, instCount_cons, Item.size, instCount_nil]
    omega
  · rw [hsymbols, hlog]
    intro e he
    rcases List.mem_append.mp he with he | he
    · exact h.found e he
    · exact hres.found (Option.mem_toList.mp he)
  · simp only [List.forall_mem_append, List.forall_mem_singleton]
    exact ⟨h.resolved, hres₀⟩
  · intro pre scope' o' operand' post heq
    rw [hpush.code]
    -- the new cell, or one of those before it
    rcases List.eq_nil_or_concat post with rfl | ⟨post, j, rfl⟩
    · obtain ⟨hpre, hlast⟩ := List.append_inj' heq rfl
      cases hlast
      rw [← hpre, ← hcalls, ← hop, ← hsize]
      exact CArray.get?_put_self _ _ hfits
    · have heq' : items ++ [.inst scope o operand] = (pre ++ .inst scope' o' operand' :: post) ++ [j] := by
        simpa using heq
      have hitems := (List.append_inj' heq' rfl).1
      have hlt : instCount pre < t.program.size := by
        rw [hsize, hitems]
        simp only [instCount_append, instCount_cons, Item.size]
        omega
      rw [CArray.get?_put_of_ne _ _ (Nat.ne_of_lt hlt)]
      exact h.code pre scope' o' operand' post hitems

/-- What every item keeps: the log holds addresses, and either a name was unresolved or all is emitted. -/
theorem emitStep_spec {t₀ t t' : TasmTranslator} {items : List Item} {i : Item} (hi : ItemFits N i)
    (hlog : LogFound t.symbols.labelCalls) (h : t.symbols.err = true ∨ Emitted t₀ items t)
    (hs : emitStep t i = .ok t') :
    LogFound t'.symbols.labelCalls ∧ (t'.symbols.err = true ∨ Emitted t₀ (items ++ [i]) t') := by
  cases hi with
  | inst scope o operand _ hfit =>
    rcases inst_outcome hlog hfit hs with ⟨herr, hsame⟩ | ⟨log, hcalls, hres, hpush⟩
    · exact ⟨by rwa [hsame], .inl herr⟩
    · have hsymbols : t'.symbols = { t.symbols with labelCalls := log } := hpush.symbols
      refine ⟨?_, h.imp (fun herr => by rw [hsymbols]; exact herr) fun h => h.inst hcalls hres hpush⟩
      rw [hsymbols, hcalls]
      intro e he
      rcases List.mem_append.mp he with he | he
      · exact hlog e he
      · exact hres.found (Option.mem_toList.mp he)
  | label | proc =>
    cases hs
    exact ⟨hlog, h.imp_right fun h => h.skip rfl rfl rfl rfl rfl rfl⟩
  | metadata node hnode hline =>
    obtain ⟨hsym, hcode, hsize⟩ := metadata_frame hnode hline hs
    refine ⟨by rwa [hsym], h.imp (fun herr => by rw [hsym]; exact herr) fun h => ?_⟩
    exact h.skip rfl rfl rfl hsym hcode hsize

/-- The third pass on a document: without an unresolved name, one opcode for each instruction. -/
theorem unit_emitted {t₀ t : TasmTranslator} {items : List Item} (hitems : ∀ i ∈ items, ItemFits N i)
    (hlog : t₀.symbols.labelCalls = []) (hsize : t₀.program.size = 0) (h : items.foldlM emitStep t₀ = .ok t)
    (herr : t.symbols.err = false) : Emitted t₀ items t := by
  have hrun := Except.foldlM_inv
    (fun items t => LogFound t.symbols.labelCalls ∧ (t.symbols.err = true ∨ Emitted t₀ items t)) items [] t₀ t
    (fun pre i post c c' heq hP hs =>
      emitStep_spec (hitems i (by rw [← List.nil_append items, heq]; simp)) hP.1 hP.2 hs) ?_ h
  · rcases hrun.2 with he | he
    · rw [he] at herr; cases herr
    · exact he
  · have hfound : LogFound t₀.symbols.labelCalls := by simp [hlog, LogFound]
    refine ⟨hfound, .inr ⟨by simp [callLog, ← hlog], hsize, by simp, hfound, by simp, ?_⟩⟩
    intro pre scope o operand post heq
    simp at heq

end Steps

end TileVm
