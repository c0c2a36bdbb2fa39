/-
Where jumps and calls go. A call reads the table of procs and is always right. A jump reads its
address back from the log of resolved names, in which the first entry with the name wins: that of
a call, when a proc of the same name was called before the first jump to the label.
-/
import Mathlib.Data.List.Nodup
import TileVm.Tasm.LexerProgress
import TileVm.Tasm.TranslatorAgree

namespace TileVm

/-! ## Names -/

/-- A text that the lexer makes an identifier of. -/
def IdName (name : Option CStr) : Prop := ∃ v, name = some v ∧ ∀ b ∈ v, isIdChar b = true

theorem ids_init {N : Option CStr → Prop} {ts : List TasmToken} (h : ∀ t ∈ ts, t.type = .id → N t.value) :
    Ids N (tasmParserInit ts) := by
  intro t ht hid
  rcases ts with _ | ⟨u, us⟩
  · simp [TasmParser.tokens, tasmParserInit, TasmToken.eof] at ht
    rcases ht with rfl | rfl <;> cases hid
  · simp [TasmParser.tokens, tasmParserInit] at ht
    rcases ht with rfl | rfl | ht
    · cases hid
    · exact h t (List.mem_cons_self ..) hid
    · exact h t (List.mem_cons_of_mem _ ht) hid

/-- No identifier holds the separator of proc and label. -/
theorem IdName.no_dollar {v : CStr} (h : IdName (some v)) : chr '$' ∉ v := by
  obtain ⟨w, hw, hall⟩ := h
  cases hw
  intro hmem
  exact absurd (hall _ hmem) (by decide)

theorem split_dollar {p q : CStr} (hp : chr '$' ∉ p) : (p ++ cstr "$" ++ q).takeWhile (· != chr '$') = p := by
  have hdollar : cstr "$" = [chr '$'] := rfl
  rw [hdollar, List.append_assoc, List.takeWhile_append_of_pos]
  · simp
  · intro b hb
    simp only [bne_iff_ne, ne_eq]
    rintro rfl
    exact hp hb

/-- The text `proc$label` tells the proc and the label apart. -/
theorem labelName_inj {s s' : Option CStr} {x x' : CStr} (hs : ∀ p, s = some p → IdName (some p))
    (hs' : ∀ p, s' = some p → IdName (some p)) (hx : IdName (some x)) (hx' : IdName (some x'))
    (h : labelName s x = labelName s' x') : s = s' ∧ x = x' := by
  have dollar_mem (p q : CStr) : chr '$' ∈ p ++ cstr "$" ++ q := by
    have : chr '$' ∈ cstr "$" := by decide
    simp [this]
  cases s with
  | none =>
    cases s' with
    | none => exact ⟨rfl, h⟩
    | some p' =>
      have h : x = p' ++ cstr "$" ++ x' := h
      exact absurd (h ▸ dollar_mem p' x') hx.no_dollar
  | some p =>
    cases s' with
    | none =>
      have h : p ++ cstr "$" ++ x = x' := h
      exact absurd (h ▸ dollar_mem p x) hx'.no_dollar
    | some p' =>
      have h : p ++ cstr "$" ++ x = p' ++ cstr "$" ++ x' := h
      obtain rfl : p = p' := by
        rw [← split_dollar (q := x) (hs p rfl).no_dollar, h, split_dollar (hs' p' rfl).no_dollar]
      exact ⟨rfl, List.append_cancel_left h⟩

/-! ## Lookups in the tables of declarations -/

section Tables

variable {name? : Item → Option CStr} {items pre post : List Item} {i : Item} {n : CStr}

/-- A declared name is found at the position of its declaration. -/
theorem intAddr_declared (hnodup : ((declared name? 0 items).map (·.name)).Nodup) (heq : items = pre ++ i :: post)
    (hi : name? i = some n) : intAddr (declared name? 0 items) n = .ofNat 32 (instCount pre) := by
  have hmem : ⟨instCount pre, n⟩ ∈ declared name? 0 items := by
    rw [heq]
    exact List.mem_of_getElem? (declared_getElem? name? hi)
  obtain ⟨e, he, hname, hf⟩ := find_of_mem ⟨_, hmem, rfl⟩
  rw [intAddr_find hf, List.inj_on_of_nodup_map hnodup he hmem hname]

/-- A name that is found was declared. -/
theorem declared_of_intAddr (h : intAddr (declared name? 0 items) n ≠ -1) :
    ∃ pre i post, items = pre ++ i :: post ∧ name? i = some n := by
  by_contra hnone
  push Not at hnone
  refine h (intAddr_missing fun e he hn => ?_)
  obtain ⟨pre, i, post, heq, hname, -⟩ := mem_declared he
  exact hnone pre i post heq (by rw [hname, hn])

theorem instCount_le (heq : items = pre ++ i :: post) : instCount pre ≤ instCount items := by
  rw [heq, instCount_append]
  exact Nat.le_add_right _ _

end Tables

theorem procName_eq {i : Item} {n : CStr} (h : i.procName? = some n) : i = .proc (some n) := by
  cases i with
  | proc name => cases h; rfl
  | inst | label | metadata => cases h

theorem labelName_eq {i : Item} {n : CStr} (h : i.labelName? = some n) :
    ∃ scope x, i = .label scope (some x) ∧ n = labelName scope x := by
  cases i with
  | label scope name =>
    obtain ⟨x, rfl, rfl⟩ := Option.map_eq_some_iff.mp h
    exact ⟨scope, x, rfl, rfl⟩
  | inst | proc | metadata => cases h

theorem callName_eq {i : Item} {n : CStr} (h : i.callName? = some n) :
    ∃ scope o, i = .inst scope o (some (.labelCall (some n))) ∧ o.operandKind = .label := by
  unfold Item.callName? at h
  split at h
  · rename_i scope o name
    split at h
    · exact ⟨scope, o, by rw [h], ‹_›⟩
    · cases h
  · cases h

theorem jumpName_eq {i : Item} {n : CStr} (h : i.jumpName? = some n) :
    ∃ scope o x, i = .inst scope o (some (.labelCall (some x))) ∧ o.operandKind = .jump ∧ n = labelName scope x := by
  unfold Item.jumpName? at h
  split at h
  · rename_i scope o name
    split at h
    · obtain ⟨x, rfl, rfl⟩ := Option.map_eq_some_iff.mp h
      exact ⟨scope, o, x, rfl, ‹_›, rfl⟩
    · cases h
  · cases h

/-! ## Lookups in the log -/

/-- The name that an item logs. -/
def Item.loggedName? (i : Item) : Option CStr :=
  match i.jumpName? with
  | some n => some n
  | none => i.callName?

theorem loggedCall_name (s : SymbolTable) (i : Item) : (loggedCall s i).map (·.name) = i.loggedName? := by
  unfold loggedCall Item.loggedName?
  cases i.jumpName? with
  | some n => rfl
  | none => cases i.callName? <;> rfl

/-- The first item that logs a name. -/
def firstLogged (items : List Item) (n : CStr) : Option Item := items.find? (·.loggedName? == some n)

/-- The first item that logs the name decides its address in the log. -/
theorem intAddr_callLog {s : SymbolTable} {items : List Item} {n : CStr} {j : Item}
    (h : firstLogged items n = some j) :
    intAddr (callLog s items) n = if j.jumpName? = some n then intAddr s.labelDecls n else intAddr s.procDecls n := by
  unfold firstLogged at h
  have hj : j.loggedName? = some n := by simpa using List.find?_some h
  have hfind : (callLog s items).find? (·.name == n) = loggedCall s j := by
    have hpred : (fun i => (loggedCall s i).any (·.name == n)) = fun i => i.loggedName? == some n := by
      funext i
      rw [← loggedCall_name s i]
      cases loggedCall s i <;> simp
    rw [callLog, List.find?_filterMap, hpred, h]
    rfl
  unfold Item.loggedName? at hj
  unfold loggedCall at hfind
  cases hjump : j.jumpName? with
  | some m =>
    rw [hjump] at hj hfind
    cases hj
    rw [if_pos rfl, intAddr_find hfind, ofNat_signExtend]
  | none =>
    simp only [hjump] at hj hfind
    rw [hj] at hfind
    rw [if_neg (by simp), intAddr_find hfind, ofNat_signExtend]

/-! ## Targets -/

/-- Every jump to a label goes to the address that `label_decls` records for the label of that name
declared in the scope of the jump. -/
def JumpsReachLabels (ast : TasmAst) (t : TasmTranslator) : Prop :=
  ∀ pre scope o x post, ast.items = pre ++ .inst scope o (some (.labelCall (some x))) :: post → o ∈ [.jmp, .jz, .jnz] →
    ∃ c before after addr, t.program.code.get? (instCount pre) = some c ∧ c.type = o.code ∧
      ast.items = before ++ .label scope (some x) :: after ∧
      t.symbols.labelDecls[(before.filterMap Item.labelName?).length]? = some ⟨addr, labelName scope x⟩ ∧
      c.operand.ui32.toNat = addr

/-- Every call goes to the address that `proc_decls` records for the proc of that name. -/
def CallsReachProcs (ast : TasmAst) (t : TasmTranslator) : Prop :=
  ∀ pre scope x post, ast.items = pre ++ .inst scope .call (some (.labelCall (some x))) :: post →
    ∃ c before after addr, t.program.code.get? (instCount pre) = some c ∧ c.type = OpType.call.code ∧
      ast.items = before ++ .proc (some x) :: after ∧
      t.symbols.procDecls[(before.filterMap Item.procName?).length]? = some ⟨addr, x⟩ ∧ c.operand.ui32.toNat = addr

/-- A jump to the label `x` at file level. -/
def FileJump (x : CStr) (i : Item) : Prop :=
  ∃ o ∈ [OpType.jmp, .jz, .jnz], i = .inst none o (some (.labelCall (some x)))

/-- A call of the proc `x`, anywhere. -/
def ProcCall (x : CStr) (i : Item) : Prop := ∃ scope, i = .inst scope .call (some (.labelCall (some x)))

/-- When a proc is called before the first file-level jump to a label of its name, the label and the
proc stand at the same position. -/
def NoCallShadows (items : List Item) : Prop :=
  ∀ x pre c post, items = pre ++ c :: post → ProcCall x c → (∀ i ∈ pre, ¬ FileJump x i) → (∃ i ∈ post, FileJump x i) →
    ∀ a b a' b', items = a ++ .label none (some x) :: b → items = a' ++ .proc (some x) :: b' → instCount a = instCount a'

theorem operandKind_jump {o : OpType} : o.operandKind = .jump ↔ o ∈ [OpType.jmp, .jz, .jnz] := by
  cases o <;> decide

theorem ui32_of_addr (o : OpType) {n : Nat} (h : n ≤ tvmProgramCapacity) :
    (Opcode.withUi32 o .vmAddress (.ofNat 32 n)).operand.ui32.toNat = n := by
  have : tvmProgramCapacity = 1024 := rfl
  rw [Opcode.withUi32_ui32, BitVec.toNat_ofNat]
  omega

section Targets

variable {ast : TasmAst} {t : TasmTranslator} {pre post : List Item} {scope : Option CStr} {o : OpType} {x : CStr}

/-- Up to and including an item that logs a name, there is a first one. -/
theorem firstLogged_isSome (pre : List Item) {i : Item} {n : CStr} (hi : i.loggedName? = some n) :
    ∃ j, firstLogged (pre ++ [i]) n = some j := by
  cases hf : firstLogged (pre ++ [i]) n with
  | some j => exact ⟨j, rfl⟩
  | none =>
    rw [firstLogged, List.find?_eq_none] at hf
    exact absurd hi (by simpa using hf i (by simp))

theorem loggedName_jump (ho : o.operandKind = .jump) :
    (Item.inst scope o (some (.labelCall (some x)))).loggedName? = some (labelName scope x) := by
  simp [Item.loggedName?, Item.jumpName?, ho]

theorem loggedName_call : (Item.inst scope .call (some (.labelCall (some x)))).loggedName? = some x := by
  simp [Item.loggedName?, Item.jumpName?, Item.callName?, OpType.operandKind]

/-- The address that a jump gets: that of the first item to log its name. -/
theorem Translated.jump_code (h : Translated ast t)
    (heq : ast.items = pre ++ .inst scope o (some (.labelCall (some x))) :: post) (ho : o.operandKind = .jump) :
    ∃ j, firstLogged (pre ++ [.inst scope o (some (.labelCall (some x)))]) (labelName scope x) = some j ∧
      t.program.code.get? (instCount pre) = some (.withUi32 o .vmAddress
        (if j.jumpName? = some (labelName scope x) then intAddr t.symbols.labelDecls (labelName scope x)
          else intAddr t.symbols.procDecls (labelName scope x))) := by
  have hself : (Item.inst scope o (some (.labelCall (some x)))).loggedName? = some (labelName scope x) :=
    loggedName_jump ho
  obtain ⟨j, hj⟩ := firstLogged_isSome pre hself
  refine ⟨j, hj, ?_⟩
  rw [h.code pre scope o _ post heq, ← intAddr_callLog (s := t.symbols) hj]
  simp [opcodeOf, ho]

theorem Translated.label_addr (h : Translated ast t) (heq : ast.items = pre ++ .label scope (some x) :: post) :
    intAddr t.symbols.labelDecls (labelName scope x) = .ofNat 32 (instCount pre) := by
  have hnodup := h.labelsNodup
  rw [h.labelDecls] at hnodup ⊢
  exact intAddr_declared hnodup heq rfl

theorem Translated.proc_addr (h : Translated ast t) (heq : ast.items = pre ++ .proc (some x) :: post) :
    intAddr t.symbols.procDecls x = .ofNat 32 (instCount pre) := by
  have hnodup := h.procsNodup
  rw [h.procDecls] at hnodup ⊢
  exact intAddr_declared hnodup heq rfl

theorem Translated.called (h : Translated ast t) {i : Item} (hi : i ∈ ast.items) (hn : i.callName? = some x) :
    ∃ before after, ast.items = before ++ .proc (some x) :: after := by
  have hres := (h.resolved i hi).2 x hn
  rw [h.procDecls] at hres
  obtain ⟨before, j, after, hdecl, hj⟩ := declared_of_intAddr hres
  obtain rfl := procName_eq hj
  exact ⟨before, after, hdecl⟩

theorem Translated.calls_reach (h : Translated ast t) : CallsReachProcs ast t := by
  intro pre scope x post heq
  obtain ⟨before, after, hdecl⟩ := h.called (x := x) (i := .inst scope .call (some (.labelCall (some x))))
    (by simp [heq]) rfl
  refine ⟨_, before, after, instCount before, h.code pre scope .call _ post heq, rfl, hdecl, ?_, ?_⟩
  · rw [h.procDecls, hdecl]
    exact declared_getElem? Item.procName? rfl
  · simp only [opcodeOf, OpType.operandKind, if_true, h.proc_addr hdecl]
    exact ui32_of_addr _ (Nat.le_trans (instCount_le hdecl) h.fits)

/-! ## Scopes of names -/

/-- In the document of a file with identifiers for names, `labelName` is injective. -/
theorem ItemFits.jump_scope {i : Item} (hi : ItemFits IdName i) (hx : IdName (some x))
    (hs : ∀ p, scope = some p → IdName (some p)) (hj : i.jumpName? = some (labelName scope x)) :
    ∃ o ∈ [OpType.jmp, .jz, .jnz], i = .inst scope o (some (.labelCall (some x))) := by
  obtain ⟨scope', o, x', rfl, ho, heq⟩ := jumpName_eq hj
  cases hi with
  | inst _ _ _ hs' hfit =>
    rw [ho] at hfit
    cases hfit with
    | jumpLabel _ hn =>
      obtain ⟨rfl, rfl⟩ := labelName_inj hs hs' hx hn heq
      exact ⟨o, operandKind_jump.mp ho, rfl⟩

theorem ItemFits.call_scope {i : Item} (hi : ItemFits IdName i) (hx : IdName (some x))
    (hs : ∀ p, scope = some p → IdName (some p)) (hc : i.callName? = some (labelName scope x)) :
    scope = none ∧ ProcCall x i := by
  obtain ⟨scope', o, rfl, ho⟩ := callName_eq hc
  obtain rfl := operandKind_label ho
  cases hi with
  | inst _ _ _ hs' hfit =>
    cases hfit with
    | label _ hn =>
      have heq : labelName scope x = labelName none (labelName scope x) := rfl
      obtain ⟨rfl, hname⟩ := labelName_inj hs (by simp) hx hn heq
      exact ⟨rfl, scope', rfl⟩

theorem ItemFits.label_scope {i : Item} (hi : ItemFits IdName i) (hx : IdName (some x))
    (hs : ∀ p, scope = some p → IdName (some p)) (hl : i.labelName? = some (labelName scope x)) :
    i = .label scope (some x) := by
  obtain ⟨scope', x', rfl, heq⟩ := labelName_eq hl
  cases hi with
  | label _ _ hs' hn =>
    obtain ⟨rfl, rfl⟩ := labelName_inj hs hs' hx hn heq
    rfl

theorem ItemFits.jump_names (hi : ItemFits IdName (.inst scope o (some (.labelCall (some x))))) :
    IdName (some x) ∧ ∀ p, scope = some p → IdName (some p) := by
  cases hi with
  | inst _ _ _ hs hfit =>
    generalize o.operandKind = kind at hfit
    cases hfit with
    | jumpLabel _ hn => exact ⟨hn, hs⟩
    | label _ hn => exact ⟨hn, hs⟩

theorem Translated.jump_declared (h : Translated ast t) (hfit : ∀ i ∈ ast.items, ItemFits IdName i)
    (heq : ast.items = pre ++ .inst scope o (some (.labelCall (some x))) :: post) (ho : o.operandKind = .jump) :
    ∃ before after, ast.items = before ++ .label scope (some x) :: after := by
  have hmem : .inst scope o (some (.labelCall (some x))) ∈ ast.items := by simp [heq]
  obtain ⟨hx, hs⟩ := (hfit _ hmem).jump_names
  have hres := (h.resolved _ hmem).1 (labelName scope x) (by simp [Item.jumpName?, ho])
  rw [h.labelDecls] at hres
  obtain ⟨before, i, after, hdecl, hi⟩ := declared_of_intAddr hres
  obtain rfl := (hfit i (by simp [hdecl])).label_scope hx hs hi
  exact ⟨before, after, hdecl⟩

/-- An item that logs a name and jumps to none of that name is a call. -/
theorem callName_of_logged {j : Item} {n : CStr} (hlogs : j.loggedName? = some n) (hjump : j.jumpName? ≠ some n) :
    j.callName? = some n := by
  unfold Item.loggedName? at hlogs
  cases hn : j.jumpName? with
  | some m =>
    rw [hn] at hlogs hjump
    exact absurd hlogs hjump
  | none => rwa [hn] at hlogs

/-- When no jump is the first to log the name of a jump, a call of a proc is, and the jump is at file level. -/
theorem first_call (hfit : ∀ i ∈ ast.items, ItemFits IdName i)
    (heq : ast.items = pre ++ .inst scope o (some (.labelCall (some x))) :: post) {j : Item}
    (hj : firstLogged (pre ++ [.inst scope o (some (.labelCall (some x)))]) (labelName scope x) = some j)
    (hjump : j.jumpName? ≠ some (labelName scope x)) :
    j ∈ ast.items ∧ j.callName? = some (labelName scope x) ∧ scope = none ∧ ProcCall x j := by
  have hmem : .inst scope o (some (.labelCall (some x))) ∈ ast.items := by simp [heq]
  obtain ⟨hx, hs⟩ := (hfit _ hmem).jump_names
  have hcall := callName_of_logged (by simpa using List.find?_some hj) hjump
  have hjitems : j ∈ ast.items := by
    have hsub : pre ++ [.inst scope o (some (.labelCall (some x)))] ⊆ ast.items := by
      intro i hi
      rw [heq]
      rcases List.mem_append.mp hi with hm | hm
      · simp [hm]
      · rw [List.mem_singleton.mp hm]
        simp
    exact hsub (List.mem_of_find?_eq_some hj)
  exact ⟨hjitems, hcall, (hfit j hjitems).call_scope hx hs hcall⟩

/-- A jump whose label is logged by jumps only, or stands where the proc stands, is right. -/
theorem Translated.jump_right (h : Translated ast t) (hfit : ∀ i ∈ ast.items, ItemFits IdName i)
    (hcond : NoCallShadows ast.items)
    (heq : ast.items = pre ++ .inst scope o (some (.labelCall (some x))) :: post) (ho : o.operandKind = .jump) :
    ∃ before after, ast.items = before ++ .label scope (some x) :: after ∧
      t.program.code.get? (instCount pre) = some (.withUi32 o .vmAddress (.ofNat 32 (instCount before))) := by
  obtain ⟨before, after, hdecl⟩ := h.jump_declared hfit heq ho
  obtain ⟨j, hj, hcode⟩ := h.jump_code heq ho
  refine ⟨before, after, hdecl, ?_⟩
  rw [hcode]
  by_cases hjump : j.jumpName? = some (labelName scope x)
  · rw [if_pos hjump, h.label_addr hdecl]
  · -- the first to log the name is a call: the jump is at file level and the proc has its name
    rw [if_neg hjump]
    obtain ⟨hjitems, hcall, rfl, hproc⟩ := first_call hfit heq hj hjump
    obtain ⟨-, as, bs, hsplit, hfirst⟩ := List.find?_eq_some_iff_append.mp hj
    rcases List.eq_nil_or_concat bs with rfl | ⟨bs, k, rfl⟩
    · -- the jump itself is no call
      obtain ⟨-, hlast⟩ := List.append_inj' hsplit rfl
      cases hlast
      obtain ⟨scope, heq'⟩ := hproc
      cases heq'
      cases ho
    · have hsplit : pre ++ [.inst none o (some (.labelCall (some x)))] = (as ++ j :: bs) ++ [k] := by
        simpa using hsplit
      obtain ⟨rfl, hlast⟩ := List.append_inj' hsplit rfl
      cases hlast
      obtain ⟨pbefore, pafter, hpdecl⟩ := h.called hjitems hcall
      have hpos := hcond x as j (bs ++ .inst none o (some (.labelCall (some x))) :: post) (by simp [heq]) hproc ?_
        ⟨_, by simp, o, operandKind_jump.mp ho, rfl⟩ before after pbefore pafter hdecl hpdecl
      · rw [hpos]
        exact congrArg _ (congrArg _ (h.proc_addr hpdecl))
      · rintro i hi ⟨o', ho', rfl⟩
        have hno := hfirst _ hi
        rw [loggedName_jump (operandKind_jump.mpr ho')] at hno
        simp at hno

end Targets

/-- For every file that the parser accepts and the translator finishes, every jump to a label goes to
the label of its scope and every call to its proc, if and only if no call of a proc comes before the
first file-level jump to a label of the same name declared elsewhere. -/
theorem jump_targets_iff {fuel : Nat} {ts : List TasmToken} {ast : TasmAst} {p : TasmParser} {t : TasmTranslator}
    (hnames : ∀ tok ∈ ts, tok.type = .id → IdName tok.value)
    (hparse : tasmParseFile fuel (tasmParserInit ts) = .ok (ast, p)) (hp : p.isErr = false)
    (htr : tasmTranslate ast = .ok t) (ht : t.symbols.err = false) :
    (JumpsReachLabels ast t ∧ CallsReachProcs ast t) ↔ NoCallShadows ast.items := by
  have hast := wellFormed_of_parse (ids_init hnames) hparse hp
  have hfit := items_fit hast
  have h := translated hast htr ht
  constructor
  · rintro ⟨hjumps, -⟩ x pre c post heq ⟨scope, rfl⟩ hfirst ⟨k, hk, o, ho, rfl⟩ a b a' b' hlabel hproc
    obtain ⟨p₁, p₂, rfl⟩ := List.append_of_mem hk
    have heq' : ast.items = (pre ++ .inst scope .call (some (.labelCall (some x))) :: p₁) ++
        .inst none o (some (.labelCall (some x))) :: p₂ := by simp [heq]
    have hx : IdName (some x) := by
      cases hfit (.label none (some x)) (by simp [hlabel]) with
      | label _ _ _ hn => exact hn
    obtain ⟨j, hj, hcode⟩ := h.jump_code heq' (operandKind_jump.mpr ho)
    -- whatever logs the name first before this jump is a call
    have hcall : j.jumpName? ≠ some (labelName none x) := by
      intro hjump
      rw [firstLogged, List.append_assoc, List.find?_append] at hj
      cases hf : pre.find? (·.loggedName? == some (labelName none x)) with
      | some j' =>
        rw [hf] at hj
        cases hj
        have hmem := List.mem_of_find?_eq_some hf
        exact hfirst _ hmem ((hfit _ (by simp [heq, hmem])).jump_scope hx (by simp) hjump)
      | none =>
        rw [hf] at hj
        simp only [List.cons_append, List.find?_cons, loggedName_call, labelName, beq_self_eq_true] at hj
        cases hj
        cases hjump
    rw [if_neg hcall] at hcode
    obtain ⟨c, before, after, addr, hget, -, hdecl, hrec, haddr⟩ := hjumps _ none o x _ heq' ho
    rw [hcode] at hget
    cases hget
    have hle {l : List Item} {i : Item} {r : List Item} (heq : ast.items = l ++ i :: r) : instCount l ≤ tvmProgramCapacity :=
      Nat.le_trans (instCount_le heq) h.fits
    -- the record of the label is its position, and the address in the opcode is that of the proc
    have hpos : t.symbols.labelDecls[(before.filterMap Item.labelName?).length]? =
        some ⟨instCount before, labelName none x⟩ := by
      rw [h.labelDecls, hdecl]
      exact declared_getElem? Item.labelName? rfl
    rw [hpos] at hrec
    cases hrec
    have hpaddr : intAddr t.symbols.procDecls (labelName none x) = .ofNat 32 (instCount a') := h.proc_addr hproc
    rw [hpaddr, ui32_of_addr o (hle hproc)] at haddr
    have hsame : BitVec.ofNat 32 (instCount a) = BitVec.ofNat 32 (instCount before) := by
      rw [← h.label_addr hlabel, ← h.label_addr hdecl]
    have hsame := congrArg BitVec.toNat hsame
    have hcap : tvmProgramCapacity = 1024 := rfl
    have ha := hle hlabel
    have hb := hle hdecl
    simp only [BitVec.toNat_ofNat] at hsame
    omega
  · intro hcond
    refine ⟨fun pre scope o x post heq ho => ?_, h.calls_reach⟩
    obtain ⟨before, after, hdecl, hcode⟩ := h.jump_right hfit hcond heq (operandKind_jump.mpr ho)
    refine ⟨_, before, after, instCount before, hcode, rfl, hdecl, ?_, ui32_of_addr o (Nat.le_trans (instCount_le hdecl) h.fits)⟩
    rw [h.labelDecls, hdecl]
    exact declared_getElem? Item.labelName? rfl

/-! ## A called proc hides a label -/

def fooName : CStr := cstr "foo"

/-- The tokens of the text
`call foo\njmp foo\nfoo:\nhlt\nproc foo\nret\nendp\n`. -/
def hiddenLabelTokens : List TasmToken :=
  let foo := ⟨.id, some fooName⟩
  let endl := ⟨.endline, some (cstr "endl")⟩
  [⟨.op .call, some (cstr "call")⟩, foo, endl, ⟨.op .jmp, some (cstr "jmp")⟩, foo, endl,
    foo, ⟨.colon, some (cstr ":")⟩, endl, ⟨.op .halt, some (cstr "hlt")⟩, endl,
    ⟨.proc, some (cstr "proc")⟩, foo, endl, ⟨.op .ret, some (cstr "ret")⟩, endl, ⟨.endp, some (cstr "endp")⟩, endl]

def hiddenLabelAst : TasmAst :=
  .file [.op .call (some (cstr "call")) (some (.labelCall (some fooName))),
    .op .jmp (some (cstr "jmp")) (some (.labelCall (some fooName))), .labelDecl (some fooName),
    .op .halt (some (cstr "hlt")) none, .proc (some fooName) [.op .ret (some (cstr "ret")) none]]

theorem hiddenLabel_parses :
    ∃ p, tasmParseFile 20 (tasmParserInit hiddenLabelTokens) = .ok (hiddenLabelAst, p) ∧ p.isErr = false :=
  ⟨_, rfl, rfl⟩

theorem hiddenLabel_translates : ∃ t, tasmTranslate hiddenLabelAst = .ok t ∧
    (!t.symbols.err && t.program.code.get? 1 == some (.withUi32 .jmp .vmAddress 3) &&
      t.symbols.labelDecls == [⟨2, fooName⟩]) = true :=
  Except.okAnd_eq_true (by decide +kernel)

/-- The jump to the label `foo`, at 2, goes to the proc `foo`, at 3. -/
theorem hiddenLabel_misses : ∃ ast p t, tasmParseFile 20 (tasmParserInit hiddenLabelTokens) = .ok (ast, p) ∧
    p.isErr = false ∧ tasmTranslate ast = .ok t ∧ t.symbols.err = false ∧
    ¬ (JumpsReachLabels ast t ∧ CallsReachProcs ast t) := by
  obtain ⟨p, hparse, hp⟩ := hiddenLabel_parses
  obtain ⟨t, htr, hcheck⟩ := hiddenLabel_translates
  simp only [Bool.and_eq_true, Bool.not_eq_true', beq_iff_eq] at hcheck
  obtain ⟨⟨herr, hcode⟩, hdecls⟩ := hcheck
  refine ⟨hiddenLabelAst, p, t, hparse, hp, htr, herr, fun ⟨hjumps, _⟩ => ?_⟩
  obtain ⟨c, before, after, addr, hget, -, -, hrec, haddr⟩ :=
    hjumps [.inst none .call (some (.labelCall (some fooName)))] none .jmp fooName _ rfl (by simp)
  have hget : t.program.code.get? 1 = some c := hget
  rw [hcode] at hget
  cases hget
  rw [hdecls, List.getElem?_singleton] at hrec
  split at hrec
  · cases hrec
    exact absurd haddr (by decide)
  · cases hrec

theorem jump_targets_iff_hidden : ∃ t, tasmTranslate hiddenLabelAst = .ok t ∧
    ((JumpsReachLabels hiddenLabelAst t ∧ CallsReachProcs hiddenLabelAst t) ↔ NoCallShadows hiddenLabelAst.items) := by
  obtain ⟨p, hparse, hp⟩ := hiddenLabel_parses
  obtain ⟨t, htr, hcheck⟩ := hiddenLabel_translates
  simp only [Bool.and_eq_true, Bool.not_eq_true'] at hcheck
  refine ⟨t, htr, jump_targets_iff ?_ hparse hp htr hcheck.1.1⟩
  have hfoo : IdName (some fooName) := ⟨fooName, rfl, by decide⟩
  simp [hiddenLabelTokens, hfoo]

end TileVm
