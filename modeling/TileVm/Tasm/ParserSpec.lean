/-
What each parsing function does on any tokens: it only moves forward over them, `is_err` stays set
once it is, and when it is not set at the end, what was parsed has the shape that its callers
expect. A line whose first token starts one consumes at least that token.
-/
import TileVm.Tasm.Parser

namespace TileVm

/-! ## Moving over the tokens -/

namespace TasmParser

/-- The number of tokens before `TOKEN_EOF`, those of the lookahead included. -/
def pending (p : TasmParser) : Nat :=
  (if p.currentToken.type = .eof then 0 else 1) + (if p.nextToken.type = .eof then 0 else 1) + p.rest.length

def tokens (p : TasmParser) : List TasmToken := p.currentToken :: p.nextToken :: p.rest

end TasmParser

/-- `p'` stands at or behind `p`, with the errors of `p` not forgotten. -/
structure Moves (p p' : TasmParser) : Prop where
  pending : p'.pending ≤ p.pending
  isErr : p.isErr = true → p'.isErr = true
  ids : ∀ t ∈ p'.tokens, t.type = .id → t ∈ p.tokens

namespace Moves

variable {p p' p'' : TasmParser}

theorem refl (p : TasmParser) : Moves p p := ⟨Nat.le_refl _, id, fun _ h _ => h⟩

theorem trans (h : Moves p p') (h' : Moves p' p'') : Moves p p'' where
  pending := Nat.le_trans h'.pending h.pending
  isErr := fun he => h'.isErr (h.isErr he)
  ids := fun t ht hid => h.ids t (h'.ids t ht hid) hid

/-- No error at the end means none before. -/
theorem noErr (h : Moves p p') (he : p'.isErr = false) : p.isErr = false := by
  cases hp : p.isErr with
  | false => rfl
  | true => rw [h.isErr hp] at he; cases he

theorem shift (p : TasmParser) : Moves p p.shift where
  pending := by
    rcases hr : p.rest with _ | ⟨t, rest⟩
    · simp [TasmParser.pending, TasmParser.shift, TasmToken.eof, hr]
    · simp only [TasmParser.pending, TasmParser.shift, hr, List.headD_cons, List.tail_cons, List.length_cons]
      split <;> split <;> split <;> omega
  isErr := id
  ids := by
    intro t ht hid
    rcases hr : p.rest with _ | ⟨u, rest⟩ <;>
      simp only [TasmParser.tokens, TasmParser.shift, hr, List.headD_nil, List.headD_cons, List.tail_nil,
        List.tail_cons, List.mem_cons, List.not_mem_nil, or_false] at ht ⊢
    · rcases ht with rfl | rfl
      · exact .inr rfl
      · cases hid
    · rcases ht with rfl | rfl | ht
      · exact .inr (.inl rfl)
      · exact .inr (.inr (.inl rfl))
      · exact .inr (.inr (.inr ht))

theorem report (p : TasmParser) (r : ParserReport) : Moves p (p.report r) := ⟨Nat.le_refl _, id, fun _ h _ => h⟩

theorem setErr (p : TasmParser) : Moves p { p with isErr := true } :=
  ⟨Nat.le_refl _, fun _ => rfl, fun _ h _ => h⟩

theorem procReturnWarning (p : TasmParser) (b : Bool) : Moves p { p with procReturnWarning := b } :=
  ⟨Nat.le_refl _, id, fun _ h _ => h⟩

theorem globalHltWarning (p : TasmParser) (b : Bool) : Moves p { p with globalHltWarning := b } :=
  ⟨Nat.le_refl _, id, fun _ h _ => h⟩

theorem warnIf (c : Bool) (p : TasmParser) (m : CStr) : Moves p (if c then tasmParserWarn p m else p) := by
  split
  · exact report p _
  · exact refl p

theorem eat (p : TasmParser) (c : Nat) : Moves p (tasmParserEat p c) := by
  unfold tasmParserEat
  split
  · exact (report p _).trans (setErr _)
  · exact shift p

theorem err (p : TasmParser) (c : Nat) (m : String) : Moves p (tasmParserErr p c m) :=
  ((report p _).trans (shift _)).trans (setErr _)

theorem errIf (cond : TasmParser → Bool) (c : Nat) (m : String) (p : TasmParser) :
    Moves p (errIf cond c m p) := by
  unfold TileVm.errIf
  split
  · exact err p c m
  · exact refl p

theorem eatIf (type : TokenType) (p : TasmParser) : Moves p (eatIf type p) := by
  unfold TileVm.eatIf
  split
  · exact eat p _
  · exact refl p

theorem endOfLine (p : TasmParser) : Moves p (endOfLine p) := by
  unfold TileVm.endOfLine
  refine (eatIf .comment p).trans ?_
  show Moves _ (if (TileVm.eatIf .comment p).currentToken.type = .eof then _ else _)
  split <;> exact eat _ _

theorem lineRest (u c : Nat) (p : TasmParser) : Moves p (lineRest u c p) :=
  (((((errIf _ _ _ p).trans (errIf _ _ _ _)).trans (errIf _ _ _ _)).trans (eatIf _ _)).trans
    (eatIf _ _)).trans (eatIf _ _)

end Moves

theorem TasmParser.shift_lt {p : TasmParser} (h : p.currentToken.type ≠ .eof) :
    p.shift.pending < p.pending := by
  rcases hr : p.rest with _ | ⟨t, rest⟩
  · simp [pending, shift, TasmToken.eof, hr, h]
  · simp only [pending, shift, hr, if_neg h, List.headD_cons, List.tail_cons, List.length_cons]
    split <;> split <;> omega

/-- Every kind of token, by its enumeration value. -/
def TokenType.all : List TokenType :=
  [.none, .id, .proc, .endp, .colon, .apost, .quota, .atSign, .minus, .cfunction, .cstruct, .data, .tciBegin] ++
    CType.all.map .tci ++ [.tciEnd, .instructionsTokenBegin] ++ OpType.all.map .op ++
    [.instructionsTokenEnd, .string, .char, .decimalNumber, .floatNumber, .hexNumber, .binaryNumber,
      .comment, .endline, .eof]

theorem TokenType.all_code (t : TokenType) : all[t.code]? = some t := by
  cases t with
  | tci t => cases t <;> rfl
  | op o => cases o <;> rfl
  | _ => rfl

theorem TokenType.code_lt (t : TokenType) : t.code < 100 :=
  (List.getElem?_eq_some_iff.mp (all_code t)).1

theorem TokenType.code_inj {a b : TokenType} (h : a.code = b.code) : a = b := by
  have ha := all_code a
  rw [h, all_code b] at ha
  exact (Option.some.inj ha).symm

theorem tasmParserEat_match {p : TasmParser} {t : TokenType} (h : p.currentToken.type = t) :
    tasmParserEat p t = p.shift := by
  subst h; simp [tasmParserEat]

/-- A token was the expected one if there is no error afterwards. -/
theorem tasmParserEat_noErr {p : TasmParser} {t : TokenType} (h : (tasmParserEat p t).isErr = false) :
    p.currentToken.type = t := by
  unfold tasmParserEat at h
  split at h
  · cases h
  · rename_i hc
    exact TokenType.code_inj (by simpa using hc)

theorem tasmParserEat_lt {p : TasmParser} {t : TokenType} (h : p.currentToken.type = t) (ht : t ≠ .eof) :
    (tasmParserEat p t).pending < p.pending := by
  rw [tasmParserEat_match h]
  exact TasmParser.shift_lt (h ▸ ht)

/-- The codes from 4000 on are never matched: eating one of them reports an error. -/
theorem tasmParserEat_code (p : TasmParser) {c : Nat} (hc : 100 ≤ c) : (tasmParserEat p c).isErr = true := by
  have := p.currentToken.type.code_lt
  rw [tasmParserEat, if_pos (by omega)]

@[simp] theorem tasmParserErr_isErr (p : TasmParser) (c : Nat) (m : String) : (tasmParserErr p c m).isErr = true :=
  rfl

theorem tasmParserErr_lt {p : TasmParser} (c : Nat) (m : String) (h : p.currentToken.type ≠ .eof) :
    (tasmParserErr p c m).pending < p.pending :=
  TasmParser.shift_lt (p := p.report _) h

/-! ## Well-formed trees -/

/-- The operands that a mnemonic takes. -/
inductive OperandKind where
  | nothing
  | push
  | int
  | jump
  | label
deriving DecidableEq, Repr

def OpType.operandKind : OpType → OperandKind
  | .push => .push
  | .cln | .swap | .loadc | .aloadc | .load | .store | .gload | .gstore | .derefb | .native => .int
  | .jmp | .jz | .jnz => .jump
  | .call => .label
  | _ => .nothing

section Shapes

-- `N` holds of the texts that name labels and procs
variable (N : Option CStr → Prop)

/-- The operand is one of the kind. -/
inductive OperandKind.Fits : OperandKind → Option TasmAst → Prop
  | nothing : Fits .nothing none
  | pushNumber (t : CStr) (v : BitVec 32) : Fits .push (some (.number t v))
  | pushChar (c : Option CStr) : Fits .push (some (.char c))
  | int (t : CStr) (v : BitVec 32) : Fits .int (some (.number t v))
  | jumpNumber (t : CStr) (v : BitVec 32) : Fits .jump (some (.number t v))
  | jumpLabel (n : Option CStr) (hn : N n) : Fits .jump (some (.labelCall n))
  | label (n : Option CStr) (hn : N n) : Fits .label (some (.labelCall n))

/-- The constants that `@data` declares. -/
inductive DataFits : TasmAst → Prop
  | string (t : CStr) (n : Nat) (hn : n ≤ t.length) : DataFits (.string t n)
  | number (t : CStr) (v : BitVec 32) : DataFits (.number t v)
  | char (c : Option CStr) : DataFits (.char c)

/-- The byte of one of the 12 C types. -/
def IsCType (b : Byte) : Prop := ∃ t : CType, b = t.code

/-- The lines of a proc. -/
inductive ProcLine : TasmAst → Prop
  | op (o : OpType) (name : Option CStr) (operand : Option TasmAst) (h : o.operandKind.Fits N operand) :
    ProcLine (.op o name operand)
  | labelDecl (n : Option CStr) (hn : N n) : ProcLine (.labelDecl n)

/-- The lines of a file. -/
inductive FileLine : TasmAst → Prop
  | line (l : TasmAst) (h : ProcLine N l) : FileLine l
  | proc (n : Option CStr) (lines : List TasmAst) (hn : N n) (h : ∀ l ∈ lines, ProcLine N l) :
    FileLine (.proc n lines)
  | cfunction (rtype : Byte) (atypes : List Byte) (n : Option CStr) (hn : N n) (hr : IsCType rtype)
    (ha : ∀ b ∈ atypes, IsCType b) : FileLine (.cfunction rtype atypes (atypes.length % 2 ^ 16) n)
  | cstruct (n : CStr) : FileLine (.cstruct n)
  | data (value : Option TasmAst) (h : ∀ v ∈ value, DataFits v) : FileLine (.data value)

/-- The file that the parser returns without error. -/
inductive WellFormed : TasmAst → Prop
  | file (lines : List TasmAst) (h : ∀ l ∈ lines, FileLine N l) : WellFormed (.file lines)

end Shapes

/-- The tokens still to come name only texts in `N`. -/
def Ids (N : Option CStr → Prop) (p : TasmParser) : Prop := ∀ t ∈ p.tokens, t.type = .id → N t.value

theorem Ids.moves {N : Option CStr → Prop} {p p' : TasmParser} (h : Ids N p) (hm : Moves p p') : Ids N p' :=
  fun t ht hid => h t (hm.ids t ht hid) hid

theorem Ids.current {N : Option CStr → Prop} {p : TasmParser} (h : Ids N p) (hid : p.currentToken.type = .id) :
    N p.currentToken.value :=
  h _ (List.mem_cons_self ..) hid

/-- A result `r` of parsing at `p`: it stands behind `p`, and without error the value is in `Q`. -/
structure Parsed {α : Type} (p : TasmParser) (Q : α → Prop) (r : α × TasmParser) : Prop where
  moves : Moves p r.2
  shape : r.2.isErr = false → Q r.1

theorem Parsed.after {α : Type} {p p' : TasmParser} {Q : α → Prop} {r : α × TasmParser} (h : Parsed p' Q r)
    (hm : Moves p p') : Parsed p Q r :=
  ⟨hm.trans h.moves, h.shape⟩

/-! ## Operands -/

section Specs

variable {N : Option CStr → Prop} {F : Stop Fault → Prop}

theorem numLitValue_isSome {p : TasmParser} (le : Bool) (text : CStr) (h : isOperandNumber p = true) :
    ∃ v, numLitValue le p.currentToken.type text = some v := by
  simp only [isOperandNumber, Bool.or_eq_true, beq_iff_eq] at h
  rcases h with ((h | h) | h) | h <;> rw [h] <;> exact ⟨_, rfl⟩

theorem isOperandInt_number {p : TasmParser} (h : isOperandInt p = true) : isOperandNumber p = true := by
  simp only [isOperandInt, isOperandNumber, Bool.or_eq_true, beq_iff_eq] at h ⊢
  rcases h with h | h <;> simp [h]

/-- A number literal: the only failure is a `NULL` text. -/
theorem numLit_spec (hF : F (.fault .nullPointer)) (negative : Bool) {p : TasmParser}
    (h : isOperandNumber p = true) :
    (tasmParseNumLit negative p).Post F fun r => Moves p r.2 ∧ ∃ t v, r.1 = .number t v := by
  unfold tasmParseNumLit
  rcases p.currentToken.value with _ | text
  · exact hF
  · obtain ⟨v, hv⟩ := numLitValue_isSome isLittleEndian (if negative then chr '-' :: text else text) h
    simp only [hv]
    exact ⟨Moves.eat p _, _, _, rfl⟩

theorem charLit_moves (p : TasmParser) : Moves p (tasmParseCharLit p).2 :=
  ((Moves.eat p _).trans (Moves.eat _ _)).trans (Moves.eat _ _)

theorem strLit_spec (hF : F (.fault .nullPointer)) (p : TasmParser) :
    (tasmParseStrLit p).Post F fun r => Moves p r.2 ∧ DataFits r.1 := by
  unfold tasmParseStrLit
  dsimp only
  rcases (tasmParserEat p TokenType.quota).currentToken.value with _ | val
  · exact hF
  · exact ⟨((Moves.eat p _).trans (Moves.eat _ _)).trans (Moves.eat _ _), .string _ _ (List.takeWhile_prefix _).length_le⟩

/-- What an operand parser returns: nothing, or an operand of the kind. -/
def ParsesOperand (N : Option CStr → Prop) (F : Stop Fault → Prop) (kind : OperandKind)
    (parse : TasmParser → Parse (Option TasmAst × TasmParser)) : Prop :=
  ∀ p, Ids N p → (parse p).Post F fun r => Moves p r.2 ∧ (r.1 = none ∨ kind.Fits N r.1)

theorem intOperand_spec (hF : F (.fault .nullPointer)) : ParsesOperand N F .int tasmParseIntOperand := by
  intro p _
  unfold tasmParseIntOperand
  refine .ite (fun h => ?_) fun _ => ⟨.refl p, .inl rfl⟩
  refine .map ((numLit_spec hF false (isOperandInt_number h)).mono (fun _ h => h) ?_)
  rintro ⟨a, p'⟩ ⟨hm, t, v, rfl⟩
  exact ⟨hm, .inr (.int t v)⟩

theorem labelOperand_spec : ParsesOperand N F .label tasmParseLabelOperand := by
  intro p hN
  unfold tasmParseLabelOperand
  refine .ite (fun h => ?_) fun _ => ⟨.refl p, .inl rfl⟩
  exact ⟨Moves.eat p _, .inr (.label _ (hN.current (by simpa [isOperandLabelCall] using h)))⟩

theorem jmpOperand_spec (hF : F (.fault .nullPointer)) : ParsesOperand N F .jump tasmParseJmpOperand := by
  intro p hN
  unfold tasmParseJmpOperand
  refine .ite (fun h => ?_) fun _ => ?_
  · refine .map ((numLit_spec hF false (isOperandInt_number h)).mono (fun _ h => h) ?_)
    rintro ⟨a, p'⟩ ⟨hm, t, v, rfl⟩
    exact ⟨hm, .inr (.jumpNumber t v)⟩
  · refine (labelOperand_spec p hN).mono (fun _ h => h) ?_
    rintro ⟨a, p'⟩ ⟨hm, ha⟩
    refine ⟨hm, ha.imp_right fun hfit => ?_⟩
    cases hfit with
    | label n hn => exact .jumpLabel n hn

/-- A number with an optional minus sign, or nothing. -/
theorem numberOperand_spec (hF : F (.fault .nullPointer)) (p : TasmParser) :
    (tasmParseNumberOperand p).Post F fun r => Moves p r.2 ∧ (r.1 = none ∨ ∃ t v, r.1 = some (.number t v)) := by
  unfold tasmParseNumberOperand
  dsimp only
  have hm : Moves p (if p.currentToken.type == .minus then tasmParserEat p TokenType.minus else p) := by
    split
    · exact Moves.eat p _
    · exact .refl p
  refine .ite (fun h => ?_) fun _ => ⟨hm, .inl rfl⟩
  refine .map ((numLit_spec hF _ h).mono (fun _ h => h) ?_)
  rintro ⟨a, p'⟩ ⟨hm', t, v, rfl⟩
  exact ⟨hm.trans hm', .inr ⟨t, v, rfl⟩⟩

theorem pushOperand_spec (hF : F (.fault .nullPointer)) : ParsesOperand N F .push tasmParsePushOperand := by
  intro p _
  unfold tasmParsePushOperand
  refine .ite (fun _ => ⟨charLit_moves p, .inr (.pushChar _)⟩) fun _ => ?_
  refine (numberOperand_spec hF p).mono (fun _ h => h) ?_
  rintro ⟨a, p'⟩ ⟨hm, ha⟩
  refine ⟨hm, ha.imp_right ?_⟩
  rintro ⟨t, v, rfl⟩
  exact .pushNumber t v

/-- An instruction that needs an operand and has none is an error. -/
theorem needOperand_spec {kind : OperandKind} {parse : TasmParser → Parse (Option TasmAst × TasmParser)}
    (h : ParsesOperand N F kind parse) (code : Nat) (message : String) {p : TasmParser} (hN : Ids N p) :
    (needOperand parse code message p).Post F (Parsed p (kind.Fits N)) := by
  refine .map ((h p hN).mono (fun _ h => h) ?_)
  rintro ⟨operand, p'⟩ ⟨hm, ha⟩
  rcases operand with _ | a
  · exact ⟨hm.trans (Moves.err p' _ _), fun he => absurd he (by simp)⟩
  · exact ⟨hm, fun _ => ha.resolve_left (by simp)⟩

theorem parseOperand_spec (hF : F (.fault .nullPointer)) (o : OpType) {p : TasmParser} (hN : Ids N p) :
    (parseOperand o p).Post F (Parsed p (o.operandKind.Fits N)) := by
  cases o with
  | push => exact needOperand_spec (pushOperand_spec hF) _ _ hN
  | cln | swap | loadc | aloadc | load | store | gload | gstore | derefb | native =>
    exact needOperand_spec (intOperand_spec hF) _ _ hN
  | jmp | jz | jnz => exact needOperand_spec (jmpOperand_spec hF) _ _ hN
  | call => exact needOperand_spec labelOperand_spec _ _ hN
  | _ => exact ⟨.refl p, fun _ => .nothing⟩

/-! ## Lines of a proc -/

theorem isLineInstruction_op {p : TasmParser} (h : isLineInstruction p = true) :
    ∃ o, p.currentToken.type = .op o := by
  simp only [isLineInstruction, Bool.and_eq_true, decide_eq_true_eq] at h
  cases ht : p.currentToken.type <;> rw [ht] at h <;> simp only [TokenType.code] at h
  case op o => exact ⟨o, rfl⟩
  case tci t =>
    have : t.ctorIdx < 12 := by cases t <;> decide
    omega
  all_goals omega

theorem instruction_spec (hF : F (.fault .nullPointer)) {p : TasmParser} (hN : Ids N p)
    (h : isLineInstruction p = true) :
    (tasmParseInstruction p).Post F fun r => Parsed p (ProcLine N) r ∧ r.2.pending < p.pending := by
  obtain ⟨o, ho⟩ := isLineInstruction_op h
  have hlt : (tasmParserEat p (TokenType.op o)).pending < p.pending := tasmParserEat_lt ho (by simp)
  have hm : Moves p (tasmParserEat p (TokenType.op o)) := Moves.eat p _
  unfold tasmParseInstruction
  simp only [ho]
  refine .bind ((parseOperand_spec hF o (hN.moves hm)).mono (fun _ h => h) ?_)
  rintro ⟨operand, p'⟩ hp
  have hend : Moves p' (endOfLine p') := Moves.endOfLine p'
  refine ⟨⟨(hm.trans hp.moves).trans hend, fun he => .op _ _ _ (hp.shape (hend.noErr he))⟩, ?_⟩
  exact Nat.lt_of_le_of_lt (Nat.le_trans hend.pending hp.moves.pending) hlt

theorem labelDecl_spec {p : TasmParser} (hN : Ids N p) (h : isLineLabelDecl p = true) :
    Parsed p (ProcLine N) (tasmParseLabelDecl p) ∧ (tasmParseLabelDecl p).2.pending < p.pending := by
  simp only [isLineLabelDecl, Bool.and_eq_true, beq_iff_eq] at h
  have hm : Moves (tasmParserEat p TokenType.id) (tasmParseLabelDecl p).2 := Moves.eat _ _
  refine ⟨⟨(Moves.eat p _).trans hm, fun _ => .labelDecl _ (hN.current h.1)⟩, ?_⟩
  exact Nat.lt_of_le_of_lt hm.pending (tasmParserEat_lt h.1 (by simp))

/-! ## Tokens that start no line -/

theorem errIf_lt {cond : TasmParser → Bool} {p : TasmParser} (c : Nat) (m : String) (h : cond p = true)
    (hne : p.currentToken.type ≠ .eof) : (errIf cond c m p).pending < p.pending := by
  rw [errIf, if_pos h]
  exact tasmParserErr_lt c m hne

theorem errIf_skip {cond : TasmParser → Bool} {p : TasmParser} (c : Nat) (m : String) (h : cond p = false) :
    errIf cond c m p = p := by
  rw [errIf, h]; rfl

theorem eatIf_lt {t : TokenType} {p : TasmParser} (h : p.currentToken.type = t) (ht : t ≠ .eof) :
    (eatIf t p).pending < p.pending := by
  rw [eatIf, if_pos h]
  exact tasmParserEat_lt h ht

theorem eatIf_skip {t : TokenType} {p : TasmParser} (h : p.currentToken.type ≠ t) : eatIf t p = p := if_neg h

/-- The kinds that the end of both line parsers handles. -/
def RestKind (p : TasmParser) : Prop :=
  isUnexpected p = true ∨ isLineCinterfaceToken p = true ∨ isLineEndp p = true ∨
    p.currentToken.type = .endline ∨ p.currentToken.type = .comment

/-- The first of the checks that applies consumes the token, and no later one goes back. -/
theorem lineRest_lt (u c : Nat) {p : TasmParser} (hne : p.currentToken.type ≠ .eof) (h : RestKind p) :
    (lineRest u c p).pending < p.pending := by
  unfold lineRest
  dsimp only
  cases h1 : isUnexpected p with
  | true =>
    refine Nat.lt_of_le_of_lt ?_ (errIf_lt u "Unexpected identifier or number or symbol" h1 hne)
    exact (((((Moves.errIf _ _ _ _).trans (Moves.errIf _ _ _ _)).trans (Moves.eatIf _ _)).trans
      (Moves.eatIf _ _)).trans (Moves.eatIf _ _)).pending
  | false =>
  rw [errIf_skip u _ h1]
  cases h2 : isLineCinterfaceToken p with
  | true =>
    refine Nat.lt_of_le_of_lt ?_ (errIf_lt c "Unexpected C interface token" h2 hne)
    exact ((((Moves.errIf _ _ _ _).trans (Moves.eatIf _ _)).trans (Moves.eatIf _ _)).trans (Moves.eatIf _ _)).pending
  | false =>
  rw [errIf_skip c _ h2]
  cases h3 : isLineEndp p with
  | true =>
    refine Nat.lt_of_le_of_lt ?_ (errIf_lt 1000 "Unexpected endp" h3 hne)
    exact (((Moves.eatIf _ _).trans (Moves.eatIf _ _)).trans (Moves.eatIf _ _)).pending
  | false =>
  rw [errIf_skip 1000 _ h3]
  rcases h with h | h | h | h | h
  · rw [h1] at h; cases h
  · rw [h2] at h; cases h
  · rw [h3] at h; cases h
  · refine Nat.lt_of_le_of_lt ?_ (eatIf_lt h (by simp))
    exact ((Moves.eatIf _ _).trans (Moves.eatIf _ _)).pending
  · rw [eatIf_skip (t := .endline) (by simp [h])]
    refine Nat.lt_of_le_of_lt ?_ (eatIf_lt h (by simp))
    exact (Moves.eatIf _ _).pending

/-- The kinds at which a line of a proc consumes nothing. -/
def ProcLineStuck (t : TokenType) : Prop :=
  t ∈ [.minus, .tciBegin, .tciEnd, .instructionsTokenBegin, .instructionsTokenEnd]

/-- The kinds at which a line of the file consumes nothing: `data` without its `@`, too. -/
def LineStuck (t : TokenType) : Prop := t = .data ∨ ProcLineStuck t

instance (t : TokenType) : Decidable (ProcLineStuck t) := inferInstanceAs (Decidable (t ∈ _))

instance (t : TokenType) : Decidable (LineStuck t) := inferInstanceAs (Decidable (_ ∨ _))

theorem isTokenCtype_tci {p : TasmParser} {t : CType} (h : p.currentToken.type = .tci t) : isTokenCtype p = true := by
  simp only [isTokenCtype, h]; cases t <;> rfl

theorem isLineInstruction_of_op {p : TasmParser} {o : OpType} (h : p.currentToken.type = .op o) :
    isLineInstruction p = true := by
  simp only [isLineInstruction, h]; cases o <;> rfl

/-- A token at which a line of the file is not stuck and which starts no line is one of the kinds
that the end of the line parsers handles. -/
theorem restKind_of_not_stuck {p : TasmParser} (hne : p.currentToken.type ≠ .eof)
    (hproc : isLineProc p = false) (hinst : isLineInstruction p = false) (hmeta : isLineMeta p = false)
    (hstuck : ¬ LineStuck p.currentToken.type) : RestKind p := by
  unfold RestKind isUnexpected isLineCinterfaceToken isLineEndp
  cases ht : p.currentToken.type with
  | none | id | colon | apost | quota | string | char | decimalNumber | floatNumber | hexNumber | binaryNumber =>
    exact .inl rfl
  | cfunction | cstruct => exact .inr (.inl rfl)
  | tci t => exact .inr (.inl (by simp [isTokenCtype_tci ht]))
  | endp => exact .inr (.inr (.inl rfl))
  | endline | comment => simp
  | eof => exact absurd ht hne
  | proc => simp [isLineProc, ht] at hproc
  | atSign => simp [isLineMeta, ht] at hmeta
  | op o => rw [isLineInstruction_of_op ht] at hinst; cases hinst
  | data | minus | tciBegin | tciEnd | instructionsTokenBegin | instructionsTokenEnd =>
    rw [ht] at hstuck
    exact absurd (by decide) hstuck

/-! ## Lines of a proc -/

theorem globalOnly_moves (p : TasmParser) : Moves p (globalOnly p) := by
  unfold globalOnly
  exact ((Moves.errIf _ _ _ p).trans (Moves.errIf _ _ _ _)).trans (Moves.errIf _ _ _ _)

/-- Each kind that only belongs at file level is consumed by its check; any other is left alone. -/
theorem globalOnly_cases {p : TasmParser} (hne : p.currentToken.type ≠ .eof) :
    (globalOnly p).pending < p.pending ∨
      globalOnly p = p ∧ isLineProc p = false ∧ isLineMeta p = false ∧ p.currentToken.type ≠ .data := by
  unfold globalOnly
  dsimp only
  cases h1 : isLineProc p with
  | true =>
    refine .inl (Nat.lt_of_le_of_lt ?_ (errIf_lt 3401 "A proc cannot be defined in anothe proc" h1 hne))
    exact ((Moves.errIf _ _ _ _).trans (Moves.errIf _ _ _ _)).pending
  | false =>
  rw [errIf_skip 3401 _ h1]
  cases h2 : isLineMeta p with
  | true =>
    refine .inl (Nat.lt_of_le_of_lt ?_ (errIf_lt 3601 "Meta decleration must be declared at global scope" h2 hne))
    exact (Moves.errIf _ _ _ _).pending
  | false =>
  rw [errIf_skip 3601 _ h2]
  by_cases h3 : p.currentToken.type = .data
  · exact .inl (errIf_lt 3601 _ (by simp [h3]) hne)
  · exact .inr ⟨errIf_skip 3601 _ (by simp [h3]), rfl, rfl, h3⟩

/-- The part of a proc line after the label and the instruction. -/
theorem procRest_spec {p : TasmParser} (hinst : isLineInstruction p = false) :
    Moves p (lineRest 1201 5101 (globalOnly p)) ∧
      (p.currentToken.type ≠ .eof → ¬ ProcLineStuck p.currentToken.type →
        (lineRest 1201 5101 (globalOnly p)).pending < p.pending) := by
  have hrest := Moves.lineRest 1201 5101 (globalOnly p)
  refine ⟨(globalOnly_moves p).trans hrest, fun hne hstuck => ?_⟩
  rcases globalOnly_cases hne with hlt | ⟨heq, hproc, hmeta, hdata⟩
  · exact Nat.lt_of_le_of_lt hrest.pending hlt
  · rw [heq]
    refine lineRest_lt _ _ hne (restKind_of_not_stuck hne hproc hinst hmeta ?_)
    rintro (h | h)
    · exact hdata h
    · exact hstuck h

theorem procLine_spec (hF : F (.fault .nullPointer)) {p : TasmParser} (hN : Ids N p) :
    (tasmParseProcLine p).Post F fun r =>
      Parsed p (fun line => ∀ l ∈ line, ProcLine N l) r ∧
        (p.currentToken.type ≠ .eof → ¬ ProcLineStuck p.currentToken.type → r.2.pending < p.pending) := by
  unfold tasmParseProcLine
  refine .ite (fun h => ?_) fun _ => .ite (fun h => ?_) fun hinst => ?_
  · obtain ⟨hp, hlt⟩ := labelDecl_spec hN h
    refine .ok ⟨⟨hp.moves, fun he l hl => ?_⟩, fun _ _ => hlt⟩
    cases hl; exact hp.shape he
  · refine .map ((instruction_spec hF hN h).mono (fun _ h => h) ?_)
    rintro ⟨a, p'⟩ ⟨hp, hlt⟩
    refine ⟨⟨hp.moves, fun he l hl => ?_⟩, fun _ _ => hlt⟩
    cases hl; exact hp.shape he
  · obtain ⟨hm, hlt⟩ := procRest_spec (p := p) (by simpa using hinst)
    generalize lineRest 1201 5101 (globalOnly p) = q at hm hlt
    exact .ok ⟨⟨hm, fun _ _ hl => nomatch hl⟩, hlt⟩

/-! ## Lines of the file -/

theorem isTokenCtype_iff {p : TasmParser} : isTokenCtype p = true ↔ ∃ t, p.currentToken.type = .tci t := by
  refine ⟨fun h => ?_, fun ⟨t, ht⟩ => isTokenCtype_tci ht⟩
  simp only [isTokenCtype, Bool.and_eq_true, decide_eq_true_eq] at h
  cases ht : p.currentToken.type <;> rw [ht] at h <;> simp only [TokenType.code] at h
  case tci t => exact ⟨t, rfl⟩
  all_goals omega

theorem ctypeByte_isCType {p : TasmParser} (h : isTokenCtype p = true) : IsCType (ctypeByte p) := by
  obtain ⟨t, ht⟩ := isTokenCtype_iff.mp h
  refine ⟨t, ?_⟩
  simp only [ctypeByte, ht]
  cases t <;> rfl

/-- A type token is expected: any other is an error. -/
theorem expectCtype {p : TasmParser} {c : Nat} (hc : 100 ≤ c) :
    Moves p (if isTokenCtype p then p else tasmParserEat p c) ∧
      ((if isTokenCtype p then p else tasmParserEat p c).isErr = false → isTokenCtype p = true) := by
  cases h : isTokenCtype p with
  | true => exact ⟨.refl p, fun _ => rfl⟩
  | false => exact ⟨Moves.eat p c, fun he => absurd he (by simp [tasmParserEat_code p hc])⟩

/-- One turn of the loop over the argument types. -/
theorem argBody_spec {s s' : TasmParser × List Byte × Nat} (h : argBody s = .ok s') :
    Moves s.1 s'.1 ∧ s'.2.1 = s.2.1 ++ [ctypeByte (if isTokenCtype s.1 then s.1 else tasmParserEat s.1 4100)] ∧
      s'.2.2 = (s.2.2 + 1) % 2 ^ 16 ∧ (s'.1.isErr = false → isTokenCtype s.1 = true) := by
  cases h
  obtain ⟨hm, hc⟩ := expectCtype (p := s.1) (show 100 ≤ 4100 by omega)
  have hm' := Moves.eat (if isTokenCtype s.1 then s.1 else tasmParserEat s.1 4100)
    (if isTokenCtype s.1 then s.1 else tasmParserEat s.1 4100).currentToken.type
  exact ⟨hm.trans hm', rfl, rfl, fun he => hc (hm'.noErr he)⟩

theorem argLoop_spec (hfuel : F .fuel) (fuel : Nat) (p : TasmParser) :
    (Loop.run argCond argBody fuel (p, [], 0)).Post F fun s =>
      Moves p s.1 ∧ (s.1.isErr = false → ∀ b ∈ s.2.1, IsCType b) ∧ s.2.2 = s.2.1.length % 2 ^ 16 := by
  let I (s : TasmParser × List Byte × Nat) : Prop :=
    Moves p s.1 ∧ (s.1.isErr = false → ∀ b ∈ s.2.1, IsCType b) ∧ s.2.2 = s.2.1.length % 2 ^ 16
  refine (Loop.run_post hfuel I ?_ fuel (p, [], 0) ⟨.refl p, by simp, rfl⟩).mono (fun _ h => h) fun _ h => h.1
  intro s ⟨hm, ht, hn⟩ _
  refine .intro (fun e he => nomatch he) fun s' hs' => ?_
  obtain ⟨hm', hl, hc, hty⟩ := argBody_spec hs'
  refine ⟨hm.trans hm', fun he b hb => ?_, ?_⟩
  · rw [hl, List.mem_append, List.mem_singleton] at hb
    rcases hb with hb | rfl
    · exact ht (hm'.noErr he) b hb
    · rw [if_pos (hty he)]
      exact ctypeByte_isCType (hty he)
  · rw [hc, hl, hn, List.length_append, List.length_singleton]
    omega

theorem cfunction_spec (hfuel : F .fuel) (fuel : Nat) {p : TasmParser} (hN : Ids N p) :
    (tasmParseCfunction fuel p).Post F (Parsed p (FileLine N)) := by
  have h1 := Moves.eat p TokenType.cfunction
  unfold tasmParseCfunction
  generalize tasmParserEat p TokenType.cfunction = p1 at h1
  obtain ⟨h2, hr⟩ := expectCtype (p := p1) (show 100 ≤ 4000 by omega)
  dsimp only
  generalize hp2 : (if isTokenCtype p1 then p1 else tasmParserEat p1 4000) = p2 at h2 hr
  have h3 := Moves.eat p2 p2.currentToken.type
  generalize tasmParserEat p2 p2.currentToken.type = p3 at h3
  have h4 := Moves.eat p3 TokenType.id
  have hid := tasmParserEat_noErr (p := p3) (t := .id)
  generalize tasmParserEat p3 TokenType.id = p4 at h4 hid
  have h13 := (h1.trans h2).trans h3
  refine .bind ((argLoop_spec hfuel fuel p4).mono (fun _ h => h) ?_)
  rintro ⟨p5, atypes, acount⟩ ⟨h5, ht, hcount⟩
  dsimp only at h5 ht hcount ⊢
  subst hcount
  refine ⟨(h13.trans h4).trans h5, fun he => ?_⟩
  have he4 := h5.noErr he
  have he2 := h3.noErr (h4.noErr he4)
  exact .cfunction _ _ _ ((hN.moves h13).current (hid he4)) (ctypeByte_isCType (hr he2)) (ht he)

theorem dataValue_spec (hF : F (.fault .nullPointer)) (p : TasmParser) :
    (parseDataValue p).Post F fun r => Moves p r.2 ∧ ∀ v ∈ r.1, DataFits v := by
  unfold parseDataValue
  refine .ite (fun _ => ?_) fun _ => .ite (fun _ => ?_) fun _ => ?_
  · refine .map ((strLit_spec hF p).mono (fun _ h => h) ?_)
    rintro ⟨a, p'⟩ ⟨hm, ha⟩
    refine ⟨hm, fun v hv => ?_⟩
    cases hv; exact ha
  · refine ⟨charLit_moves p, fun v hv => ?_⟩
    cases hv; exact .char _
  · refine (numberOperand_spec hF p).mono (fun _ h => h) ?_
    rintro ⟨a, p'⟩ ⟨hm, ha⟩
    refine ⟨hm, ?_⟩
    rcases ha with rfl | ⟨t, v, rfl⟩ <;> intro a ha <;> cases ha
    exact .number t v

theorem data_spec (hF : F (.fault .nullPointer)) (p : TasmParser) :
    (tasmParseData p).Post F (Parsed p (FileLine N)) :=
  .map ((dataValue_spec hF _).mono (fun _ h => h) fun _ ⟨hm, hv⟩ =>
    ⟨(Moves.eat p _).trans hm, fun _ => .data _ hv⟩)

theorem metadata_spec (hF : F (.fault .nullPointer)) (hfuel : F .fuel) (fuel : Nat) {p : TasmParser}
    (hN : Ids N p) (h : isLineMeta p = true) :
    (tasmParseMetadata fuel p).Post F fun r =>
      Parsed p (fun line => ∀ l ∈ line, FileLine N l) r ∧ r.2.pending < p.pending := by
  have hlt : (tasmParserEat p TokenType.atSign).pending < p.pending :=
    tasmParserEat_lt (by simpa [isLineMeta] using h) (by simp)
  have h1 := Moves.eat p TokenType.atSign
  unfold tasmParseMetadata
  generalize tasmParserEat p TokenType.atSign = p1 at h1 hlt
  -- one line, of the file or of nothing
  have some_of {a : TasmAst} {p2 : TasmParser} (hp : Parsed p1 (FileLine N) (a, p2)) :
      Parsed p (fun line => ∀ l ∈ line, FileLine N l) (some a, p2) ∧ p2.pending < p.pending := by
    refine ⟨⟨h1.trans hp.moves, fun he l hl => ?_⟩, Nat.lt_of_le_of_lt hp.moves.pending hlt⟩
    cases hl; exact hp.shape he
  dsimp only
  refine .ite (fun _ => ?_) fun _ => .ite (fun _ => ?_) fun _ => .ite (fun _ => ?_) fun _ => ?_
  · exact .map ((cfunction_spec hfuel fuel (hN.moves h1)).mono (fun _ h => h) fun r hr => some_of hr)
  · exact some_of ⟨Moves.eat p1 _, fun _ => .cstruct _⟩
  · exact .map ((data_spec hF p1).mono (fun _ h => h) fun r hr => some_of hr)
  · have h2 := Moves.eat p1 8000
    exact ⟨⟨h1.trans h2, fun _ _ hl => nomatch hl⟩, Nat.lt_of_le_of_lt h2.pending hlt⟩

/-! ## Procs and files -/

/-- One turn of the loop over the lines of a proc. -/
theorem procBody_spec (hF : F (.fault .nullPointer)) {s : TasmParser × List TasmAst} (hN : Ids N s.1)
    (hs : s.1.isErr = false → ∀ l ∈ s.2, ProcLine N l) :
    (procBody s).Post F fun s' => Parsed s.1 (fun lines => ∀ l ∈ lines, ProcLine N l) (s'.2, s'.1) ∧
      (s.1.currentToken.type ≠ .eof → ¬ ProcLineStuck s.1.currentToken.type → s'.1.pending < s.1.pending) := by
  unfold procBody
  refine .bind ((procLine_spec hF hN).mono (fun _ h => h) ?_)
  rintro ⟨line, p'⟩ ⟨hp, hlt⟩
  rcases line with _ | l
  · exact ⟨⟨hp.moves, fun he => hs (hp.moves.noErr he)⟩, hlt⟩
  · have hm : Moves p' (if l.isOp .ret then { p' with procReturnWarning := false } else p') := by
      split
      · exact .procReturnWarning p' false
      · exact .refl p'
    refine ⟨⟨hp.moves.trans hm, fun he a ha => ?_⟩, fun hne hk => Nat.lt_of_le_of_lt hm.pending (hlt hne hk)⟩
    rcases List.mem_append.mp ha with ha | ha
    · exact hs (hp.moves.noErr (hm.noErr he)) a ha
    · rw [List.mem_singleton.mp ha]
      exact hp.shape (hm.noErr he) l rfl

theorem proc_spec (hF : F (.fault .nullPointer)) (hfuel : F .fuel) (fuel : Nat) {p : TasmParser} (hN : Ids N p)
    (h : isLineProc p = true) :
    (tasmParseProc fuel p).Post F fun r => Parsed p (FileLine N) r ∧ r.2.pending < p.pending := by
  have hlt : (tasmParserEat p TokenType.proc).pending < p.pending :=
    tasmParserEat_lt (by simpa [isLineProc] using h) (by simp)
  have h1 := Moves.eat p TokenType.proc
  have h2 : Moves (tasmParserEat p TokenType.proc) (procStart p) := Moves.eat _ _
  have h12 := h1.trans h2
  have hid : (procStart p).isErr = false → (tasmParserEat p TokenType.proc).currentToken.type = .id :=
    tasmParserEat_noErr
  unfold tasmParseProc
  generalize tasmParserEat p TokenType.proc = p1 at h1 h2 hid hlt
  generalize procStart p = p2 at h2 h12 hid
  let I (s : TasmParser × List TasmAst) : Prop := Parsed p2 (fun lines => ∀ l ∈ lines, ProcLine N l) (s.2, s.1)
  have hstep (s : TasmParser × List TasmAst) (hI : I s) (_ : procCond s = true) : (procBody s).Post F I :=
    (procBody_spec hF (hN.moves (h12.trans hI.moves)) hI.shape).mono (fun _ h => h) fun _ h => h.1.after hI.moves
  refine .bind ((Loop.run_post hfuel I hstep fuel (p2, []) ⟨.refl p2, by simp⟩).mono (fun _ h => h) ?_)
  rintro ⟨p3, lines⟩ ⟨h3, -⟩
  dsimp only at h3 ⊢
  have h4 := Moves.eat p3 TokenType.endp
  generalize tasmParserEat p3 TokenType.endp = p4 at h4
  have h5 := Moves.warnIf p4.procReturnWarning p4
    (cstr "procedure: there is no " ++ pink "ret" ++ cstr " opcode. It may cause possible unpredicted behaivours")
  generalize (if p4.procReturnWarning then _ else p4) = p5 at h5
  have h6 := (Moves.procReturnWarning p5 true).trans (Moves.endOfLine _)
  generalize endOfLine { p5 with procReturnWarning := true } = p6 at h6
  have h36 := (h4.trans h5).trans h6
  have h26 := h3.moves.trans h36
  refine ⟨⟨h12.trans h26, fun he => ?_⟩, Nat.lt_of_le_of_lt (h2.trans h26).pending hlt⟩
  exact .proc _ _ ((hN.moves h1).current (hid (h26.noErr he))) (h3.shape (h36.noErr he))

/-- A line of the file consumes a token unless it is stuck. -/
theorem line_spec (hF : F (.fault .nullPointer)) (hfuel : F .fuel) (fuel : Nat) {p : TasmParser} (hN : Ids N p) :
    (tasmParseLine fuel p).Post F fun r =>
      Parsed p (fun line => ∀ l ∈ line, FileLine N l) r ∧
        (p.currentToken.type ≠ .eof → ¬ LineStuck p.currentToken.type → r.2.pending < p.pending) := by
  -- one line of the file
  have some_of {a : TasmAst} {p' : TasmParser} (hp : Parsed p (FileLine N) (a, p')) (hlt : p'.pending < p.pending) :
      Parsed p (fun line => ∀ l ∈ line, FileLine N l) (some a, p') ∧
        (p.currentToken.type ≠ .eof → ¬ LineStuck p.currentToken.type → p'.pending < p.pending) := by
    refine ⟨⟨hp.moves, fun he l hl => ?_⟩, fun _ _ => hlt⟩
    cases hl; exact hp.shape he
  have line_of {a : TasmAst} {p' : TasmParser} (hp : Parsed p (ProcLine N) (a, p')) : Parsed p (FileLine N) (a, p') :=
    ⟨hp.moves, fun he => .line _ (hp.shape he)⟩
  unfold tasmParseLine
  refine .ite (fun h => ?_) fun _ => .ite (fun h => ?_) fun hproc => .ite (fun h => ?_) fun hinst =>
    .ite (fun h => ?_) fun hmeta => ?_
  · obtain ⟨hp, hlt⟩ := labelDecl_spec hN h
    exact some_of (line_of hp) hlt
  · exact .map ((proc_spec hF hfuel fuel hN h).mono (fun _ h => h) fun r ⟨hp, hlt⟩ => some_of hp hlt)
  · exact .map ((instruction_spec hF hN h).mono (fun _ h => h) fun r ⟨hp, hlt⟩ => some_of (line_of hp) hlt)
  · exact (metadata_spec hF hfuel fuel hN h).mono (fun _ h => h) fun r ⟨hp, hlt⟩ => ⟨hp, fun _ _ => hlt⟩
  · simp only [Bool.not_eq_true] at hproc hinst hmeta
    have hm := Moves.lineRest 1200 5100 p
    have hlt (hne : p.currentToken.type ≠ .eof) (hk : ¬ LineStuck p.currentToken.type) :=
      lineRest_lt 1200 5100 hne (restKind_of_not_stuck hne hproc hinst hmeta hk)
    generalize lineRest 1200 5100 p = q at hm hlt
    exact ⟨⟨hm, fun _ _ hl => nomatch hl⟩, hlt⟩

theorem fileBody_spec (hF : F (.fault .nullPointer)) (hfuel : F .fuel) (fuel : Nat) {s : TasmParser × List TasmAst}
    (hN : Ids N s.1) (hs : s.1.isErr = false → ∀ l ∈ s.2, FileLine N l) :
    (fileBody fuel s).Post F fun s' => Parsed s.1 (fun lines => ∀ l ∈ lines, FileLine N l) (s'.2, s'.1) ∧
      (s.1.currentToken.type ≠ .eof → ¬ LineStuck s.1.currentToken.type → s'.1.pending < s.1.pending) := by
  unfold fileBody
  refine .bind ((line_spec hF hfuel fuel hN).mono (fun _ h => h) ?_)
  rintro ⟨line, p'⟩ ⟨hp, hlt⟩
  rcases line with _ | l
  · exact ⟨⟨hp.moves, fun he => hs (hp.moves.noErr he)⟩, hlt⟩
  · have hm : Moves p' (if l.isOp .halt then { p' with globalHltWarning := false } else p') := by
      split
      · exact .globalHltWarning p' false
      · exact .refl p'
    refine ⟨⟨hp.moves.trans hm, fun he a ha => ?_⟩, fun hne hk => Nat.lt_of_le_of_lt hm.pending (hlt hne hk)⟩
    rcases List.mem_append.mp ha with ha | ha
    · exact hs (hp.moves.noErr (hm.noErr he)) a ha
    · rw [List.mem_singleton.mp ha]
      exact hp.shape (hm.noErr he) l rfl

/-- What the parser returns without error is well-formed. -/
theorem file_spec (hF : F (.fault .nullPointer)) (hfuel : F .fuel) (fuel : Nat) {p : TasmParser} (hN : Ids N p) :
    (tasmParseFile fuel p).Post F (Parsed p (WellFormed N)) := by
  have h1 := Moves.eat p TokenType.none
  unfold tasmParseFile
  generalize tasmParserEat p TokenType.none = p1 at h1
  let I (s : TasmParser × List TasmAst) : Prop := Parsed p1 (fun lines => ∀ l ∈ lines, FileLine N l) (s.2, s.1)
  have hstep (s : TasmParser × List TasmAst) (hI : I s) (_ : fileCond s = true) : (fileBody fuel s).Post F I :=
    (fileBody_spec hF hfuel fuel (hN.moves (h1.trans hI.moves)) hI.shape).mono (fun _ h => h) fun _ h =>
      h.1.after hI.moves
  refine .bind ((Loop.run_post hfuel I hstep fuel (p1, []) ⟨.refl p1, by simp⟩).mono (fun _ h => h) ?_)
  rintro ⟨p2, lines⟩ ⟨h2, -⟩
  dsimp only at h2 ⊢
  have h3 := Moves.warnIf p2.globalHltWarning p2
    (cstr "file: there is no " ++ pink "hlt" ++ cstr " opcode. It may cause possible unpredicted behaivours")
  generalize (if p2.globalHltWarning then _ else p2) = p3 at h3
  have h4 := (Moves.globalHltWarning p3 true).trans (Moves.endOfLine _)
  generalize endOfLine { p3 with globalHltWarning := true } = p4 at h4
  have h24 := h3.trans h4
  exact ⟨(h1.trans h2.moves).trans h24, fun he => .file _ (h2.shape (h24.noErr he))⟩

theorem wellFormed_of_parse {fuel : Nat} {p p' : TasmParser} {ast : TasmAst} (hN : Ids N p)
    (h : tasmParseFile fuel p = .ok (ast, p')) (he : p'.isErr = false) : WellFormed N ast :=
  ((file_spec (F := fun _ => True) trivial trivial fuel hN).of_ok h).shape he

end Specs

end TileVm
