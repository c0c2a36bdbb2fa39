/-
The parser agrees with the grammar: on the tokens of a text, each `tasm_parse_*` returns without
error exactly what the grammar parses, and stands at the tokens that the grammar leaves. Where the
grammar is undefined the parser sets `is_err`, or does not return.
-/
import TileVm.Tasm.Grammar

namespace TileVm

open Grammar

/-! ## Standing at tokens -/

/-- The parser stands at `ts`, without error, and only warned until there. -/
structure Stands (p : TasmParser) (ts : Tokens) : Prop where
  current : p.currentToken = ts.headD TasmToken.eof
  next : p.nextToken = ts.tail.headD TasmToken.eof
  rest : p.rest = ts.tail.tail
  noErr : p.isErr = false
  warned : ∀ r ∈ p.reports, ∃ m, r = .warning m
  proper : ∀ t ∈ ts, t.type ≠ .eof

namespace Stands

variable {p : TasmParser} {ts : Tokens}

theorem first (h : Stands p ts) : p.currentToken.type = Grammar.first ts := by
  rw [h.current, Grammar.first]

theorem cons_of_ne (h : Stands p ts) (hne : p.currentToken.type ≠ .eof) : ∃ t us, ts = t :: us := by
  rcases ts with _ | ⟨t, us⟩
  · exact absurd (by rw [h.current]; rfl) hne
  · exact ⟨t, us, rfl⟩

theorem nil_of_eof (h : Stands p ts) (he : p.currentToken.type = .eof) : ts = [] := by
  rcases ts with _ | ⟨t, us⟩
  · rfl
  · rw [h.current] at he
    exact absurd he (h.proper t (by simp))

theorem shift (h : Stands p ts) : Stands p.shift ts.tail where
  current := h.next
  next := by simp [TasmParser.shift, h.rest]
  rest := by simp [TasmParser.shift, h.rest]
  noErr := h.noErr
  warned := h.warned
  proper := fun t ht => h.proper t (List.mem_of_mem_tail ht)

/-- Eating the kind of the current token. -/
theorem eat (h : Stands p ts) : Stands (tasmParserEat p p.currentToken.type) ts.tail := by
  rw [tasmParserEat_match rfl]
  exact h.shift

theorem warnIf (h : Stands p ts) (c : Bool) (m : CStr) : Stands (if c then tasmParserWarn p m else p) ts := by
  split
  · refine ⟨h.current, h.next, h.rest, h.noErr, ?_, h.proper⟩
    intro r hr
    rcases List.mem_append.mp hr with hr | hr
    · exact h.warned r hr
    · exact ⟨m, List.mem_singleton.mp hr⟩
  · exact h

theorem procReturnWarning (h : Stands p ts) (b : Bool) : Stands { p with procReturnWarning := b } ts :=
  ⟨h.current, h.next, h.rest, h.noErr, h.warned, h.proper⟩

theorem globalHltWarning (h : Stands p ts) (b : Bool) : Stands { p with globalHltWarning := b } ts :=
  ⟨h.current, h.next, h.rest, h.noErr, h.warned, h.proper⟩

/-- A token of the expected kind is consumed; any other sets the flag. -/
theorem expect (h : Stands p ts) {t : TokenType} (ht : t ≠ .eof) :
    (∃ us, Grammar.expect t ts = some (p.currentToken, us) ∧ Stands (tasmParserEat p t) us) ∨
      Grammar.expect t ts = none ∧ (tasmParserEat p t).isErr = true := by
  by_cases hc : p.currentToken.type = t
  · obtain ⟨u, us, rfl⟩ := h.cons_of_ne (hc ▸ ht)
    refine .inl ⟨us, ?_, ?_⟩
    · rw [h.current] at hc ⊢
      exact if_pos hc
    · rw [tasmParserEat_match hc]
      exact h.shift
  · refine .inr ⟨?_, ?_⟩
    · rcases ts with _ | ⟨u, us⟩
      · rfl
      · rw [h.current] at hc
        exact if_neg hc
    · cases he : (tasmParserEat p t).isErr with
      | true => rfl
      | false => exact absurd (tasmParserEat_noErr he) hc

theorem eatIf (h : Stands p ts) (t : TokenType) : Stands (eatIf t p) (skip t ts) := by
  unfold TileVm.eatIf skip
  rw [← h.first]
  split
  · rename_i ht
    rw [tasmParserEat_match ht]
    exact h.shift
  · exact h

/-- At the end of the text nothing is left to skip. -/
theorem skip_eof (h : Stands p ts) : skip .eof ts = ts := by
  unfold skip
  split
  · rename_i he
    rw [h.nil_of_eof (h.first.trans he)]; rfl
  · rfl

end Stands

/-! ## Agreement -/

/-- The parser returns what the grammar parses and stands at what it leaves; where the grammar is
undefined, it reports an error or does not return. -/
def Agrees {β : Type} (o : Option (β × Tokens)) (x : Parse (β × TasmParser)) : Prop :=
  match o with
  | some (b, ts) => ∃ p, x = .ok (b, p) ∧ Stands p ts
  | none => ∀ r, x = .ok r → r.2.isErr = true

/-- A parser that does not forget an error. -/
def KeepsErr {β : Type} (x : TasmParser → Parse (β × TasmParser)) : Prop :=
  ∀ p r, p.isErr = true → x p = .ok r → r.2.isErr = true

namespace Agrees

variable {β γ : Type} {o : Option (β × Tokens)} {x : Parse (β × TasmParser)} {p : TasmParser} {ts : Tokens}

theorem ok (b : β) (h : Stands p ts) : Agrees (some (b, ts)) (.ok (b, p)) := ⟨p, rfl, h⟩

theorem refused {r : β × TasmParser} (h : r.2.isErr = true) : Agrees (none : Option (β × Tokens)) (.ok r) := by
  rintro r' hr
  cases hr; exact h

theorem stopped {e : Stop Fault} : Agrees (none : Option (β × Tokens)) (.error e) := fun _ h => nomatch h

theorem map {f : β → γ} (h : Agrees o x) : Agrees (o.map (Prod.map f id)) (x.map (Prod.map f id)) := by
  rcases o with _ | ⟨b, ts⟩
  · intro r hr
    obtain ⟨r', hx, rfl⟩ := Except.map_eq_ok hr
    exact h r' hx
  · obtain ⟨p, rfl, hp⟩ := h
    exact ⟨p, rfl, hp⟩

theorem bind {k : β × Tokens → Option (γ × Tokens)} {f : β × TasmParser → Parse (γ × TasmParser)}
    (h : Agrees o x) (he : ∀ b p r, p.isErr = true → f (b, p) = .ok r → r.2.isErr = true)
    (hf : ∀ b ts p, Stands p ts → Agrees (k (b, ts)) (f (b, p))) : Agrees (o >>= k) (x >>= f) := by
  rcases o with _ | ⟨b, ts⟩
  · intro r hr
    obtain ⟨r', hx, hr⟩ := Except.bind_ok hr
    exact he r'.1 r'.2 r (h r' hx) hr
  · obtain ⟨p, rfl, hp⟩ := h
    exact hf b ts p hp

/-- The rule for a loop over lines, whose state has the parser in front. -/
theorem bind_swap {x : Parse (TasmParser × β)} {k : β × Tokens → Option (γ × Tokens)}
    {f : TasmParser × β → Parse (γ × TasmParser)} (h : Agrees o (x.map Prod.swap))
    (he : ∀ b p r, p.isErr = true → f (p, b) = .ok r → r.2.isErr = true)
    (hf : ∀ b ts p, Stands p ts → Agrees (k (b, ts)) (f (p, b))) : Agrees (o >>= k) (x >>= f) := by
  have hb := h.bind (k := k) (f := fun r => f r.swap) he hf
  rcases x with e | ⟨p, b⟩ <;> exact hb

/-- The rule for `tasm_parser_eat`: the rest of the parser only has to agree behind the expected
token, and not to forget the error at another. -/
theorem eat {t : TokenType} {k : TasmToken × Tokens → Option (γ × Tokens)} {x : Parse (γ × TasmParser)}
    (h : Stands p ts) (ht : t ≠ .eof) (he : (tasmParserEat p t).isErr = true → ∀ r, x = .ok r → r.2.isErr = true)
    (hf : ∀ us, Stands (tasmParserEat p t) us → Agrees (k (p.currentToken, us)) x) :
    Agrees (expect t ts >>= k) x := by
  rcases h.expect ht with ⟨us, hs, h'⟩ | ⟨hn, herr⟩
  · rw [hs]
    exact hf us h'
  · rw [hn]
    exact he herr

end Agrees

/-! ## Errors are kept -/

/-- An error is still there at the end of what only moves forward. -/
theorem Moves.keeps {β : Type} {p q : TasmParser} (hm : Moves p q) (he : p.isErr = true) (b : β)
    (r : β × TasmParser) (hr : (.ok (b, q) : Parse (β × TasmParser)) = .ok r) : r.2.isErr = true := by
  cases hr
  exact hm.isErr he

theorem anyIds (p : TasmParser) : Ids (fun _ => True) p := fun _ _ _ => trivial

/-- A parser that only moves forward. -/
theorem keepsErr_of_moves {β : Type} {x : TasmParser → Parse (β × TasmParser)}
    (h : ∀ p, (x p).Post (fun _ => True) fun r => Moves p r.2) : KeepsErr x :=
  fun p _ hp hr => ((h p).of_ok hr).isErr hp

theorem dataValue_keepsErr : KeepsErr parseDataValue :=
  keepsErr_of_moves fun p => (dataValue_spec trivial p).mono (fun _ h => h) fun _ h => h.1

/-! ## Literals -/

section Literals

variable {p : TasmParser} {ts : Tokens}

theorem isOperandNumber_eq (h : Stands p ts) : isOperandNumber p = isNumber (first ts) := by
  rw [← h.first]; rfl

theorem isOperandInt_eq (h : Stands p ts) : isOperandInt p = isInt (first ts) := by
  rw [← h.first]; rfl

theorem numLit_agrees (h : Stands p ts) (hn : isNumber (first ts) = true) (negative : Bool) :
    Agrees (numLit negative ts) (tasmParseNumLit negative p) := by
  rcases ts with _ | ⟨t, us⟩
  · cases hn
  have hc : p.currentToken = t := h.current
  unfold tasmParseNumLit numLit
  rw [hc]
  rcases ht : t.value with _ | value
  · simp only [ht, Option.bind_eq_bind, Option.bind_none]
    exact .stopped
  · obtain ⟨v, hv⟩ := numLitValue_isSome (p := p) isLittleEndian (if negative then chr '-' :: value else value)
      (by rw [isOperandNumber_eq h, hn])
    rw [hc] at hv
    simp only [ht, hv, Option.bind_eq_bind, Option.bind_some]
    have heat := h.eat
    rw [hc] at heat
    exact .ok _ heat

theorem int_agrees (h : Stands p ts) : Agrees (int ts) (tasmParseIntOperand p) := by
  unfold tasmParseIntOperand int
  rw [isOperandInt_eq h]
  cases hi : isInt (first ts) with
  | true => exact (numLit_agrees h (isOperandNumber_eq h ▸ isOperandInt_number (isOperandInt_eq h ▸ hi)) false).map
  | false => exact .ok _ h

theorem charLit_agrees (h : Stands p ts) : Agrees (charLit ts) (.ok (tasmParseCharLit p)) := by
  have hm2 := Moves.eat (tasmParserEat p TokenType.apost) TokenType.char
  have hm3 := Moves.eat (tasmParserEat (tasmParserEat p TokenType.apost) TokenType.char) TokenType.apost
  refine .eat h (by simp) (fun he => (hm2.trans hm3).keeps he _) fun _ h1 => ?_
  refine .eat h1 (by simp) (fun he => hm3.keeps he _) fun _ h2 => ?_
  exact .eat h2 (by simp) (fun he => (Moves.refl _).keeps he _) fun _ h3 => .ok _ h3

theorem strLit_agrees (h : Stands p ts) : Agrees (strLit ts) (tasmParseStrLit p) := by
  unfold tasmParseStrLit
  dsimp only
  refine .eat h (by simp) (fun he => ?_) fun _ h1 => ?_
  · rcases (tasmParserEat p TokenType.quota).currentToken.value with _ | val
    · exact fun _ hr => nomatch hr
    · exact ((Moves.eat _ _).trans (Moves.eat _ _)).keeps he _
  · generalize tasmParserEat p TokenType.quota = p1 at h1
    have hm3 := Moves.eat (tasmParserEat p1 TokenType.string) TokenType.quota
    rcases hv : p1.currentToken.value with _ | val
    · -- without a text the parser has crashed before it expects the closing quote
      refine .eat h1 (by simp) (fun _ _ hr => nomatch hr) fun us _ => ?_
      dsimp only
      rw [hv]
      cases expect .quota us <;> exact .stopped
    · refine .eat h1 (by simp) (fun he => hm3.keeps he _) fun _ h2 => ?_
      refine .eat h2 (by simp) (fun he => (Moves.refl _).keeps he _) fun _ h3 => ?_
      dsimp only
      rw [hv]
      exact .ok _ h3

theorem number_agrees (h : Stands p ts) : Agrees (number ts) (tasmParseNumberOperand p) := by
  unfold tasmParseNumberOperand number
  rw [← h.first]
  -- behind the minus, if there is one
  have hminus := h.eatIf .minus
  unfold eatIf at hminus
  simp only [beq_iff_eq]
  generalize (if p.currentToken.type = .minus then tasmParserEat p TokenType.minus else p) = q at hminus ⊢
  generalize skip .minus ts = us at hminus ⊢
  rw [isOperandNumber_eq hminus]
  split
  · rename_i hn
    exact (numLit_agrees hminus hn _).map
  · exact .ok _ hminus

theorem labelCall_agrees (h : Stands p ts) : Agrees (labelCall ts) (.ok (tasmParseLabelCall p)) :=
  .eat h (by simp) (fun he => (Moves.refl _).keeps he _) fun _ h1 => .ok _ h1

theorem label_agrees (h : Stands p ts) : Agrees (label ts) (tasmParseLabelOperand p) := by
  unfold tasmParseLabelOperand label
  rw [isOperandLabelCall, ← h.first]
  by_cases hi : p.currentToken.type = .id
  · simp only [hi, beq_self_eq_true, if_true]
    exact (labelCall_agrees h).map
  · simp only [hi, beq_eq_false_iff_ne.mpr hi, if_false]
    exact .ok _ h

/-- A missing operand is an error. -/
theorem needed_agrees {parse : Tokens → Option (Option TasmAst × Tokens)}
    {x : TasmParser → Parse (Option TasmAst × TasmParser)} (code : Nat) (message : String)
    (h : Agrees (parse ts) (x p)) : Agrees (needed parse ts) (needOperand x code message p) := by
  unfold needed needOperand
  rcases hp : parse ts with _ | ⟨a, us⟩
  · rw [hp] at h
    intro r hr
    obtain ⟨r', hx, rfl⟩ := Except.map_eq_ok hr
    have he := h r' hx
    split
    · rfl
    · exact he
  · rw [hp] at h
    obtain ⟨q, hx, hq⟩ := h
    rw [hx]
    rcases a with _ | a
    · exact .refused rfl
    · exact .ok _ hq

theorem pushOperand_agrees (h : Stands p ts) : Agrees (pushOperand ts) (tasmParsePushOperand p) := by
  unfold tasmParsePushOperand pushOperand
  rw [isOperandChar, ← h.first]
  by_cases ha : p.currentToken.type = .apost
  · simp only [ha, beq_self_eq_true, if_true]
    exact (charLit_agrees h).map
  · simp only [ha, beq_eq_false_iff_ne.mpr ha, if_false]
    exact number_agrees h

theorem jumpOperand_agrees (h : Stands p ts) : Agrees (jumpOperand ts) (tasmParseJmpOperand p) := by
  have hint := int_agrees h
  unfold tasmParseJmpOperand jumpOperand
  unfold tasmParseIntOperand at hint
  rw [isOperandInt_eq h] at hint ⊢
  split
  · rename_i hi
    rw [if_pos hi] at hint
    exact hint
  · exact label_agrees h

theorem operand_agrees (h : Stands p ts) (o : OpType) : Agrees (operand o.operandKind ts) (parseOperand o p) := by
  cases o with
  | push => exact needed_agrees _ _ (pushOperand_agrees h)
  | cln | swap | loadc | aloadc | load | store | gload | gstore | derefb | native =>
    exact needed_agrees _ _ (int_agrees h)
  | jmp | jz | jnz => exact needed_agrees _ _ (jumpOperand_agrees h)
  | call => exact needed_agrees _ _ (label_agrees h)
  | _ => exact .ok _ h

end Literals

/-! ## Lines -/

section Lines

variable {p : TasmParser} {ts : Tokens}

theorem endOfLine_eq (p : TasmParser) :
    endOfLine p = if (eatIf .comment p).currentToken.type = .eof then tasmParserEat (eatIf .comment p) TokenType.eof
      else tasmParserEat (eatIf .comment p) TokenType.endline := rfl

/-- What ends with a line: the last token is that of the line or of the text. -/
theorem endOfLine_agrees {β : Type} (h : Stands p ts) (b : β) :
    Agrees (Grammar.endOfLine ts >>= fun us => some (b, us)) (.ok (b, endOfLine p)) := by
  have h1 := h.eatIf .comment
  rw [endOfLine_eq, Grammar.endOfLine]
  generalize eatIf .comment p = q, skip .comment ts = vs at h1 ⊢
  rcases vs with _ | ⟨t, us⟩
  · have hq : q.currentToken.type = .eof := h1.first
    rw [if_pos hq, tasmParserEat_match hq]
    exact .ok _ h1.shift
  · have hq : q.currentToken.type = t.type := h1.first
    rw [if_neg (hq ▸ h1.proper t (by simp))]
    by_cases ht : t.type = .endline
    · simp only [ht, if_true]
      rw [tasmParserEat_match (hq.trans ht)]
      exact .ok _ h1.shift
    · simp only [ht, if_false]
      refine .refused ?_
      cases he : (tasmParserEat q TokenType.endline).isErr with
      | true => rfl
      | false => exact absurd (hq ▸ tasmParserEat_noErr he) ht

theorem isLineInstruction_eq (h : Stands p ts) : isLineInstruction p = isInstruction (first ts) := by
  rw [← h.first]
  cases hi : isLineInstruction p with
  | true =>
    obtain ⟨o, ho⟩ := isLineInstruction_op hi
    rw [ho]; rfl
  | false =>
    cases ht : p.currentToken.type with
    | op o => rw [isLineInstruction_of_op ht] at hi; cases hi
    | _ => rfl

theorem instruction_agrees (h : Stands p ts) : Agrees (instruction ts) (tasmParseInstruction p) := by
  have heat := h.eat
  unfold tasmParseInstruction
  rcases ts with _ | ⟨t, us⟩
  · rw [h.first]
    exact .stopped
  rw [show p.currentToken = t from h.current] at heat ⊢
  simp only [instruction]
  cases ht : t.type with
  | op o =>
    rw [ht] at heat
    refine (operand_agrees heat o).bind (fun a q r he hr => ?_) fun a vs q hq => ?_
    · exact (Moves.endOfLine q).keeps he _ r hr
    · exact endOfLine_agrees hq (TasmAst.op o t.value a)
  | _ => exact .stopped

theorem isLineLabelDecl_eq (h : Stands p ts) : isLineLabelDecl p = isLabelDecl ts := by
  unfold isLineLabelDecl
  rw [h.current, h.next]
  rcases ts with _ | ⟨x, _ | ⟨c, us⟩⟩
  · rfl
  · exact Bool.and_false _
  · rfl

theorem labelDecl_agrees (h : Stands p ts) : Agrees (labelDecl ts) (.ok (tasmParseLabelDecl p)) := by
  have hm := Moves.eat (tasmParserEat p TokenType.id) TokenType.colon
  refine .eat h (by simp) (fun he => hm.keeps he _) fun _ h1 => ?_
  exact .eat h1 (by simp) (fun he => (Moves.refl _).keeps he _) fun _ h2 => .ok _ h2

theorem isTokenCtype_eq (p : TasmParser) :
    isTokenCtype p = match p.currentToken.type with | .tci _ => true | _ => false := by
  cases hi : isTokenCtype p with
  | true =>
    obtain ⟨t, ht⟩ := isTokenCtype_iff.mp hi
    rw [ht]
  | false =>
    cases ht : p.currentToken.type with
    | tci t => rw [isTokenCtype_tci ht] at hi; cases hi
    | _ => rfl

/-- The three checks at the end of both line parsers find the kinds that start no line. -/
theorem refused_eq (p : TasmParser) :
    refused p.currentToken.type = (isUnexpected p || isLineCinterfaceToken p || isLineEndp p) := by
  unfold isUnexpected isLineCinterfaceToken isLineEndp
  rw [isTokenCtype_eq]
  cases p.currentToken.type <;> rfl

theorem errIf_isErr {cond : TasmParser → Bool} (c : Nat) (m : String) (h : cond p = true) :
    (errIf cond c m p).isErr = true := by
  rw [errIf, if_pos h]; rfl

/-- A token that starts no line is an error, and the ends of lines are skipped. -/
theorem lineRest_agrees (h : Stands p ts) (u c : Nat) :
    Agrees (if refused (first ts) then none else some ((none : Option TasmAst), blank ts))
      (.ok (none, lineRest u c p)) := by
  rw [← h.first, refused_eq]
  unfold lineRest
  dsimp only
  have heat (q : TasmParser) : Moves q (eatIf .eof (eatIf .comment (eatIf .endline q))) :=
    ((Moves.eatIf _ _).trans (Moves.eatIf _ _)).trans (Moves.eatIf _ _)
  -- the three reports, in the order of the source
  cases h1 : isUnexpected p with
  | true =>
    have he := errIf_isErr u "Unexpected identifier or number or symbol" h1
    exact .refused ((((Moves.errIf _ _ _ _).trans (Moves.errIf _ _ _ _)).trans (heat _)).isErr he)
  | false =>
  rw [errIf_skip u _ h1]
  cases h2 : isLineCinterfaceToken p with
  | true =>
    have he := errIf_isErr c "Unexpected C interface token" h2
    exact .refused (((Moves.errIf _ _ _ _).trans (heat _)).isErr he)
  | false =>
  rw [errIf_skip c _ h2]
  cases h3 : isLineEndp p with
  | true => exact .refused ((heat _).isErr (errIf_isErr 1000 "Unexpected endp" h3))
  | false =>
  rw [errIf_skip 1000 _ h3]
  have hs := ((h.eatIf .endline).eatIf .comment).eatIf .eof
  rw [((h.eatIf .endline).eatIf .comment).skip_eof, ← blank] at hs
  exact .ok _ hs

/-- What only the file may hold is an error in a proc. -/
theorem globalOnly_agrees (p : TasmParser) :
    if [TokenType.proc, .atSign, .data].contains p.currentToken.type then (globalOnly p).isErr = true
    else globalOnly p = p := by
  have hc : [TokenType.proc, .atSign, .data].contains p.currentToken.type =
      (isLineProc p || isLineMeta p || p.currentToken.type == .data) := by
    unfold isLineProc isLineMeta
    cases p.currentToken.type <;> rfl
  rw [hc]
  unfold globalOnly
  dsimp only
  cases h1 : isLineProc p with
  | true =>
    have he := errIf_isErr 3401 "A proc cannot be defined in anothe proc" h1
    exact ((Moves.errIf _ _ _ _).trans (Moves.errIf _ _ _ _)).isErr he
  | false =>
  rw [errIf_skip 3401 _ h1]
  cases h2 : isLineMeta p with
  | true =>
    have he := errIf_isErr 3601 "Meta decleration must be declared at global scope" h2
    exact (Moves.errIf _ _ _ _).isErr he
  | false =>
  rw [errIf_skip 3601 _ h2]
  cases h3 : (p.currentToken.type == TokenType.data) with
  | true => exact errIf_isErr _ _ h3
  | false => exact errIf_skip _ _ h3

theorem procLine_agrees (h : Stands p ts) : Agrees (procLine ts) (tasmParseProcLine p) := by
  unfold tasmParseProcLine procLine
  rw [isLineLabelDecl_eq h, isLineInstruction_eq h]
  split
  · exact (labelDecl_agrees h).map
  split
  · exact (instruction_agrees h).map
  have hg := globalOnly_agrees p
  rw [h.first] at hg
  cases hc : [TokenType.proc, .atSign, .data].contains (first ts) with
  | true =>
    rw [hc, if_pos rfl] at hg
    have hm := Moves.lineRest 1201 5101 (globalOnly p)
    rw [Bool.or_true, if_pos rfl]
    generalize lineRest 1201 5101 (globalOnly p) = q at hm ⊢
    exact .refused (hm.isErr hg)
  | false =>
    rw [hc] at hg
    rw [Bool.or_false, show globalOnly p = p from hg]
    exact lineRest_agrees h 1201 5101

end Lines

/-! ## Loops over lines -/

section Loops

variable {stop : TokenType → Bool} {line : Tokens → Option (Option TasmAst × Tokens)}
  {cond : TasmParser × List TasmAst → Bool} {body : TasmParser × List TasmAst → Parse (TasmParser × List TasmAst)}

/-- A loop over lines does what repeating the line of the grammar does: by induction on the fuel, the lines so
far in front. -/
theorem many_agrees (hcond : ∀ p s ts, Stands p ts → cond (p, s) = !stop (first ts))
    (hbody : ∀ p s ts, Stands p ts →
      Agrees ((line ts).map (Prod.map (fun l => s ++ l.toList) id)) ((body (p, s)).map Prod.swap))
    (hkeeps : ∀ s s', s.1.isErr = true → body s = .ok s' → s'.1.isErr = true) :
    ∀ (fuel : Nat) (p : TasmParser) (s : List TasmAst) (ts : Tokens), Stands p ts →
      Agrees ((many stop line fuel ts).map (Prod.map (s ++ ·) id)) ((Loop.run cond body fuel (p, s)).map Prod.swap)
  | 0, p, s, ts, h => by
    simp only [many, Loop.run, hcond p s ts h]
    cases stop (first ts) with
    | true => exact ⟨p, by simp [Except.map], h⟩
    | false => exact .stopped
  | fuel + 1, p, s, ts, h => by
    simp only [many, Loop.run, hcond p s ts h]
    cases stop (first ts) with
    | true => exact ⟨p, by simp [Except.map], h⟩
    | false =>
      have hb := hbody p s ts h
      simp only [Bool.not_false, if_true, Bool.false_eq_true, if_false]
      rcases hl : line ts with _ | ⟨l, us⟩
      · -- an error in this line is still there at the end of the loop
        intro r hr
        rw [hl] at hb
        obtain ⟨s', hs', rfl⟩ := Except.map_eq_ok hr
        obtain ⟨t, ht, hs'⟩ := Except.bind_ok hs'
        have he : t.1.isErr = true := hb t.swap (by rw [ht]; rfl)
        exact (Loop.run_inv (fun t => t.1.isErr = true) (fun t t' he _ => hkeeps t t' he) fuel t s' he hs').1
      · rw [hl] at hb
        obtain ⟨q, hq, hs⟩ := hb
        obtain ⟨⟨q', s'⟩, ht, hsw⟩ := Except.map_eq_ok hq
        cases hsw
        have ih := many_agrees hcond hbody hkeeps fuel q' (s ++ l.toList) us hs
        rw [ht]
        change Agrees _ ((Loop.run cond body fuel (q', s ++ l.toList)).map Prod.swap)
        rcases hm : many stop line fuel us with _ | ⟨ls, vs⟩
        · rw [hm] at ih
          simpa [hm] using ih
        · rw [hm] at ih
          simpa [hm] using ih

/-- One turn: the line is appended, and a flag of the warnings may fall. -/
theorem turn_agrees {parse : TasmParser → Parse (Option TasmAst × TasmParser)} {p : TasmParser}
    {o : Option (Option TasmAst × Tokens)} (h : Agrees o (parse p)) (warn : TasmAst → TasmParser → TasmParser)
    (hwarn : ∀ l q us, Stands q us → Stands (warn l q) us) (hm : ∀ l q, Moves q (warn l q)) (s : List TasmAst) :
    Agrees (o.map (Prod.map (fun l => s ++ l.toList) id))
      ((parse p >>= fun r => match r.1 with
        | none => .ok (r.2, s)
        | some l => .ok (warn l r.2, s ++ [l]) : Parse (TasmParser × List TasmAst)).map Prod.swap) := by
  rcases o with _ | ⟨l, us⟩
  · intro r hr
    obtain ⟨s', hs', rfl⟩ := Except.map_eq_ok hr
    obtain ⟨⟨l, q⟩, hp, hs'⟩ := Except.bind_ok hs'
    have he : q.isErr = true := h _ hp
    rcases l with _ | l
    · cases hs'; exact he
    · cases hs'; exact (hm l q).isErr he
  · obtain ⟨q, hp, hq⟩ := h
    rw [hp]
    rcases l with _ | l
    · exact ⟨q, by simp [Except.map, Bind.bind, Except.bind], hq⟩
    · exact ⟨warn l q, rfl, hwarn l q us hq⟩

theorem procBody_agrees {p : TasmParser} {ts : Tokens} (h : Stands p ts) (s : List TasmAst) :
    Agrees ((procLine ts).map (Prod.map (fun l => s ++ l.toList) id)) ((procBody (p, s)).map Prod.swap) := by
  refine turn_agrees (procLine_agrees h) (fun l q => if l.isOp .ret then { q with procReturnWarning := false } else q)
    ?_ ?_ s
  · intro l q us hq
    split
    · exact hq.procReturnWarning false
    · exact hq
  · intro l q
    split
    · exact .procReturnWarning q false
    · exact .refl q

theorem procBody_keeps {s s' : TasmParser × List TasmAst} (he : s.1.isErr = true) (hs : procBody s = .ok s') :
    s'.1.isErr = true :=
  ((procBody_spec (F := fun _ => True) trivial (anyIds _) fun hf => absurd (he.symm.trans hf) (by simp)).of_ok
    hs).1.moves.isErr he

theorem loop_agrees (hcond : ∀ p s ts, Stands p ts → cond (p, s) = !stop (first ts))
    (hbody : ∀ p s ts, Stands p ts →
      Agrees ((line ts).map (Prod.map (fun l => s ++ l.toList) id)) ((body (p, s)).map Prod.swap))
    (hkeeps : ∀ s s', s.1.isErr = true → body s = .ok s' → s'.1.isErr = true) (fuel : Nat) {p : TasmParser}
    {ts : Tokens} (h : Stands p ts) :
    Agrees (many stop line fuel ts) ((Loop.run cond body fuel (p, [])).map Prod.swap) := by
  have hid : Prod.map (([] : List TasmAst) ++ ·) (id : Tokens → Tokens) = id := by funext r; rfl
  have := many_agrees hcond hbody hkeeps fuel p [] ts h
  rwa [hid, Option.map_id] at this

theorem loop_keeps (hkeeps : ∀ s s', s.1.isErr = true → body s = .ok s' → s'.1.isErr = true) {fuel : Nat}
    {s s' : TasmParser × List TasmAst} (he : s.1.isErr = true) (h : Loop.run cond body fuel s = .ok s') :
    s'.1.isErr = true :=
  (Loop.run_inv (fun t => t.1.isErr = true) (fun t t' he _ => hkeeps t t' he) fuel s s' he h).1

/-- Behind the lines of a proc. -/
def procEnd (p : TasmParser) : TasmParser :=
  let p := tasmParserEat p TokenType.endp
  let p := if p.procReturnWarning then
    tasmParserWarn p (cstr "procedure: there is no " ++ pink "ret" ++
      cstr " opcode. It may cause possible unpredicted behaivours") else p
  endOfLine { p with procReturnWarning := true }

theorem tasmParseProc_eq (fuel : Nat) (p : TasmParser) :
    tasmParseProc fuel p = Loop.run procCond procBody fuel (procStart p, []) >>= fun s =>
      .ok (.proc (tasmParserEat p TokenType.proc).currentToken.value s.2, procEnd s.1) := rfl

theorem procEnd_moves (p : TasmParser) : Moves p (procEnd p) :=
  (((Moves.eat p _).trans (Moves.warnIf _ _ _)).trans (.procReturnWarning _ true)).trans (.endOfLine _)

theorem procEnd_agrees {p : TasmParser} {ts : Tokens} (h : Stands p ts) (a : TasmAst) :
    Agrees (expect .endp ts >>= fun r => Grammar.endOfLine r.2 >>= fun us => some (a, us)) (.ok (a, procEnd p)) := by
  refine .eat h (by simp) (fun he => ?_) fun us h1 => ?_
  · exact (((Moves.warnIf _ _ _).trans (.procReturnWarning _ true)).trans (.endOfLine _)).keeps he _
  · exact endOfLine_agrees ((h1.warnIf _ _).procReturnWarning true) a

theorem procCond_eq {p : TasmParser} {ts : Tokens} (h : Stands p ts) (s : List TasmAst) :
    procCond (p, s) = !(first ts == .endp || first ts == .eof) := by
  simp [procCond, h.first, bne, Bool.not_or]

theorem proc_agrees {p : TasmParser} {ts : Tokens} (h : Stands p ts) (fuel : Nat) :
    Agrees (Grammar.proc fuel ts) (tasmParseProc fuel p) := by
  rw [tasmParseProc_eq]
  -- an error before the lines is still there behind them
  have hrest (q : TasmParser) (name : Option CStr) (he : q.isErr = true) (r : TasmAst × TasmParser)
      (hr : (Loop.run procCond procBody fuel (q, []) >>= fun s =>
        .ok (.proc name s.2, procEnd s.1)) = Except.ok r) : r.2.isErr = true := by
    obtain ⟨s, hs, hr⟩ := Except.bind_ok hr
    exact (procEnd_moves s.1).keeps (loop_keeps (fun _ _ => procBody_keeps) he hs) _ r hr
  unfold procStart
  refine .eat h (by simp) (fun he => hrest _ _ ((Moves.eat _ _).isErr he)) fun _ h1 => ?_
  generalize tasmParserEat p TokenType.proc = p1 at h1 ⊢
  refine .eat h1 (by simp) (fun he => hrest _ _ he) fun us h2 => ?_
  refine (loop_agrees (fun _ s _ h => procCond_eq h s) (fun _ s _ h => procBody_agrees h s)
    (fun _ _ => procBody_keeps) fuel h2).bind_swap ?_ ?_
  · exact fun _ q r he => (procEnd_moves q).keeps he _ r
  · exact fun ls vs q hq => procEnd_agrees hq _

end Loops

/-! ## Metadata -/

section Metadata

variable {p : TasmParser} {ts : Tokens}

theorem argCond_eq (h : Stands p ts) (s : List Byte × Nat) :
    argCond (p, s) = !([TokenType.endline, .eof, .comment].contains (first ts)) := by
  unfold argCond
  dsimp only
  rw [h.first]
  cases first ts <;> rfl

theorem ctypeByte_tci {t : CType} (h : p.currentToken.type = .tci t) : ctypeByte p = t.code := by
  simp only [ctypeByte, h]
  cases t <;> rfl

theorem ctype_some (h : Stands p ts) (hi : isTokenCtype p = true) :
    ∃ us, ctype ts = some (ctypeByte p, us) ∧ Stands (tasmParserEat p p.currentToken.type) us := by
  obtain ⟨b, hb⟩ := isTokenCtype_iff.mp hi
  obtain ⟨t, us, rfl⟩ := h.cons_of_ne (by rw [hb]; simp)
  have ht : t.type = .tci b := by rw [← hb, h.current]; rfl
  refine ⟨us, ?_, h.eat⟩
  simp only [ctype, ht, ctypeByte_tci hb]

theorem ctype_none (h : Stands p ts) (hi : isTokenCtype p = false) : ctype ts = none := by
  rw [isTokenCtype_eq, h.first] at hi
  rcases ts with _ | ⟨t, us⟩
  · rfl
  · simp only [ctype]
    change (match t.type with | .tci _ => true | _ => false) = false at hi
    split at hi
    · cases hi
    · rename_i hne
      cases ht : t.type with
      | tci b => exact absurd ht (hne b)
      | _ => rfl

theorem argLoop_keeps {fuel : Nat} {s s' : TasmParser × List Byte × Nat} (he : s.1.isErr = true)
    (h : Loop.run argCond argBody fuel s = .ok s') : s'.1.isErr = true :=
  (Loop.run_inv (fun t => t.1.isErr = true) (fun _ _ he _ hb => (argBody_spec hb).1.isErr he) fuel s s' he h).1

/-- The loop over the argument types, by induction on the fuel. -/
theorem ctypes_agrees : ∀ (fuel : Nat) (p : TasmParser) (s : List Byte) (ts : Tokens), Stands p ts →
    Agrees ((ctypes fuel ts).map (Prod.map (fun cs => (s ++ cs, (s ++ cs).length % 2 ^ 16)) id))
      ((Loop.run argCond argBody fuel (p, s, s.length % 2 ^ 16)).map Prod.swap)
  | 0, p, s, ts, h => by
    simp only [ctypes, Loop.run, argCond_eq h]
    cases [TokenType.endline, .eof, .comment].contains (first ts) with
    | true => exact ⟨p, by simp [Except.map], h⟩
    | false => exact .stopped
  | fuel + 1, p, s, ts, h => by
    simp only [ctypes, Loop.run, argCond_eq h]
    cases [TokenType.endline, .eof, .comment].contains (first ts) with
    | true => exact ⟨p, by simp [Except.map], h⟩
    | false =>
      simp only [Bool.not_false, if_true, Bool.false_eq_true, if_false]
      cases hi : isTokenCtype p with
      | false =>
        -- an argument that is no type is reported, and the report stays
        rw [ctype_none h hi]
        intro r hr
        obtain ⟨s', hs', rfl⟩ := Except.map_eq_ok hr
        obtain ⟨t, ht, hs'⟩ := Except.bind_ok hs'
        rw [argBody, hi] at ht
        cases ht
        exact argLoop_keeps ((Moves.eat _ _).isErr (tasmParserEat_code p (c := 4100) (by omega))) hs'
      | true =>
        obtain ⟨us, hct, hs⟩ := ctype_some h hi
        have hbody : argBody (p, s, s.length % 2 ^ 16) =
            .ok (tasmParserEat p p.currentToken.type, s ++ [ctypeByte p], (s ++ [ctypeByte p]).length % 2 ^ 16) := by
          simp [argBody, hi]
        -- the loop goes on with one type more
        generalize tasmParserEat p p.currentToken.type = q, ctypeByte p = b at hs hbody hct
        rw [hct]
        have ih := ctypes_agrees fuel q (s ++ [b]) us hs
        rw [hbody]
        change Agrees _ ((Loop.run argCond argBody fuel (q, s ++ [b], (s ++ [b]).length % 2 ^ 16)).map Prod.swap)
        rcases hcs : ctypes fuel us with _ | ⟨cs, vs⟩
        · rw [hcs] at ih
          simpa [hcs] using ih
        · rw [hcs] at ih
          simpa [hcs] using ih

theorem args_agrees (h : Stands p ts) (fuel : Nat) :
    Agrees ((ctypes fuel ts).map (Prod.map (fun cs => (cs, cs.length % 2 ^ 16)) id))
      ((Loop.run argCond argBody fuel (p, [], 0)).map Prod.swap) := ctypes_agrees fuel p [] ts h

theorem cfunction_agrees (h : Stands p ts) (fuel : Nat) :
    Agrees (Grammar.cfunction fuel ts) (tasmParseCfunction fuel p) := by
  -- an error before the argument types is still there behind them
  have hrest (q : TasmParser) (rtype : Byte) (name : Option CStr) (he : q.isErr = true) (r : TasmAst × TasmParser)
      (hr : (Loop.run argCond argBody fuel (q, [], 0) >>= fun s =>
        .ok (.cfunction rtype s.2.1 s.2.2 name, s.1)) = Except.ok r) : r.2.isErr = true := by
    obtain ⟨s, hs, hr⟩ := Except.bind_ok hr
    cases hr
    exact argLoop_keeps he hs
  unfold tasmParseCfunction
  refine .eat h (by simp) (fun he => ?_) fun us h1 => ?_
  · exact hrest _ _ _ ((Moves.eat _ _).isErr ((Moves.eat _ _).isErr ((expectCtype (by omega)).1.isErr he)))
  generalize tasmParserEat p TokenType.cfunction = p1 at h1 ⊢
  dsimp only
  cases hi : isTokenCtype p1 with
  | false =>
    have he : (tasmParserEat p1 4000).isErr = true := tasmParserEat_code p1 (by omega)
    rw [ctype_none h1 hi]
    exact hrest _ _ _ ((Moves.eat _ _).isErr ((Moves.eat _ _).isErr he))
  | true =>
    obtain ⟨vs, hct, h2⟩ := ctype_some h1 hi
    simp only [hct, if_true]
    refine .eat h2 (by simp) (fun he => hrest _ _ _ he) fun ws h3 => ?_
    have hargs := (args_agrees h3 fuel).map (f := fun c => TasmAst.cfunction (ctypeByte p1) c.1 c.2
      (tasmParserEat p1 p1.currentToken.type).currentToken.value)
    generalize ctypes fuel ws = o at hargs ⊢
    generalize Loop.run argCond argBody fuel _ = x at hargs ⊢
    rcases o with _ | ⟨cs, us⟩ <;> rcases x with e | s <;> exact hargs

theorem dataValue_agrees (h : Stands p ts) : Agrees (dataValue ts) (parseDataValue p) := by
  unfold parseDataValue dataValue
  rw [h.first]
  split
  · exact (strLit_agrees h).map
  split
  · exact (charLit_agrees h).map
  · exact number_agrees h

theorem data_agrees (h : Stands p ts) : Agrees (Grammar.data ts) (tasmParseData p) := by
  unfold tasmParseData
  refine .eat h (by simp) (fun he r hr => ?_) fun us h1 => ?_
  · obtain ⟨r', hr', rfl⟩ := Except.map_eq_ok hr
    exact dataValue_keepsErr _ _ he hr'
  · have hv := (dataValue_agrees h1).map (f := TasmAst.data)
    change Agrees (dataValue us >>= fun r => some (TasmAst.data r.1, r.2)) _
    generalize dataValue us = o at hv ⊢
    generalize parseDataValue _ = x at hv ⊢
    rcases o with _ | ⟨v, us⟩ <;> exact hv

theorem cstruct_agrees (h : Stands p ts) : Agrees (cstruct ts) (.ok (tasmParseCstruct p)) :=
  .eat h (by simp) (fun he => (Moves.refl _).keeps he _) fun _ h1 => .ok _ h1

theorem metadata_agrees (h : Stands p ts) (hf : first ts = .atSign) (fuel : Nat) :
    Agrees ((metadata fuel ts).map (Prod.map some id)) (tasmParseMetadata fuel p) := by
  obtain ⟨t, us, rfl⟩ := h.cons_of_ne (by rw [h.first, hf]; simp)
  have h1 := h.eat
  rw [h.first, hf] at h1
  unfold tasmParseMetadata metadata
  simp only [expect, show t.type = .atSign from hf, if_true, Option.bind_eq_bind, Option.bind_some]
  generalize tasmParserEat p TokenType.atSign = p1 at h1 ⊢
  change Stands p1 us at h1
  rw [h1.first]
  split
  · exact (cfunction_agrees h1 fuel).map
  split
  · exact (cstruct_agrees h1).map
  split
  · exact (data_agrees h1).map
  · exact .refused (tasmParserEat_code p1 (by omega))

end Metadata

/-! ## Files -/

section Files

variable {p : TasmParser} {ts : Tokens}

theorem isLineProc_eq (h : Stands p ts) : isLineProc p = (first ts == .proc) := by rw [isLineProc, h.first]

theorem isLineMeta_eq (h : Stands p ts) : isLineMeta p = (first ts == .atSign) := by rw [isLineMeta, h.first]

theorem line_agrees (h : Stands p ts) (fuel : Nat) : Agrees (line fuel ts) (tasmParseLine fuel p) := by
  unfold tasmParseLine line
  rw [isLineLabelDecl_eq h, isLineInstruction_eq h, isLineProc_eq h, isLineMeta_eq h]
  simp only [beq_iff_eq]
  split
  · exact (labelDecl_agrees h).map
  split
  · exact (proc_agrees h fuel).map
  split
  · exact (instruction_agrees h).map
  split
  · rename_i hf
    exact metadata_agrees h hf fuel
  · exact lineRest_agrees h 1200 5100

theorem fileBody_agrees (h : Stands p ts) (fuel : Nat) (s : List TasmAst) :
    Agrees ((line fuel ts).map (Prod.map (fun l => s ++ l.toList) id)) ((fileBody fuel (p, s)).map Prod.swap) := by
  refine turn_agrees (line_agrees h fuel) (fun l q => if l.isOp .halt then { q with globalHltWarning := false } else q)
    ?_ ?_ s
  · intro l q us hq
    split
    · exact hq.globalHltWarning false
    · exact hq
  · intro l q
    split
    · exact .globalHltWarning q false
    · exact .refl q

theorem fileBody_keeps {fuel : Nat} {s s' : TasmParser × List TasmAst} (he : s.1.isErr = true)
    (hs : fileBody fuel s = .ok s') : s'.1.isErr = true :=
  ((fileBody_spec (F := fun _ => True) trivial trivial fuel (anyIds _) fun hf => absurd (he.symm.trans hf) (by simp)).of_ok
    hs).1.moves.isErr he

theorem init_stands {ts : Tokens} (hts : ∀ t ∈ ts, t.type ≠ .eof) :
    Stands (tasmParserEat (tasmParserInit ts) TokenType.none) ts where
  current := rfl
  next := by rcases ts with _ | ⟨t, us⟩ <;> rfl
  rest := by rcases ts with _ | ⟨t, us⟩ <;> rfl
  noErr := rfl
  warned := by simp [tasmParserEat, tasmParserInit, TasmParser.shift]
  proper := hts

/-- Behind the lines of the file. -/
def fileEnd (p : TasmParser) : TasmParser :=
  let p := if p.globalHltWarning then
    tasmParserWarn p (cstr "file: there is no " ++ pink "hlt" ++
      cstr " opcode. It may cause possible unpredicted behaivours") else p
  endOfLine { p with globalHltWarning := true }

theorem tasmParseFile_eq (fuel : Nat) (p : TasmParser) :
    tasmParseFile fuel p = Loop.run fileCond (fileBody fuel) fuel (tasmParserEat p TokenType.none, []) >>= fun s =>
      .ok (.file s.2, fileEnd s.1) := rfl

theorem fileEnd_moves (p : TasmParser) : Moves p (fileEnd p) :=
  ((Moves.warnIf _ _ _).trans (.globalHltWarning _ true)).trans (.endOfLine _)

theorem fileCond_eq (h : Stands p ts) (s : List TasmAst) : fileCond (p, s) = !(first ts == .eof) := by
  simp [fileCond, h.first, bne]

/-- On the tokens of a text the parser returns, without error, what the grammar derives. -/
theorem file_agrees {ts : Tokens} (hts : ∀ t ∈ ts, t.type ≠ .eof) (fuel : Nat) :
    Agrees (file fuel ts) (tasmParseFile fuel (tasmParserInit ts)) := by
  rw [tasmParseFile_eq]
  refine (loop_agrees (fun _ s _ h => fileCond_eq h s) (fun _ s _ h => fileBody_agrees h fuel s)
    (fun _ _ => fileBody_keeps) fuel (init_stands hts)).bind_swap ?_ ?_
  · exact fun _ q r he => (fileEnd_moves q).keeps he _ r
  · exact fun ls us q hq => endOfLine_agrees ((hq.warnIf _ _).globalHltWarning true) _

/-- The files that are accepted, and their trees. -/
theorem parse_ok_iff {ts : Tokens} (hts : ∀ t ∈ ts, t.type ≠ .eof) {fuel : Nat} {ast : TasmAst} :
    (∃ p, tasmParseFile fuel (tasmParserInit ts) = .ok (ast, p) ∧ p.isErr = false) ↔
      ∃ us, file fuel ts = some (ast, us) := by
  have ha := file_agrees hts fuel
  constructor
  · rintro ⟨p, hp, he⟩
    rcases hf : file fuel ts with _ | ⟨a, us⟩
    · rw [hf] at ha
      exact absurd (he.symm.trans (ha _ hp)) (by simp)
    · rw [hf] at ha
      obtain ⟨q, hq, -⟩ := ha
      cases hp.symm.trans hq
      exact ⟨us, rfl⟩
  · rintro ⟨us, hf⟩
    rw [hf] at ha
    obtain ⟨p, hp, hs⟩ := ha
    exact ⟨p, hp, hs.noErr⟩

end Files

end TileVm
