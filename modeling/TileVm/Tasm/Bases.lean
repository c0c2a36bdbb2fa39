/-
Integer literals in their three bases. A literal can be written in any of them wherever its kind of
operand allows it; what it becomes is followed from its characters over its tokens and its node to the
operand or constant, on a host of either byte order.
-/
import TileVm.Tasm.Metadata
import TileVm.Tasm.PrintTokens
import TileVm.Tasm.Scopes

namespace TileVm

/-! ## Spellings -/

/-- The bases of integer literals. -/
inductive Base where
  | decimal
  | hexadecimal
  | binary
deriving DecidableEq

namespace Base

def radix : Base → Nat
  | decimal => 10
  | hexadecimal => 16
  | binary => 2

/-- What stands in front of the digits. -/
def marks : Base → List CStr
  | decimal => [[]]
  | hexadecimal => [cstr "0x", cstr "0X"]
  | binary => [cstr "0b", cstr "0B"]

def tokenType : Base → TokenType
  | decimal => .decimalNumber
  | hexadecimal => .hexNumber
  | binary => .binaryNumber

/-- The class of characters of the collector. -/
def isDigitOf : Base → Byte → Bool
  | decimal => isDigit
  | hexadecimal => isXDigit
  | binary => isBinDigit

end Base

/-- The digits `text` spell `n`: letters of either case, leading zeros, and as many as the lexer has room for. -/
structure Spells (b : Base) (n : Nat) (text : CStr) : Prop where
  digits : ∃ ds : List Nat, text.map digitValue = ds.map some ∧ (∀ d ∈ ds, d < b.radix) ∧ Nat.ofDigits b.radix ds.reverse = n
  ne : text ≠ []
  short : text.length ≤ 127

/-- A text with a minus in front of it, if there is one. -/
def signed (negative : Bool) (text : CStr) : CStr := if negative then chr '-' :: text else text

/-- `spelling` is a literal in base `b`. -/
def Writes (b : Base) (negative : Bool) (n : Nat) (spelling : CStr) : Prop :=
  ∃ mark ∈ b.marks, ∃ text, Spells b n text ∧ spelling = signed negative (mark ++ text)

/-- The number that is written. -/
def signedValue (negative : Bool) (n : Nat) : Int := if negative then -n else n

/-- The least spelling, in small letters. -/
def digitText (radix n : Nat) : CStr :=
  if n = 0 then [chr '0']
  else (Nat.digits radix n).reverse.map fun d => if d < 10 then BitVec.ofNat 8 (48 + d) else BitVec.ofNat 8 (87 + d)

section Spelling

variable {b : Base} {n : Nat} {text : CStr} {negative : Bool}

theorem Base.radix_bounds (b : Base) : 2 ≤ b.radix ∧ b.radix ≤ 16 := by
  cases b <;> decide

/-- Every number has a spelling in every base. -/
theorem spells_digitText (b : Base) (hn : n < 2 ^ 31) : Spells b n (digitText b.radix n) := by
  obtain ⟨hlow, hhigh⟩ := b.radix_bounds
  unfold digitText
  split
  · subst n
    refine ⟨⟨[0], by decide, ?_, rfl⟩, by simp, by simp⟩
    rintro d hd
    rw [List.mem_singleton] at hd
    omega
  · have hlt : ∀ d ∈ (Nat.digits b.radix n).reverse, d < b.radix := fun d hd =>
      Nat.digits_lt_base hlow (List.mem_reverse.mp hd)
    refine ⟨⟨(Nat.digits b.radix n).reverse, ?_, hlt, ?_⟩, ?_, ?_⟩
    · have hvalue : ∀ d, d < 16 →
          digitValue (if d < 10 then BitVec.ofNat 8 (48 + d) else BitVec.ofNat 8 (87 + d)) = some d := by decide
      rw [List.map_map]
      exact List.map_congr_left fun d hd => hvalue d (Nat.lt_of_lt_of_le (hlt d hd) hhigh)
    · rw [List.reverse_reverse, Nat.ofDigits_digits]
    · simpa [Nat.digits_eq_nil_iff_eq_zero] using ‹¬ n = 0›
    · have hlen : (Nat.digits b.radix n).length ≤ 31 :=
        (Nat.digits_length_le_iff hlow n).mpr (Nat.lt_of_lt_of_le hn (Nat.pow_le_pow_left hlow 31))
      rw [List.length_map, List.length_reverse]
      omega

/-- The value of a digit is below the base exactly for the characters that the collector takes. -/
theorem isDigitOf_value (b : Base) (c : Byte) : b.isDigitOf c = true ↔ ∃ d, digitValue c = some d ∧ d < b.radix := by
  have hall : ∀ c : Byte, b.isDigitOf c = true ↔ (digitValue c).any (· < b.radix) = true := by
    cases b <;> decide
  rw [hall, Option.any_eq_true]
  simp

theorem Spells.chars (h : Spells b n text) : ∀ c ∈ text, b.isDigitOf c = true := by
  obtain ⟨ds, htext, hlt, -⟩ := h.digits
  intro c hc
  have hmem : digitValue c ∈ ds.map some := htext ▸ List.mem_map_of_mem hc
  obtain ⟨d, hd, heq⟩ := List.mem_map.mp hmem
  exact (isDigitOf_value b c).mpr ⟨d, heq.symm, hlt d hd⟩

/-- A digit is neither a blank nor a sign, and has no `x`. -/
theorem isDigitOf_plain (b : Base) (c : Byte) (h : b.isDigitOf c = true) :
    isSpace c = false ∧ c ≠ chr '-' ∧ c ≠ chr '+' ∧ c ≠ chr 'x' ∧ c ≠ chr 'X' ∧ isIdChar c = true := by
  revert c
  cases b <;> decide

theorem takeSign_signed (h : Spells b n text) : takeSign ((signed negative text).dropWhile isSpace) = (negative, text) := by
  obtain ⟨c, cs, rfl⟩ := List.exists_cons_of_ne_nil h.ne
  obtain ⟨hspace, hminus, hplus, -⟩ := isDigitOf_plain b c (h.chars c (by simp))
  cases negative with
  | true => rfl
  | false =>
    unfold signed
    rw [if_neg (by decide), List.dropWhile_cons_of_neg (by simp [hspace]), takeSign, if_neg hminus, if_neg hplus]

/-- `strtoll` reads the number that is written. -/
theorem strtoll_signed (h : Spells b n text) (hn : n < 2 ^ 31) :
    strtoll b.radix (signed negative text) = signedValue negative n := by
  obtain ⟨ds, htext, hlt, hvalue⟩ := h.digits
  have hmark : ¬ (b.radix = 16 ∧ (text.take 2 = cstr "0x" ∨ text.take 2 = cstr "0X")) := by
    rintro ⟨-, hx⟩
    have hmem : chr 'x' ∈ text ∨ chr 'X' ∈ text := by
      rcases hx with hx | hx
      · exact .inl (List.mem_of_mem_take (hx ▸ (by decide : chr 'x' ∈ cstr "0x")))
      · exact .inr (List.mem_of_mem_take (hx ▸ (by decide : chr 'X' ∈ cstr "0X")))
    rcases hmem with hmem | hmem
    · exact (isDigitOf_plain b _ (h.chars _ hmem)).2.2.2.1 rfl
    · exact (isDigitOf_plain b _ (h.chars _ hmem)).2.2.2.2.1 rfl
  unfold strtoll signedValue
  rw [takeSign_signed h]
  dsimp only
  rw [if_neg hmark, digitsValue_spelled htext hlt, foldl_digits, hvalue]
  cases negative with
  | true =>
    rw [if_pos rfl, if_pos rfl]
    omega
  | false =>
    rw [if_neg (by decide), if_neg (by decide)]
    omega

end Spelling

/-! ## Values -/

/-- The 32 bits of the number written. -/
def writtenBits (negative : Bool) (n : Nat) : BitVec 32 := .ofInt 32 (signedValue negative n)

/-- The 32 bits that `tasm_parse_num_lit` makes of it. -/
def Base.bits [Host] (b : Base) (v : BitVec 32) : BitVec 32 :=
  if b ≠ .decimal ∧ isLittleEndian then swapEndianUint32 v else v

theorem numLitValue_base [Host] {b : Base} {n : Nat} {text : CStr} {negative : Bool} (h : Spells b n text) (hn : n < 2 ^ 31) :
    numLitValue isLittleEndian b.tokenType (signed negative text) = some (b.bits (writtenBits negative n)) := by
  have hvalue : strtoll b.radix (signed negative text) = signedValue negative n := strtoll_signed h hn
  unfold Base.bits writtenBits
  rw [← hvalue]
  cases b <;> simp [numLitValue, Base.tokenType, Base.radix]

/-! ## Tokens -/

/-- Wherever the literal stands in front of something that ends a number, the lexer reads it as the tokens. -/
def ReadAs (spelling : CStr) (tokens : List TasmToken) : Prop :=
  ∀ ws us, (∀ c ∈ ws, isBlank c = true) → NumberEnds us → Lexes (ws ++ (spelling ++ us)) tokens us

def numberTokens (b : Base) (negative : Bool) (text : CStr) : List TasmToken :=
  if negative then [minusToken, ⟨b.tokenType, some text⟩] else [⟨b.tokenType, some text⟩]

section Tokens

variable {b : Base} {n : Nat} {spelling : CStr} {negative : Bool}

/-- The collector of a base is chosen by the first two characters. -/
theorem collectToken_mark {b : Base} {c d : Byte} (hmark : [c, d] ∈ b.marks) : isDigit c = true ∧ isIdChar d = true ∧
    ∀ fuel lx, lx.currentChar = c → lx.nextChar = d →
      collectToken fuel lx = collectPrefixed b.isDigitOf b.tokenType fuel lx := by
  cases b with
  | decimal => simp [Base.marks] at hmark
  | hexadecimal | binary =>
    simp only [Base.marks, List.mem_cons, List.not_mem_nil, or_false] at hmark
    rcases hmark with hmark | hmark
    all_goals
      cases hmark
      refine ⟨by decide, by decide, ?_⟩
      rintro fuel lx hc hd
      unfold collectToken
      rw [hc, hd]
      rfl

/-- The digits behind the prefix of their base. -/
theorem lexes_digits {mark text ws us : CStr} (hmark : mark ∈ b.marks) (h : Spells b n text)
    (hws : ∀ c ∈ ws, isBlank c = true) (hends : NumberEnds us) :
    Lexes (ws ++ (mark ++ text ++ us)) [⟨b.tokenType, some text⟩] us := by
  have hid : ∀ c, b.isDigitOf c = true → isIdChar c = true := fun c hc => (isDigitOf_plain b c hc).2.2.2.2.2
  cases b with
  | decimal =>
    simp only [Base.marks, List.mem_singleton] at hmark
    subst hmark
    exact lexes_number hws h.ne h.chars h.short hends
  | hexadecimal | binary =>
    -- a mark is a digit and a letter
    obtain ⟨c, d, rfl⟩ : ∃ c d, mark = [c, d] := by
      simp only [Base.marks, List.mem_cons, List.not_mem_nil, or_false] at hmark
      rcases hmark with rfl | rfl <;> exact ⟨_, _, rfl⟩
    obtain ⟨hc, hd, hcollect⟩ := collectToken_mark hmark
    exact lexes_prefixed hws hc hd hid (by decide) hcollect h.chars h.short hends

theorem Writes.readAs (h : Writes b negative n spelling) :
    ∃ text, Spells b n text ∧ ReadAs spelling (numberTokens b negative text) := by
  obtain ⟨mark, hmark, text, htext, rfl⟩ := h
  refine ⟨text, htext, fun ws us hws hends => ?_⟩
  unfold signed numberTokens
  cases negative with
  | false => exact lexes_digits hmark htext hws hends
  | true => exact (lexes_one hws (by simp [oneChars, minusToken])).trans (lexes_digits hmark htext no_blanks hends)

theorem LexTokens.unique {lx : TasmLexer} {ts us : List TasmToken} (h : LexTokens lx ts) (h' : LexTokens lx us) : us = ts := by
  induction h generalizing us with
  | eof call =>
    cases h' with
    | eof => rfl
    | cons call' ne =>
      obtain ⟨rfl, -⟩ := call.unique call'
      exact absurd rfl ne
  | cons call ne _ ih =>
    cases h' with
    | eof call' =>
      obtain ⟨rfl, -⟩ := call.unique call'
      exact absurd rfl ne
    | cons call' ne' rest' =>
      obtain ⟨rfl, rfl⟩ := call.unique call'
      rw [ih rest']

/-- The tokens of a literal are those of a line with nothing else. -/
theorem ReadAs.tokens {ts : List TasmToken} (h : ReadAs spelling ts) :
    LexTokens (tasmLexerInit (marked (chr ' ' :: spelling))) ts := by
  have hread : Reads (chr ' ' :: spelling ++ [eofChar, 0]) (tasmLexerInit (marked (chr ' ' :: spelling))) :=
    reads_init (show chr ' ' ≠ chr '\'' by decide)
  obtain ⟨lx', hlx', hcalls⟩ := h [chr ' '] [eofChar, 0] one_blank (EndsRow.number (.inr rfl)) _ (by simpa using hread)
  simpa using hcalls.tokens (Reads.tokens_nil no_blanks hlx')

end Tokens

/-! ## Places -/

/-- Where an integer literal can stand: the operand of an instruction, or the value of a constant. -/
inductive Place where
  | operand (o : OpType) (takes : o.operandKind = .push ∨ o.operandKind = .int ∨ o.operandKind = .jump)
  | data

namespace Place

/-- The place takes any number: a minus and the binary base are allowed. -/
def anyNumber : Place → Bool
  | operand o _ => o.operandKind == .push
  | data => true

/-- What parses the literal. -/
def parse [Host] : Place → TasmParser → Parse (Option TasmAst × TasmParser)
  | operand o _ => parseOperand o
  | data => parseDataValue

/-- The translator makes `v` of the node: the operand of the instruction, or the bytes of the constant. -/
def Holds (node : TasmAst) (v : BitVec 32) : Place → Prop
  | operand o _ => ∀ t scope isCall name,
    tasmTranslateLine t scope isCall (.op o name (some node)) = programPush t (.withUi32 o o.numberType v)
  | data => dataBytes node = .ok (some (ui32Bytes v))

end Place

/-- Written in the place, the literal becomes `v`: it is read as tokens for which the parser, wherever they stand in front
of it, returns a node that the translator makes `v` of. -/
def Becomes [Host] (place : Place) (spelling : CStr) (v : BitVec 32) : Prop :=
  ∃ tokens, ReadAs spelling tokens ∧ ∀ p us, Stands p (tokens ++ us) →
    ∃ node p', place.parse p = .ok (some node, p') ∧ Stands p' us ∧ place.Holds node v

/-- All ways to write the number in the place become the same. -/
def BasesAgree [Host] (place : Place) (negative : Bool) (n : Nat) : Prop :=
  ∃ v, ∀ b spelling, (b = .binary → place.anyNumber = true) → Writes b negative n spelling → Becomes place spelling v

section Parsing

theorem isNumber_base (b : Base) : b.tokenType ≠ .minus ∧ b.tokenType ≠ .apost ∧ b.tokenType ≠ .quota ∧
    (b.tokenType == .decimalNumber || b.tokenType == .floatNumber || b.tokenType == .hexNumber ||
      b.tokenType == .binaryNumber) = true := by
  cases b <;> decide

variable {p : TasmParser} {us : List TasmToken} {t : TasmToken} {text : CStr} {v : BitVec 32} {negative : Bool}

theorem numberTokens_first {b : Base} (h : Stands p (numberTokens b negative text ++ us)) :
    p.currentToken.type = if negative then .minus else b.tokenType := by
  rw [h.current]
  cases negative <;> rfl

/-- No literal starts like a character or a string. -/
theorem numberTokens_unquoted {b : Base} (h : Stands p (numberTokens b negative text ++ us)) :
    p.currentToken.type ≠ .apost ∧ p.currentToken.type ≠ .quota := by
  obtain ⟨-, hapost, hquota, -⟩ := isNumber_base b
  rw [numberTokens_first h]
  cases negative with
  | false => exact ⟨hapost, hquota⟩
  | true => exact ⟨nofun, nofun⟩

theorem needOperand_found {parse : TasmParser → Parse (Option TasmAst × TasmParser)} {a : TasmAst} {p' : TasmParser}
    (code : Nat) (message : String) (h : parse p = .ok (some a, p')) : needOperand parse code message p = .ok (some a, p') := by
  unfold needOperand
  rw [h]
  rfl

variable [Host]

theorem numLit_reads (h : Stands p (t :: us)) (ht : t.value = some text)
    (hv : numLitValue isLittleEndian t.type (signed negative text) = some v) :
    ∃ p', tasmParseNumLit negative p = .ok (.number (signed negative text) v, p') ∧ Stands p' us := by
  have hc : p.currentToken = t := h.current
  have heat := h.eat
  unfold signed at hv
  unfold tasmParseNumLit signed
  rw [hc] at heat ⊢
  rw [ht]
  dsimp only
  rw [hv]
  exact ⟨_, rfl, heat⟩

/-- A literal with or without a minus. -/
theorem numberOperand_reads {b : Base} (h : Stands p (numberTokens b negative text ++ us))
    (hv : numLitValue isLittleEndian b.tokenType (signed negative text) = some v) :
    ∃ p', tasmParseNumberOperand p = .ok (some (.number (signed negative text) v), p') ∧ Stands p' us := by
  obtain ⟨hminus, -, -, hnumber⟩ := isNumber_base b
  unfold tasmParseNumberOperand
  cases negative with
  | false =>
    have hc : p.currentToken = ⟨b.tokenType, some text⟩ := h.current
    obtain ⟨p', hp', hstands⟩ := numLit_reads (show Stands p (⟨b.tokenType, some text⟩ :: us) from h) rfl hv
    refine ⟨p', ?_, hstands⟩
    have hfirst : (p.currentToken.type == .minus) = false := by
      rw [hc]
      simpa using hminus
    have hop : isOperandNumber p = true := by
      unfold isOperandNumber
      rw [hc]
      exact hnumber
    dsimp only
    rw [hfirst, if_neg (show ¬ false = true by decide), hop, if_pos rfl, hp']
    rfl
  | true =>
    have hc : p.currentToken = minusToken := h.current
    have hbehind : Stands (tasmParserEat p TokenType.minus) (⟨b.tokenType, some text⟩ :: us) := by
      have heat := h.eat
      rw [hc] at heat
      exact heat
    have hc' : (tasmParserEat p TokenType.minus).currentToken = ⟨b.tokenType, some text⟩ := hbehind.current
    obtain ⟨p', hp', hstands⟩ := numLit_reads hbehind rfl hv
    refine ⟨p', ?_, hstands⟩
    have hfirst : (p.currentToken.type == .minus) = true := by
      rw [hc]
      rfl
    have hop : isOperandNumber (tasmParserEat p TokenType.minus) = true := by
      unfold isOperandNumber
      rw [hc']
      exact hnumber
    dsimp only
    rw [hfirst, if_pos (show true = true from rfl), hop, if_pos rfl, hp']
    rfl

theorem pushOperand_reads {b : Base} (h : Stands p (numberTokens b negative text ++ us))
    (hv : numLitValue isLittleEndian b.tokenType (signed negative text) = some v) :
    ∃ p', tasmParsePushOperand p = .ok (some (.number (signed negative text) v), p') ∧ Stands p' us := by
  obtain ⟨p', hp', hstands⟩ := numberOperand_reads h hv
  have hchar : isOperandChar p = false := by simpa [isOperandChar] using (numberTokens_unquoted h).1
  refine ⟨p', ?_, hstands⟩
  unfold tasmParsePushOperand
  rw [hchar, if_neg (by decide), hp']

theorem dataValue_reads {b : Base} (h : Stands p (numberTokens b negative text ++ us))
    (hv : numLitValue isLittleEndian b.tokenType (signed negative text) = some v) :
    ∃ p', parseDataValue p = .ok (some (.number (signed negative text) v), p') ∧ Stands p' us := by
  obtain ⟨p', hp', hstands⟩ := numberOperand_reads h hv
  obtain ⟨hapost, hquota⟩ := numberTokens_unquoted h
  refine ⟨p', ?_, hstands⟩
  unfold parseDataValue
  rw [if_neg hquota, if_neg hapost, hp']

/-- An integer without a sign, for the instructions that take one and for the jumps. -/
theorem intOperand_reads {b : Base} (hb : b ≠ .binary) (h : Stands p (numberTokens b false text ++ us))
    (hv : numLitValue isLittleEndian b.tokenType text = some v) :
    ∃ p', (tasmParseIntOperand p = .ok (some (.number text v), p') ∧ tasmParseJmpOperand p = .ok (some (.number text v), p')) ∧
      Stands p' us := by
  have hv : numLitValue isLittleEndian b.tokenType (signed false text) = some v := hv
  obtain ⟨p', hp', hstands⟩ := numLit_reads (show Stands p (⟨b.tokenType, some text⟩ :: us) from h) rfl hv
  have hint : isOperandInt p = true := by
    have hfirst := numberTokens_first h
    unfold isOperandInt
    rw [hfirst]
    cases b with
    | decimal => rfl
    | hexadecimal => rfl
    | binary => exact absurd rfl hb
  have hp' : tasmParseNumLit false p = .ok (.number text v, p') := hp'
  refine ⟨p', ⟨?_, ?_⟩, hstands⟩
  · unfold tasmParseIntOperand
    rw [hint, if_pos rfl, hp']
    rfl
  · unfold tasmParseJmpOperand
    rw [hint, if_pos rfl, hp']
    rfl

/-- In every place the literal's value goes where it belongs. -/
theorem Place.reads {place : Place} {b : Base} (hbinary : b = .binary → place.anyNumber = true)
    (hminus : negative = true → place.anyNumber = true) (h : Stands p (numberTokens b negative text ++ us))
    (hv : numLitValue isLittleEndian b.tokenType (signed negative text) = some v) :
    ∃ node p', place.parse p = .ok (some node, p') ∧ Stands p' us ∧ place.Holds node v := by
  cases place with
  | data =>
    obtain ⟨p', hp', hstands⟩ := dataValue_reads h hv
    exact ⟨_, p', hp', hstands, rfl⟩
  | operand o takes =>
    by_cases hpush : o = .push
    · subst hpush
      obtain ⟨p', hp', hstands⟩ := pushOperand_reads h hv
      exact ⟨_, p', needOperand_found _ _ hp', hstands, fun t scope isCall name => rfl⟩
    · -- the other operands take no sign and no binary digits
      have hkind : ¬ (Place.operand o takes).anyNumber = true := by
        intro hany
        exact hpush (operandKind_push (by simpa [Place.anyNumber] using hany))
      have hunsigned : negative = false := by simpa using fun hneg => hkind (hminus hneg)
      subst hunsigned
      obtain ⟨p', ⟨hint, hjump⟩, hstands⟩ := intOperand_reads (fun hb => hkind (hbinary hb)) h hv
      refine ⟨.number text v, p', ?_, hstands, ?_⟩
      · show parseOperand o p = _
        cases o with
        | cln | swap | loadc | aloadc | load | store | gload | gstore | derefb | native => exact needOperand_found _ _ hint
        | jmp | jz | jnz => exact needOperand_found _ _ hjump
        | push => exact absurd rfl hpush
        | _ => simp [OpType.operandKind] at takes
      · rintro t scope isCall name
        cases o with
        | cln | swap | loadc | aloadc | load | store | gload | gstore | derefb | native => rfl
        | jmp | jz | jnz => rfl
        | push => exact absurd rfl hpush
        | _ => simp [OpType.operandKind] at takes

end Parsing

section Agreement

variable {place : Place} {b : Base} {negative : Bool} {n : Nat} {spelling : CStr} {v w : BitVec 32}

/-- Some parser stands at any tokens. -/
theorem exists_stands {ts : List TasmToken} (hne : ∀ t ∈ ts, t.type ≠ .eof) : ∃ p, Stands p ts :=
  ⟨⟨ts.headD .eof, ts.tail.headD .eof, ts.tail.tail, false, true, true, []⟩, rfl, rfl, rfl, rfl, by simp, hne⟩

theorem withUi32_injective {o : OpType} {type : StackObjType} (h : Opcode.withUi32 o type v = .withUi32 o type w) : v = w := by
  have hwide : v.setWidth 64 = w.setWidth 64 := congrArg (fun c : Opcode => c.operand.ui64) h
  have hnarrow := congrArg (BitVec.setWidth 32) hwide
  simpa using hnarrow

theorem ui32Bytes_injective (h : ui32Bytes v = ui32Bytes w) : v = w := by
  rw [ui32Bytes_eq, ui32Bytes_eq] at h
  have hdecode := congrArg LittleEndian.decode h
  rw [LittleEndian.decode_encode_of_lt v.isLt, LittleEndian.decode_encode_of_lt w.isLt] at hdecode
  exact BitVec.eq_of_toNat_eq hdecode

/-- A node holds one value. -/
theorem Place.Holds.unique {node : TasmAst} (h : place.Holds node v) (h' : place.Holds node w) : w = v := by
  cases place with
  | data =>
    have heq : (.ok (some (ui32Bytes v)) : Tr (Option (List Byte))) = .ok (some (ui32Bytes w)) := h.symm.trans h'
    simp only [Except.ok.injEq, Option.some.injEq] at heq
    exact (ui32Bytes_injective heq).symm
  | operand o takes =>
    have hpush := (h tasmTranslatorInit none false none).symm.trans (h' tasmTranslatorInit none false none)
    obtain ⟨t', ht'⟩ := programPush_total (t := tasmTranslatorInit) (.withUi32 o o.numberType v) (by decide)
    have hv := programPush_ok ht'
    have hw := programPush_ok (hpush.symm.trans ht')
    have hcode := hv.code.symm.trans hw.code
    have hcell := congrArg (fun code => CArray.get? code tasmTranslatorInit.program.size) hcode
    simp only [CArray.get?_put_self _ _ hv.fits, Option.some.injEq] at hcell
    exact (withUi32_injective hcell).symm

variable [Host]

/-- What a literal becomes. -/
theorem Writes.becomes (hbinary : b = .binary → place.anyNumber = true) (hminus : negative = true → place.anyNumber = true)
    (hn : n < 2 ^ 31) (h : Writes b negative n spelling) : Becomes place spelling (b.bits (writtenBits negative n)) := by
  obtain ⟨text, htext, hread⟩ := h.readAs
  exact ⟨_, hread, fun p us hp => place.reads hbinary hminus hp (numLitValue_base htext hn)⟩

/-- What a literal becomes is determined. -/
theorem Becomes.unique (h : Becomes place spelling v) (h' : Becomes place spelling w) : w = v := by
  obtain ⟨ts, hread, hparse⟩ := h
  obtain ⟨ts', hread', hparse'⟩ := h'
  obtain rfl : ts' = ts := hread.tokens.unique hread'.tokens
  obtain ⟨p, hp⟩ := exists_stands hread.tokens.ne_eof
  obtain ⟨node, p₁, hnode, -, hholds⟩ := hparse p [] (by simpa using hp)
  obtain ⟨node', p₂, hnode', -, hholds'⟩ := hparse' p [] (by simpa using hp)
  rw [hnode] at hnode'
  cases hnode'
  exact hholds.unique hholds'

end Agreement

/-- The base of a literal does not matter if and only if the host is big-endian or the number's bytes read the same
backwards. -/
theorem bases_agree_iff (host : Host) {place : Place} {negative : Bool} (hminus : negative = true → place.anyNumber = true)
    {n : Nat} (hn : n < 2 ^ 31) : BasesAgree place negative n ↔
      host.littleEndian = false ∨ swapEndianUint32 (writtenBits negative n) = writtenBits negative n := by
  constructor
  · rintro ⟨v, hall⟩
    have becomes {b : Base} (hb : b ≠ .binary) : b.bits (writtenBits negative n) = v := by
      let spelling := signed negative (b.marks.headD [] ++ digitText b.radix n)
      have hwrites : Writes b negative n spelling :=
        ⟨b.marks.headD [], by cases b <;> decide, _, spells_digitText b hn, rfl⟩
      have hbinary : b = .binary → place.anyNumber = true := fun he => absurd he hb
      exact (hall b spelling hbinary hwrites).unique (hwrites.becomes hbinary hminus hn)
    have hdecimal := becomes (show Base.decimal ≠ .binary by decide)
    have hhex := becomes (show Base.hexadecimal ≠ .binary by decide)
    cases hle : host.littleEndian with
    | false => exact .inl rfl
    | true =>
      refine .inr ?_
      have hswap : Base.hexadecimal.bits (writtenBits negative n) = swapEndianUint32 (writtenBits negative n) :=
        if_pos ⟨by decide, hle⟩
      exact hswap.symm.trans (hhex.trans hdecimal.symm)
  · intro hsame
    refine ⟨writtenBits negative n, fun b spelling hbinary hwrites => ?_⟩
    have hbits : b.bits (writtenBits negative n) = writtenBits negative n := by
      unfold Base.bits
      split
      · rename_i hswapped
        rcases hsame with hbig | hpalindrome
        · cases hbig.symm.trans hswapped.2
        · exact hpalindrome
      · rfl
    exact hbits ▸ hwrites.becomes hbinary hminus hn

theorem bases_agree_minus_one : BasesAgree .data true 1 :=
  (bases_agree_iff x86_64 (fun _ => rfl) (by decide)).mpr (.inr (by decide))

/-- On x86-64, `swap 0x1` is not `swap 1`. -/
theorem swap_one_differs : Becomes (.operand .swap (.inr (.inl rfl))) (cstr "1") 1 ∧
    Becomes (.operand .swap (.inr (.inl rfl))) (cstr "0x1") 0x01000000 ∧
    ¬ BasesAgree (.operand .swap (.inr (.inl rfl))) false 1 := by
  have hone {b : Base} (hb : 1 < b.radix) : Spells b 1 (cstr "1") := by
    refine ⟨⟨[1], by decide, ?_, by simp⟩, by decide, by decide⟩
    rintro d hd
    rw [List.mem_singleton] at hd
    exact hd ▸ hb
  have hdecimal : Writes .decimal false 1 (cstr "1") := ⟨[], by decide, cstr "1", hone (by decide), rfl⟩
  have hhex : Writes .hexadecimal false 1 (cstr "0x1") := ⟨cstr "0x", by decide, cstr "1", hone (by decide), rfl⟩
  have hfirst : Becomes (.operand .swap (.inr (.inl rfl))) (cstr "1") (Base.decimal.bits (writtenBits false 1)) :=
    hdecimal.becomes nofun nofun (by decide)
  have hsecond : Becomes (.operand .swap (.inr (.inl rfl))) (cstr "0x1") (Base.hexadecimal.bits (writtenBits false 1)) :=
    hhex.becomes nofun nofun (by decide)
  rw [show Base.decimal.bits (writtenBits false 1) = 1 by decide] at hfirst
  rw [show Base.hexadecimal.bits (writtenBits false 1) = 0x01000000 by decide] at hsecond
  refine ⟨hfirst, hsecond, ?_⟩
  rintro ⟨v, hall⟩
  have hv := (hall .decimal _ nofun hdecimal).unique hfirst
  have hw := (hall .hexadecimal _ nofun hhex).unique hsecond
  exact absurd (hv.trans hw.symm) (by decide)

end TileVm
