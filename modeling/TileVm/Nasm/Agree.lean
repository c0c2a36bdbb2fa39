/-
The generated code against the machine. The backend prints the text of a literal where the machine
pushes its value, so the two agree exactly when what NASM reads in these texts adds up, in each slot
that is left, to what the machine adds up there.
-/
import Mathlib.Data.BitVec
import TileVm.Nasm.StackRun
import TileVm.Tasm.Print

namespace TileVm

variable {W : Type} {ast : TasmAst} {ops : List (StackOp Literal)} {t : TasmTranslator} {p : TvmProgram}

/-! ## Literals -/

/-- By how much the number that NASM reads differs from the word that the machine pushes. -/
def Nasm.misreading (nasm : Nasm) (l : Literal) : BitVec 32 := low (nasm.reading l) - l.value

/-- NASM reads every pushed literal as a number, and in each slot that is left at the end the misreadings of the literals
that were added into it cancel. -/
structure Nasm.Faithful (nasm : Nasm) (ops : List (StackOp Literal)) : Prop where
  reads : nasm.Reads ops
  cancel : ∀ sums, StackOp.slots ops = some sums → ∀ s ∈ sums, FreeAddMonoid.lift nasm.misreading s = 0

/-- Literals that are read as they are pushed leave nothing to cancel. -/
theorem Nasm.faithful_of_literals {nasm : Nasm}
    (h : ∀ l, .push l ∈ ops → (nasm.number l.printed).isSome = true ∧ nasm.misreading l = 0) : nasm.Faithful ops := by
  refine ⟨fun l hl => (h l hl).1, fun sums hsums => ?_⟩
  refine (StackOp.execAll_eq_iff_cancel (low ∘ nasm.reading) Literal.value hsums).1 ?_
  rw [StackOp.map_congr ops (f := low ∘ nasm.reading) fun l hl => sub_eq_zero.1 (h l hl).2]

section Decimals

variable {text : CStr}

theorem IsDecimal.digit (h : IsDecimal text) {c : Byte} (hc : c ∈ text) : isDigit c = true := List.all_eq_true.1 h.2.1 c hc

theorem digit_ne_zero {c : Byte} (h : isDigit c = true) : c ≠ 0 := by
  rintro rfl
  exact absurd h (by decide)

/-- `atoi` on digits. -/
theorem strtoll_digits (h : IsDecimal text) : strtoll 10 text = digitsValue 10 text 0 := by
  obtain ⟨c, cs, rfl⟩ := List.exists_cons_of_ne_nil h.1
  obtain ⟨hspace, hminus, hplus⟩ := digit_no_sign (h.digit (List.mem_cons_self ..))
  have hlt := h.2.2
  unfold strtoll
  rw [List.dropWhile_cons_of_neg (by simp [hspace]), takeSign, if_neg hminus, if_neg hplus]
  dsimp only
  rw [if_neg Bool.false_ne_true, if_neg fun hbase => absurd hbase.1 (by decide)]
  omega

/-- `atoi` on digits behind a minus. -/
theorem strtoll_minus (h : IsDecimal text) : strtoll 10 (chr '-' :: text) = -digitsValue 10 text 0 := by
  have hlt := h.2.2
  unfold strtoll
  rw [List.dropWhile_cons_of_neg (by decide), takeSign, if_pos rfl]
  dsimp only
  rw [if_pos rfl, if_neg fun hbase => absurd hbase.1 (by decide)]
  omega

/-- A decimal literal of magnitude below 2^63. -/
inductive DecimalLiteral : Literal → Prop
  | positive {text : CStr} (h : IsDecimal text) : DecimalLiteral (.number text (.ofInt 32 (strtoll 10 text)))
  | negative {text : CStr} (h : IsDecimal text) :
      DecimalLiteral (.number (chr '-' :: text) (.ofInt 32 (strtoll 10 (chr '-' :: text))))

theorem low_ofInt (v : Int) : low (.ofInt 64 v) = .ofInt 32 v := by
  unfold low
  obtain ⟨n, rfl | rfl⟩ := Int.eq_nat_or_neg v
  · rw [BitVec.ofInt_natCast, BitVec.ofInt_natCast, BitVec.setWidth_ofNat_of_le (by decide)]
  · rw [BitVec.ofInt_neg, BitVec.ofInt_neg, BitVec.setWidth_neg_of_le (by decide), BitVec.ofInt_natCast, BitVec.ofInt_natCast,
      BitVec.setWidth_ofNat_of_le (by decide)]

/-- It is read as it is pushed. -/
theorem DecimalLiteral.read {l : Literal} (h : DecimalLiteral l) (nasm : Nasm) :
    (nasm.number l.printed).isSome = true ∧ nasm.misreading l = 0 := by
  have hread (text : CStr) (v : Int) (hchars : ∀ c ∈ text, c ≠ 0) (hnumber : nasm.number text = some (.ofInt 64 v)) :
      (nasm.number (Literal.number text (.ofInt 32 v)).printed).isSome = true ∧
        nasm.misreading (.number text (.ofInt 32 v)) = 0 := by
    have hprinted : (Literal.number text (.ofInt 32 v)).printed = text := by
      simp only [Literal.printed]
      exact List.takeWhile_eq_self_iff.2 (by simpa using hchars)
    unfold Nasm.misreading Nasm.reading
    rw [hprinted, hnumber, Option.getD_some, low_ofInt]
    exact ⟨rfl, sub_self _⟩
  cases h with
  | positive h =>
    refine hread _ _ (fun c hc => digit_ne_zero (h.digit hc)) ?_
    rw [nasm.decimal _ h, strtoll_digits h]
    rfl
  | negative h =>
    refine hread _ _ ?_ ?_
    · rintro c (_ | ⟨_, hc⟩)
      · decide
      · exact digit_ne_zero (h.digit hc)
    · rw [nasm.negative _ h, strtoll_minus h, BitVec.ofInt_neg]
      rfl

/-- So every program that pushes such literals only is read faithfully. -/
theorem Nasm.faithful_of_decimals (nasm : Nasm) (h : ∀ l, .push l ∈ ops → DecimalLiteral l) : nasm.Faithful ops :=
  nasm.faithful_of_literals fun l hl => (h l hl).read nasm

end Decimals

/-! ## Agreement -/

/-- `rsi` is four times `sp`, and the words of the section are those of the stack. -/
structure SameStack (x : X86) (vm : Vm W) : Prop where
  rsi : x.reg .rsi = .ofNat 64 (4 * vm.sp)
  words : ∀ k < vm.sp, ∃ o, vm.stack.get? k = some o ∧ x.word (4 * k) = some o.ui32

/-- The backend writes a file, NASM accepts it, and its code, started with the section as the file reserves it, comes to its
call of `ExitProcess` with the stack of the machine. -/
def NasmAgrees (nasm : Nasm) (stack : Addr) (ast : TasmAst) (vm : Vm W) : Prop :=
  ∃ lines code, tasmcCompileNasm ast = .ok lines ∧ nasm.assemble stack lines = some code ∧
    ∀ x : X86, x.Started stack lines → ∃ x', X86.run code x = some x' ∧ SameStack x' vm

/-- The words of the section are those of the stack when both are the words of one list. -/
theorem sameStack_iff {x : X86} {vm : Vm W} {words words' : List (BitVec 32)} (hx : x.Ends words') (hvm : vm.Holds words)
    (hlen : words'.length = words.length) : SameStack x vm ↔ words' = words := by
  constructor
  · intro h
    apply List.reverse_injective
    apply List.ext_getElem?
    intro k
    by_cases hk : k < words'.length
    · obtain ⟨o, ho, hword⟩ := h.words k (by rw [hvm.sp]; omega)
      have hk' : k < words.reverse.length := by
        rw [List.length_reverse]
        omega
      obtain ⟨o', ho', hv⟩ := hvm.words k _ (List.getElem?_eq_getElem hk')
      cases ho.symm.trans ho'
      rw [List.getElem?_eq_getElem hk', ← hv, ← hword, hx.words k hk]
    · rw [List.getElem?_eq_none (by simpa using hk), List.getElem?_eq_none (by simpa [hlen] using hk)]
  · rintro rfl
    constructor
    · rw [hvm.sp]
      exact hx.rsi
    · intro k hk
      rw [hvm.sp] at hk
      have hk' : k < words'.reverse.length := by rwa [List.length_reverse]
      obtain ⟨o, ho, hv⟩ := hvm.words k _ (List.getElem?_eq_getElem hk')
      refine ⟨o, ho, ?_⟩
      rw [hx.words k hk, List.getElem?_eq_getElem hk', hv]

/-- The low words of the readings, as a code. -/
theorem low_readings (nasm : Nasm) (ops : List (StackOp Literal)) :
    (nasm.readings ops).map (StackOp.map low) = ops.map (StackOp.map (low ∘ nasm.reading)) := by
  rw [Nasm.readings, List.map_map]
  exact List.map_congr_left fun op _ => StackOp.map_map ..

section

variable {env : Env W} {world : W} {ρ : Nat → Vm W} {n : Nat}

/-- The stack of the code is never deeper than that of the machine. -/
theorem readings_depth (nasm : Nasm) (hcode : CellsOf p (ops.map (StackOp.map Literal.value)))
    (hinit : tvmInit env p world = .ok (ρ 0)) (hrun : HaltsAfter env ρ n) (hdepth : ∀ i ≤ n, (ρ i).sp ≤ 254)
    {pre : List (StackOp (BitVec 64))} {ws : List (BitVec 32)} (hpre : pre <+: nasm.readings ops)
    (hws : StackOp.execAll (pre.map (StackOp.map low)) [] = some ws) : ws.length ≤ 254 := by
  have hlen : pre.length ≤ ops.length := by
    have hle := hpre.length_le
    rwa [Nasm.readings, List.length_map] at hle
  obtain ⟨hin, -, -, -, words, hexec, hholds⟩ := behind_run hcode hinit hrun pre.length (by rwa [List.length_map])
  have hpre : pre = nasm.readings (ops.take pre.length) := by
    rw [Nasm.readings, List.map_take]
    exact List.prefix_iff_eq_take.1 hpre
  rw [hpre, low_readings] at hws
  rw [← List.map_take] at hexec
  rw [StackOp.length_execAll hws hexec, ← hholds.sp]
  exact hdepth _ (Nat.le_of_lt hin)

/-- The two agree when NASM reads the literals and the words that they make are those of the machine. -/
theorem agrees_iff_words {nasm : Nasm} {stack : Addr} {words words' : List (BitVec 32)} (hops : StackProgram ast ops)
    (hcode : CellsOf p (ops.map (StackOp.map Literal.value))) (hinit : tvmInit env p world = .ok (ρ 0))
    (hrun : HaltsAfter env ρ n) (hdepth : ∀ i ≤ n, (ρ i).sp ≤ 254)
    (hexec : StackOp.execAll (ops.map (StackOp.map Literal.value)) [] = some words)
    (hexec' : StackOp.execAll (ops.map (StackOp.map (low ∘ nasm.reading))) [] = some words') :
    NasmAgrees nasm stack ast (ρ n) ↔ nasm.Reads ops ∧ words' = words := by
  obtain ⟨-, words₀, hexec₀, hholds⟩ := halts_behind hcode hinit hrun
  cases hexec₀.symm.trans hexec
  have hlen : words'.length = words.length := StackOp.length_execAll hexec' hexec
  have hends : ∀ x : X86, x.Started stack (fileOf ops) → ∃ x',
      X86.run (prologue stack ++ ((nasm.readings ops).flatMap codeOf ++ epilogue)) x = some x' ∧ x'.Ends words' := by
    rintro x ⟨hbase, hdata⟩
    refine run_file hbase ?_ (fun pre ws => readings_depth nasm hcode hinit hrun hdepth) ?_
    · rw [hdata, List.length_replicate, reserved_fileOf]
    · rwa [low_readings]
  constructor
  · rintro ⟨lines, code, hlines, hassemble, hagree⟩
    cases hops.compile.symm.trans hlines
    obtain ⟨hreads, rfl⟩ := Nasm.assemble_fileOf.1 hassemble
    -- one start is enough to see the words
    have hstarted : X86.Started ⟨fun _ => 0, stack, List.replicate (reserved (cstr "stack") (fileOf ops)) 0, []⟩ stack (fileOf ops) :=
      ⟨rfl, rfl⟩
    obtain ⟨x', hx', hsame⟩ := hagree _ hstarted
    obtain ⟨x'', hx'', hend⟩ := hends _ hstarted
    cases hx'.symm.trans hx''
    exact ⟨hreads, (sameStack_iff hend hholds hlen).1 hsame⟩
  · rintro ⟨hreads, hwords⟩
    refine ⟨fileOf ops, _, hops.compile, Nasm.assemble_fileOf.2 ⟨hreads, rfl⟩, fun x hx => ?_⟩
    obtain ⟨x', hx', hend⟩ := hends x hx
    exact ⟨x', hx', (sameStack_iff hend hholds hlen).2 hwords⟩

/-- For every accepted source of nop, push, pop, add and a final hlt whose run halts without an exception and never has more
than 254 objects on the stack: the generated code ends with the stack of the machine if and only if NASM reads its literals
faithfully. -/
theorem nasm_agrees_iff {text : List Byte} (h : Assembles text ast t) (hp : ProgramFrom ast t p) (hops : StackProgram ast ops)
    (env : Env W) (world : W) (ρ : Nat → Vm W) (n : Nat) (hinit : tvmInit env p world = .ok (ρ 0)) (hrun : HaltsAfter env ρ n)
    (hdepth : ∀ i ≤ n, (ρ i).sp ≤ 254) (nasm : Nasm) (stack : Addr) :
    NasmAgrees nasm stack ast (ρ n) ↔ nasm.Faithful ops := by
  have hcode := hops.cellsOf h.translated (hp.carries h)
  obtain ⟨-, words, hexec, -⟩ := halts_behind hcode hinit hrun
  obtain ⟨sums, hsums, -⟩ := Option.map_eq_some_iff.1 ((StackOp.execAll_eq_lift Literal.value ops).symm.trans hexec)
  obtain ⟨words', hexec'⟩ : ∃ words', StackOp.execAll (ops.map (StackOp.map (low ∘ nasm.reading))) [] = some words' := by
    rw [StackOp.execAll_eq_lift, hsums]
    exact ⟨_, rfl⟩
  have hcancel := StackOp.execAll_eq_iff_cancel (low ∘ nasm.reading) Literal.value hsums
  rw [hexec, hexec', Option.some.injEq] at hcancel
  rw [agrees_iff_words hops hcode hinit hrun hdepth hexec hexec', hcancel]
  constructor
  · rintro ⟨hreads, hzero⟩
    refine ⟨hreads, fun sums' hsums' => ?_⟩
    cases hsums.symm.trans hsums'
    exact hzero
  · rintro ⟨hreads, hzero⟩
    exact ⟨hreads, hzero sums hsums⟩

end

/-! ## A sum -/

/-- `300`, `-7` and `5`. -/
def sumLiterals : Literal × Literal × Literal := (.number (cstr "300") 300, .number (cstr "-7") (-7), .number (cstr "5") 5)

/-- The instructions `push 300`, `push -7`, `add`, `push 5`, `pop`. -/
def sumOps : List (StackOp Literal) := [.push sumLiterals.1, .push sumLiterals.2.1, .add, .push sumLiterals.2.2, .pop]

def sumText : List Byte := cstr "push 300\npush -7\nadd\npush 5\npop\nhlt\n"

def sumTokens : List TasmToken :=
  let endl := ⟨.endline, some (cstr "endl")⟩
  [⟨.op .push, some (cstr "push")⟩, ⟨.decimalNumber, some (cstr "300")⟩, endl, ⟨.op .push, some (cstr "push")⟩,
    ⟨.minus, some (cstr "-")⟩, ⟨.decimalNumber, some (cstr "7")⟩, endl, ⟨.op .add, some (cstr "add")⟩, endl,
    ⟨.op .push, some (cstr "push")⟩, ⟨.decimalNumber, some (cstr "5")⟩, endl, ⟨.op .pop, some (cstr "pop")⟩, endl,
    ⟨.op .halt, some (cstr "hlt")⟩, endl]

def sumAst : TasmAst :=
  .file [.op .push (some (cstr "push")) (some sumLiterals.1.node), .op .push (some (cstr "push")) (some sumLiterals.2.1.node),
    .op .add (some (cstr "add")) none, .op .push (some (cstr "push")) (some sumLiterals.2.2.node),
    .op .pop (some (cstr "pop")) none, .op .halt (some (cstr "hlt")) none]

theorem sumAst_stack : StackProgram sumAst sumOps :=
  ⟨[_, _, _, _, _], _, rfl, .cons (.push _ _) (.cons (.push _ _) (.cons (.add _) (.cons (.push _ _) (.cons (.pop _) .nil))))⟩

/-- The machine and the code that NASM makes both end with 293 on their stacks. -/
theorem nasm_agrees_sum : ∃ t ρ, Assembles sumText sumAst t ∧ tvmInit (.bare [64]) t.program () = .ok (ρ 0) ∧
    HaltsAfter (.bare [64]) ρ 6 ∧ (ρ 6).Holds [293] ∧ NasmAgrees .decimalOnly 0x402000 sumAst (ρ 6) := by
  obtain ⟨t, ht⟩ : ∃ t, Assembles sumText sumAst t :=
    assembles_of_run 20 (show (runOf 20 20 _).map (·.1) = some sumTokens by decide +kernel) ⟨_, rfl, rfl⟩ (by decide +kernel)
  have hcode := sumAst_stack.cellsOf ht.translated ⟨rfl, rfl, fun _ _ => rfl⟩
  obtain ⟨vm, hinit⟩ : ∃ vm : Vm Unit, tvmInit (.bare [64]) t.program () = .ok vm := ⟨_, rfl⟩
  have hexec (i : Nat) (hi : i ≤ 5) : ∃ words, StackOp.execAll ((sumOps.map (StackOp.map Literal.value)).take i) [] = some words ∧
      words.length ≤ 254 := by
    interval_cases i <;> exact ⟨_, rfl, by decide⟩
  obtain ⟨ρ, rfl, hhalts, hdepth⟩ := hcode.halts hinit hexec
  obtain ⟨-, words, hwords, hholds⟩ := halts_behind hcode hinit hhalts
  cases hwords
  refine ⟨t, ρ, ht, hinit, hhalts, hholds, ?_⟩
  refine (nasm_agrees_iff ht .direct sumAst_stack _ () ρ 6 hinit hhalts hdepth .decimalOnly 0x402000).2 ?_
  refine Nasm.decimalOnly.faithful_of_decimals fun l hl => ?_
  obtain rfl | rfl | rfl : l = sumLiterals.1 ∨ l = sumLiterals.2.1 ∨ l = sumLiterals.2.2 := by simpa [sumOps] using hl
  · show DecimalLiteral (.number (cstr "300") (.ofInt 32 (strtoll 10 (cstr "300"))))
    exact .positive (by decide)
  · show DecimalLiteral (.number (chr '-' :: cstr "7") (.ofInt 32 (strtoll 10 (chr '-' :: cstr "7"))))
    exact .negative (by decide)
  · show DecimalLiteral (.number (cstr "5") (.ofInt 32 (strtoll 10 (cstr "5"))))
    exact .positive (by decide)

/-! ## A push and `hlt` -/

/-- The tree of a push and `hlt`. -/
def pushAst (l : Literal) : TasmAst :=
  .file [.op .push (some (cstr "push")) (some l.node), .op .halt (some (cstr "hlt")) none]

theorem pushAst_stack (l : Literal) : StackProgram (pushAst l) [.push l] := ⟨[_], _, rfl, .cons (.push _ l) .nil⟩

/-- Its run. -/
structure PushRun (t : TasmTranslator) (ρ : Nat → Vm Unit) : Prop where
  init : tvmInit (.bare [64]) t.program () = .ok (ρ 0)
  halts : HaltsAfter (.bare [64]) ρ 2
  depth : ∀ i ≤ 2, (ρ i).sp ≤ 254

theorem push_run {v : BitVec 32} (hcode : CellsOf t.program [.push v]) : ∃ ρ, PushRun t ρ := by
  obtain ⟨vm, hinit⟩ : ∃ vm : Vm Unit, tvmInit (.bare [64]) t.program () = .ok vm := ⟨_, rfl⟩
  have hexec (i : Nat) (hi : i ≤ 1) : ∃ words, StackOp.execAll ([StackOp.push v].take i) [] = some words ∧ words.length ≤ 254 := by
    obtain rfl | rfl : i = 0 ∨ i = 1 := by omega
    · exact ⟨[], rfl, by decide⟩
    · exact ⟨[v], rfl, show 1 ≤ 254 by decide⟩
  obtain ⟨ρ, rfl, hhalts, hdepth⟩ := hcode.halts hinit hexec
  exact ⟨ρ, hinit, hhalts, hdepth⟩

/-- `0x10`, whose text has no `0x` and whose value is taken for a big-endian one. -/
def hexSixteen : Literal := .number (cstr "10") 0x10000000

/-- NASM reads the hexadecimal literal as a ten. -/
theorem hex_read_as_decimal : ∃ t ρ, Assembles (cstr "push 0x10\nhlt\n") (pushAst hexSixteen) t ∧ PushRun t ρ ∧
    ∀ nasm stack, ¬ NasmAgrees nasm stack (pushAst hexSixteen) (ρ 2) := by
  obtain ⟨t, ht⟩ : ∃ t, Assembles (cstr "push 0x10\nhlt\n") (pushAst hexSixteen) t :=
    assembles_of_run 20 (show (runOf 20 20 _).map (·.1) = some
      [⟨.op .push, some (cstr "push")⟩, ⟨.hexNumber, some (cstr "10")⟩, ⟨.endline, some (cstr "endl")⟩,
        ⟨.op .halt, some (cstr "hlt")⟩, ⟨.endline, some (cstr "endl")⟩] by decide +kernel)
      ⟨_, rfl, rfl⟩ (by decide +kernel)
  have hcode := (pushAst_stack hexSixteen).cellsOf ht.translated ⟨rfl, rfl, fun _ _ => rfl⟩
  obtain ⟨ρ, hrun⟩ := push_run hcode
  refine ⟨t, ρ, ht, hrun, fun nasm stack hagrees => ?_⟩
  obtain ⟨-, hwords⟩ := (agrees_iff_words (pushAst_stack hexSixteen) hcode hrun.init hrun.halts hrun.depth rfl rfl).1 hagrees
  have hten : nasm.reading hexSixteen = 10 := by
    show (nasm.number (cstr "10")).getD 0 = 10
    rw [nasm.decimal _ (by decide)]
    decide
  have hword : low (nasm.reading hexSixteen) = 0x10000000 := (List.cons.inj hwords).1
  rw [hten] at hword
  exact absurd hword (by decide)

end TileVm
