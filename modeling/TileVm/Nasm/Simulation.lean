/-
The generated code as a stack machine. Slots are four bytes and accesses eight: what an access
touches beyond its slot lies above the top, so the words below it are those of the code run on the
low words of the literals.
-/
import TileVm.Lib.StackCode
import TileVm.Nasm.Emit

namespace TileVm

open LittleEndian (decode)

/-! ## Words in quadwords -/

theorem decode_append (a b : List Byte) : decode (a ++ b) = decode a + 256 ^ a.length * decode b := by
  unfold decode
  rw [List.map_append, Nat.ofDigits_append, List.length_map]

/-- The low word of a quadword is made of its first four bytes. -/
theorem low_ofLeBytes {l : List Byte} (hmin : 4 ≤ l.length) (hmax : l.length ≤ 8) :
    (ofLeBytes l).setWidth 32 = (ofLeBytes (l.take 4)).setWidth 32 := by
  have hlen : (l.take 4).length = 4 := by rw [List.length_take]; omega
  apply BitVec.eq_of_toNat_eq
  rw [BitVec.toNat_setWidth, BitVec.toNat_setWidth, ofLeBytes_toNat hmax, ofLeBytes_toNat (by omega),
    ← List.take_append_drop 4 l, decode_append, hlen, List.take_append_drop]
  exact Nat.add_mul_mod_self_left ..

namespace X86

variable {x x' : X86} {a : Addr} {v : BitVec 64} {off k : Nat}

/-- A load inside the section succeeds, and its low word is the word there. -/
theorem load_word (hoff : (a - x.base).toNat = off) (hfit : off + 8 ≤ x.data.length) :
    ∃ v, x.load a = some v ∧ x.word off = some (v.setWidth 32) := by
  have hlen : ((x.data.drop off).take 8).length = 8 := by
    rw [List.length_take, List.length_drop]
    omega
  refine ⟨ofLeBytes ((x.data.drop off).take 8), ?_, ?_⟩
  · unfold load
    dsimp only
    rw [hoff, if_pos hfit]
  · have hlow := low_ofLeBytes (l := (x.data.drop off).take 8) (by omega) (by omega)
    rw [List.take_take] at hlow
    unfold word
    rw [if_pos (by omega), hlow]
    rfl

/-- A store inside the section writes the low word there, and leaves the words before it. -/
theorem store_word (hoff : (a - x.base).toNat = off) (hfit : off + 8 ≤ x.data.length) (v : BitVec 64) :
    ∃ data, x.store a v = some { x with data } ∧ data.length = x.data.length ∧
      ({ x with data } : X86).word off = some (v.setWidth 32) ∧
      ∀ k, k + 4 ≤ off → ({ x with data } : X86).word k = x.word k := by
  have hbytes : (leBytes 8 v).length = 8 := length_leBytes 8 v
  have hlen : (overwrite x.data off (leBytes 8 v)).length = x.data.length := length_overwrite (by omega)
  refine ⟨overwrite x.data off (leBytes 8 v), ?_, hlen, ?_, ?_⟩
  · unfold store
    dsimp only
    rw [hoff, if_pos hfit]
  · have htake : ((overwrite x.data off (leBytes 8 v)).drop off).take 4 = leBytes 4 v := by
      -- the first four bytes of the word are the low ones
      have hfront : (x.data.take off).length = off := by rw [List.length_take]; omega
      unfold overwrite
      rw [List.append_assoc, List.drop_left' hfront]
      rfl
    unfold word
    dsimp only
    rw [hlen, if_pos (by omega), htake, ofLeBytes_leBytes (by omega)]
    congr 1
    simp
  · intro k hk
    have htake : ((overwrite x.data off (leBytes 8 v)).drop k).take 4 = (x.data.drop k).take 4 := by
      -- the words below are outside of the eight bytes
      apply List.ext_getElem?
      intro i
      rw [List.getElem?_take, List.getElem?_take, List.getElem?_drop, List.getElem?_drop]
      split
      · rw [getElem?_overwrite (by omega), if_neg (by omega)]
      · rfl
    unfold word
    dsimp only
    rw [hlen, htake]

@[simp] theorem setReg_self (x : X86) (r : Reg) (v : BitVec 64) : (x.setReg r v).reg r = v := Function.update_self ..

theorem setReg_of_ne (x : X86) {r q : Reg} (v : BitVec 64) (h : q ≠ r) : (x.setReg r v).reg q = x.reg q :=
  Function.update_of_ne h ..

/-- An instruction that goes on to the next one. -/
theorem run_cons {i : X86Inst} (hcall : ∀ symbol, i ≠ .call symbol) (hstep : x.step i = some x') (code : List X86Inst) :
    run (i :: code) x = run code x' := by
  cases i with
  | call symbol => exact absurd rfl (hcall symbol)
  | nop | mov | add | sub | xor | push =>
    rw [run, hstep]
    · rfl
    · exact hcall

/-! ## Slots -/

/-- `rbp + rsi` is slot `m` of the section, which is as long as the backend reserves it. -/
structure AtSlot (x : X86) (m : Nat) : Prop where
  rbp : x.reg .rbp = x.base
  rsi : x.reg .rsi = .ofNat 64 (4 * m)
  size : x.data.length = 1024

variable {m : Nat}

theorem AtSlot.address (h : AtSlot x m) (hm : m ≤ 254) : (x.reg .rbp + x.reg .rsi - x.base).toNat = 4 * m := by
  rw [h.rbp, h.rsi, sub_add_cancel_left, BitVec.toNat_ofNat]
  exact Nat.mod_eq_of_lt (by omega)

/-- A register other than the two is free. -/
theorem AtSlot.setReg (h : AtSlot x m) {r : Reg} (v : BitVec 64) (hbp : r ≠ .rbp) (hsi : r ≠ .rsi) :
    AtSlot (x.setReg r v) m where
  rbp := (setReg_of_ne x v hbp.symm).trans h.rbp
  rsi := (setReg_of_ne x v hsi.symm).trans h.rsi
  size := h.size

/-- `add rsi, 4`. -/
theorem AtSlot.up (h : AtSlot x m) :
    ∃ v, x.step (.add (.reg .rsi) (.imm 4)) = some (x.setReg .rsi v) ∧ AtSlot (x.setReg .rsi v) (m + 1) := by
  refine ⟨x.reg .rsi + 4, rfl, (setReg_of_ne x _ (by decide)).trans h.rbp, ?_, h.size⟩
  rw [setReg_self, h.rsi, Nat.mul_succ, BitVec.ofNat_add]
  rfl

/-- `sub rsi, 4`. -/
theorem AtSlot.down (h : AtSlot x (m + 1)) :
    ∃ v, x.step (.sub (.reg .rsi) (.imm 4)) = some (x.setReg .rsi v) ∧ AtSlot (x.setReg .rsi v) m := by
  refine ⟨x.reg .rsi - 4, rfl, (setReg_of_ne x _ (by decide)).trans h.rbp, ?_, h.size⟩
  rw [setReg_self, h.rsi, Nat.mul_succ, BitVec.ofNat_add]
  exact BitVec.add_sub_cancel ..

/-- `mov r, qword [rbp + rsi]`. -/
theorem AtSlot.load (h : AtSlot x m) (hm : m ≤ 254) (r : Reg) :
    ∃ v, x.step (.mov (.reg r) (.mem .rbp .rsi)) = some (x.setReg r v) ∧ x.word (4 * m) = some (v.setWidth 32) := by
  have hsize := h.size
  obtain ⟨v, hload, hword⟩ := load_word (h.address hm) (by omega)
  refine ⟨v, ?_, hword⟩
  show (x.load _).bind _ = _
  rw [hload]
  rfl

/-- `mov qword [rbp + rsi], r`. -/
theorem AtSlot.store (h : AtSlot x m) (hm : m ≤ 254) (r : Reg) :
    ∃ data, x.step (.mov (.mem .rbp .rsi) (.reg r)) = some { x with data } ∧ AtSlot { x with data } m ∧
      ({ x with data } : X86).word (4 * m) = some ((x.reg r).setWidth 32) ∧
      ∀ k < m, ({ x with data } : X86).word (4 * k) = x.word (4 * k) := by
  have hsize := h.size
  obtain ⟨data, hstore, hlen, hword, hbelow⟩ := store_word (h.address hm) (by omega) (x.reg r)
  refine ⟨data, hstore, ⟨h.rbp, h.rsi, hlen.trans hsize⟩, hword, fun k hk => hbelow (4 * k) (by omega)⟩

end X86

/-! ## One instruction -/

/-- The code of an instruction, with the number that its literal is read as. -/
def codeOf : StackOp (BitVec 64) → List X86Inst
  | .nop => [.nop]
  | .push v =>
    [.mov (.reg .rax) (.imm v), .mov (.mem .rbp .rsi) (.reg .rax), .add (.reg .rsi) (.imm 4), .xor (.reg .rax) (.reg .rax)]
  | .pop => [.sub (.reg .rsi) (.imm 4), .mov (.mem .rbp .rsi) (.reg .rax)]
  | .add =>
    [.sub (.reg .rsi) (.imm 4), .mov (.reg .rbx) (.mem .rbp .rsi), .sub (.reg .rsi) (.imm 4),
      .mov (.reg .rax) (.mem .rbp .rsi), .add (.reg .rax) (.reg .rbx), .mov (.mem .rbp .rsi) (.reg .rax),
      .add (.reg .rsi) (.imm 4), .xor (.reg .rax) (.reg .rax)]

/-- The machine holds the words of a stack, its top first: each in its slot, and the next slot is above the top. -/
structure X86.Holds (x : X86) (words : List (BitVec 32)) : Prop where
  top : AtSlot x words.length
  words : ∀ k v, words.reverse[k]? = some v → x.word (4 * k) = some v

/-- The low word of a quadword. -/
def low (v : BitVec 64) : BitVec 32 := v.setWidth 32

theorem low_add (a b : BitVec 64) : low (a + b) = low a + low b := BitVec.setWidth_add a b (by decide)

namespace X86.Holds

variable {x : X86} {words : List (BitVec 32)} {v w : BitVec 32} {rest : List X86Inst}

theorem nop (h : x.Holds words) : ∃ x', (∀ rest, run (codeOf .nop ++ rest) x = run rest x') ∧ x'.Holds words :=
  ⟨x, fun _ => rfl, h⟩

/-- A word on top of others. -/
theorem words_cons {x : X86} (hwords : ∀ k u, words.reverse[k]? = some u → x.word (4 * k) = some u)
    (htop : x.word (4 * words.length) = some v) : ∀ k u, (v :: words).reverse[k]? = some u → x.word (4 * k) = some u := by
  intro k u hget
  rw [List.reverse_cons, List.getElem?_append, List.length_reverse] at hget
  split at hget
  · exact hwords k u hget
  · rename_i hk
    obtain ⟨h0, rfl⟩ := List.getElem?_eq_some_iff.1 hget
    obtain rfl : k = words.length := by
      simp at h0
      omega
    simpa using htop

/-- Words below a slot that another machine has there too. -/
theorem below {x' : X86} (h : x.Holds (v :: words)) (hbelow : ∀ k < words.length, x'.word (4 * k) = x.word (4 * k)) :
    ∀ k u, words.reverse[k]? = some u → x'.word (4 * k) = some u := by
  intro k u hget
  have hk : k < words.length := by simpa using (List.getElem?_eq_some_iff.1 hget).1
  rw [hbelow k hk]
  refine h.words k u ?_
  rw [List.reverse_cons, List.getElem?_append_left (by simpa using hk)]
  exact hget

theorem push (h : x.Holds words) (hdepth : words.length ≤ 254) (v : BitVec 64) :
    ∃ x', (∀ rest, run (codeOf (.push v) ++ rest) x = run rest x') ∧ x'.Holds (low v :: words) := by
  have h₁ := h.top.setReg v (show Reg.rax ≠ .rbp by decide) (by decide)
  obtain ⟨data, hstore, h₂, hword, hbelow⟩ := h₁.store hdepth .rax
  obtain ⟨rsi, hup, h₃⟩ := h₂.up
  refine ⟨_, fun rest => ?_, h₃.setReg 0 (show Reg.rax ≠ .rbp by decide) (by decide), ?_⟩
  · calc run (codeOf (.push v) ++ rest) x
      _ = run (_ :: _ :: _ :: rest) (x.setReg .rax v) := run_cons (by nofun) rfl _
      _ = run (_ :: _ :: rest) _ := run_cons (by nofun) hstore _
      _ = run (_ :: rest) _ := run_cons (by nofun) hup _
      _ = run rest _ := run_cons (by nofun) (by simp [X86.step, X86.update, X86.read, X86.write]) _
  · refine words_cons (fun k u hget => ?_) (hword.trans ?_)
    · have hk : k < words.length := by simpa using (List.getElem?_eq_some_iff.1 hget).1
      exact (hbelow k hk).trans (h.words k u hget)
    · rw [setReg_self]
      rfl

theorem pop (h : x.Holds (v :: words)) (hdepth : words.length ≤ 254) :
    ∃ x', (∀ rest, run (codeOf .pop ++ rest) x = run rest x') ∧ x'.Holds words := by
  obtain ⟨rsi, hdown, h₁⟩ := AtSlot.down h.top
  obtain ⟨data, hstore, h₂, -, hbelow⟩ := h₁.store hdepth .rax
  refine ⟨_, fun rest => ?_, h₂, h.below hbelow⟩
  calc run (codeOf .pop ++ rest) x
    _ = run (_ :: rest) (x.setReg .rsi rsi) := run_cons (by nofun) hdown _
    _ = run rest _ := run_cons (by nofun) hstore _

/-- The word in the slot of the top. -/
theorem top_word (h : x.Holds (v :: words)) : x.word (4 * words.length) = some v := by
  refine h.words _ v ?_
  rw [List.reverse_cons, List.getElem?_append_right (by simp), List.length_reverse, Nat.sub_self]
  rfl

/-- The word in the slot under it. -/
theorem next_word (h : x.Holds (v :: w :: words)) : x.word (4 * words.length) = some w := by
  refine h.words _ w ?_
  rw [List.reverse_cons, List.reverse_cons, List.append_assoc, List.getElem?_append_right (by simp), List.length_reverse,
    Nat.sub_self]
  rfl

theorem add (h : x.Holds (w :: v :: words)) (hdepth : (w :: v :: words).length ≤ 254) :
    ∃ x', (∀ rest, run (codeOf .add ++ rest) x = run rest x') ∧ x'.Holds ((v + w) :: words) := by
  simp only [List.length_cons] at hdepth
  -- the right operand, with the low word of its slot
  obtain ⟨rsi₁, hdown₁, h₁⟩ := AtSlot.down h.top
  obtain ⟨b, hload₁, hb⟩ := h₁.load (by simpa using Nat.le_of_succ_le hdepth) .rbx
  obtain rfl : low b = w := Option.some.inj (hb.symm.trans h.top_word)
  -- the left one; its upper half is the word above it
  obtain ⟨rsi₂, hdown₂, h₂⟩ := (h₁.setReg b (show Reg.rbx ≠ .rbp by decide) (by decide)).down
  obtain ⟨a, hload₂, ha⟩ := h₂.load (by omega) .rax
  obtain rfl : low a = v := Option.some.inj (ha.symm.trans h.next_word)
  have h₃ := (h₂.setReg a (show Reg.rax ≠ .rbp by decide) (by decide)).setReg (a + b) (show Reg.rax ≠ .rbp by decide) (by decide)
  obtain ⟨data, hstore, h₄, hword, hbelow⟩ := h₃.store (by omega) .rax
  obtain ⟨rsi₃, hup, h₅⟩ := h₄.up
  refine ⟨_, fun rest => ?_, h₅.setReg 0 (show Reg.rax ≠ .rbp by decide) (by decide), ?_⟩
  · calc run (codeOf .add ++ rest) x
      _ = run (_ :: _ :: _ :: _ :: _ :: _ :: _ :: rest) _ := run_cons (by nofun) hdown₁ _
      _ = run (_ :: _ :: _ :: _ :: _ :: _ :: rest) _ := run_cons (by nofun) hload₁ _
      _ = run (_ :: _ :: _ :: _ :: _ :: rest) _ := run_cons (by nofun) hdown₂ _
      _ = run (_ :: _ :: _ :: _ :: rest) _ := run_cons (by nofun) hload₂ _
      _ = run (_ :: _ :: _ :: rest) _ := run_cons (by nofun) (by simp [X86.step, X86.update, X86.read, X86.write, X86.setReg]) _
      _ = run (_ :: _ :: rest) _ := run_cons (by nofun) hstore _
      _ = run (_ :: rest) _ := run_cons (by nofun) hup _
      _ = run rest _ := run_cons (by nofun) (by simp [X86.step, X86.update, X86.read, X86.write]) _
  · refine words_cons (fun k u hget => ?_) (hword.trans ?_)
    · have hk : k < words.length := by simpa using (List.getElem?_eq_some_iff.1 hget).1
      refine (hbelow k hk).trans (h.words k u ?_)
      rw [List.reverse_cons, List.reverse_cons, List.append_assoc, List.getElem?_append_left (by simpa using hk)]
      exact hget
    · rw [setReg_self]
      exact congrArg some (low_add a b)

/-- The code of an instruction does what the instruction does to the words. -/
theorem exec {op : StackOp (BitVec 64)} {words' : List (BitVec 32)} (h : x.Holds words) (hdepth : words.length ≤ 254)
    (hexec : (op.map low).exec words = some words') :
    ∃ x', (∀ rest, run (codeOf op ++ rest) x = run rest x') ∧ x'.Holds words' := by
  cases op with
  | nop =>
    cases hexec
    exact h.nop
  | push v =>
    cases hexec
    exact h.push hdepth v
  | pop =>
    cases words with
    | nil => cases hexec
    | cons v words =>
      cases hexec
      exact h.pop (Nat.le_of_succ_le hdepth)
  | add =>
    rcases words with _ | ⟨w, _ | ⟨v, words⟩⟩
    · cases hexec
    · cases hexec
    · cases hexec
      exact h.add hdepth

/-- So does the code of a program whose stack never has more than 254 words. -/
theorem execAll {ops : List (StackOp (BitVec 64))} {words' : List (BitVec 32)} (h : x.Holds words)
    (hdepth : ∀ pre ws, pre <+: ops → StackOp.execAll (pre.map (StackOp.map low)) words = some ws → ws.length ≤ 254)
    (hexec : StackOp.execAll (ops.map (StackOp.map low)) words = some words') :
    ∃ x', (∀ rest, run (ops.flatMap codeOf ++ rest) x = run rest x') ∧ x'.Holds words' := by
  induction ops generalizing x words with
  | nil =>
    cases hexec
    exact ⟨x, fun _ => rfl, h⟩
  | cons op ops ih =>
    rw [List.map_cons, StackOp.execAll_cons] at hexec
    obtain ⟨words₁, hop, hexec⟩ := Option.bind_eq_some_iff.1 hexec
    obtain ⟨x₁, hrun₁, h₁⟩ := h.exec (hdepth [] words (List.nil_prefix ..) rfl) hop
    have hdepth₁ : ∀ pre ws, pre <+: ops → StackOp.execAll (pre.map (StackOp.map low)) words₁ = some ws → ws.length ≤ 254 := by
      intro pre ws hpre hws
      refine hdepth (op :: pre) ws ((List.prefix_cons_inj op).2 hpre) ?_
      rw [List.map_cons, StackOp.execAll_cons, hop]
      exact hws
    obtain ⟨x₂, hrun₂, h₂⟩ := ih h₁ hdepth₁ hexec
    refine ⟨x₂, fun rest => ?_, h₂⟩
    rw [List.flatMap_cons, List.append_assoc, hrun₁, hrun₂]

end X86.Holds

/-! ## The file -/

/-- The code of `op_file`. -/
def prologue (stack : Addr) : List X86Inst := [.xor (.reg .rsi) (.reg .rsi), .mov (.reg .rbp) (.imm stack)]

/-- The code of `op_hlt`. -/
def epilogue : List X86Inst := [.push (.imm 0), .xor (.reg .rcx) (.reg .rcx), .call (cstr "ExitProcess")]

/-- The processor as the program is started: any registers, and the section as the file reserves it. -/
structure X86.Started (x : X86) (stack : Addr) (lines : List NasmLine) : Prop where
  base : x.base = stack
  data : x.data = List.replicate (reserved (cstr "stack") lines) 0

/-- The words at the call of `ExitProcess`. -/
structure X86.Ends (x : X86) (words : List (BitVec 32)) : Prop where
  rsi : x.reg .rsi = .ofNat 64 (4 * words.length)
  words : ∀ k < words.length, x.word (4 * k) = words.reverse[k]?

theorem run_file {x : X86} {stack : Addr} {ops : List (StackOp (BitVec 64))} {words : List (BitVec 32)}
    (hbase : x.base = stack) (hsize : x.data.length = 1024)
    (hdepth : ∀ pre ws, pre <+: ops → StackOp.execAll (pre.map (StackOp.map low)) [] = some ws → ws.length ≤ 254)
    (hexec : StackOp.execAll (ops.map (StackOp.map low)) [] = some words) :
    ∃ x', X86.run (prologue stack ++ (ops.flatMap codeOf ++ epilogue)) x = some x' ∧ x'.Ends words := by
  -- the prologue sets up an empty stack
  have hstart : ((x.setReg .rsi 0).setReg .rbp stack).Holds [] := by
    refine ⟨⟨?_, ?_, hsize⟩, nofun⟩
    · rw [X86.setReg_self]
      exact hbase.symm
    · rw [X86.setReg_of_ne _ _ (by decide), X86.setReg_self]
      rfl
  obtain ⟨x', hrun, hholds⟩ := hstart.execAll hdepth hexec
  -- the epilogue leaves the section as it is
  have hstop : X86.run epilogue x' = some ({ x' with pushed := 0 :: x'.pushed }.setReg .rcx 0) := by
    calc X86.run epilogue x'
      _ = X86.run [_, _] { x' with pushed := 0 :: x'.pushed } := X86.run_cons (by nofun) rfl _
      _ = X86.run [_] _ := X86.run_cons (by nofun) (by simp [X86.step, X86.update, X86.read, X86.write]) _
      _ = some _ := if_pos rfl
  refine ⟨{ x' with pushed := 0 :: x'.pushed }.setReg .rcx 0, ?_, ?_⟩
  · calc X86.run (prologue stack ++ (ops.flatMap codeOf ++ epilogue)) x
      _ = X86.run (_ :: (ops.flatMap codeOf ++ epilogue)) (x.setReg .rsi 0) :=
        X86.run_cons (by nofun) (by simp [X86.step, X86.update, X86.read, X86.write]) _
      _ = X86.run (ops.flatMap codeOf ++ epilogue) ((x.setReg .rsi 0).setReg .rbp stack) := X86.run_cons (by nofun) rfl _
      _ = X86.run epilogue x' := hrun _
      _ = _ := hstop
  · constructor
    · rw [X86.setReg_of_ne _ _ (by decide)]
      exact hholds.top.rsi
    · intro k hk
      obtain ⟨v, hget⟩ : ∃ v, words.reverse[k]? = some v := ⟨_, List.getElem?_eq_getElem (by simpa using hk)⟩
      rw [hget]
      exact hholds.words k v hget

end TileVm
