/-
Proof outlines for programs of the machine: what an outline with contracts for its procedures says,
every run of `tvm_run` keeps, and with a variant it comes to its end. The proc that calls itself until
its argument is 0 is an instance.
-/
import TileVm.Lib.Variant
import TileVm.Vm.Activations

namespace TileVm

open Except (Post)

variable {W : Type} {env : Env W} {tables : ProgramTables} {d : Data W} {l : Locals}

/-! ## Runs -/

/-- An outline of a program; `G` are its logical variables. -/
abbrev TvmOutline (G W : Type) : Type := Activation.Outline G Nat (Data W) Locals RunStop

section Runs

variable {G : Type} {p : TvmProgram} {o : TvmOutline G W} {world : W} {g : G} {vm : Vm W}

/-- What a run of `tvm_run` comes to, an outline that verifies says. -/
theorem outline_run (hal : env.frames.Roomy) (hinit : tvmInit env p world = .ok vm)
    (ho : o.Verifies (tvmMeaning env p.tables) p.toCode)
    (hheight : o.height g 0) (hstart : o.holds none 0 g (.initial world) (.fill ObjectT.zero)) (fuel : Nat) :
    Post (fun e => ∀ x, e = .fault x → o.fails x) (fun vm' => ∃ d, vm'.data = d.finish ∧ o.Ends p.toCode d)
      (tvmRun env fuel vm) := by
  have hdata := tvmRun_data hal (tvmInit_represents hinit) fuel
  have hmeets : o.Meets (Activation.init (tvmMeaning env p.tables) p.toCode (.initial world)) :=
    .running hheight hstart (.main g) rfl
  have hrun := ho.run hmeets fuel
  refine Post.intro (fun e he => hrun.of_error ?_) fun vm' hvm' => ?_
  · rw [he] at hdata
    exact Except.map_eq_error hdata.symm
  · rw [hvm'] at hdata
    obtain ⟨s, hs, hdata⟩ := Except.map_eq_ok hdata.symm
    exact ⟨s.data, hdata.symm, hrun.of_ok hs⟩

/-- Where the machine with activations comes to its end, `tvm_run` does. -/
theorem tvmRun_ends (hal : env.frames.Roomy) (hinit : tvmInit env p world = .ok vm)
    (h : Activation.Halts (tvmMeaning env p.tables) p.toCode
      (Activation.init (tvmMeaning env p.tables) p.toCode (.initial world))) :
    ∃ fuel, ∀ n, fuel ≤ n → tvmRun env n vm ≠ .error .fuel := by
  obtain ⟨fuel, hfuel⟩ := h.stable
  refine ⟨fuel, fun n hn he => ?_⟩
  have hdata := tvmRun_data hal (tvmInit_represents hinit) n
  rw [he] at hdata
  exact absurd (Except.map_eq_error hdata.symm) (hfuel n hn).2

end Runs

section Moves

/-- An instruction that only works on data goes on behind itself. -/
theorem dataMove_done {op : OpType} {inst : Opcode} {vm : Vm W} (h : tvmExecOp env op inst (d.idle tables) = done vm) :
    dataMove env tables op inst d l = .ok (.next vm.data l) := by
  unfold dataMove dataOp
  rw [h]
  rfl

theorem dataMove_raise {op : OpType} {inst : Opcode} {vm : Vm W} {e : TvmException} (he : e ≠ .ok)
    (h : tvmExecOp env op inst (d.idle tables) = raise e vm) : dataMove env tables op inst d l = .error (.exit e) := by
  unfold dataMove dataOp
  rw [h]
  exact if_pos he

/-- `push` puts its operand on top of the stack. -/
theorem push_exec {inst : Opcode} {vm : Vm W} (hroom : vm.sp < tvmStackCapacity) : tvmExecOp env .push inst vm =
    done ({ vm with stack := vm.stack.put vm.sp inst.operand }.setSp (vm.sp + 1)).next := by
  unfold tvmExecOp
  dsimp only
  rw [if_neg (Nat.not_le_of_lt hroom)]
  exact pushWith_ok (g := fun _ => inst.operand) (CArray.get?_of_lt vm.stack hroom)

/-- `dup` copies the word on top of the stack over the slot above it. -/
theorem dup_exec {inst : Opcode} {vm : Vm W} {a b : ObjectT} (hpos : 0 < vm.sp) (ha : vm.stack.get? (vm.sp - 1) = some a)
    (hb : vm.stack.get? vm.sp = some b) : tvmExecOp env .dup inst vm =
      done ({ vm with stack := vm.stack.put vm.sp (b.setUi32 a.ui32) }.setSp (vm.sp + 1)).next := by
  have hread : vm.stackAt (vm.sp - 1) = .ok a := CArray.load_ok.2 ha
  unfold tvmExecOp
  dsimp only
  rw [if_neg (Nat.not_lt.2 hpos), if_neg (Nat.not_le_of_lt (CArray.get?_lt hb)), Except.bind_of_ok hread]
  exact pushWith_ok (g := fun b => b.setUi32 a.ui32) hb

theorem dup_full {inst : Opcode} {vm : Vm W} (hpos : 0 < vm.sp) (hfull : tvmStackCapacity ≤ vm.sp) :
    tvmExecOp env .dup inst vm = raise .stackOverflow vm := by
  unfold tvmExecOp
  dsimp only
  rw [if_neg (Nat.not_lt.2 hpos), if_pos hfull]

/-- `dec` takes one from the word on top of the stack. -/
theorem dec_exec {inst : Opcode} {vm : Vm W} {a : ObjectT} (hpos : 0 < vm.sp) (ha : vm.stack.get? (vm.sp - 1) = some a) :
    tvmExecOp env .dec inst vm =
      done ({ vm with stack := vm.stack.put (vm.sp - 1) (a.setUi32 (a.ui32 - 1)) } : Vm W).next := by
  have hread : vm.stackAt (vm.sp - 1) = .ok a := CArray.load_ok.2 ha
  have hwrite : vm.stackSet (vm.sp - 1) (word1 (· - 1) a) = .ok _ := congrArg _ (CArray.store_ok.2 ⟨CArray.get?_lt ha, rfl⟩)
  unfold tvmExecOp unaryOp
  dsimp only
  rw [if_neg (Nat.not_lt.2 hpos), Except.bind_of_ok hread, Except.bind_of_ok hwrite]
  rfl

/-- `jz` takes the word off, and asks whether it is 0. -/
theorem jz_move (o : ObjectT) {a : ObjectT} {n : Nat} (hsp : d.sp = n + 1) (ha : d.stack.get? n = some a) :
    tvmMove env tables ⟨OpType.jz.code, o⟩ d l = .ok (.branch (a.ui32 == 0) { d with sp := n }) := by
  have hread : d.stack.load (RunStop.fault (.outOfBounds .stack)) n = .ok a := CArray.load_ok.2 ha
  show condMove (· == 0) d = _
  unfold condMove
  rw [hsp, if_neg (by omega), Nat.add_sub_cancel, Except.bind_of_ok hread]
  rfl

end Moves

/-! ## A proc that calls itself -/

/-- `push n`, `call 3`, `hlt`; and a proc that calls itself with one less, until the word on top of the stack is 0. -/
def countdown (n : BitVec 64) : TvmProgram :=
  let address (op : OpType) (a : BitVec 64) : Opcode := ⟨op.code, ⟨StackObjType.vmAddress.code, a⟩⟩
  let plain (op : OpType) : Opcode := ⟨op.code, .zero⟩
  { TvmProgram.zero with
    code := TvmProgram.zero.code.putAll 0
      [⟨OpType.push.code, ⟨StackObjType.number.code, n⟩⟩, address .call 3, plain .halt,
        plain .dup, address .jz 7, plain .dec, address .call 3, plain .ret]
    size := 8 }

/-- The word in slot `i`. -/
def Data.word (d : Data W) (i : Nat) : Option (BitVec 32) := (d.stack.get? i).map ObjectT.ui32

/-- The proc leaves 0 in the slot of its argument. -/
def countdownOutline (W : Type) : TvmOutline Nat W where
  height _ _ := True
  pre k g d := k = 3 ∧ d.sp = g + 1
  post _ g d := d.sp = g + 1 ∧ d.word g = some 0
  holds owner ip g d _ :=
    match owner, ip with
    | none, 0 => d.sp = 0
    | none, 1 => d.sp = 1
    | none, 2 => d.sp = 1 ∧ d.word 0 = some 0
    | some _, 3 => d.sp = g + 1
    | some _, 4 => d.sp = g + 2 ∧ ∃ a, d.word g = some a ∧ d.word (g + 1) = some a
    | some _, 5 => d.sp = g + 1 ∧ ∃ a, d.word g = some a ∧ a ≠ 0
    | some _, 6 => d.sp = g + 1
    | some _, 7 => d.sp = g + 1 ∧ d.word g = some 0
    | _, _ => False
  final d := d.sp = 1 ∧ d.word 0 = some 0
  fails e := e = .exit .stackOverflow ∨ e = .exit .returnStackOverflow

/-- What is left to count. -/
def Data.left (d : Data W) (g : Nat) : Nat := ((d.word g).getD 0).toNat

/-- `dec` makes up for the steps of a call. -/
def countdownVariant (owner : Option Nat) (ip g : Nat) (d : Data W) (_ : Locals) : Nat :=
  match owner, ip with
  | none, 0 => 10 * 0x100000000 + 10
  | none, 1 => 10 * d.left 0 + 10
  | some _, 3 => 10 * d.left g + 9
  | some _, 4 => 10 * d.left g + 8
  | some _, 5 => 10 * d.left g + 7
  | some _, 6 => 10 * d.left g + 10
  | _, _ => 0

theorem left_lt (d : Data W) (g : Nat) : d.left g < 0x100000000 := BitVec.isLt _

theorem left_of_word {g : Nat} {a : BitVec 32} (h : d.word g = some a) : d.left g = a.toNat := by
  unfold Data.left
  rw [h]
  rfl

section Countdown

variable {n : BitVec 64} {owner : Option Nat} {ip g g' calls a : Nat}

/-- The assertions of the outline, where the variant is below `a`. -/
abbrev countdownBelow (W : Type) (a : Nat) : TvmOutline Nat W :=
  (countdownOutline W).below countdownVariant (.fill ObjectT.zero) a

/-- A call of the proc needs its argument, and gives its result. -/
theorem countdown_call (htarget : (countdown n).toCode.target ip = some 3) (hsp : d.sp = g' + 1)
    (ha : 10 * d.left g' + 9 < a)
    (hpost : ∀ d : Data W, d.sp = g' + 1 ∧ d.word g' = some 0 → (countdownBelow W a).holds owner (wordSucc ip) g d l) :
    (countdownBelow W a).MoveOk (tvmMeaning env tables) (countdown n).toCode owner ip g calls l (.call d) := by
  simp only [Activation.Outline.MoveOk, htarget]
  split
  · exact .inr rfl
  · exact ⟨g', trivial, ⟨⟨rfl, hsp⟩, ha⟩, hpost⟩

/-- `dup` goes on above the two copies, where there is room. -/
theorem countdown_dup (k₀ : Nat) (hsp : d.sp = g + 1) (ha : 10 * d.left g + 8 < a) :
    Post (countdownBelow W a).fails
      ((countdownBelow W a).MoveOk (tvmMeaning env tables) (countdown n).toCode (some k₀) 3 g calls l)
      (tvmMove env tables ⟨OpType.dup.code, .zero⟩ d l) := by
  by_cases hroom : d.sp < tvmStackCapacity
  · obtain ⟨b, hb⟩ : ∃ b, d.stack.get? (d.sp - 1) = some b := ⟨_, CArray.get?_of_lt d.stack (by omega)⟩
    have hmove : tvmMove env tables ⟨OpType.dup.code, .zero⟩ d l = .ok _ :=
      dataMove_done (dup_exec (show 0 < d.sp by omega) hb (CArray.get?_of_lt d.stack hroom))
    rw [hmove]
    rw [show d.sp - 1 = g by omega] at hb
    have hword : d.word g = some b.ui32 := congrArg (Option.map ObjectT.ui32) hb
    have hbelow (o : ObjectT) : ({ d with stack := d.stack.put d.sp o } : Data W).word g = some b.ui32 := by
      show ((d.stack.put d.sp o).get? g).map _ = _
      rw [CArray.get?_put_of_ne _ _ (by omega), hb]
      rfl
    refine ⟨⟨congrArg Nat.succ hsp, b.ui32, hbelow _, ?_⟩, ?_⟩
    · show ((d.stack.put d.sp _).get? (g + 1)).map _ = _
      rw [← hsp, CArray.get?_put_self _ _ hroom]
      exact congrArg some (ObjectT.ui32_setUi32 _ _)
    · refine Nat.lt_of_le_of_lt (Nat.le_of_eq ?_) ha
      rw [left_of_word hword]
      exact congrArg (10 * · + 8) (left_of_word (hbelow _))
  · have hmove : tvmMove env tables ⟨OpType.dup.code, .zero⟩ d l = .error (.exit .stackOverflow) :=
      dataMove_raise (by decide) (dup_full (show 0 < d.sp by omega) (Nat.not_lt.mp hroom))
    rw [hmove]
    exact .inl rfl

/-- `jz` leaves the loop with 0, or goes on with another word. -/
theorem countdown_jz (k₀ : Nat) (hsp : d.sp = g + 2) {b : BitVec 32} (hword : d.word g = some b)
    (hcopy : d.word (g + 1) = some b) (ha : 10 * d.left g + 7 < a) :
    Post (countdownBelow W a).fails
      ((countdownBelow W a).MoveOk (tvmMeaning env tables) (countdown n).toCode (some k₀) 4 g calls l)
      (tvmMove env tables ⟨OpType.jz.code, .zero⟩ d l) := by
  obtain ⟨o, ho, rfl⟩ := Option.map_eq_some_iff.mp hcopy
  rw [jz_move _ hsp ho]
  show (countdownBelow W a).holds (some k₀) (if (o.ui32 == 0) = true then 7 else 5) g { d with sp := g + 1 } l
  by_cases hzero : o.ui32 = 0
  · rw [hzero] at hword ⊢
    exact ⟨⟨rfl, hword⟩, by show 0 < a; omega⟩
  · rw [if_neg (by simpa using hzero)]
    exact ⟨⟨rfl, o.ui32, hword, hzero⟩, ha⟩

/-- `dec` leaves one less to count. -/
theorem countdown_dec (k₀ : Nat) (hsp : d.sp = g + 1) {b : BitVec 32} (hword : d.word g = some b) (hb : b ≠ 0)
    (ha : 10 * d.left g < a) :
    Post (countdownBelow W a).fails
      ((countdownBelow W a).MoveOk (tvmMeaning env tables) (countdown n).toCode (some k₀) 5 g calls l)
      (tvmMove env tables ⟨OpType.dec.code, .zero⟩ d l) := by
  obtain ⟨o, ho, rfl⟩ := Option.map_eq_some_iff.mp hword
  have htop : d.stack.get? (d.sp - 1) = some o := by rw [hsp]; exact ho
  have hmove : tvmMove env tables ⟨OpType.dec.code, .zero⟩ d l = .ok _ :=
    dataMove_done (dec_exec (show 0 < d.sp by omega) htop)
  rw [hmove]
  have hleft : ({ d with stack := d.stack.put (d.sp - 1) (o.setUi32 (o.ui32 - 1)) } : Data W).word g = some (o.ui32 - 1) := by
    show ((d.stack.put (d.sp - 1) _).get? g).map _ = _
    rw [hsp, Nat.add_sub_cancel, CArray.get?_put_self _ _ (CArray.get?_lt ho)]
    exact congrArg some (ObjectT.ui32_setUi32 _ _)
  have hpos : o.ui32.toNat ≠ 0 := fun h => hb (BitVec.eq_of_toNat_eq h)
  have hone : (o.ui32 - 1).toNat + 1 = o.ui32.toNat := by bv_omega
  rw [left_of_word hword] at ha
  refine ⟨hsp, Nat.lt_of_le_of_lt (Nat.le_of_eq (congrArg (10 * · + 10) (left_of_word hleft))) ?_⟩
  omega

end Countdown

theorem countdown_decreases (env : Env W) (tables : ProgramTables) (n : BitVec 64) :
    (countdownOutline W).Decreases (tvmMeaning env tables) (countdown n).toCode countdownVariant := by
  constructor
  · rintro k g d ⟨rfl, hsp⟩
    exact hsp
  · rintro owner ip g calls d l - h hin
    unfold countdownOutline at h
    dsimp only at h
    split at h
    · -- `push n`
      have hmove : tvmMove env tables ⟨OpType.push.code, ⟨StackObjType.number.code, n⟩⟩ d l = .ok _ :=
        dataMove_done (push_exec (show d.sp < tvmStackCapacity by rw [h]; decide))
      show Post _ _ (tvmMove env tables ⟨OpType.push.code, ⟨StackObjType.number.code, n⟩⟩ d l)
      rw [hmove]
      refine ⟨show d.sp + 1 = 1 by rw [h], ?_⟩
      exact Nat.add_lt_add_right (Nat.mul_lt_mul_of_pos_left (left_lt _ 0) (by decide)) 10
    · -- `call 3`, from the main part
      show (countdownBelow W _).MoveOk (tvmMeaning env tables) (countdown n).toCode none 1 g calls l (.call d)
      exact countdown_call rfl h (Nat.lt_succ_self _) fun d hd => ⟨hd, Nat.zero_lt_succ _⟩
    · exact h
    · exact countdown_dup _ h (Nat.lt_succ_self _)
    · obtain ⟨hsp, b, hword, hcopy⟩ := h
      exact countdown_jz _ hsp hword hcopy (Nat.lt_succ_self _)
    · obtain ⟨hsp, b, hword, hb⟩ := h
      exact countdown_dec _ hsp hword hb (Nat.lt_add_of_pos_right (by decide))
    · -- `call 3`, from the proc
      rename_i k₀ _
      show (countdownBelow W _).MoveOk (tvmMeaning env tables) (countdown n).toCode (some k₀) 6 g calls l (.call d)
      exact countdown_call rfl h (Nat.lt_succ_self _) fun d hd => ⟨hd, Nat.zero_lt_succ _⟩
    · exact h
    · exact h.elim

end TileVm
