/-
The machine has activations: its return stack and its linked frames are the points behind the open
calls and the variables of the callers. A run of `tvm_run` is a run of a machine that keeps these in
one list, as long as the allocator has room for a frame of every open call.
-/
import Mathlib.Data.List.Nodup
import Mathlib.Data.List.Perm.Subperm
import TileVm.Lib.Activation
import TileVm.Vm.Data
import TileVm.Vm.Run

namespace TileVm

open Except (Follows)

variable {W : Type}

/-! ## The meaning of instructions -/

/-- The local variables of a frame. -/
abbrev Locals : Type := CArray ObjectT tvmMaxLocalVar

/-- The state of the machine with activations. -/
abbrev Activations (K W : Type) : Type := Activation.State K (Data W) Locals

/-- What an instruction does to the data and the local variables, and where it goes on. -/
abbrev TvmMove (W : Type) : Type := Activation.Move (Data W) Locals

/-- `OP_JZ` and `OP_JNZ`. -/
def condMove (taken : BitVec 32 → Bool) (d : Data W) : Except RunStop (TvmMove W) :=
  if d.sp < 1 then .error (.exit .stackUnderflow)
  else do
    let o ← d.stack.load (RunStop.fault (.outOfBounds .stack)) (d.sp - 1)
    return .branch (taken o.ui32) { d with sp := d.sp - 1 }

/-- `OP_LOAD`. -/
def loadMove (inst : Opcode) (d : Data W) (l : Locals) : Except RunStop (TvmMove W) :=
  if tvmStackCapacity ≤ d.sp then .error (.exit .stackOverflow)
  else if tvmMaxLocalVar ≤ inst.operand.ui32.toNat then .error (.exit .invalidLocalVarAccess)
  else do
    let o ← l.load (RunStop.fault (.outOfBounds .localVars)) inst.operand.ui32.toNat
    return .next { d with stack := d.stack.put d.sp o, sp := d.sp + 1 } l

/-- `OP_STORE`. -/
def storeMove (inst : Opcode) (d : Data W) (l : Locals) : Except RunStop (TvmMove W) :=
  if d.sp ≤ 0 then .error (.exit .stackUnderflow)
  else if tvmMaxLocalVar ≤ inst.operand.ui32.toNat then .error (.exit .invalidLocalVarAccess)
  else do
    let o ← d.stack.load (RunStop.fault (.outOfBounds .stack)) (d.sp - 1)
    return .next { d with sp := d.sp - 1 } (l.put inst.operand.ui32.toNat o)

/-- The other instructions. -/
def dataMove (env : Env W) (tables : ProgramTables) (op : OpType) (inst : Opcode) (d : Data W) (l : Locals) :
    Except RunStop (TvmMove W) :=
  match dataOp env tables op inst d with
  | .error f => .error (.fault f)
  | .ok (e, d) => if e ≠ .ok then .error (.exit e) else .ok (.next d l)

def tvmMove (env : Env W) (tables : ProgramTables) (inst : Opcode) (d : Data W) (l : Locals) :
    Except RunStop (TvmMove W) :=
  match OpType.ofNat? inst.type.toNat with
  | none => .error (.exit .invalidInstruction)
  | some op =>
    match op with
    | .jmp => .ok (.branch true d)
    | .jz => condMove (· == 0) d
    | .jnz => condMove (· != 0) d
    | .call => .ok (.call d)
    | .ret => .ok (.ret d)
    | .halt => .ok (.halt d)
    | .load => loadMove inst d l
    | .store => storeMove inst d l
    | op => dataMove env tables op inst d l

/-- The meaning of the instructions of the machine. -/
def tvmMeaning (env : Env W) (tables : ProgramTables) : Activation.Meaning Opcode (Data W) Locals RunStop where
  exec := tvmMove env tables
  fresh := .fill ObjectT.zero
  maxCalls := returnStackCapacity
  tooDeep := .exit .returnStackOverflow
  noTarget := .exit .invalidInstructionAccess
  noCall := .exit .returnStackUnderflow

/-! ## The code of a program -/

/-- The instructions that name another one. -/
def OpType.takesTarget : OpType → Bool
  | .jmp | .jz | .jnz | .call => true
  | _ => false

def Opcode.takesTarget (inst : Opcode) : Bool := (OpType.ofNat? inst.type.toNat).any OpType.takesTarget

/-- An instruction without the address of its target, which is the business of the code. -/
def Opcode.withoutTarget (inst : Opcode) : Opcode := if inst.takesTarget then { inst with operand := .zero } else inst

/-- The code of a program; its points are addresses. -/
def TvmProgram.toCode (p : TvmProgram) : Activation.Code Opcode Nat RunStop where
  start := 0
  inside ip := decide (ip ≤ p.size)
  fetch ip :=
    match p.fetch ip with
    | .ok inst => .ok inst.withoutTarget
    | .error f => .error (.fault f)
  target ip :=
    match p.code.get? ip with
    | some inst =>
      if inst.takesTarget && decide (inst.operand.ui32.toNat < p.size) then some inst.operand.ui32.toNat else none
    | none => none
  next := wordSucc

/-! ## Frames as a list -/

/-- There is room for one frame more, as long as at most `RETURN_STACK_CAPACITY` are allocated. -/
def FrameAllocator.Roomy (al : FrameAllocator) : Prop :=
  ∀ (fs : FrameStore) (path : List Addr), path.length ≤ returnStackCapacity → (∀ a n, fs a = some n → a ∈ path) →
    (al.malloc fs).isSome = true

/-- The allocated frames are those on the way from `frame` back to `base`, with the variables `ls`. -/
def Records (fs : FrameStore) (base frame : Addr) (ls : List Locals) : Prop :=
  ∃ path, Chain fs base (ls.length - 1) frame path ∧ (∀ a n, fs a = some n → a ∈ path) ∧
    path.map (fun a => (fs a).map (·.localVars)) = ls.map some

section Records

variable {al : FrameAllocator} {fs fs' : FrameStore} {base a b : Addr} {l : Locals} {ls : List Locals}

theorem chain_length {k : Nat} {path : List Addr} (h : Chain fs base k a path) : path.length = k + 1 := by
  induction h with
  | base => rfl
  | call _ _ _ _ _ _ _ ih => rw [List.length_cons, ih]

theorem chain_head {k : Nat} {path : List Addr} (h : Chain fs base k a path) :
    ∃ n rest, fs a = some n ∧ path = a :: rest := by
  cases h with
  | base live | call live => exact ⟨_, _, live, rfl⟩

theorem tvmFrameInit_records (h : tvmFrameInit al FrameStore.empty = .ok (a, fs)) :
    Records fs a a [.fill ObjectT.zero] := by
  unfold tvmFrameInit at h
  split at h
  · cases h
    refine ⟨[a], .base (FrameStore.set_self ..), fun x n hx => ?_, ?_⟩
    · by_cases hxa : x = a
      · rw [hxa]; exact List.mem_singleton_self _
      · rw [FrameStore.set_of_ne _ _ hxa] at hx
        cases hx
    · simp
  · cases h

theorem tvmFrameInit_roomy (hal : al.Roomy) : ∃ r, tvmFrameInit al FrameStore.empty = .ok r := by
  have hroom := hal FrameStore.empty [] (Nat.zero_le _) fun a n ha => by cases ha
  obtain ⟨a, ha⟩ := Option.isSome_iff_exists.mp hroom
  unfold tvmFrameInit
  rw [ha]
  exact ⟨_, rfl⟩

/-- The current frame holds the variables of the running procedure. -/
theorem Records.current (h : Records fs base a (l :: ls)) : ∃ n, fs a = some n ∧ n.localVars = l := by
  obtain ⟨path, hc, -, hmap⟩ := h
  obtain ⟨n, rest, live, rfl⟩ := chain_head hc
  rw [List.map_cons, live] at hmap
  exact ⟨n, live, Option.some.inj (List.cons.inj hmap).1⟩

/-- A write to a variable of the running procedure. -/
theorem Records.store {n : TvmFrame} (h : Records fs base a (l :: ls)) (hn : fs a = some n) (l' : Locals) :
    Records (fs.set a { n with localVars := l' }) base a (l' :: ls) := by
  obtain ⟨path, hc, hall, hmap⟩ := h
  refine ⟨path, hc.setLocals hn rfl, fun x m hx => ?_, ?_⟩
  · by_cases hxa : x = a
    · rw [hxa]; exact hc.head_mem
    · rw [FrameStore.set_of_ne _ _ hxa] at hx
      exact hall x m hx
  · have hnodup := hc.nodup
    obtain ⟨-, rest, -, rfl⟩ := chain_head hc
    rw [List.map_cons, List.map_cons] at hmap
    rw [List.map_cons, List.map_cons, FrameStore.set_self]
    congr 1
    rw [← (List.cons.inj hmap).2]
    refine List.map_congr_left fun x hx => ?_
    rw [FrameStore.set_of_ne _ _ (ne_of_mem_of_not_mem hx (List.nodup_cons.1 hnodup).1)]

/-- A call puts fresh variables in front. -/
theorem Records.frameNext (h : Records fs base a (l :: ls)) (hn : tvmFrameNext al fs a = .ok (b, fs')) :
    Records fs' base b (.fill ObjectT.zero :: l :: ls) := by
  obtain ⟨path, hc, hall, hmap⟩ := h
  obtain ⟨n, ha, hfree, -, hb, ha', hother⟩ := tvmFrameNext_ok hn
  have hnew : b ∉ path := fun hm => by
    obtain ⟨m, hm⟩ := hc.live_of_mem b hm
    rw [hfree] at hm; cases hm
  refine ⟨b :: path, hc.frameNext hn, fun x m hx => ?_, ?_⟩
  · by_cases hxb : x = b
    · rw [hxb]; exact List.mem_cons_self
    · by_cases hxa : x = a
      · rw [hxa]; exact List.mem_cons_of_mem _ hc.head_mem
      · rw [hother x hxa hxb] at hx
        exact List.mem_cons_of_mem _ (hall x m hx)
  · rw [List.map_cons, hb, List.map_cons (l := l :: ls), ← hmap]
    congr 1
    refine List.map_congr_left fun x hx => ?_
    by_cases hxa : x = a
    · rw [hxa, ha', ha]
      rfl
    · rw [hother x hxa fun he => hnew (he ▸ hx)]

theorem Records.frameNext_roomy (hal : al.Roomy) (h : Records fs base a (l :: ls)) (hlen : ls.length < returnStackCapacity) :
    ∃ r, tvmFrameNext al fs a = .ok r := by
  obtain ⟨path, hc, hall, -⟩ := h
  obtain ⟨n, ha⟩ := hc.live_of_mem a hc.head_mem
  have hroom := hal fs path (by rw [chain_length hc, List.length_cons]; omega) hall
  obtain ⟨b, hb⟩ := Option.isSome_iff_exists.mp hroom
  obtain ⟨hfresh, -⟩ := al.fresh _ _ hb
  have hba : b ≠ a := fun he => by rw [he, ha] at hfresh; cases hfresh
  unfold tvmFrameNext tvmFrameInit
  rw [Except.bind_of_ok (FrameStore.load_ok.2 ha), hb, Except.bind_of_ok rfl]
  dsimp only
  rw [Except.bind_of_ok (FrameStore.load_ok.2 (by rw [FrameStore.set_of_ne _ _ hba, FrameStore.set_self]))]
  exact ⟨_, rfl⟩

/-- A return drops the variables in front. -/
theorem Records.framePrev {l' : Locals} (h : Records fs base a (l :: l' :: ls)) :
    ∃ b fs', tvmFramePrev fs a = .ok (b, fs') ∧ Records fs' base b (l' :: ls) := by
  obtain ⟨path, hc, hall, hmap⟩ := h
  have htotal : ∃ r, tvmFramePrev fs a = .ok r := by
    cases hc with
    | call live prev caller next ne new rest =>
      unfold tvmFramePrev
      rw [Except.bind_of_ok (FrameStore.load_ok.2 live), Except.bind_of_ok (link_ok.2 prev),
        Except.bind_of_ok (FrameStore.load_ok.2 caller), Except.bind_of_ok (link_ok.2 next)]
      unfold tvmFrameFree
      rw [if_neg ne, live]
      exact ⟨_, rfl⟩
  obtain ⟨⟨b, fs'⟩, hprev⟩ := htotal
  have hnodup := hc.nodup
  obtain ⟨rest, rfl, rfl, hrest⟩ := hc.framePrev hprev
  have hnew := (List.nodup_cons.1 hnodup).1
  refine ⟨b, _, hprev, rest, hrest, fun x m hx => ?_, ?_⟩
  · by_cases hxa : x = a
    · rw [hxa, FrameStore.erase_self] at hx
      cases hx
    · rw [FrameStore.erase_of_ne _ hxa] at hx
      exact (List.mem_cons.1 (hall x m hx)).resolve_left hxa
  · rw [List.map_cons, List.map_cons] at hmap
    rw [← (List.cons.inj hmap).2]
    refine List.map_congr_left fun x hx => ?_
    rw [FrameStore.erase_of_ne _ (ne_of_mem_of_not_mem hx hnew)]

/-- The current frame can be freed. -/
theorem Records.frameFree (h : Records fs base a (l :: ls)) : ∃ fs', tvmFrameFree fs a = .ok fs' := by
  obtain ⟨n, ha, -⟩ := h.current
  unfold tvmFrameFree
  rw [ha]
  split <;> exact ⟨_, rfl⟩

end Records

/-! ## One step -/

/-- `vm` is the state `s`, with the calls in its return stack and its frames. -/
structure Represents (base : Addr) (p : TvmProgram) (s : Activations Nat W) (vm : Vm W) : Prop where
  program : vm.program = p
  point : vm.ip = s.point
  halted : vm.halted = s.halted
  data : vm.data = s.data
  sp : vm.sp ≤ tvmStackCapacity
  rsp : vm.rsp = s.calls.length
  rsp_le : vm.rsp ≤ returnStackCapacity
  saved : ∀ i < vm.rsp, vm.returnStack.get? i = (s.calls.reverse[i]?).map (·.1)
  frames : Records vm.frames base vm.frame (s.locals :: s.calls.map (·.2))

/-- The turn of the loop of `tvm_run` behind an executed instruction. -/
def turnOf : Except Fault (Ret W) → Except (Stop RunStop) (Vm W)
  | .error f => .error (.fault (.fault f))
  | .ok (e, vm) => if e ≠ .ok then .error (.fault (.exit e)) else .ok vm

theorem tvmRunBody_eq (env : Env W) (vm : Vm W) : tvmRunBody env vm = turnOf (tvmExecOpcode env vm) := by
  unfold tvmRunBody turnOf
  cases tvmExecOpcode env vm <;> rfl

/-- The machine stops as its activations do, or goes on in a state that they represent. -/
abbrev StepAlike (base : Addr) (p : TvmProgram) (x : Except RunStop (Activations Nat W)) (y : Except Fault (Ret W)) :
    Prop :=
  Follows True (fun _ => True) (Represents base p) (x.mapError Stop.fault) (turnOf y)

section Steps

variable {env : Env W} {base : Addr} {p : TvmProgram} {s : Activations Nat W} {vm : Vm W} {inst : Opcode} {op : OpType}

theorem raise_represents {e : TvmException} (he : e ≠ .ok) : StepAlike base p (.error (.exit e)) (raise e vm) := by
  have hturn : turnOf (raise e vm) = .error (.fault (.exit e)) := if_pos he
  unfold StepAlike
  rw [hturn]
  exact .error _

theorem fault_represents (f : Fault) : StepAlike (W := W) base p (.error (.fault f)) (.error f) := .error _

theorem done_represents (h : Represents base p s vm) : StepAlike base p (.ok s) (done vm) := .ok fun _ => h

/-- A guard on both sides. -/
theorem guard_represents {c : Prop} [Decidable c] {e : TvmException} {x : Except RunStop (Activations Nat W)}
    {y : Except Fault (Ret W)} (he : e ≠ .ok) (h : ¬ c → StepAlike base p x y) :
    StepAlike base p (if c then .error (.exit e) else x) (if c then raise e vm else y) := by
  split
  · exact raise_represents he
  · exact h ‹_›

/-- The control state goes on behind the instruction. -/
theorem Represents.next (h : Represents base p s vm) {w : Vm W} (hw : SameControl vm w) :
    Represents base p { s with point := wordSucc s.point, data := w.data } w.next where
  program := hw.program.trans h.program
  point := congrArg wordSucc (hw.ip.trans h.point)
  halted := hw.halted.trans h.halted
  data := rfl
  sp := hw.sp h.sp
  rsp := hw.rsp.trans h.rsp
  rsp_le := by
    show w.rsp ≤ _
    rw [hw.rsp]
    exact h.rsp_le
  saved i hi := by
    show w.returnStack.get? i = _
    rw [hw.returnStack]
    exact h.saved i (hw.rsp ▸ hi)
  frames := by
    show Records w.frames base w.frame _
    rw [hw.frames, hw.frame]
    exact h.frames

/-- The control state goes to another address. -/
theorem Represents.goto (h : Represents base p s vm) (d : Data W) (sp : Nat) (hd : d = { s.data with sp })
    (hsp : sp ≤ tvmStackCapacity) (ip : Nat) :
    Represents base p { s with point := ip, data := d } { vm.setSp sp with ip } where
  program := h.program
  point := rfl
  halted := h.halted
  data := by rw [hd, ← h.data]; rfl
  sp := hsp
  rsp := h.rsp
  rsp_le := h.rsp_le
  saved := h.saved
  frames := h.frames

/-- Every instruction that is not one of control goes on behind itself, in the same control state. -/
theorem Effect.of_data {al : FrameAllocator} {vm' : Vm W} (h : Effect al op inst vm vm') (hop : op.isControl = false) :
    ∃ w, vm' = w.next ∧ SameControl vm w := by
  cases h with
  | @next w _ same => exact ⟨w, rfl, same⟩
  | store is | call is | ret is | halt is => rw [is] at hop; cases hop
  | jump is => rcases is with is | is | is <;> rw [is] at hop <;> cases hop

theorem data_represents (h : Represents base p s vm) (hop : op.isControl = false) :
    StepAlike base p (dataMove env p.tables op inst s.data s.locals >>= s.move (tvmMeaning env p.tables) p.toCode)
      (tvmExecOp env op inst vm) := by
  have hdata := dataOp_eq env inst hop vm
  rw [h.program, h.data] at hdata
  unfold dataMove
  rw [← hdata]
  have hmeets := tvmExecOp_meets env op inst vm
  cases hx : tvmExecOp env op inst vm with
  | error f => exact fault_represents f
  | ok r =>
    obtain ⟨e, vm'⟩ := r
    rcases hmeets.of_ok hx with ⟨hne, hsame⟩ | ⟨hok, heff⟩
    · show StepAlike base p ((if e ≠ .ok then Except.error (RunStop.exit e) else _) >>= _) _
      rw [if_pos hne]
      exact raise_represents hne
    · obtain ⟨w, hw, hsame⟩ := heff.of_data hop
      have hok : e = .ok := hok
      have hw : vm' = w.next := hw
      subst hok hw
      exact done_represents (h.next hsame)

theorem load_represents (h : Represents base p s vm) :
    StepAlike base p (loadMove inst s.data s.locals >>= s.move (tvmMeaning env p.tables) p.toCode) (opLoad inst vm) := by
  obtain ⟨point, calls, locals, data, halted⟩ := s
  obtain rfl : vm.data = data := h.data
  obtain ⟨n, hn, hl⟩ := h.frames.current
  obtain rfl : n.localVars = locals := hl
  unfold loadMove opLoad
  rw [apply_ite (· >>= Activation.State.move _ _ _), apply_ite (· >>= Activation.State.move _ _ _)]
  refine guard_represents (by decide) fun hroom => guard_represents (by decide) fun hk => ?_
  have hroom : vm.sp < tvmStackCapacity := Nat.lt_of_not_le hroom
  have hcell := CArray.get?_of_lt n.localVars (Nat.lt_of_not_le hk)
  have hslot := CArray.get?_of_lt vm.stack hroom
  have hpush : pushWith (fun _ => .ok (n.localVars.cell ⟨_, Nat.lt_of_not_le hk⟩)) vm = _ := pushWith_ok hslot
  have hread : n.localVars.load (Fault.outOfBounds .localVars) inst.operand.ui32.toNat = .ok _ := CArray.load_ok.2 hcell
  have hread' : n.localVars.load (RunStop.fault (.outOfBounds .localVars)) inst.operand.ui32.toNat = .ok _ :=
    CArray.load_ok.2 hcell
  dsimp only
  rw [Except.bind_of_ok (FrameStore.load_ok.2 hn), hread, hread']
  show StepAlike base p _ (pushWith (fun _ => .ok _) vm)
  rw [hpush]
  exact done_represents (h.next (.data vm fun _ => hroom))

theorem store_represents (h : Represents base p s vm) :
    StepAlike base p (storeMove inst s.data s.locals >>= s.move (tvmMeaning env p.tables) p.toCode) (opStore inst vm) := by
  obtain ⟨point, calls, locals, data, halted⟩ := s
  obtain rfl : vm.data = data := h.data
  obtain ⟨n, hn, hl⟩ := h.frames.current
  obtain rfl : n.localVars = locals := hl
  unfold storeMove opStore
  rw [apply_ite (· >>= Activation.State.move _ _ _), apply_ite (· >>= Activation.State.move _ _ _)]
  refine guard_represents (by decide) fun hpos => guard_represents (by decide) fun hk => ?_
  have hpos : ¬ vm.sp ≤ 0 := hpos
  have hsp := h.sp
  have htop := CArray.get?_of_lt vm.stack (show vm.sp - 1 < tvmStackCapacity by omega)
  have hread : (vm.setSp (vm.sp - 1)).stackAt (vm.setSp (vm.sp - 1)).sp = .ok _ := CArray.load_ok.2 htop
  have hread' : vm.data.stack.load (RunStop.fault (.outOfBounds .stack)) (vm.data.sp - 1) = .ok _ :=
    CArray.load_ok.2 htop
  have hwrite := (CArray.store_ok (e := Fault.outOfBounds .localVars) (a := n.localVars)
    (v := vm.stack.cell ⟨vm.sp - 1, by omega⟩)).2 ⟨Nat.lt_of_not_le hk, rfl⟩
  dsimp only
  rw [Except.bind_of_ok hread, hread']
  show StepAlike base p _ (FrameStore.load vm.frames vm.frame >>= _)
  rw [Except.bind_of_ok (FrameStore.load_ok.2 hn), Except.bind_of_ok hwrite]
  have hsame : SameControl vm (vm.setSp (vm.sp - 1)) := .data vm fun _ => by omega
  have hnext := h.next hsame
  exact done_represents { hnext with frames := h.frames.store hn _ }

theorem toCode_target (hinst : p.code.get? s.point = some inst) (ht : inst.takesTarget = true) :
    p.toCode.target s.point =
      if inst.operand.ui32.toNat < p.size then some inst.operand.ui32.toNat else none := by
  simp only [TvmProgram.toCode, hinst, ht, Bool.true_and, decide_eq_true_eq]

/-- A jump, taken or not, behind its operand. -/
theorem branch_represents (h : Represents base p s vm) (hinst : p.code.get? s.point = some inst)
    (ht : inst.takesTarget = true) (taken : Bool) {d : Data W} {sp : Nat} (hd : d = { s.data with sp })
    (hsp : sp ≤ tvmStackCapacity) :
    StepAlike base p (s.move (tvmMeaning env p.tables) p.toCode (.branch taken d))
      (if vm.program.size ≤ inst.operand.ui32.toNat then raise .invalidInstructionAccess vm
        else if taken then done { vm.setSp sp with ip := inst.operand.ui32.toNat } else done (vm.setSp sp).next) := by
  simp only [Activation.State.move, toCode_target hinst ht]
  rw [h.program]
  by_cases hlt : inst.operand.ui32.toNat < p.size
  · rw [if_pos hlt, if_neg (Nat.not_le_of_lt hlt)]
    dsimp only
    cases taken with
    | true => exact done_represents (h.goto d sp hd hsp _)
    | false =>
      have hip : p.toCode.next s.point = wordSucc vm.ip := congrArg wordSucc h.point.symm
      rw [if_neg Bool.false_ne_true, if_neg Bool.false_ne_true, hip]
      exact done_represents (h.goto d sp hd hsp _)
  · rw [if_neg hlt, if_pos (Nat.le_of_not_lt hlt)]
    exact raise_represents (by decide)

theorem cond_represents (h : Represents base p s vm) (hinst : p.code.get? s.point = some inst)
    (ht : inst.takesTarget = true) (taken : BitVec 32 → Bool) :
    StepAlike base p (condMove taken s.data >>= s.move (tvmMeaning env p.tables) p.toCode) (condJump taken inst vm) := by
  obtain ⟨point, calls, locals, data, halted⟩ := s
  obtain rfl : vm.data = data := h.data
  have hsp := h.sp
  unfold condMove condJump
  rw [apply_ite (· >>= Activation.State.move _ _ _)]
  refine guard_represents (by decide) fun hpos => ?_
  have hpos : ¬ vm.sp < 1 := hpos
  have htop := CArray.get?_of_lt vm.stack (show vm.sp - 1 < tvmStackCapacity by omega)
  have hread : (vm.setSp (vm.sp - 1)).stackAt (vm.setSp (vm.sp - 1)).sp = .ok _ := CArray.load_ok.2 htop
  have hread' : vm.data.stack.load (RunStop.fault (.outOfBounds .stack)) (vm.data.sp - 1) = .ok _ :=
    CArray.load_ok.2 htop
  dsimp only
  rw [Except.bind_of_ok hread, hread']
  exact branch_represents h hinst ht _ rfl (by omega)

theorem call_represents (hal : env.frames.Roomy) (h : Represents base p s vm)
    (hinst : p.code.get? s.point = some inst) (ht : inst.takesTarget = true) :
    StepAlike base p (s.move (tvmMeaning env p.tables) p.toCode (.call s.data)) (opCall env inst vm) := by
  unfold opCall
  simp only [Activation.State.move, toCode_target hinst ht, ← h.rsp]
  rw [h.program]
  refine guard_represents (by decide) fun hroom => ?_
  have hroom : vm.rsp < returnStackCapacity := Nat.lt_of_not_le hroom
  by_cases hlt : inst.operand.ui32.toNat < p.size
  · rw [if_pos hlt, if_neg (Nat.not_le_of_lt hlt)]
    obtain ⟨⟨frame, frames⟩, hnext⟩ := h.frames.frameNext_roomy hal (by rwa [List.length_map, ← h.rsp])
    rw [Except.bind_of_ok (CArray.store_ok.2 ⟨hroom, rfl⟩)]
    dsimp only
    rw [Except.bind_of_ok hnext]
    refine done_represents ⟨rfl, rfl, h.halted, h.data, h.sp, ?_, hroom, ?_, h.frames.frameNext hnext⟩
    · exact congrArg Nat.succ h.rsp
    · intro i hi
      have hi : i < vm.rsp + 1 := hi
      show (vm.returnStack.put vm.rsp (wordSucc vm.ip)).get? i = _
      rw [List.reverse_cons]
      by_cases hir : i = vm.rsp
      · have hlen : i = s.calls.reverse.length := by rw [List.length_reverse, hir, h.rsp]
        rw [hir, CArray.get?_put_self _ _ hroom, ← hir, hlen, List.getElem?_concat_length, h.point]
        rfl
      · rw [CArray.get?_put_of_ne _ _ hir, List.getElem?_append_left (by rw [List.length_reverse, ← h.rsp]; omega)]
        exact h.saved i (by omega)
  · rw [if_neg hlt, if_pos (Nat.le_of_not_lt hlt)]
    exact raise_represents (by decide)

theorem ret_represents (h : Represents base p s vm) :
    StepAlike base p (s.move (tvmMeaning env p.tables) p.toCode (.ret s.data)) (opRet vm) := by
  obtain ⟨point, calls, locals, data, halted⟩ := s
  have hrsp := h.rsp
  unfold opRet
  cases calls with
  | nil =>
    have hrsp : vm.rsp = 0 := hrsp
    rw [if_pos (by omega)]
    exact raise_represents (by decide)
  | cons a calls =>
    obtain ⟨k, l⟩ := a
    have hrsp : vm.rsp = calls.length + 1 := hrsp
    obtain ⟨frame, frames, hprev, hrecords⟩ := h.frames.framePrev
    have hle := h.rsp_le
    have hsaved : vm.returnStack.get? (vm.rsp - 1) = some k := by
      rw [h.saved _ (by omega), hrsp]
      dsimp only
      rw [List.reverse_cons, Nat.add_sub_cancel, ← List.length_reverse, List.getElem?_concat_length]
      rfl
    rw [if_neg (by omega)]
    dsimp only
    rw [Except.bind_of_ok (CArray.load_ok.2 hsaved), Except.bind_of_ok hprev]
    refine done_represents ⟨h.program, rfl, h.halted, h.data, h.sp, ?_, ?_, ?_, hrecords⟩
    · show vm.rsp - 1 = calls.length
      omega
    · show vm.rsp - 1 ≤ _
      omega
    · intro i hi
      have hi : i < vm.rsp - 1 := hi
      show vm.returnStack.get? i = _
      rw [h.saved i (by omega)]
      dsimp only
      rw [List.reverse_cons, List.getElem?_append_left (by rw [List.length_reverse]; omega)]

theorem halt_represents (env : Env W) (h : Represents base p s vm) :
    StepAlike base p (s.move (tvmMeaning env p.tables) p.toCode (.halt s.data)) (done ({ vm with halted := true } : Vm W).next) :=
  done_represents ⟨h.program, congrArg wordSucc h.point, rfl, h.data, h.sp, h.rsp, h.rsp_le, h.saved, h.frames⟩

theorem withoutTarget_type (inst : Opcode) : inst.withoutTarget.type = inst.type := by
  unfold Opcode.withoutTarget
  split <;> rfl

theorem exec_represents (hal : env.frames.Roomy) (h : Represents base p s vm)
    (hinst : p.code.get? s.point = some inst) :
    StepAlike base p (tvmMove env p.tables inst.withoutTarget s.data s.locals >>= s.move (tvmMeaning env p.tables) p.toCode)
      (tvmExecInst env inst vm) := by
  unfold tvmMove tvmExecInst
  rw [withoutTarget_type]
  cases hop : OpType.ofNat? inst.type.toNat with
  | none => exact raise_represents (by decide)
  | some op =>
    dsimp only
    cases ht : op.takesTarget with
    | true =>
      have ht' : inst.takesTarget = true := by
        unfold Opcode.takesTarget
        rw [hop]
        exact ht
      have hdata : s.data = { s.data with sp := vm.sp } := by rw [← h.data]; rfl
      cases op with
      | jmp => exact branch_represents h hinst ht' true hdata h.sp
      | jz | jnz => exact cond_represents h hinst ht' _
      | call => exact call_represents hal h hinst ht'
      | _ => cases ht
    | false =>
      have hsame : inst.withoutTarget = inst := by
        unfold Opcode.withoutTarget Opcode.takesTarget
        rw [hop, Option.any_some, ht]
        rfl
      rw [hsame]
      cases op with
      | jmp | jz | jnz | call => cases ht
      | ret => exact ret_represents h
      | halt => exact halt_represents env h
      | load => exact load_represents h
      | store => exact store_represents h
      | _ => exact data_represents h rfl

/-- A turn of `tvm_run` is a step of the activations. -/
theorem step_represents (hal : env.frames.Roomy) (h : Represents base p s vm) :
    Follows True (fun _ => True) (Represents base p)
      ((Activation.step (tvmMeaning env p.tables) p.toCode s).mapError Stop.fault) (tvmRunBody env vm) := by
  rw [tvmRunBody_eq]
  unfold tvmExecOpcode Activation.step
  rw [h.program, h.point]
  show StepAlike base p ((match p.fetch s.point with
    | .ok inst => .ok inst.withoutTarget
    | .error f => .error (.fault f)) >>= _) _
  cases hfetch : p.fetch s.point with
  | error f => exact fault_represents f
  | ok inst => exact exec_represents hal h (CArray.load_ok.1 hfetch)

end Steps

/-! ## Runs -/

/-- What `tvm_run` does to the data behind its loop. -/
def Data.finish (d : Data W) : Data W :=
  { d with
    heap := { d.heap with blocks := [], base := 0, cap := 0 }
    out := d.out ++ cstr "Program halted " ++ 27 :: cstr "[0;32m" ++ cstr "succesfully...\n" ++ clrEnd }

/-- The data of `tvm_init`. -/
def Data.initial (world : W) : Data W := ⟨.fill ObjectT.zero, 0, .fill ObjectT.zero, TgcHeap.empty, [], world⟩

section Runs

variable {env : Env W} {base : Addr} {p : TvmProgram} {s : Activations Nat W} {vm : Vm W}

theorem Represents.running (h : Represents base p s vm) : tvmRunCond vm = s.running p.toCode := by
  unfold tvmRunCond Activation.State.running
  rw [h.halted, h.program, h.point]
  rfl

/-- The loop of `tvm_run` is a run of the activations. -/
theorem run_represents (hal : env.frames.Roomy) (h : Represents base p s vm) (fuel : Nat) :
    Follows True (fun _ => True) (fun s vm => Represents base p s vm ∧ s.running p.toCode = false)
      (Activation.run (tvmMeaning env p.tables) p.toCode fuel s) (Loop.run tvmRunCond (tvmRunBody env) fuel vm) :=
  Follows.loop (fun _ _ h => h.running) (fun _ _ h _ => step_represents hal h) fuel s vm h

theorem tvmRun_data (hal : env.frames.Roomy) (h : Represents base p s vm) (fuel : Nat) :
    (tvmRun env fuel vm).map Vm.data =
      (Activation.run (tvmMeaning env p.tables) p.toCode fuel s).map fun s => s.data.finish := by
  have hrun := run_represents hal h fuel
  unfold tvmRun
  cases hx : Activation.run (tvmMeaning env p.tables) p.toCode fuel s with
  | error e =>
    rw [hrun.fault trivial e hx]
    rfl
  | ok s' =>
    obtain ⟨vm', hvm', h', -⟩ := hrun.result s' hx trivial
    obtain ⟨frames, hfree⟩ := h'.frames.frameFree
    rw [Except.bind_of_ok hvm']
    dsimp only
    rw [hfree]
    show Except.ok (Data.finish vm'.data) = Except.ok s'.data.finish
    rw [h'.data]

theorem tvmInit_represents {world : W} (h : tvmInit env p world = .ok vm) :
    Represents vm.frame p (Activation.init (tvmMeaning env p.tables) p.toCode (.initial world)) vm := by
  unfold tvmInit at h
  obtain ⟨⟨frame, frames⟩, hframe, h⟩ := Except.bind_ok h
  cases h
  exact ⟨rfl, rfl, rfl, rfl, Nat.zero_le _, rfl, Nat.zero_le _, fun i hi => absurd hi (Nat.not_lt_zero i),
    tvmFrameInit_records hframe⟩

theorem tvmInit_roomy (hal : env.frames.Roomy) (p : TvmProgram) (world : W) : ∃ vm, tvmInit env p world = .ok vm := by
  obtain ⟨⟨frame, frames⟩, hframe⟩ := tvmFrameInit_roomy hal
  unfold tvmInit
  rw [Except.bind_of_ok hframe]
  exact ⟨_, rfl⟩

end Runs

/-- From `tvm_init` on, with every amount of fuel, `tvm_run` leaves the data that its activations leave, or stops as they
do: nothing depends on where frames are allocated, on what lies above a stack pointer of the return stack, or on links. -/
theorem tvmRun_activations (env : Env W) (hal : env.frames.Roomy) (p : TvmProgram) (world : W) :
    ∃ vm, tvmInit env p world = .ok vm ∧ ∀ fuel, (tvmRun env fuel vm).map Vm.data =
      (Activation.run (tvmMeaning env p.tables) p.toCode fuel
        (Activation.init (tvmMeaning env p.tables) p.toCode (.initial world))).map fun s => s.data.finish := by
  obtain ⟨vm, hinit⟩ := tvmInit_roomy hal p world
  exact ⟨vm, hinit, fun fuel => tvmRun_data hal (tvmInit_represents hinit) fuel⟩

/-! ## A roomy allocator -/

/-- More than `RETURN_STACK_CAPACITY` distinct addresses are enough. -/
theorem firstFit_roomy {pool : List Addr} (hnodup : pool.Nodup) (hnull : 0 ∉ pool)
    (hlen : returnStackCapacity < pool.length) : (FrameAllocator.firstFit pool).Roomy := by
  intro fs path hpath hall
  by_contra hnone
  have hused : ∀ a ∈ pool, a ∈ path := by
    intro a ha
    have hfree := List.find?_eq_none.mp (Option.not_isSome_iff_eq_none.mp hnone) a ha
    have hne : a ≠ 0 := fun he => hnull (he ▸ ha)
    cases hfs : fs a with
    | none =>
      rw [hfs] at hfree
      exact absurd (by simpa using hfree) hne
    | some n => exact hall a n hfs
  have hle := (List.Nodup.subperm hnodup hused).length_le
  omega

/-- The addresses 1 to 1025. -/
def framePool : List Addr := (List.range 1025).map fun i => BitVec.ofNat 64 (i + 1)

theorem framePool_roomy : (FrameAllocator.firstFit framePool).Roomy := by
  refine firstFit_roomy ?_ ?_ ?_
  · refine List.Nodup.map_on ?_ List.nodup_range
    intro i hi j hj heq
    have heq := congrArg BitVec.toNat heq
    rw [List.mem_range] at hi hj
    simp only [BitVec.toNat_ofNat] at heq
    omega
  · intro hzero
    obtain ⟨i, hi, heq⟩ := List.mem_map.1 hzero
    have heq := congrArg BitVec.toNat heq
    rw [List.mem_range] at hi
    simp only [BitVec.toNat_ofNat, BitVec.ofNat_eq_ofNat] at heq
    omega
  · rw [framePool, List.length_map, List.length_range]
    decide

/-- The run of `call 1`, `ret`, which comes back behind the call and calls no more. -/
theorem tvmRun_activations_callRet : ∃ vm, tvmInit (.bare framePool) callRet () = .ok vm ∧
    ∀ fuel, (tvmRun (.bare framePool) fuel vm).map Vm.data =
      (Activation.run (tvmMeaning (.bare framePool) callRet.tables) callRet.toCode fuel
        (Activation.init (tvmMeaning (.bare framePool) callRet.tables) callRet.toCode (.initial ()))).map
        fun s => s.data.finish :=
  tvmRun_activations (.bare framePool) framePool_roomy callRet ()

end TileVm
