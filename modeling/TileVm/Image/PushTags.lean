/-
Tags of operands. The translator gives the tag of a data address to the operand of `aloadc`, which
the machine reads as a number; no `push` of a program it makes has one.
-/
import TileVm.Image.ConstBounds
import TileVm.Image.LoadSafety

namespace TileVm

open Except (Post)

variable {t : TasmTranslator} {p : TvmProgram} {ast : TasmAst} {text : List Byte}

/-- The opcode is not a `push` of an object tagged as a data address. -/
def Opcode.Untagged (c : Opcode) : Prop :=
  OpType.ofNat? c.type.toNat = some .push → c.operand.type ≠ StackObjType.dataAddress.code

/-- No cell of the code is such a `push`. -/
def PushesUntagged (p : TvmProgram) : Prop := ∀ i c, p.code.get? i = some c → c.Untagged

theorem untagged_zero : Opcode.zero.Untagged := nofun

theorem untagged_plain (o : OpType) : (Opcode.plain o).Untagged := by
  intro _
  show (0 : Byte) ≠ 1
  decide

theorem untagged_withUi32 {o : OpType} {type : StackObjType} {v : BitVec 32} (h : o = .push → type ≠ .dataAddress) :
    (Opcode.withUi32 o type v).Untagged := by
  intro hop
  have hpush : o = .push := Option.some.inj ((OpType.ofNat?_code o).symm.trans hop)
  have htype := h hpush
  show type.code ≠ _
  cases type with
  | dataAddress => exact absurd rfl htype
  | noOperand | vmAddress | number | character => decide

/-! ## The translator -/

/-- `x` stops or returns a translator whose pushes have no such tag. -/
abbrev TranslatesUntagged (x : Tr TasmTranslator) : Prop := Post (fun _ => True) (fun t => PushesUntagged t.program) x

section Translator

theorem untagged_bind {α : Type} {x : Tr α} {f : α → Tr TasmTranslator} (h : ∀ a, x = .ok a → TranslatesUntagged (f a)) :
    TranslatesUntagged (x >>= f) :=
  Post.bind (Post.intro (fun _ _ => trivial) h)

variable (h : PushesUntagged t.program)

include h

theorem programPush_untagged {c : Opcode} (hc : c.Untagged) : TranslatesUntagged (programPush t c) := by
  refine Post.intro (fun _ _ => trivial) fun t' hpush i c' hget => ?_
  have hpushed := programPush_ok hpush
  rw [hpushed.code] at hget
  by_cases hi : i = t.program.size
  · rw [hi, CArray.get?_put_self _ _ hpushed.fits] at hget
    cases hget
    exact hc
  · rw [CArray.get?_put_of_ne _ _ hi] at hget
    exact h i c' hget

theorem pushNumber_untagged {o : OpType} {type : StackObjType} {operand : Option TasmAst}
    (htype : o = .push → type ≠ .dataAddress) : TranslatesUntagged (pushNumber t o type operand) := by
  refine untagged_bind fun v _ => ?_
  split
  · exact programPush_untagged h (untagged_withUi32 htype)
  · exact h

theorem translatePush_untagged {operand : Option TasmAst} : TranslatesUntagged (translatePush t operand) := by
  refine untagged_bind fun v _ => ?_
  split
  · exact programPush_untagged h (untagged_withUi32 nofun)
  · exact untagged_bind fun c _ => programPush_untagged h (untagged_withUi32 nofun)
  · exact h

omit h in
/-- A logged name leaves the program. -/
theorem translateLabelCall_program {t' : TasmTranslator} {scope label : Option CStr} {isCall : Bool} {name : CStr}
    (hcall : translateLabelCall t scope isCall label = .ok (t', name)) : t'.program = t.program := by
  obtain ⟨l, -, hcall⟩ := Except.bind_ok hcall
  dsimp only at hcall
  generalize (if scope.isNone && isCall then intAddr t.symbols.procDecls (labelName scope l)
    else intAddr t.symbols.labelDecls (labelName scope l)) = addr at hcall
  split at hcall
  · cases hcall
    rfl
  · obtain ⟨log, -, hcall⟩ := Except.bind_ok hcall
    cases hcall
    rfl

theorem translateJump_untagged {o : OpType} {scope : Option CStr} {operand : Option TasmAst} :
    TranslatesUntagged (translateJump t o scope operand) := by
  refine untagged_bind fun v _ => ?_
  split
  · exact programPush_untagged h (untagged_withUi32 nofun)
  · apply untagged_bind
    rintro ⟨t', name⟩ hcall
    have h : PushesUntagged t'.program := translateLabelCall_program hcall ▸ h
    exact Post.ite (fun _ => h) fun _ => programPush_untagged h (untagged_withUi32 nofun)
  · exact h

theorem translateCall_untagged {operand : Option TasmAst} : TranslatesUntagged (translateCall t operand) := by
  refine untagged_bind fun v _ => ?_
  split
  · apply untagged_bind
    rintro ⟨t', name⟩ hcall
    have h : PushesUntagged t'.program := translateLabelCall_program hcall ▸ h
    exact Post.ite (fun _ => h) fun _ => programPush_untagged h (untagged_withUi32 nofun)
  · exact h

theorem cfunction_untagged {rtype : Byte} {atypes : List Byte} {name : Option CStr} :
    TranslatesUntagged (tasmTranslateCfunction t rtype atypes name) := by
  unfold tasmTranslateCfunction
  dsimp only
  split
  · exact h
  · trivial

theorem data_untagged {value : Option TasmAst} : TranslatesUntagged (tasmTranslateData t value) :=
  untagged_bind fun _ _ => untagged_bind fun _ _ => h

theorem translateLine_untagged {scope : Option CStr} {isCall : Bool} {node : TasmAst} :
    TranslatesUntagged (tasmTranslateLine t scope isCall node) := by
  unfold tasmTranslateLine
  split
  · exact translatePush_untagged h
  · exact pushNumber_untagged h nofun
  · exact pushNumber_untagged h nofun
  · exact translateJump_untagged h
  · exact translateJump_untagged h
  · exact translateJump_untagged h
  · exact translateCall_untagged h
  · exact pushNumber_untagged h nofun
  · exact pushNumber_untagged h nofun
  · exact pushNumber_untagged h nofun
  · exact pushNumber_untagged h nofun
  · exact pushNumber_untagged h nofun
  · exact pushNumber_untagged h nofun
  · exact pushNumber_untagged h nofun
  · exact pushNumber_untagged h nofun
  · exact programPush_untagged h (untagged_plain _)
  · refine Post.map (Post.intro (fun _ _ => trivial) ?_)
    rintro ⟨t', name⟩ hcall
    exact translateLabelCall_program hcall ▸ h
  · exact h
  · exact cfunction_untagged h
  · exact data_untagged h
  · exact h

theorem emitStep_untagged {i : Item} : TranslatesUntagged (emitStep t i) := by
  cases i with
  | inst | metadata => exact translateLine_untagged h
  | label | proc => exact h

end Translator

/-- The program of an accepted source. -/
theorem Assembles.untagged (h : Assembles text ast t) : PushesUntagged t.program := by
  have hrun := h.translates
  unfold tasmTranslate at hrun
  obtain ⟨t₁, h₁, hrun⟩ := Except.bind_ok hrun
  obtain ⟨t₂, h₂, h₃⟩ := Except.bind_ok hrun
  rw [resolveProcs_eq h.wellFormed] at h₁
  rw [resolveLabels_eq h.wellFormed] at h₂
  rw [translateUnit_eq h.wellFormed] at h₃
  obtain ⟨rfl, -, -⟩ := procs_resolved rfl rfl h₁
  obtain ⟨rfl, -, -⟩ := labels_resolved rfl rfl h₂
  refine Except.foldlM_inv (fun _ t => PushesUntagged t.program) _ [] _ t ?_ ?_ h₃
  · intro pre i post c c' _ hc hs
    exact (emitStep_untagged hc).of_ok hs
  · intro i c hget
    cases (CArray.get?_fill _ (CArray.get?_lt hget)).symm.trans hget
    exact untagged_zero

/-! ## The loader -/

/-- Cells behind those that are loaded stay. -/
theorem loadCode_behind {stale : Nat → Byte} {j : Nat} : ∀ {n i : Nat} {code code' : CArray Opcode tvmProgramCapacity}
    {r r' : ImageReader}, loadCode stale code i n r = .ok (code', r') → i + n ≤ j → code'.get? j = code.get? j
  | 0, _, _, _, _, _, hload, _ => by
    cases hload
    rfl
  | n + 1, i, code, code', r, r', hload, hj => by
    by_cases hnil : r.rest = []
    · rw [loadCode_eof stale hnil] at hload
      cases hload
      rfl
    · rw [loadCode_cell stale hnil] at hload
      obtain ⟨cell, r₁, -, hload⟩ := Tape.bind_ok hload
      obtain ⟨code₁, r₂, hstore, hload⟩ := Tape.bind_ok hload
      obtain ⟨code₂, hcell, heq⟩ := Except.bind_ok hstore
      cases heq
      obtain ⟨-, rfl⟩ := CArray.store_ok.1 hcell
      rw [loadCode_behind hload (by omega)]
      exact CArray.get?_put_of_ne _ _ (by omega)

/-- Code behind the size of a loaded program is zero. -/
theorem loaded_behind {stale : Nat → Byte} {bytes : List Byte} {r : ImageReader} {i : Nat} {c : Opcode}
    (hload : tvmLoadProgramFromFile stale TvmProgram.zero (some bytes) = .ok (p, r)) (hi : p.size ≤ i)
    (hc : p.code.get? i = some c) : c = .zero := by
  have hload := load_ok.1 hload
  obtain ⟨⟨metadata, table⟩, r₁, hheader, -⟩ := Tape.bind_ok hload
  rw [loadImage_of_header stale hheader] at hload
  obtain ⟨⟨code, r₂⟩, hcode, hdone⟩ := Except.bind_ok hload
  cases hdone
  have hbehind : code.get? i = TvmProgram.zero.code.get? i := loadCode_behind hcode (by rw [Nat.zero_add]; exact hi)
  cases (hbehind.symm.trans hc).symm.trans (CArray.get?_fill Opcode.zero (CArray.get?_lt hc))
  rfl

/-- No `push` of the program of an accepted source, loaded or not, has a data address as its operand. -/
theorem ProgramFrom.untagged (hp : ProgramFrom ast t p) (h : Assembles text ast t) : PushesUntagged p := by
  intro i c hget
  have hcarries := hp.carries h
  by_cases hi : i < t.program.size
  · exact h.untagged i c ((hcarries.code i hi).symm.trans hget)
  · cases hp with
    | direct => exact h.untagged i c hget
    | loaded _ _ _ loads =>
      rw [loaded_behind loads (hcarries.size ▸ Nat.le_of_not_lt hi) hget]
      exact untagged_zero

end TileVm
