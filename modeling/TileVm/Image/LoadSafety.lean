/-
What the loader makes of an arbitrary file. It refuses none, and it leaves a program that stays
within its arrays and its file exactly when the file is that of an image.
-/
import TileVm.Image.LoadSpec

namespace TileVm

open LittleEndian

/-- A program whose counts are within the capacities of its arrays and whose referances are
addresses of its data. -/
structure WithinArrays (p : TvmProgram) : Prop where
  moduleCount : p.metadata.moduleCount ≤ tvmMetadataMaxModuleCapacity
  cfunCount : ∀ k m, k < p.metadata.moduleCount → p.metadata.modules.get? k = some m →
    m.cfunCount ≤ tvmMetadataMaxCfunCapacity
  size : p.size ≤ tvmProgramCapacity
  referances : p.constTable.referances.length = p.constTable.referanceCount
  inData : ∀ a ∈ p.constTable.referances, a < p.constTable.dataSize

/-- The loader exits before it loads the file. -/
def Refuses (stale : Nat → Byte) (file : List Byte) : Prop :=
  ∃ m, tvmLoadProgramFromFile stale TvmProgram.zero (some file) = .error (.exit m)

/-- The loader stores nothing outside its arrays, reads every field from bytes of the file, keeps
`byte_size` from becoming negative, and leaves a program within its arrays. -/
def LoadsSafely (stale : Nat → Byte) (file : List Byte) : Prop :=
  ∃ p r, tvmLoadProgramFromFile stale TvmProgram.zero (some file) = .ok (p, r) ∧
    r.missing = 0 ∧ r.negative = false ∧ WithinArrays p

variable {stale : Nat → Byte} {file : List Byte}

theorem not_refuses (stale : Nat → Byte) (file : List Byte) : ¬ Refuses stale file := by
  rintro ⟨m, h⟩
  obtain ⟨e, he⟩ := Except.mapError_eq_error h
  cases he

theorem load_ok {p : TvmProgram} {r : ImageReader} :
    tvmLoadProgramFromFile stale TvmProgram.zero (some file) = .ok (p, r) ↔
      loadImage stale TvmProgram.zero (.ofFile file) = .ok (p, r) :=
  Except.mapError_eq_ok

/-- A load that fails a check that every safe load passes is neither refused nor safe. -/
theorem neither_of_check (check : TvmProgram × ImageReader → Bool)
    (hsafe : ∀ p r, r.missing = 0 → WithinArrays p → check (p, r) = true)
    (h : (tvmLoadProgramFromFile stale TvmProgram.zero (some file)).okAnd check = false) :
    ¬ (Refuses stale file ∨ LoadsSafely stale file) := by
  rintro (href | ⟨p, r, hrun, hfull, -, hp⟩)
  · exact not_refuses stale file href
  · rw [hrun] at h
    exact absurd (hsafe p r hfull hp) (by simpa [Except.okAnd] using h)

theorem withinArrays_of_image (img : Image) (hdata : img.table.InData) {metadata : TvmProgramMetadata}
    (h : HoldsModules img metadata) (code : CArray Opcode tvmProgramCapacity) :
    WithinArrays ⟨metadata, img.table.toConstTable, code, img.cells.length⟩ where
  moduleCount := by
    rw [h.moduleCount]
    exact img.modules_le
  cfunCount := by
    intro k m hk hm
    have hk : k < metadata.moduleCount := hk
    rw [h.moduleCount] at hk
    obtain ⟨old, hold⟩ := h.modules k img.modules[k] (List.getElem?_eq_getElem hk)
    rw [hold] at hm
    cases hm
    exact img.modules[k].cfuns_le
  size := img.cells_le
  referances := rfl
  inData := hdata

/-- The loader refuses no file. It leaves a safe program exactly when the file is that of an image
whose referances lie in its data, with less than an opcode after it. (`ftell` reports the size of
the file as a `long`.) -/
theorem load_safe_iff (stale : Nat → Byte) (file : List Byte) (hlong : file.length < 2 ^ 63) :
    ¬ Refuses stale file ∧ (LoadsSafely stale file ↔ ∃ (img : Image) (tail : List Byte),
      img.table.InData ∧ tail.length < opcodeSize ∧ file = img.bytes ++ tail) := by
  refine ⟨not_refuses stale file, ?_, ?_⟩
  · rintro ⟨p, r, hrun, hfull, -, hsafe⟩
    obtain ⟨img, tail, hfile, htail, htable⟩ := loadImage_recovers stale (by omega) (load_ok.1 hrun) hfull
    refine ⟨img, tail, ?_, htail, hfile⟩
    have hdata := hsafe.inData
    rw [htable] at hdata
    exact hdata
  · rintro ⟨img, tail, hdata, htail, rfl⟩
    obtain ⟨metadata, r, hholds, hrun, hfull, hnegative⟩ := loadImage_bytes stale img htail
    exact ⟨_, r, load_ok.2 hrun, hfull, hnegative hlong, withinArrays_of_image img hdata hholds _⟩

/-- An image of a module with the functions `pow(f64, f64)` and `abs(i32)`, two constants, and `native 1` and `hlt`. -/
def nativeImage : Image where
  modules :=
    [⟨cstr "m", [⟨cstr "pow", 9, [9, 9], by decide, by decide⟩, ⟨cstr "abs", 6, [6], by decide, by decide⟩],
      by decide, by decide⟩]
  table := ⟨[0, 4], 5, [1, 0, 0, 0, 97], by decide, by decide, by decide, rfl⟩
  cells := [Opcode.bytes ⟨0, 0⟩ ⟨OpType.native.code, ⟨StackObjType.number.code, 1⟩⟩, Opcode.bytes ⟨0, 0⟩ ⟨OpType.halt.code, .zero⟩]
  modules_le := by decide
  cells_size := by decide
  cells_le := by decide

/-- Its file, with three bytes behind it. -/
def nativeFile : List Byte :=
  [1, 0, 0, 0, 1] ++ cstr "m" ++ [2, 0, 0, 0, 3] ++ cstr "pow" ++ [2, 0, 9, 9, 9, 3] ++ cstr "abs" ++ [1, 0, 6, 6] ++
    encode 8 2 ++ encode 8 5 ++ encode 8 0 ++ encode 8 4 ++ [1, 0, 0, 0, 97] ++
    Opcode.bytes ⟨0, 0⟩ ⟨OpType.native.code, ⟨StackObjType.number.code, 1⟩⟩ ++ Opcode.bytes ⟨0, 0⟩ ⟨OpType.halt.code, .zero⟩ ++
    [1, 2, 3]

theorem load_safe_iff_native : nativeFile.length < 2 ^ 63 ∧ ¬ Refuses (fun _ => 0) nativeFile ∧
    LoadsSafely (fun _ => 0) nativeFile := by
  have hlong : nativeFile.length < 2 ^ 63 := by decide
  obtain ⟨hrefuses, hsafe⟩ := load_safe_iff (fun _ => 0) nativeFile hlong
  exact ⟨hlong, hrefuses, hsafe.2 ⟨nativeImage, [1, 2, 3], show ∀ a ∈ [0, 4], a < 5 by decide, by decide, by decide +kernel⟩⟩

/-- Three files that are neither refused nor loaded safely: a referance past the (empty) data, 33
modules without functions, and no bytes at all. -/
theorem load_neither_refuses_nor_safe :
    (¬ (Refuses (fun _ => 0) (encode 4 0 ++ encode 8 1 ++ encode 8 0 ++ encode 8 5) ∨
      LoadsSafely (fun _ => 0) (encode 4 0 ++ encode 8 1 ++ encode 8 0 ++ encode 8 5))) ∧
    (¬ (Refuses (fun _ => 0) (encode 4 33 ++ List.replicate (33 * 5) 0) ∨
      LoadsSafely (fun _ => 0) (encode 4 33 ++ List.replicate (33 * 5) 0))) ∧
    ¬ (Refuses (fun _ => 0) [] ∨ LoadsSafely (fun _ => 0) []) := by
  refine ⟨?_, ?_, ?_⟩
  · refine neither_of_check (fun x => x.1.constTable.referances.all (· < x.1.constTable.dataSize)) ?_ (by decide +kernel)
    intro p r _ hp
    simpa using hp.inData
  · exact neither_of_check (fun _ => true) (fun _ _ _ _ => rfl) (by decide +kernel)
  · exact neither_of_check (fun x => x.2.missing == 0) (fun p r h _ => by simpa using h) (by decide +kernel)

end TileVm
