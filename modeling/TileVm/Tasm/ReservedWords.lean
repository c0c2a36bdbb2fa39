/-
The reserved words of the assembler, as one table without repetitions: a word is what its place in the
table makes it.
-/
import Mathlib.Data.List.Nodup
import TileVm.Tasm.Print

namespace TileVm

/-- The reserved words, in the order in which a word is compared with them. -/
def reservedWords : List CStr :=
  instStringsLower ++ instStringsUpper ++ [cstr "proc", cstr "endp"] ++ tciCtypes ++ [cstr "cfun", cstr "data"]

/-- A number for each word, by which words are compared. -/
def wordCode (w : CStr) : Nat := w.foldl (fun n c => n * 256 + c.toNat) 0

theorem reservedWords_nodup : reservedWords.Nodup := by
  have hcodes : (reservedWords.map wordCode).Nodup := by decide +kernel
  exact hcodes.of_map

/-- The shape of a word. -/
structure IsWord (w : CStr) : Prop where
  start : (isAlpha (w.headD 0) || w.headD 0 == chr '_') = true
  chars : ∀ c ∈ w, isIdChar c = true
  short : w.length ≤ 127

instance (w : CStr) : Decidable (IsWord w) :=
  decidable_of_iff ((isAlpha (w.headD 0) || w.headD 0 == chr '_') = true ∧ (∀ c ∈ w, isIdChar c = true) ∧ w.length ≤ 127)
    ⟨fun h => ⟨h.1, h.2.1, h.2.2⟩, fun h => ⟨h.start, h.chars, h.short⟩⟩

theorem Ident.isWord (x : Ident) : IsWord x.text := ⟨x.start, x.chars, x.short⟩

/-- Reserved words are made of letters and digits. -/
theorem isWord_reserved {w : CStr} (hw : w ∈ reservedWords) : IsWord w := by
  let letter (n : Nat) : Bool := (Nat.ble 97 n && Nat.ble n 122) || (Nat.ble 65 n && Nat.ble n 90)
  let digit (n : Nat) : Bool := Nat.ble 48 n && Nat.ble n 57
  have hletter : ∀ c : Byte, letter c.toNat = true → (isAlpha c || c == chr '_') = true := by decide
  have hchar : ∀ c : Byte, (letter c.toNat || digit c.toNat) = true → isIdChar c = true := by decide
  have hall : (reservedWords.all fun w => letter (w.headD 0).toNat && (w.all fun c => letter c.toNat || digit c.toNat) &&
      Nat.ble w.length 127) = true := by decide +kernel
  have hthis := List.all_eq_true.mp hall w hw
  simp only [Bool.and_eq_true, List.all_eq_true] at hthis
  obtain ⟨⟨hstart, hchars⟩, hshort⟩ := hthis
  exact ⟨hletter _ hstart, fun c hc => hchar c (hchars c hc), Nat.le_of_ble_eq_true hshort⟩

section Place

variable {w v : CStr} {i j k : Nat}

/-- A word has one place in the table. -/
theorem reservedWords_place (hk : reservedWords[k]? = some w) (hj : reservedWords[j]? = some v) : v = w ↔ k = j := by
  constructor
  · rintro rfl
    exact (List.getElem?_inj (List.getElem?_eq_some_iff.mp hk).1 reservedWords_nodup).mp (hk.trans hj.symm)
  · rintro rfl
    exact Option.some.inj (hj.symm.trans hk)

/-- The parts of the table. -/
theorem reservedWords_parts (hi : i < 63) (hj : j < 12) : reservedWords[i]? = instStringsLower[i]? ∧
    reservedWords[63 + i]? = instStringsUpper[i]? ∧ reservedWords[128 + j]? = tciCtypes[j]? := by
  have hlen : (instStringsLower ++ instStringsUpper).length = 126 := rfl
  unfold reservedWords
  refine ⟨?_, ?_, ?_⟩
  · simp only [List.append_assoc]
    exact List.getElem?_append_left hi
  · simp only [List.append_assoc]
    rw [List.getElem?_append_right (Nat.le_add_right 63 i), show 63 + i - instStringsLower.length = i from Nat.add_sub_cancel_left 63 i]
    exact List.getElem?_append_left hi
  · rw [List.append_assoc, List.append_assoc, List.getElem?_append_right (by rw [hlen]; omega),
      List.getElem?_append_right (by rw [hlen]; simp; omega), hlen,
      show 128 + j - 126 - [cstr "proc", cstr "endp"].length = j by simp; omega]
    exact List.getElem?_append_left hj

theorem reservedWords_some {n : Nat} (hn : n < 142) : ∃ v, reservedWords[n]? = some v :=
  ⟨_, List.getElem?_eq_getElem hn⟩

theorem isIdOp_place (hk : reservedWords[k]? = some w) (hi : i < 63) : isIdOp i w = true ↔ k = i ∨ k = 63 + i := by
  obtain ⟨hlower, hupper, -⟩ := reservedWords_parts hi (j := 0) (by omega)
  obtain ⟨v, hv⟩ := reservedWords_some (n := i) (by omega)
  obtain ⟨u, hu⟩ := reservedWords_some (n := 63 + i) (by omega)
  unfold isIdOp
  rw [← hlower, ← hupper, hv, hu]
  simp only [Bool.or_eq_true, beq_iff_eq, Option.some.injEq]
  rw [reservedWords_place hk hv, reservedWords_place hk hu]

theorem isIdCtype_place (hk : reservedWords[k]? = some w) (hj : j < 12) : isIdCtype j w = true ↔ k = 128 + j := by
  obtain ⟨-, -, htci⟩ := reservedWords_parts (i := 0) (by omega) hj
  obtain ⟨v, hv⟩ := reservedWords_some (n := 128 + j) (by omega)
  unfold isIdCtype
  rw [← htci, hv]
  simp only [beq_iff_eq, Option.some.injEq]
  exact reservedWords_place hk hv

theorem find_place {n : Nat} {p : Nat → Bool} (hi : i < n) (hp : ∀ j < n, p j = true ↔ j = i) :
    (List.range n).find? p = some i := by
  rw [List.find?_range_eq_some]
  refine ⟨(hp i hi).mpr rfl, by simpa using hi, fun j hj => ?_⟩
  have hne : ¬ p j = true := fun h => Nat.ne_of_lt hj ((hp j (Nat.lt_trans hj hi)).mp h)
  simpa using hne

theorem find_none {n : Nat} {p : Nat → Bool} (hp : ∀ j < n, ¬ p j = true) : (List.range n).find? p = none := by
  simpa [List.find?_eq_none] using hp

end Place

/-- The place of a mnemonic. -/
theorem mnemonic_place (capital : Bool) (o : OpType) :
    reservedWords[(if capital then 63 else 0) + o.ctorIdx]? = some (mnemonic capital o) := by
  have ho : o.ctorIdx < 63 := by cases o <;> decide
  obtain ⟨hlower, hupper, -⟩ := reservedWords_parts ho (j := 0) (by omega)
  unfold mnemonic
  cases capital
  · rw [if_neg (by decide), if_neg (by decide), Nat.zero_add, hlower, List.getD_eq_getElem?_getD,
      List.getElem?_eq_getElem (show o.ctorIdx < instStringsLower.length from ho)]
    rfl
  · rw [if_pos rfl, if_pos rfl, hupper, List.getD_eq_getElem?_getD,
      List.getElem?_eq_getElem (show o.ctorIdx < instStringsUpper.length from ho)]
    rfl

theorem wordType_mnemonic (capital : Bool) (o : OpType) : wordType (mnemonic capital o) = .op o := by
  have ho : o.ctorIdx < 63 ∧ OpType.ofNat? o.ctorIdx = some o := by cases o <;> exact ⟨by decide, rfl⟩
  have hfind : (List.range 63).find? (isIdOp · (mnemonic capital o)) = some o.ctorIdx := by
    refine find_place ho.1 fun j hj => ?_
    rw [isIdOp_place (mnemonic_place capital o) hj]
    cases capital
    · rw [if_neg (by decide)]
      omega
    · rw [if_pos rfl]
      omega
  have hop : ((List.range 63).find? (isIdOp · (mnemonic capital o)) >>= OpType.ofNat?) = some o := by
    rw [hfind]
    exact ho.2
  unfold wordType
  rw [hop]

/-- The words behind the mnemonics are none of them. -/
theorem no_mnemonic {w : CStr} {k : Nat} (hk : reservedWords[k]? = some w) (h126 : 126 ≤ k) :
    (List.range 63).find? (isIdOp · w) = none := by
  refine find_none fun j hj => ?_
  rw [isIdOp_place hk hj]
  omega

theorem proc_place : reservedWords[126]? = some (cstr "proc") := rfl

theorem endp_place : reservedWords[127]? = some (cstr "endp") := rfl

theorem ctypeName_place (t : CType) : reservedWords[128 + t.ctorIdx]? = some (ctypeName t) := by
  cases t <;> rfl

theorem wordType_ctypeName (t : CType) : wordType (ctypeName t) = .tci t := by
  have ht : t.ctorIdx < 12 ∧ CType.ofNat? t.ctorIdx = some t := by cases t <;> exact ⟨by decide, rfl⟩
  have hplace := ctypeName_place t
  have hfind : (List.range 12).find? (isIdCtype · (ctypeName t)) = some t.ctorIdx :=
    find_place ht.1 fun j hj => by
      rw [isIdCtype_place hplace hj]
      omega
  have hproc : ctypeName t ≠ cstr "proc" := fun he => by
    have := (reservedWords_place proc_place hplace).mp he
    omega
  have hendp : ctypeName t ≠ cstr "endp" := fun he => by
    have := (reservedWords_place endp_place hplace).mp he
    omega
  have hop : ((List.range 63).find? (isIdOp · (ctypeName t)) >>= OpType.ofNat?) = none := by
    rw [no_mnemonic hplace (by omega)]
    rfl
  have hctype : ((List.range 12).find? (isIdCtype · (ctypeName t)) >>= CType.ofNat?) = some t := by
    rw [hfind]
    exact ht.2
  unfold wordType
  rw [hop, if_neg hproc, if_neg hendp, hctype]

theorem wordType_keywords : wordType (cstr "proc") = .proc ∧ wordType (cstr "endp") = .endp ∧
    wordType (cstr "cfun") = .cfunction ∧ wordType (cstr "data") = .data := by
  decide +kernel

end TileVm
