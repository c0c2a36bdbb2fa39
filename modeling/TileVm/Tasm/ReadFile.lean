/-
How the assembler reads a source file. The buffer is as large as the file, without the two bytes that the
lexer counts on: the loop stores the `EOF` marker one byte behind it, and nobody stores a NUL. A byte
255 in the file reads as `EOF` and ends the loop.
-/
import TileVm.Common.Carving
import TileVm.Tasm.LexerSpec

namespace TileVm

/-! ## Reading -/

/-- What `arena_init` gets for `src_arena`. -/
def srcArenaCapacity : Nat := 4096 * 16

/-- The loop of `read_file_content` from index `i` on: each char is stored before it is compared with `EOF`. `room` bytes
of the block lie at `content` and behind, and `memory` is what they and those behind them hold. The loop returns how
many it has stored. -/
def readLoop (room : Nat) : Nat → List Byte → (Nat → Byte) → Except Fault ((Nat → Byte) × Nat)
  | i, [], memory =>
    if i < room then .ok (Function.update memory i eofChar, i + 1) else .error .badAddress
  | i, ch :: file, memory =>
    if i < room then
      if ch ≠ eofChar then readLoop room (i + 1) file (Function.update memory i ch)
      else .ok (Function.update memory i ch, i + 1)
    else .error .badAddress

/-- The buffer of a file: the bytes that were requested for it, the memory from it on, and how many bytes of that were
stored. -/
structure FileContent where
  fileSize : Nat
  memory : Nat → Byte
  stores : Nat

/-- `read_file_content` on the bytes of a file, where there is one; without one it closes `NULL`. `none` is its
`exit(1)`. The size that `ftell` tells goes into an `unsigned int`. -/
def readFileContent (al : Malloc) (h : ArenaHeap) (srcArena : Addr) (stale : Nat → Byte) :
    Option (List Byte) → Except Fault (Option FileContent)
  | none => .error .nullPointer
  | some file =>
    let fileSize := file.length % 2 ^ 32
    if fileSize = 0 then .ok none
    else do
      let (content, arena, h) ← arenaAlloc al h srcArena fileSize
      let a ← h.load arena
      let (memory, stores) ← readLoop (a.memory.toNat + a.capacity - content.toNat) 0 file stale
      return some ⟨fileSize, memory, stores⟩

/-- The string that begins here, with its NUL. -/
def StringAt (memory : Nat → Byte) (src : List Byte) : Prop :=
  ∃ s, src = s ++ [0] ∧ 0 ∉ s ∧ ∀ (i : Nat) (b : Byte), src[i]? = some b → memory i = b

/-- The lexer sees the file: the bytes that are stored were requested, the file, the `EOF` marker and a NUL are in the
buffer, and `strlen` counts the file and the marker. -/
structure FileSeen (file : List Byte) (c : FileContent) : Prop where
  requested : c.stores ≤ c.fileSize
  holds : ∀ (i : Nat) (b : Byte), (marked file)[i]? = some b → c.memory i = b
  size : ∃ src, StringAt c.memory src ∧ (tasmLexerInit src).sourceCodeSize = file.length + 1

/-! ## The loop -/

/-- `memory` with `bs` from index `i` on. -/
def overlay (memory : Nat → Byte) (i : Nat) (bs : List Byte) (j : Nat) : Byte :=
  if i ≤ j then bs.getD (j - i) (memory j) else memory j

theorem overlay_nil (memory : Nat → Byte) (i : Nat) : overlay memory i [] = memory := by
  funext j
  simp [overlay]

theorem overlay_cons (memory : Nat → Byte) (i : Nat) (b : Byte) (bs : List Byte) :
    overlay memory i (b :: bs) = overlay (Function.update memory i b) (i + 1) bs := by
  funext j
  unfold overlay
  rcases Nat.lt_trichotomy i j with hlt | rfl | hgt
  · rw [if_pos (by omega), if_pos (by omega), Function.update_of_ne (by omega), show j - i = j - (i + 1) + 1 by omega,
      List.getD_cons_succ]
  · rw [if_pos (by omega), if_neg (by omega), Function.update_self, Nat.sub_self, List.getD_cons_zero]
  · rw [if_neg (by omega), if_neg (by omega), Function.update_of_ne (by omega)]

/-- The bytes that are stored: those before the first 255, and the marker. -/
def storedOf (file : List Byte) : List Byte := file.takeWhile (· ≠ eofChar) ++ [eofChar]

theorem storedOf_nil : storedOf [] = [eofChar] := rfl

theorem storedOf_eof (file : List Byte) : storedOf (eofChar :: file) = [eofChar] := by
  simp [storedOf]

theorem storedOf_cons {b : Byte} (h : b ≠ eofChar) (file : List Byte) : storedOf (b :: file) = b :: storedOf file := by
  simp [storedOf, h]

theorem storedOf_length_pos (file : List Byte) : 0 < (storedOf file).length := by
  simp [storedOf]

/-- The whole file and the marker are stored, or the file up to its first 255. -/
theorem storedOf_cases (file : List Byte) : eofChar ∉ file ∧ storedOf file = file ++ [eofChar] ∨
    ∃ k, k < file.length ∧ file[k]? = some eofChar ∧ (∀ j < k, file[j]? ≠ some eofChar) ∧
      storedOf file = file.take (k + 1) := by
  induction file with
  | nil => exact .inl ⟨List.not_mem_nil, rfl⟩
  | cons b file ih =>
    by_cases hb : b = eofChar
    · subst hb
      exact .inr ⟨0, Nat.succ_pos _, rfl, fun j hj => absurd hj (Nat.not_lt_zero j), storedOf_eof file⟩
    · rw [storedOf_cons hb]
      rcases ih with ⟨hnone, hall⟩ | ⟨k, hk, heof, hbefore, htake⟩
      · refine .inl ⟨fun hmem => ?_, by rw [hall, List.cons_append]⟩
        exact (List.mem_cons.mp hmem).elim (fun h => hb h.symm) hnone
      · refine .inr ⟨k + 1, Nat.succ_lt_succ hk, heof, ?_, by rw [htake, List.take_succ_cons]⟩
        intro j hj
        cases j with
        | zero => simpa using hb
        | succ j => exact hbefore j (Nat.lt_of_succ_lt_succ hj)

/-- The first 255 ends what is stored. -/
theorem storedOf_first {file : List Byte} {k : Nat} (heof : file[k]? = some eofChar)
    (hbefore : ∀ j < k, file[j]? ≠ some eofChar) : storedOf file = file.take (k + 1) := by
  rcases storedOf_cases file with ⟨hnone, -⟩ | ⟨k', -, heof', hbefore', htake⟩
  · exact absurd (List.mem_of_getElem? heof) hnone
  · rcases Nat.lt_trichotomy k k' with hlt | rfl | hgt
    · exact absurd heof (hbefore' k hlt)
    · exact htake
    · exact absurd heof' (hbefore k' hgt)

/-- The loop stores them if there is room for all. -/
theorem readLoop_eq (room : Nat) {i : Nat} (file : List Byte) (memory : Nat → Byte) :
    readLoop room i file memory = if i + (storedOf file).length ≤ room then
      .ok (overlay memory i (storedOf file), i + (storedOf file).length) else .error .badAddress := by
  induction file generalizing i memory with
  | nil =>
    rw [readLoop, storedOf_nil, overlay_cons, overlay_nil]
    rfl
  | cons b file ih =>
    rw [readLoop]
    by_cases hb : b = eofChar
    · subst hb
      rw [storedOf_eof, if_neg (not_not.mpr rfl), overlay_cons, overlay_nil]
      rfl
    · rw [if_pos hb, ih, storedOf_cons hb, overlay_cons, List.length_cons, Nat.add_right_comm, Nat.add_assoc]
      have hpos := storedOf_length_pos file
      by_cases hroom : i + ((storedOf file).length + 1) ≤ room
      · rw [if_pos (by omega), if_pos hroom]
      · rw [if_neg hroom, ite_self]

/-! ## The buffer -/

section Buffer

variable {al : Malloc} {h₀ h : ArenaHeap} {arena : Addr} {file : List Byte} {stale : Nat → Byte}

/-- A request from a new arena is served from the beginning of a block. -/
theorem arenaAlloc_fresh {cap size : Nat} {content arena' : Addr} {h' : ArenaHeap} (hinit : arenaInit al h₀ cap = .ok (arena, h))
    (hsize : 0 < size) (halloc : arenaAlloc al h arena size = .ok (content, arena', h')) :
    ∃ a, h'.arenas arena' = some a ∧ a.capacity = cap ∧ content = a.memory := by
  obtain ⟨harena, memory, ha, -⟩ := arenaInit_ok hinit
  obtain ⟨-, b, hb, rfl, hcarved⟩ := arenaAlloc_ok ha harena hsize halloc
  have hempty : b.size = 0 ∧ b.capacity = cap := by
    cases hcarved with
    | current _ _ block =>
      subst block
      exact ⟨rfl, rfl⟩
    | grown empty capacity => exact ⟨empty, capacity⟩
  refine ⟨_, hb, hempty.2, ?_⟩
  rw [hempty.1]
  simp

/-- With the request served, the file is read up to its first 255, if the block has room for that and the marker. -/
theorem readFileContent_eq {served : Addr × Addr × ArenaHeap} (hinit : arenaInit al h₀ srcArenaCapacity = .ok (arena, h))
    (hserved : arenaAlloc al h arena (file.length % 2 ^ 32) = .ok served) (hsize : file.length % 2 ^ 32 ≠ 0) :
    readFileContent al h arena stale (some file) = if (storedOf file).length ≤ srcArenaCapacity then
      .ok (some ⟨file.length % 2 ^ 32, overlay stale 0 (storedOf file), (storedOf file).length⟩)
    else .error .badAddress := by
  obtain ⟨content, arena', h'⟩ := served
  obtain ⟨a, ha, hcap, rfl⟩ := arenaAlloc_fresh hinit (Nat.pos_of_ne_zero hsize) hserved
  simp only [readFileContent]
  rw [if_neg hsize, Except.bind_of_ok hserved]
  dsimp only
  rw [Except.bind_of_ok (ArenaHeap.load_ok.2 ha), Nat.add_sub_cancel_left, hcap, readLoop_eq, Nat.zero_add]
  split <;> rfl

theorem overlay_of_lt {bs : List Byte} {i : Nat} {b : Byte} (h : bs[i]? = some b) : overlay stale 0 bs i = b := by
  rw [overlay, if_pos (Nat.zero_le i), Nat.sub_zero, List.getD_eq_getElem?_getD, h, Option.getD_some]

theorem overlay_of_le {bs : List Byte} {i : Nat} (h : bs.length ≤ i) : overlay stale 0 bs i = stale i := by
  rw [overlay, if_pos (Nat.zero_le i), Nat.sub_zero, List.getD_eq_getElem?_getD, List.getElem?_eq_none h, Option.getD_none]

theorem strlen_string {s : List Byte} (h : 0 ∉ s) : (tasmLexerInit (s ++ [0])).sourceCodeSize = s.length := by
  show ((s ++ [0]).takeWhile (· ≠ 0)).length = s.length
  rw [List.takeWhile_append_of_pos]
  · simp
  · intro b hb
    have hne : b ≠ 0 := fun h0 => h (h0 ▸ hb)
    simpa using hne

theorem marked_getElem? {i : Nat} {b : Byte} (h : file[i]? = some b) : (marked file)[i]? = some b := by
  obtain ⟨hi, -⟩ := List.getElem?_eq_some_iff.mp h
  rw [marked, List.getElem?_append_left hi, h]

/-- A file without NUL is a string with its marker. -/
theorem marked_string {memory : Nat → Byte} (hnul : 0 ∉ file)
    (h : ∀ (i : Nat) (b : Byte), (marked file)[i]? = some b → memory i = b) :
    StringAt memory (marked file) ∧ (tasmLexerInit (marked file)).sourceCodeSize = file.length + 1 := by
  have hmarked : marked file = (file ++ [eofChar]) ++ [0] := by simp [marked]
  have hnul : 0 ∉ file ++ [eofChar] := by
    intro hmem
    rcases List.mem_append.mp hmem with hmem | hmem
    · exact hnul hmem
    · exact absurd (List.mem_singleton.mp hmem) (by decide)
  refine ⟨⟨file ++ [eofChar], hmarked, hnul, h⟩, ?_⟩
  rw [hmarked, strlen_string hnul, List.length_append, List.length_singleton]

/-- Where `strlen` counts the whole file, the file has no NUL. -/
theorem FileSeen.noNul {c : FileContent} (h : FileSeen file c) : 0 ∉ file := by
  obtain ⟨-, hholds, src, ⟨s, rfl, hs, hsrc⟩, hsize⟩ := h
  rw [strlen_string hs] at hsize
  intro h0
  obtain ⟨i, hi, hget⟩ := List.getElem_of_mem h0
  have hget : file[i]? = some 0 := List.getElem?_eq_some_iff.mpr ⟨hi, hget⟩
  have hlt : i < s.length := by omega
  have hbyte := hsrc i _ (List.getElem?_append_left hlt ▸ List.getElem?_eq_getElem hlt)
  have hzero := hholds i 0 (marked_getElem? hget)
  exact hs (hbyte.symm.trans hzero ▸ List.getElem_mem hlt)

/-- The file has no NUL, it has a 255 within what is requested and the block can hold, and behind the first one the
memory goes on as the file does, with the marker and a NUL behind it. -/
structure Continued (stale : Nat → Byte) (file : List Byte) : Prop where
  noNul : 0 ∉ file
  marker : ∃ k, k < file.length % 2 ^ 32 ∧ k < srcArenaCapacity ∧ file[k]? = some eofChar ∧
    (∀ j < k, file[j]? ≠ some eofChar) ∧ ∀ (i : Nat) (b : Byte), k < i → (marked file)[i]? = some b → stale i = b

/-- The lexer sees a file if and only if the file ends early and the memory behind it has the rest already. It sees no file
without the byte 255, for then a byte more is stored than was requested. -/
theorem fileSeen_iff {served : Addr × Addr × ArenaHeap} (hinit : arenaInit al h₀ srcArenaCapacity = .ok (arena, h))
    (hserved : arenaAlloc al h arena (file.length % 2 ^ 32) = .ok served) (stale : Nat → Byte) :
    (∃ c, readFileContent al h arena stale (some file) = .ok (some c) ∧ FileSeen file c) ↔ Continued stale file := by
  have hle : file.length % 2 ^ 32 ≤ file.length := Nat.mod_le _ _
  constructor
  · rintro ⟨c, hread, hseen⟩
    have hpos : file.length % 2 ^ 32 ≠ 0 := by
      intro h0
      simp only [readFileContent] at hread
      rw [if_pos h0] at hread
      cases hread
    rw [readFileContent_eq hinit hserved hpos] at hread
    split at hread
    · rename_i hroom
      cases hread
      have hrequested : (storedOf file).length ≤ file.length % 2 ^ 32 := hseen.requested
      refine ⟨hseen.noNul, ?_⟩
      rcases storedOf_cases file with ⟨-, hall⟩ | ⟨k, hk, heof, hbefore, htake⟩
      · -- the marker goes behind the buffer
        rw [hall, List.length_append, List.length_singleton] at hrequested
        omega
      · have hlen : (storedOf file).length = k + 1 := by
          rw [htake, List.length_take]
          omega
        rw [hlen] at hrequested hroom
        refine ⟨k, hrequested, hroom, heof, hbefore, fun i b hi hb => ?_⟩
        have hstale : overlay stale 0 (storedOf file) i = stale i := overlay_of_le (by omega)
        rw [← hstale]
        exact hseen.holds i b hb
    · cases hread
  · rintro ⟨hnul, k, hk, hroom, heof, hbefore, hbehind⟩
    have hstored := storedOf_first heof hbefore
    have hlen : (storedOf file).length = k + 1 := by
      rw [hstored, List.length_take]
      omega
    have hread : readFileContent al h arena stale (some file) = _ := readFileContent_eq hinit hserved (by omega)
    rw [if_pos (hlen ▸ hroom)] at hread
    have hmarked : ∀ (i : Nat) (b : Byte), (marked file)[i]? = some b → overlay stale 0 (storedOf file) i = b := by
      intro i b hb
      rcases Nat.lt_or_ge k i with hi | hi
      · rw [overlay_of_le (by omega)]
        exact hbehind i b hi hb
      · refine overlay_of_lt ?_
        rw [hstored, List.getElem?_take_of_lt (by omega), ← hb, marked, List.getElem?_append_left (by omega)]
    exact ⟨_, hread, hlen ▸ hk, hmarked, marked file, marked_string hnul hmarked⟩

/-- A file without the byte 255 is stored with its marker behind it, one byte more than was requested. What the lexer takes
for its text ends where the memory behind happens to have a NUL. -/
theorem readFileContent_plain {served : Addr × Addr × ArenaHeap} (hinit : arenaInit al h₀ srcArenaCapacity = .ok (arena, h))
    (hserved : arenaAlloc al h arena (file.length % 2 ^ 32) = .ok served) (hplain : Plain file) (hne : file ≠ [])
    (hroom : file.length < srcArenaCapacity) (hstale : stale (file.length + 1) = 0) :
    ∃ c, readFileContent al h arena stale (some file) = .ok (some c) ∧ c.fileSize < c.stores ∧
      StringAt c.memory (marked file) := by
  have hstored : storedOf file = file ++ [eofChar] := by
    rcases storedOf_cases file with ⟨-, hall⟩ | ⟨k, -, heof, -⟩
    · exact hall
    · exact absurd rfl (hplain _ (List.mem_of_getElem? heof)).2
  have hlen : (storedOf file).length = file.length + 1 := by
    rw [hstored, List.length_append, List.length_singleton]
  have hpos : 0 < file.length := List.length_pos_iff.mpr hne
  have hcap : srcArenaCapacity < 2 ^ 32 := by decide
  have hsize : file.length % 2 ^ 32 = file.length := Nat.mod_eq_of_lt (by omega)
  have hread : readFileContent al h arena stale (some file) = _ := readFileContent_eq hinit hserved (by omega)
  rw [if_pos (by omega)] at hread
  have hmarked : marked file = storedOf file ++ [0] := by
    rw [hstored]
    simp [marked]
  have hbytes : ∀ (i : Nat) (b : Byte), (marked file)[i]? = some b → overlay stale 0 (storedOf file) i = b := by
    intro i b hb
    rw [hmarked] at hb
    rcases Nat.lt_or_ge i (storedOf file).length with hi | hi
    · exact overlay_of_lt (List.getElem?_append_left hi ▸ hb)
    · -- the byte behind the marker
      have hlast : i < (storedOf file ++ [0]).length := (List.getElem?_eq_some_iff.mp hb).1
      rw [List.length_append, List.length_singleton] at hlast
      have heq : i = file.length + 1 := by omega
      rw [List.getElem?_append_right hi, show i - (storedOf file).length = 0 by omega] at hb
      rw [overlay_of_le hi, heq, hstale]
      exact Option.some.inj hb
  refine ⟨_, hread, ?_, (marked_string (fun h0 => absurd rfl (hplain 0 h0).1) hbytes).1⟩
  show file.length % 2 ^ 32 < (storedOf file).length
  omega

end Buffer

/-- The file of one byte 255, in front of another one and a NUL. -/
theorem fileSeen_eof : ∃ (h : ArenaHeap) (arena : Addr) (c : FileContent),
    arenaInit .behind .empty srcArenaCapacity = .ok (arena, h) ∧
    readFileContent .behind h arena (fun i => if i = 1 then eofChar else 0) (some [eofChar]) = .ok (some c) ∧
    FileSeen [eofChar] c := by
  obtain ⟨h, arena, served, hinit, hserved⟩ : ∃ (h : ArenaHeap) (arena : Addr) (served : Addr × Addr × ArenaHeap),
      arenaInit .behind .empty srcArenaCapacity = .ok (arena, h) ∧
      arenaAlloc .behind h arena ([eofChar].length % 2 ^ 32) = .ok served := ⟨_, _, _, rfl, rfl⟩
  obtain ⟨c, hread, hseen⟩ := (fileSeen_iff hinit hserved fun i => if i = 1 then eofChar else 0).2
    ⟨by decide, 0, by decide, by decide, rfl, fun j hj => absurd hj (Nat.not_lt_zero j), by
      intro i b hi hb
      rcases i with _ | _ | _ | i
      · cases hi
      · exact Option.some.inj hb
      · exact Option.some.inj hb
      · cases hb⟩
  exact ⟨h, arena, c, hinit, hread, hseen⟩

/-- The file `hlt` is stored with its marker in a byte that was not requested, even where all memory is zero. -/
theorem hlt_overrun : ∃ (h : ArenaHeap) (arena : Addr) (c : FileContent),
    arenaInit .behind .empty srcArenaCapacity = .ok (arena, h) ∧
    readFileContent .behind h arena (fun _ => 0) (some (cstr "hlt\n")) = .ok (some c) ∧
    c.fileSize = 4 ∧ c.stores = 5 ∧ ¬ FileSeen (cstr "hlt\n") c :=
  ⟨_, _, _, rfl, rfl, rfl, rfl, fun h => absurd h.requested (by decide)⟩

end TileVm
