/-
The memory behind the heap: words as little-endian bytes, pieces of memory that lie apart, and live
blocks, whose descriptor and value can be loaded and stored through the block's address.
-/
import TileVm.Lib.LittleEndian
import TileVm.Vm.Heap

namespace TileVm

open LittleEndian (encode decode decode_encode decode_cons decode_lt length_encode)

/-! ## Words -/

theorem ofLeBytes_toNat {bs : List Byte} (h : bs.length ≤ 8) : (ofLeBytes bs).toNat = decode bs := by
  induction bs with
  | nil => rfl
  | cons b bs ih =>
    have ih := ih (Nat.le_of_succ_le h)
    have hlow : b.toNat < 2 ^ 8 := b.isLt
    have hhigh : decode bs < 2 ^ 56 := by
      have hlt := decode_lt bs
      have hpow : 256 ^ bs.length ≤ 256 ^ 7 := Nat.pow_le_pow_right (by decide) (Nat.le_of_succ_le_succ h)
      omega
    have hshift : (ofLeBytes bs <<< 8).toNat = decode bs <<< 8 := by
      rw [BitVec.toNat_shiftLeft, ih, Nat.shiftLeft_eq]
      exact Nat.mod_eq_of_lt (by omega)
    rw [ofLeBytes, BitVec.toNat_or, hshift, BitVec.toNat_setWidth, Nat.mod_eq_of_lt (by omega), decode_cons,
      ← Nat.shiftLeft_add_eq_or_of_lt hlow, Nat.shiftLeft_eq]
    omega

theorem leBytes_eq (n : Nat) (v : BitVec 64) : leBytes n v = encode n v.toNat := by
  induction n generalizing v with
  | zero => rfl
  | succ n ih =>
    have hbyte : v.setWidth 8 = BitVec.ofNat 8 v.toNat := (BitVec.ofNat_toNat ..).symm
    have hrest : (v >>> 8).toNat = v.toNat / 256 := by
      rw [BitVec.toNat_ushiftRight, Nat.shiftRight_eq_div_pow]
    rw [leBytes, encode, ih, hbyte, hrest]

@[simp] theorem length_leBytes (n : Nat) (v : BitVec 64) : (leBytes n v).length = n := by
  rw [leBytes_eq, length_encode]

/-- A word of `n` bytes reads back as the low `n` bytes of what was written. -/
theorem ofLeBytes_leBytes {n : Nat} (hn : n ≤ 8) (v : BitVec 64) :
    ofLeBytes (leBytes n v) = (v.setWidth (8 * n)).setWidth 64 := by
  apply BitVec.eq_of_toNat_eq
  have hpow : 2 ^ (8 * n) = 256 ^ n := by rw [Nat.pow_mul]
  have hle : 256 ^ n ≤ 2 ^ 64 := hpow ▸ Nat.pow_le_pow_right (by decide) (by omega)
  have hlt : v.toNat % 256 ^ n < 256 ^ n := Nat.mod_lt _ (Nat.pow_pos (by decide))
  rw [ofLeBytes_toNat (by simpa using hn), leBytes_eq, decode_encode, BitVec.toNat_setWidth, BitVec.toNat_setWidth,
    hpow, Nat.mod_eq_of_lt (Nat.lt_of_lt_of_le hlt hle)]

/-- The bytes of `overwrite`: the written ones, and the others as they were. -/
theorem getElem?_overwrite {bytes bs : List Byte} {off : Nat} (h : off + bs.length ≤ bytes.length) (k : Nat) :
    (overwrite bytes off bs)[k]? = if off ≤ k ∧ k < off + bs.length then bs[k - off]? else bytes[k]? := by
  have htake : (bytes.take off).length = off := by rw [List.length_take]; omega
  unfold overwrite
  rw [List.append_assoc, List.getElem?_append, htake]
  split
  · rw [if_neg (by omega), List.getElem?_take_of_lt ‹_›]
  · rw [List.getElem?_append]
    split
    · rw [if_pos (by omega)]
    · rw [if_neg (by omega), List.getElem?_drop]
      congr 1
      omega

theorem length_overwrite {bytes bs : List Byte} {off : Nat} (h : off + bs.length ≤ bytes.length) :
    (overwrite bytes off bs).length = bytes.length := by
  simp only [overwrite, List.length_append, List.length_take, List.length_drop]
  omega

/-! ## Loads -/

section Loads

variable {h : TgcHeap} {const : Region} {a : Addr}

theorem readBytes_of {l : List Byte} (hl : ∀ k < l.length, h.readByte const (a + BitVec.ofNat 64 k) = l[k]?) :
    h.readBytes const l.length a = some l := by
  induction l generalizing a with
  | nil => rfl
  | cons b l ih =>
    have hhead : h.readByte const a = some b := by
      have := hl 0 (Nat.succ_pos _)
      rwa [show a + BitVec.ofNat 64 0 = a from BitVec.add_zero a] at this
    have htail : h.readBytes const l.length (a + 1) = some l := by
      refine ih fun k hk => ?_
      have := hl (k + 1) (Nat.succ_lt_succ hk)
      rwa [List.getElem?_cons_succ, Nat.add_comm k 1, BitVec.ofNat_add, ← BitVec.add_assoc] at this
    rw [List.length_cons, TgcHeap.readBytes, hhead, htail]
    rfl

theorem loadWord_of (h : TgcHeap) (const : Region) (a : Addr) {l : List Byte} (hl : ∀ k < l.length, h.readByte const (a + BitVec.ofNat 64 k) = l[k]?) :
    h.loadWord const l.length a = .ok (ofLeBytes l) := by
  unfold TgcHeap.loadWord
  rw [readBytes_of hl]

end Loads

theorem loadWord_congr {h h' : TgcHeap} {const : Region} {n : Nat} {a : Addr}
    (hread : ∀ k < n, h'.readByte const (a + BitVec.ofNat 64 k) = h.readByte const (a + BitVec.ofNat 64 k)) :
    h'.loadWord const n a = h.loadWord const n a := by
  have hbytes : h'.readBytes const n a = h.readBytes const n a := by
    induction n generalizing a with
    | zero => rfl
    | succ n ih =>
      have hhead : h'.readByte const a = h.readByte const a := by
        have := hread 0 (Nat.succ_pos n)
        rwa [show a + BitVec.ofNat 64 0 = a from BitVec.add_zero a] at this
      have htail : h'.readBytes const n (a + 1) = h.readBytes const n (a + 1) := by
        refine ih fun k hk => ?_
        have := hread (k + 1) (Nat.succ_lt_succ hk)
        rwa [Nat.add_comm k 1, BitVec.ofNat_add, ← BitVec.add_assoc] at this
      rw [TgcHeap.readBytes, TgcHeap.readBytes, hhead, htail]
  unfold TgcHeap.loadWord
  rw [hbytes]

/-! ## Pieces of memory -/

/-- The two regions share no address and do not start at the same one. -/
def Region.Apart (r s : Region) : Prop := r.base ≠ s.base ∧ ∀ a, r.read a = none ∨ s.read a = none

/-- Allocated memory: the values lie apart, from each other, from the constant data and from the array of descriptors,
which ends within the address space. -/
structure MemoryApart (h : TgcHeap) (const : Region) : Prop where
  values : h.values.Pairwise Region.Apart
  constant : ∀ r ∈ h.values, ∀ a, r.read a = none ∨ const.read a = none
  descriptors : ∀ r ∈ const :: h.values, ∀ k < gcBlockSize * h.blocks.length, r.read (h.base + BitVec.ofNat 64 k) = none
  room : gcBlockSize * h.blocks.length ≤ 2 ^ 64

theorem MemoryApart.eq_of_base {h : TgcHeap} {const r s : Region} (hm : MemoryApart h const) (hr : r ∈ h.values)
    (hs : s ∈ h.values) (hbase : r.base = s.base) : r = s := by
  have hnodup : (h.values.map (·.base)).Nodup := List.pairwise_map.2 (hm.values.imp fun h => h.1)
  exact List.inj_on_of_nodup_map hnodup hr hs hbase

/-- A live block: at `a` stands its descriptor `b`, and its value is allocated, with as many bytes as the descriptor
says. Sizes are 32-bit operands of `OP_HALLOC`. -/
structure LiveBlock (h : TgcHeap) (a : Addr) (b : GcBlock) : Prop where
  descriptor : ∃ i, h.blocks[i]? = some (some b) ∧ a = h.base + BitVec.ofNat 64 (gcBlockSize * i)
  value : ∃ r ∈ h.values, r.base = b.value ∧ r.bytes.length = b.size.toNat
  size : b.size.toNat < 2 ^ 32

variable {h : TgcHeap} {const : Region} {a : Addr} {b : GcBlock}

theorem sub_add_cancel_left (a v : Addr) : a + v - a = v := by
  rw [BitVec.add_comm, BitVec.add_sub_cancel]

theorem readBlock_at {i k : Nat} (hi : h.blocks[i]? = some (some b)) (hk : k < gcBlockSize)
    (hroom : gcBlockSize * h.blocks.length ≤ 2 ^ 64) :
    h.readBlock (h.base + BitVec.ofNat 64 (gcBlockSize * i + k)) = b.toBytes[k]? := by
  have hlt : i < h.blocks.length := (List.getElem?_eq_some_iff.1 hi).1
  have hoff : (h.base + BitVec.ofNat 64 (gcBlockSize * i + k) - h.base).toNat = gcBlockSize * i + k := by
    rw [sub_add_cancel_left, BitVec.toNat_ofNat]
    apply Nat.mod_eq_of_lt
    unfold gcBlockSize at *
    omega
  have hdiv : (gcBlockSize * i + k) / gcBlockSize = i := by unfold gcBlockSize at *; omega
  have hmod : (gcBlockSize * i + k) % gcBlockSize = k := by unfold gcBlockSize at *; omega
  unfold TgcHeap.readBlock
  dsimp only
  rw [hoff, hdiv, hmod, hi]

/-- The bytes of the descriptor. -/
theorem LiveBlock.readByte (hb : LiveBlock h a b) (hm : MemoryApart h const) {k : Nat} (hk : k < gcBlockSize) :
    h.readByte const (a + BitVec.ofNat 64 k) = b.toBytes[k]? := by
  obtain ⟨i, hi, rfl⟩ := hb.descriptor
  have hlt : i < h.blocks.length := (List.getElem?_eq_some_iff.1 hi).1
  have haddr : h.base + BitVec.ofNat 64 (gcBlockSize * i) + BitVec.ofNat 64 k =
      h.base + BitVec.ofNat 64 (gcBlockSize * i + k) := by
    rw [BitVec.add_assoc, ← BitVec.ofNat_add]
  have hfree : ∀ r ∈ const :: h.values, r.read (h.base + BitVec.ofNat 64 (gcBlockSize * i + k)) = none := by
    intro r hr
    refine hm.descriptors r hr _ ?_
    unfold gcBlockSize at *
    omega
  have hvalues : h.values.findSome? (·.read (h.base + BitVec.ofNat 64 (gcBlockSize * i + k))) = none :=
    List.findSome?_eq_none_iff.2 fun r hr => hfree r (List.mem_cons_of_mem _ hr)
  rw [haddr]
  unfold TgcHeap.readByte
  rw [hvalues, hfree const (List.mem_cons_self ..), readBlock_at hi hk hm.room]
  rfl

theorem toBytes_value (b : GcBlock) {k : Nat} (hk : k < 8) : b.toBytes[k]? = (leBytes 8 b.value)[k]? := by
  simp only [GcBlock.toBytes, List.append_assoc]
  exact List.getElem?_append_left (by simpa using hk)

theorem toBytes_size (b : GcBlock) {k : Nat} (hk : k < 8) : b.toBytes[16 + k]? = (leBytes 8 b.size)[k]? := by
  have hfront : (leBytes 8 b.value ++ leBytes 8 b.pointerCount).length = 16 := by simp
  have hsplit : b.toBytes = (leBytes 8 b.value ++ leBytes 8 b.pointerCount) ++
      (leBytes 8 b.size ++ (leBytes 8 b.pointers ++ leBytes 8 b.marked)) := by
    simp only [GcBlock.toBytes, List.append_assoc]
  rw [hsplit, List.getElem?_append_right (by omega), hfront, Nat.add_sub_cancel_left]
  exact List.getElem?_append_left (by simpa using hk)

theorem ofLeBytes_eight (v : BitVec 64) : ofLeBytes (leBytes 8 v) = v := by
  rw [ofLeBytes_leBytes (Nat.le_refl 8)]
  simp

/-- `*addr`, the first member of the descriptor. -/
theorem LiveBlock.loadValue (hb : LiveBlock h a b) (hm : MemoryApart h const) : h.loadWord const 8 a = .ok b.value := by
  have hload := loadWord_of h const a (l := leBytes 8 b.value) fun k hk => by
    rw [length_leBytes] at hk
    rw [hb.readByte hm (Nat.lt_of_lt_of_le hk (by decide)), toBytes_value b hk]
  rwa [length_leBytes, ofLeBytes_eight] at hload

/-- `addr->size`. -/
theorem LiveBlock.loadSize (hb : LiveBlock h a b) (hm : MemoryApart h const) :
    h.loadWord const 8 (a + 16) = .ok b.size := by
  have hload := loadWord_of h const (a + 16) (l := leBytes 8 b.size) fun k hk => by
    rw [length_leBytes] at hk
    have haddr : a + 16 + BitVec.ofNat 64 k = a + BitVec.ofNat 64 (16 + k) := by
      rw [BitVec.ofNat_add, ← BitVec.add_assoc]
      rfl
    rw [haddr, hb.readByte hm (show 16 + k < 40 by omega), toBytes_size b hk]
  rwa [length_leBytes, ofLeBytes_eight] at hload

/-! ## Stores -/

/-- The heap with the bytes `bs` written at offset `off` of the value at `value`. -/
def TgcHeap.writeValue (h : TgcHeap) (value : Addr) (off : Nat) (bs : List Byte) : TgcHeap :=
  { h with values := h.values.map fun r => if r.base = value then { r with bytes := overwrite r.bytes off bs } else r }

theorem set_findIdx_eq_map {rs : List Region} {value : Addr} {i : Nat} {r : Region} (f : Region → Region)
    (hrs : rs.Pairwise fun r s => r.base ≠ s.base) (hi : rs.findIdx? (·.base = value) = some i) (hr : rs[i]? = some r) :
    rs.set i (f r) = rs.map fun r => if r.base = value then f r else r := by
  induction rs generalizing i with
  | nil => cases hi
  | cons s rs ih =>
    obtain ⟨hs, hrs⟩ := List.pairwise_cons.1 hrs
    rw [List.findIdx?_cons] at hi
    by_cases hbase : s.base = value
    · -- no later region starts there
      rw [if_pos (by simpa using hbase)] at hi
      cases hi
      cases hr
      have hrest : rs.map (fun r => if r.base = value then f r else r) = rs := by
        refine (List.map_congr_left fun t ht => ?_).trans (List.map_id rs)
        exact if_neg fun h => hs t ht (hbase.trans h.symm)
      rw [List.map_cons, if_pos hbase, hrest]
      rfl
    · rw [if_neg (by simpa using hbase)] at hi
      obtain ⟨j, hj, rfl⟩ := Option.map_eq_some_iff.1 hi
      rw [List.map_cons, if_neg hbase, List.set_cons_succ, ih hrs hj hr]

/-- A store into a value succeeds exactly when it ends within the value, and writes these bytes. -/
theorem storeValue_eq (hm : MemoryApart h const) (hb : LiveBlock h a b) (off : Nat) (bs : List Byte) :
    h.storeValue b.value off bs =
      if off + bs.length ≤ b.size.toNat then .ok (h.writeValue b.value off bs) else .error .badAddress := by
  obtain ⟨r, hr, hbase, hlen⟩ := hb.value
  have hbases : h.values.Pairwise fun r s => r.base ≠ s.base := hm.values.imp fun h => h.1
  unfold TgcHeap.storeValue
  cases hi : h.values.findIdx? (·.base = b.value) with
  | none =>
    have := List.findIdx?_eq_none_iff.1 hi r hr
    simp [hbase] at this
  | some i =>
    obtain ⟨hlt, hfound, -⟩ := List.findIdx?_eq_some_iff_getElem.1 hi
    have hsame : h.values[i] = r :=
      hm.eq_of_base (List.getElem_mem hlt) hr ((show h.values[i].base = b.value by simpa using hfound).trans hbase.symm)
    have hget : h.values[i]? = some r := by rw [List.getElem?_eq_getElem hlt, hsame]
    dsimp only
    rw [hget]
    dsimp only
    rw [hlen]
    split
    · unfold TgcHeap.writeValue
      rw [set_findIdx_eq_map (fun r => { r with bytes := overwrite r.bytes off bs }) hbases hi hget]
    · rfl

/-- A byte of a written value. -/
theorem read_written {r : Region} {off : Nat} {bs : List Byte} (hfit : off + bs.length ≤ r.bytes.length) (x : Addr) :
    Region.read { r with bytes := overwrite r.bytes off bs } x =
      if off ≤ (x - r.base).toNat ∧ (x - r.base).toNat < off + bs.length then bs[(x - r.base).toNat - off]?
      else r.read x :=
  getElem?_overwrite hfit _

theorem read_written_none {r : Region} {off : Nat} {bs : List Byte} (hfit : off + bs.length ≤ r.bytes.length) (x : Addr) :
    Region.read { r with bytes := overwrite r.bytes off bs } x = none ↔ r.read x = none := by
  unfold Region.read
  rw [List.getElem?_eq_none_iff, List.getElem?_eq_none_iff, length_overwrite hfit]

/-- Of regions that lie apart only one has a byte at the address. -/
theorem findSome?_read {rs : List Region} {r : Region} {x : Addr} {c : Byte} (hrs : rs.Pairwise Region.Apart) (hr : r ∈ rs)
    (hread : r.read x = some c) : rs.findSome? (·.read x) = some c := by
  induction rs with
  | nil => cases hr
  | cons s rs ih =>
    obtain ⟨hs, hrs⟩ := List.pairwise_cons.1 hrs
    rw [List.findSome?_cons]
    rcases List.mem_cons.1 hr with rfl | hr
    · rw [hread]
    · have hnone : s.read x = none := (hs r hr).2 x |>.resolve_right (by rw [hread]; simp)
      rw [hnone]
      exact ih hrs hr

theorem findSome?_map_read {rs : List Region} {f : Region → Region} {x : Addr} (hf : ∀ r ∈ rs, (f r).read x = r.read x) :
    (rs.map f).findSome? (·.read x) = rs.findSome? (·.read x) := by
  induction rs with
  | nil => rfl
  | cons r rs ih =>
    rw [List.map_cons, List.findSome?_cons, List.findSome?_cons, hf r (List.mem_cons_self ..),
      ih fun s hs => hf s (List.mem_cons_of_mem _ hs)]

/-- What lies apart still does after a write within a value. -/
theorem MemoryApart.writeValue (hm : MemoryApart h const) {value : Addr} {off : Nat} {bs : List Byte}
    (hfit : ∀ r ∈ h.values, r.base = value → off + bs.length ≤ r.bytes.length) :
    MemoryApart (h.writeValue value off bs) const := by
  have hsame : ∀ r ∈ h.values, ∀ x,
      (if r.base = value then { r with bytes := overwrite r.bytes off bs } else r : Region).read x = none ↔
        r.read x = none := by
    intro r hr x
    split
    · exact read_written_none (hfit r hr ‹_›) x
    · exact Iff.rfl
  have hbase : ∀ r : Region, (if r.base = value then { r with bytes := overwrite r.bytes off bs } else r : Region).base =
      r.base := by
    intro r
    split <;> rfl
  constructor
  · show (h.values.map _).Pairwise _
    refine List.pairwise_map.2 (hm.values.imp_of_mem ?_)
    intro r s hr hs hrs
    refine ⟨by rw [hbase, hbase]; exact hrs.1, fun x => ?_⟩
    rw [hsame r hr x, hsame s hs x]
    exact hrs.2 x
  · intro r hr x
    obtain ⟨s, hs, rfl⟩ := List.mem_map.1 hr
    rw [hsame s hs x]
    exact hm.constant s hs x
  · intro r hr k hk
    rcases List.mem_cons.1 hr with rfl | hr
    · exact hm.descriptors r (List.mem_cons_self ..) k hk
    · obtain ⟨s, hs, rfl⟩ := List.mem_map.1 hr
      exact (hsame s hs _).2 (hm.descriptors s (List.mem_cons_of_mem _ hs) k hk)
  · exact hm.room

theorem LiveBlock.writeValue (hb : LiveBlock h a b) {value : Addr} {off : Nat} {bs : List Byte}
    (hfit : ∀ r ∈ h.values, r.base = value → off + bs.length ≤ r.bytes.length) :
    LiveBlock (h.writeValue value off bs) a b := by
  obtain ⟨r, hr, hbase, hlen⟩ := hb.value
  refine ⟨hb.descriptor, ⟨_, List.mem_map_of_mem hr, ?_⟩, hb.size⟩
  split
  · exact ⟨hbase, (length_overwrite (hfit r hr ‹_›)).trans hlen⟩
  · exact ⟨hbase, hlen⟩

/-- A write within the value of a live block ends within every region that starts there. -/
theorem LiveBlock.fits (hb : LiveBlock h a b) (hm : MemoryApart h const) {n : Nat} (hn : n ≤ b.size.toNat) :
    ∀ r ∈ h.values, r.base = b.value → n ≤ r.bytes.length := by
  intro s hs hsbase
  obtain ⟨r, hr, hbase, hlen⟩ := hb.value
  obtain rfl := hm.eq_of_base hs hr (hsbase.trans hbase.symm)
  omega

/-- The written bytes. -/
theorem readByte_written (hb : LiveBlock h a b) (hm : MemoryApart h const) {off k : Nat} {bs : List Byte}
    (hfit : off + bs.length ≤ b.size.toNat) (hk : k < bs.length) :
    (h.writeValue b.value off bs).readByte const (b.value + BitVec.ofNat 64 (off + k)) = bs[k]? := by
  obtain ⟨r, hr, hbase, hlen⟩ := hb.value
  have hsize := hb.size
  have hoff : (b.value + BitVec.ofNat 64 (off + k) - r.base).toNat = off + k := by
    rw [hbase, sub_add_cancel_left, BitVec.toNat_ofNat]
    exact Nat.mod_eq_of_lt (by omega)
  have hread : Region.read { r with bytes := overwrite r.bytes off bs } (b.value + BitVec.ofNat 64 (off + k)) =
      some bs[k] := by
    rw [read_written (by omega), hoff, if_pos (by omega), Nat.add_sub_cancel_left, List.getElem?_eq_getElem hk]
  have hmem : { r with bytes := overwrite r.bytes off bs } ∈ (h.writeValue b.value off bs).values :=
    List.mem_map.2 ⟨r, hr, if_pos hbase⟩
  have hfound := findSome?_read (hm.writeValue (hb.fits hm hfit)).values hmem hread
  unfold TgcHeap.readByte
  rw [hfound, List.getElem?_eq_getElem hk]
  rfl

/-- Every other byte is as it was. -/
theorem readByte_outside (hb : LiveBlock h a b) (hm : MemoryApart h const) {off : Nat} {bs : List Byte}
    (hfit : off + bs.length ≤ b.size.toNat) {x : Addr}
    (hx : ¬ (off ≤ (x - b.value).toNat ∧ (x - b.value).toNat < off + bs.length)) :
    (h.writeValue b.value off bs).readByte const x = h.readByte const x := by
  have hvalues : (h.writeValue b.value off bs).values.findSome? (·.read x) = h.values.findSome? (·.read x) := by
    refine findSome?_map_read fun r hr => ?_
    split
    · rename_i hbase
      rw [read_written (hb.fits hm hfit r hr hbase), hbase, if_neg hx]
    · rfl
  unfold TgcHeap.readByte
  rw [hvalues]
  rfl

end TileVm
