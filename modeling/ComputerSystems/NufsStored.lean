import ComputerSystems.NufsAccounting

/-!
# What a write and a truncation store

`storage_write` stores the buffer, and looks at no more of it, as long as the
range begins at a page boundary or ends in its first page; for every other range
the buffer pointer runs ahead of the file. `storage_truncate` to a larger size
appends zeros, whatever the pages held before.
-/

namespace ComputerSystems.NufsStored

open StateProgram ByteMemory NufsImage NufsInode NufsPath NufsDirectory NufsStorage NufsCalls
  NufsOwnership NufsResize NufsFrame NufsContent NufsSound NufsIsolation NufsExhaustion NufsWrite
  NufsRead NufsAccounting

/-! ## Writing -/

/-- The write returns its size, the file holds the buffer from the offset on,
and buffers that agree on that many bytes have the same outcome. -/
def StoresBuffer (disk : Disk) (i : ℕ) (path : List UInt8) (size : UInt64) (offset : Int64) :
    Prop :=
  ∀ buf, ∃ next, storageWrite path buf size offset disk=.ok (size.toNat : ℤ) next ∧
    (∀ k<size.toNat, fileByte next.bytes i (offset.toInt.toNat+k)=buf k) ∧
    ∀ buf', (∀ k<size.toNat, buf' k=buf k) →
      storageWrite path buf' size offset disk=.ok (size.toNat : ℤ) next

/-- Fewer slots with the same pages stay placed. -/
theorem Placed.mono {memory next : Bytes} {i n m : ℕ} (h : Placed memory i n) (hm : m≤n)
    (hk : ∀ slot : Slot, slot.Used m → slot.page next i=slot.page memory i) : Placed next i m where
  index := h.index
  range := by
    intro slot hu
    rw [hk slot hu]
    exact h.range slot (hu.mono hm)
  once := by
    intro slot other hu ho he
    rw [hk slot hu,hk other ho] at he
    exact h.once slot other (hu.mono hm) (ho.mono hm) he

/-- The resizing step of a write, when pages suffice and a shrink stays inside
the image. -/
theorem resizeForWrite_placed {disk : Disk} {i old total : ℕ}
    (h : Owned disk.bytes (Live disk.bytes) (blocksAt disk.bytes)) (hi : Live disk.bytes i)
    (hs : sizeAt disk.bytes i=old) (hfree : ¬PagesShort disk.bytes i total)
    (hcut : total<old → Shrinkable disk.bytes i (blocksAt disk.bytes i) ((total+4095)/4096)) :
    ∃ mid, resizeForWrite (nodeOffset i) old total disk=.ok () mid ∧
      Placed mid.bytes i ((total+4095)/4096) := by
  obtain ⟨hsmall,hpages⟩ := granted_of_pages h hi hs hfree
  by_cases hle : old≤total
  · obtain ⟨mid,hok,howned,_⟩ := resizeForWrite_granted h hi hs hle hsmall hpages
    have hplaced := howned.placed hi
    rw [Function.update_self] at hplaced
    exact ⟨mid,hok,hplaced⟩
  · have hb := blocksAt_of_size hs
    have hblocks := h.blocks_le hi
    have hshrink := hcut (by omega)
    have hmn : (total+4095)/4096≤blocksAt disk.bytes i := by omega
    have hok := shrinkInode_ok total hi.1 disk hs (by omega) (by omega) (by rw [←hb]; exact hshrink)
    rw [←hb] at hok
    have hresize : resizeForWrite (nodeOffset i) old total disk=.ok () {disk with
        bytes := shrunk disk.bytes i (blocksAt disk.bytes i) ((total+4095)/4096) total} := by
      unfold resizeForWrite
      rw [if_neg (by omega),if_pos (by omega),bind_of_ok hok]
      rfl
    exact ⟨_,hresize,Placed.mono (h.placed hi) hmn (fun slot hu =>
      (kept_shrunk h hshrink hi total hi).slots slot (hu.mono hmn))⟩

section Known

variable {disk : Disk} {i : ℕ} {path : List UInt8} {size : UInt64} {offset : Int64}

/-- The outcomes of a write, whatever the buffer: after a resize that does not
depend on it, every position of the range holds the buffer byte at its index,
and the other bytes of the buffer play no part. -/
theorem storageWrite_written (h : Owned disk.bytes (Live disk.bytes) (blocksAt disk.bytes))
    (hl : treeLookup path disk=.ok (i : ℤ) disk) (hi : Live disk.bytes i) {old start : ℕ}
    (hs : sizeAt disk.bytes i=old) (ho : offset.toInt=start)
    (hfree : ¬PagesShort disk.bytes i (offset.toInt+size.toNat))
    (hcut : offset.toInt+size.toNat < sizeAt disk.bytes i →
      Shrinkable disk.bytes i (blocksAt disk.bytes i) ((start+size.toNat+4095)/4096))
    (buf : ℕ → UInt8) :
    ∃ next, storageWrite path buf size offset disk=.ok (size.toNat : ℤ) next ∧
      (∀ k, start≤k → k < start+size.toNat →
        fileByte next.bytes i k=buf (bufferIndex start k)) ∧
      ∀ buf', (∀ k, start≤k → k < start+size.toNat →
          buf' (bufferIndex start k)=buf (bufferIndex start k)) →
        storageWrite path buf' size offset disk=.ok (size.toNat : ℤ) next := by
  have hsum : offset.toInt+size.toNat=((start+size.toNat : ℕ) : ℤ) := by
    rw [ho]
    push_cast
    rfl
  rw [hsum] at hfree hcut
  rw [hs] at hcut
  obtain ⟨hsmall,_⟩ := granted_of_pages h hi hs hfree
  obtain ⟨mid,hresize,hplaced⟩ := resizeForWrite_placed h hi hs hfree (fun hlt => hcut (by omega))
  have hb := hplaced.blocks_le
  have hend : start+size.toNat≤4096*((start+size.toNat+4095)/4096) := by omega
  have hwrite : ∀ buf, storageWrite path buf size offset disk=
      (writeLoop (nodeOffset i) buf ((start+size.toNat : ℕ) : ℤ) loopRounds start 0 >>=
        fun _ => pure (size.toNat : ℤ)) mid := by
    intro buf
    rw [storageWrite_eq hi.1 hl,hsum,hs,ho,wrap32_of_range (by omega) (by omega),
      bind_of_ok hresize,Int.emod_eq_of_lt (by omega) (by omega),
      wrap32_of_range (by omega) (by omega)]
  obtain ⟨next,hok,hwritten⟩ := writeLoop_written buf hend loopRounds start 0 hplaced (by omega)
    (by decide) (fun _ => by simp only [loopRounds]; omega)
  refine ⟨next,?_,?_,?_⟩
  · rw [hwrite buf,bind_of_ok hok]
    rfl
  · intro k hlk hrk
    rw [hwritten.inside k hlk hrk,Nat.zero_add]
  · intro buf' hsame
    have hok' : writeLoop (nodeOffset i) buf' ((start+size.toNat : ℕ) : ℤ) loopRounds start 0 mid=
        .ok () next := by
      rw [←hok]
      refine writeLoop_congr buf' buf hend loopRounds start 0 hplaced (by omega)
        (fun k hlk hrk => ?_)
      rw [Nat.zero_add]
      exact hsame k hlk hrk
    rw [hwrite buf',bind_of_ok hok']
    rfl

/-- Under the ownership invariant and with enough free pages, a write stores the
buffer, and uses no more of it, when its range begins at a page boundary or
ends in its first page and a cut it makes stays inside the image; where a cut
stays inside the image, only such ranges are stored. -/
theorem stores_straight_buffer (h : Owned disk.bytes (Live disk.bytes) (blocksAt disk.bytes))
    (hl : treeLookup path disk=.ok (i : ℤ) disk) (hi : Live disk.bytes i)
    (hs : 0 ≤ sizeAt disk.bytes i) (h0 : 0≤offset.toInt)
    (hfree : ¬PagesShort disk.bytes i (offset.toInt+size.toNat)) :
    (Straight offset.toInt.toNat size.toNat ∧ (offset.toInt+size.toNat < sizeAt disk.bytes i →
        Shrinkable disk.bytes i (blocksAt disk.bytes i)
          ((offset.toInt.toNat+size.toNat+4095)/4096)) →
      StoresBuffer disk i path size offset) ∧
    ((offset.toInt+size.toNat < sizeAt disk.bytes i →
        Shrinkable disk.bytes i (blocksAt disk.bytes i)
          ((offset.toInt.toNat+size.toNat+4095)/4096)) →
      StoresBuffer disk i path size offset → Straight offset.toInt.toNat size.toNat) := by
  obtain ⟨start,hstart⟩ := Int.eq_ofNat_of_zero_le h0
  obtain ⟨old,hold⟩ := Int.eq_ofNat_of_zero_le hs
  have hnat : offset.toInt.toNat=start := by omega
  rw [hnat]
  constructor
  · rintro ⟨hstraight,hcut⟩ buf
    obtain ⟨next,hok,hbytes,hcongr⟩ :=
      storageWrite_written h hl hi hold hstart hfree hcut buf
    refine ⟨next,hok,?_,?_⟩
    · intro k hk
      rw [hnat,hbytes (start+k) (by omega) (by omega),
        bufferIndex_straight hstraight (by omega) (by omega),Nat.add_sub_cancel_left]
    · intro buf' hsame
      refine hcongr buf' (fun k hlk hrk => ?_)
      rw [bufferIndex_straight hstraight hlk hrk]
      exact hsame _ (by omega)
  · intro hcut hstores
    by_contra hdrift
    have hpos : 0 < size.toNat := by
      unfold Straight at hdrift
      omega
    obtain ⟨next,hok,hbytes,_⟩ := hstores (fun k => if k < size.toNat then 0 else 1)
    obtain ⟨next',hok',hwritten,_⟩ := storageWrite_written h hl hi hold hstart hfree hcut
      (fun k => if k < size.toNat then 0 else 1)
    obtain ⟨_,rfl⟩ := EStateM.Result.ok.inj (hok.symm.trans hok')
    have hzero := hbytes (size.toNat-1) (by omega)
    have hlast := hwritten (start+size.toNat-1) (by omega) (by omega)
    rw [hnat,show start+(size.toNat-1)=start+size.toNat-1 by omega,hlast] at hzero
    have hindex := bufferIndex_drifts hdrift
    rw [if_neg (by omega),if_pos (by omega)] at hzero
    cases hzero

end Known

/-- From the start of the empty file 4098 bytes are stored, over two blocks. -/
theorem stores_two_blocks : sizeAt withA.bytes 1=0 ∧
    StoresBuffer withA 1 (render [nameA]) 4098 0 := by
  have hsize : sizeAt withA.bytes 1=0 := by decide +kernel
  refine ⟨hsize,(stores_straight_buffer owned_withA lookup_a.1 ⟨by decide,by decide +kernel⟩
    (by rw [hsize]) (by decide +kernel) ?_).1 ⟨.inl (by decide +kernel),fun hlt => ?_⟩⟩
  · unfold PagesShort
    decide +kernel
  · rw [hsize] at hlt
    exact absurd hlt (by decide +kernel)

/-- Three bytes at offset 4095 are not stored: the second one comes from index
4096 of the buffer. -/
theorem write_across_blocks_drifts : Owned withA.bytes (Live withA.bytes) (blocksAt withA.bytes) ∧
    Live withA.bytes 1 ∧ treeLookup (render [nameA]) withA=.ok (1 : ℤ) withA ∧
    ¬PagesShort withA.bytes 1 4098 ∧ ¬StoresBuffer withA 1 (render [nameA]) 3 4095 := by
  refine ⟨owned_withA,⟨by decide,by decide +kernel⟩,lookup_a.1,?_,?_⟩
  · unfold PagesShort
    decide +kernel
  · intro hstores
    obtain ⟨next,hok,hbytes,_⟩ := hstores (fun k => if k<3 then 0 else 1)
    have hpass : passes (storageWrite (render [nameA]) (fun k => if k<3 then 0 else 1) 3 4095) withA
        (fun _ last => decide (fileByte last.bytes 1 4096=1))=true := by decide +kernel
    have hone := test_of_passes hpass hok
    have hzero := hbytes 1 (by decide +kernel)
    rw [show (4095 : Int64).toInt.toNat+1=4096 by decide +kernel,of_decide_eq_true hone] at hzero
    exact absurd hzero (by decide)

/-! ## Truncating to a larger size -/

/-- The bytes of a file. -/
def content (memory : Bytes) (i : ℕ) : List UInt8 :=
  (List.range (sizeAt memory i).toNat).map (fileByte memory i)

/-- The content depends on the size and on the bytes below it. -/
theorem content_congr {memory next : Bytes} {i : ℕ} (hs : sizeAt next i=sizeAt memory i)
    (hb : ∀ k : ℕ, (k : ℤ) < sizeAt memory i → fileByte next i k=fileByte memory i k) :
    content next i=content memory i := by
  rw [content,content,hs]
  refine List.map_congr_left (fun k hk => hb k ?_)
  have hlt := List.mem_range.mp hk
  omega

/-- A larger size with the old bytes below the old size and zeros after it. -/
theorem content_extend {memory next : Bytes} {i old size : ℕ} (ho : sizeAt memory i=old)
    (hs : sizeAt next i=size) (hle : old ≤ size)
    (hkept : ∀ k<old, fileByte next i k=fileByte memory i k)
    (hzero : ∀ k, old≤k → k < size → fileByte next i k=0) :
    content next i=content memory i++List.replicate (size-old) 0 := by
  have hsplit : List.range size=List.range old++(List.range (size-old)).map (old+·) := by
    rw [←List.range_add,Nat.add_sub_cancel' hle]
  rw [content,content,ho,hs,Int.toNat_natCast,Int.toNat_natCast,hsplit,List.map_append,List.map_map]
  congr 1
  · exact List.map_congr_left (fun k hk => hkept k (List.mem_range.mp hk))
  · rw [List.eq_replicate_iff]
    refine ⟨by rw [List.length_map,List.length_range],fun byte hbyte => ?_⟩
    obtain ⟨k,hk,rfl⟩ := List.mem_map.mp hbyte
    have hlt := List.mem_range.mp hk
    exact hzero (old+k) (by omega) (by omega)

/-- Kept contents are the same bytes. -/
theorem content_kept {memory next : Bytes} {j : ℕ}
    (h : Owned memory (Live memory) (blocksAt memory)) (hj : Live memory j)
    (hs : sizeAt next j=sizeAt memory j) (hk : Kept memory next j (blocksAt memory j)) :
    content next j=content memory j := by
  refine content_congr hs (fun k hlt => ?_)
  obtain ⟨size,hsize⟩ := Int.eq_ofNat_of_zero_le (show 0 ≤ sizeAt memory j by omega)
  have hb := blocksAt_of_size hsize
  have hblock : k/4096<blocksAt memory j := by omega
  have hr := h.range j hj (.block (k/4096)) hblock
  simp only [Slot.page] at hr
  exact hk.fileByte hblock (by omega)

/-- With enough free pages `storage_truncate` to a size that is not smaller
appends zeros to the file and keeps every other file. -/
theorem truncate_zero_extends {disk : Disk} {i : ℕ} {path : List UInt8} {size : Int64}
    (h : Owned disk.bytes (Live disk.bytes) (blocksAt disk.bytes))
    (hl : treeLookup path disk=.ok (i : ℤ) disk) (hi : Live disk.bytes i)
    (h0 : 0 ≤ sizeAt disk.bytes i) (hle : sizeAt disk.bytes i ≤ size.toInt)
    (hfree : ¬PagesShort disk.bytes i size.toInt) :
    ∃ next, storageTruncate path size disk=.ok 0 next ∧
      content next.bytes i=content disk.bytes i++
        List.replicate (size.toInt-sizeAt disk.bytes i).toNat 0 ∧
      ∀ j, Live disk.bytes j → j≠i → content next.bytes j=content disk.bytes j := by
  obtain ⟨old,hold⟩ := Int.eq_ofNat_of_zero_le h0
  obtain ⟨total,htotal⟩ := Int.eq_ofNat_of_zero_le (h0.trans hle)
  rw [htotal] at hfree
  rw [hold,htotal] at hle
  obtain ⟨hsmall,hpages⟩ := granted_of_pages h hi hold hfree
  have hcount : ((total : ℤ)-(old : ℤ)).toNat=total-old := by omega
  rw [storageTruncate_eq hi.1 hl,hold,htotal,hcount]
  by_cases hlt : old<total
  · have hb := blocksAt_of_size hold
    obtain ⟨mid,grown,hgrow,hg,hbytes⟩ :=
      growInode_granted h hi hold hb (by omega) hsmall hpages
    have hext := extended_of_grown h hi hold hsmall hg (by omega) hbytes
    obtain ⟨htable,hkept⟩ := kept_grow h hi hb (by omega) hg total
    rw [←hbytes] at htable hkept
    have hplaced : Placed mid.bytes i ((total+4095)/4096) := by
      rw [←blocksAt_of_size hext.size]
      exact hext.owned.placed (htable.live.mpr hi)
    have hblocks := hplaced.blocks_le
    obtain ⟨next,hloop,hwritten⟩ := truncateLoop_written
      (show total≤4096*((total+4095)/4096) by omega) loopRounds old hplaced hlt.le (by decide)
      (fun _ => by simp only [loopRounds]; omega)
    have hfilled := hwritten.filled
    rw [←blocksAt_of_size hext.size] at hfilled
    have hlive : ∀ {j}, Live disk.bytes j → Live mid.bytes j := fun hj => htable.live.mpr hj
    refine ⟨next,?_,?_,?_⟩
    · rw [if_pos (by omega),extendInode,wrap32_of_range (by omega) (by omega),bind_of_ok hgrow,
        bind_of_ok hloop]
      rfl
    · refine content_extend hold ((size_filled hwritten.filled hplaced).trans hext.size) hlt.le
        (fun k hk => ?_) (fun k hlk hrk => hwritten.inside k hlk hrk)
      have hblock : k/4096<blocksAt disk.bytes i := by omega
      have hr := h.range i hi (.block (k/4096)) hblock
      simp only [Slot.page] at hr
      rw [hwritten.outside k (by omega) (.inl hk),(hkept i hi).fileByte hblock (by omega)]
    · intro j hj hne
      have hmid := content_kept h hj (htable.size hj.1 hne) (hkept j hj)
      rw [←hmid]
      exact content_kept hext.owned (hlive hj)
        ((hfilled.table hext.owned (hlive hi)).size hj.1 hne)
        (hfilled.kept hext.owned (hlive hi) (hlive hj) hne)
  · obtain rfl : old=total := by omega
    refine ⟨disk,?_,?_,fun _ _ _ => rfl⟩
    · rw [if_neg (by omega),if_neg (by omega)]
      rfl
    · rw [Nat.sub_self,List.replicate_zero,List.append_nil]

/-- Truncating the file of two bytes to three blocks appends zeros. -/
theorem two_bytes_extended : sizeAt withTwoBytes.bytes 1=2 ∧
    ∃ next, storageTruncate (render [nameA]) 12288 withTwoBytes=.ok 0 next ∧
      content next.bytes 1=content withTwoBytes.bytes 1++
        List.replicate ((12288 : Int64).toInt-sizeAt withTwoBytes.bytes 1).toNat 0 ∧
      ∀ j, Live withTwoBytes.bytes j → j≠1 →
        content next.bytes j=content withTwoBytes.bytes j := by
  have hsize : sizeAt withTwoBytes.bytes 1=2 := by decide +kernel
  refine ⟨hsize,truncate_zero_extends owned_withTwoBytes lookup_a.2 ⟨by decide,by decide +kernel⟩
    (by rw [hsize]; decide) (by rw [hsize]; decide +kernel) ?_⟩
  unfold PagesShort
  decide +kernel

end ComputerSystems.NufsStored
