import ComputerSystems.NufsIsolation

/-!
# Calls that need more space than remains

`grow_inode` stores whatever `alloc_page` returns, -1 included, and the calls
above it neither test for it nor undo anything, so a call that needs more than
remains reports success or faults. Only `storage_write` can return a negative
value at all, when its size is one as an `int`, and then the image is untouched
exactly when the wrapped end of the range happens to be the present size and
the copy loop does not start.
-/

namespace ComputerSystems.NufsExhaustion

open StateProgram ByteMemory NufsImage NufsInode NufsPath NufsDirectory NufsStorage NufsCalls
  NufsOwnership NufsSound NufsIsolation

/-- The pages that a file of a given size occupies, its indirect page included. -/
def dataPages (size : ℤ) : ℕ :=
  let blocks := (size.toNat+4095)/4096
  if 2<blocks then blocks+1 else blocks

/-- The pages that remain do not suffice for a new size of an inode. -/
def PagesShort (memory : Bytes) (i : ℕ) (size : ℤ) : Prop :=
  freePages memory<dataPages size-dataPages (sizeAt memory i)

/-- The lookups of the call succeed and what it is to do needs more inodes or
pages than remain. -/
def NeedsMore (disk : Disk) : Call → Prop
  | .mknod path _ => ∃ d : ℕ, d<64 ∧ path.head?=some 47 ∧
      treeLookup (dirname path) disk=.ok (d : ℤ) disk ∧
      (∃ found≤0, directoryLookup (nodeOffset d) (basename path) disk=.ok found disk) ∧
      (freeInodes disk.bytes=0 ∨ PagesShort disk.bytes d (sizeAt disk.bytes d+64))
  | .link source dest => ∃ s d f : ℕ, s<64 ∧ d<64 ∧
      treeLookup (dirname source) disk=.ok (s : ℤ) disk ∧
      directoryLookup (nodeOffset s) (basename source) disk=.ok (f : ℤ) disk ∧
      treeLookup (dirname dest) disk=.ok (d : ℤ) disk ∧
      (∃ found<0, directoryLookup (nodeOffset d) (basename dest) disk=.ok found disk) ∧
      PagesShort disk.bytes d (sizeAt disk.bytes d+64)
  | .rename path dest => ∃ s d f : ℕ, s<64 ∧ d<64 ∧
      treeLookup (dirname path) disk=.ok (s : ℤ) disk ∧
      directoryLookup (nodeOffset s) (basename path) disk=.ok (f : ℤ) disk ∧
      treeLookup (dirname dest) disk=.ok (d : ℤ) disk ∧
      PagesShort disk.bytes d (sizeAt disk.bytes d+64)
  | .write path _ size offset => ∃ i : ℕ, i<64 ∧ treeLookup path disk=.ok (i : ℤ) disk ∧
      PagesShort disk.bytes i (offset.toInt+size.toNat)
  | .truncate path size => ∃ i : ℕ, i<64 ∧ treeLookup path disk=.ok (i : ℤ) disk ∧
      PagesShort disk.bytes i size.toInt
  | .unlink _ => False

/-- The call returns a negative value and leaves the image as it was. -/
def Refused (disk : Disk) (call : Call) : Prop :=
  ∃ result next, exec call disk=.ok result next ∧ result<0 ∧ next.bytes=disk.bytes

/-- The write whose arithmetic wraps to nothing: the size is negative as an
`int`, the end of the range is the present size as an `int`, and as a `size_t`
it is not past the offset. -/
def WrapsToNothing (disk : Disk) : Call → Prop
  | .write path _ size offset => wrap32 size.toNat<0 ∧
      (offset.toInt+size.toNat)%18446744073709551616≤offset.toInt%18446744073709551616 ∧
      ∀ i : ℕ, treeLookup path disk=.ok (i : ℤ) disk →
        sizeAt disk.bytes i=wrap32 (offset.toInt+size.toNat)
  | _ => False

/-- A copy loop that returns from a position that is not negative has an end
that is itself as an `int`, or starts past it. -/
theorem writeLoop_end {node : ℤ} {buf : ℕ → UInt8} {total : ℤ} (left : ℕ) :
    ∀ {curr : ℤ} {skipped : ℕ} {disk next : Disk}, 0≤curr → curr<9223372036854775808 →
    writeLoop node buf total left curr skipped disk=.ok () next →
      total≤curr ∨ total≤wrap32 total := by
  induction left with
  | zero =>
    intro curr skipped disk next _ _ h
    cases h
  | succ left ih =>
    intro curr skipped disk next hl hr h
    unfold writeLoop at h
    by_cases hc : curr%18446744073709551616<total
    · rw [if_pos hc] at h
      obtain ⟨_,mid,hfill,hrest⟩ := bind_eq_ok.mp h
      unfold fillPiece at hfill
      by_cases hlt : pieceEnd curr total<curr
      · rw [if_pos hlt] at hfill
        cases hfill
      · have hrange := wrap32_range total
        have hle : pieceEnd curr total≤wrap32 total := min_le_right _ _
        rcases ih (by omega) (by omega) hrest with hx|hx
        · exact .inr (by omega)
        · exact .inr hx
    · rw [if_neg hc] at h
      exact .inl (by omega)

/-- A copy loop that does not start. -/
theorem writeLoop_skip {node : ℤ} {buf : ℕ → UInt8} {total curr : ℤ} (disk : Disk)
    (h : total≤curr%18446744073709551616) :
    writeLoop node buf total loopRounds curr 0 disk=.ok () disk := by
  have hrounds : loopRounds=2097151+1 := rfl
  rw [hrounds,writeLoop,if_neg (by omega)]
  rfl

/-- A returned resize has stored the new size. -/
theorem size_of_resize {i : ℕ} (hi : i<64) {old size : ℤ} {disk next : Disk}
    (hr : -2147483648 ≤ size ∧ size<2147483648) (hs : sizeAt disk.bytes i=old)
    (h : resizeForWrite (nodeOffset i) old size disk=.ok () next) :
    sizeAt next.bytes i=size ∧ (old=size → next=disk) := by
  have hlast : ∀ {mid : Disk} {value : ℤ},
      (writeInt (nodeOffset i+12) size >>= fun _ => readInt (nodeOffset i+12)) mid=.ok value next →
      sizeAt next.bytes i=size := by
    intro mid value hm
    rw [bind_of_ok (writeSize_ok hi size mid)] at hm
    obtain ⟨_,_,_,hn⟩ := readInt_returned hm
    rw [hn,sizeAt,intAt_putInt,wrap32_of_range hr.1 hr.2]
  unfold resizeForWrite at h
  by_cases hgrow : old < size
  · rw [if_pos hgrow] at h
    obtain ⟨value,mid,hg,hp⟩ := bind_eq_ok.mp h
    obtain ⟨_,rfl⟩ := pure_eq_ok.mp hp
    obtain ⟨_,d1,_,hg⟩ := bind_eq_ok.mp hg
    obtain ⟨_,d2,_,hg⟩ := bind_eq_ok.mp hg
    exact ⟨hlast hg,fun he => by omega⟩
  · rw [if_neg hgrow] at h
    by_cases hshrink : size<old
    · rw [if_pos hshrink] at h
      obtain ⟨value,mid,hg,hp⟩ := bind_eq_ok.mp h
      obtain ⟨_,rfl⟩ := pure_eq_ok.mp hp
      obtain ⟨_,d1,_,hg⟩ := bind_eq_ok.mp hg
      obtain ⟨_,d2,_,hg⟩ := bind_eq_ok.mp hg
      obtain ⟨_,d3,_,hg⟩ := bind_eq_ok.mp hg
      exact ⟨hlast hg,fun he => by omega⟩
    · rw [if_neg hshrink] at h
      obtain ⟨_,rfl⟩ := pure_eq_ok.mp h
      exact ⟨by omega,fun _ => rfl⟩

/-- A write that needs more pages than remain is refused exactly when its
arithmetic wraps to nothing. -/
theorem write_refused_iff {path : List UInt8} {buf : ℕ → UInt8} {size : UInt64} {offset : Int64}
    {disk : Disk} (hn : NeedsMore disk (.write path buf size offset)) :
    Refused disk (.write path buf size offset) ↔
      WrapsToNothing disk (.write path buf size offset) := by
  obtain ⟨i,hi,hlookup,hshort⟩ := hn
  have hsize := size.toNat_lt
  have hlow := offset.le_toInt
  have hhigh := offset.toInt_lt
  have hpos : 0<offset.toInt+size.toNat := by
    by_contra hc
    have hz : dataPages (offset.toInt+size.toNat)=0 := by
      unfold dataPages
      rw [show (offset.toInt+(size.toNat : ℤ)).toNat=0 by omega]
      decide
    unfold PagesShort at hshort
    omega
  have hcall : exec (.write path buf size offset) disk=_ :=
    storageWrite_eq hi hlookup buf size offset
  constructor
  · rintro ⟨result,next,hr,hneg,hbytes⟩
    obtain ⟨_,mid,hresize,hrest⟩ := bind_eq_ok.mp (hcall.symm.trans hr)
    obtain ⟨_,last,hloop,hresult⟩ := bind_eq_ok.mp hrest
    obtain ⟨hres,hlast⟩ := pure_eq_ok.mp hresult
    have hskip : (offset.toInt+size.toNat)%18446744073709551616≤
        offset.toInt%18446744073709551616 := by
      by_contra hc
      have hend : (offset.toInt+size.toNat)%18446744073709551616≤offset.toInt ∨
          (offset.toInt+size.toNat)%18446744073709551616≤
            wrap32 ((offset.toInt+size.toNat)%18446744073709551616) :=
        writeLoop_end _ (by omega) (by omega) hloop
      have hrange := wrap32_range ((offset.toInt+size.toNat)%18446744073709551616)
      rw [hres,wrap32_of_range (by omega) (by omega)] at hneg
      omega
    rw [writeLoop_skip mid hskip] at hloop
    obtain ⟨_,hmid⟩ := EStateM.Result.ok.inj hloop
    have hstored := (size_of_resize hi (wrap32_range _) rfl hresize).1
    rw [hmid,←hlast,hbytes] at hstored
    refine ⟨by rw [←hres]; exact hneg,hskip,fun l hl => ?_⟩
    rw [hlookup] at hl
    have he : i=l := Int.ofNat_inj.mp (EStateM.Result.ok.inj hl).1
    rw [←he]
    exact hstored
  · rintro ⟨hneg,hskip,hsame⟩
    have hresize : resizeForWrite (nodeOffset i) (sizeAt disk.bytes i)
        (wrap32 (offset.toInt+size.toNat)) disk=.ok () disk := by
      unfold resizeForWrite
      rw [hsame i hlookup,if_neg (lt_irrefl _),if_neg (lt_irrefl _)]
      rfl
    refine ⟨wrap32 size.toNat,disk,?_,hneg,rfl⟩
    rw [hcall,bind_of_ok hresize,bind_of_ok (writeLoop_skip disk hskip)]
    rfl

/-- Only a write can be refused by a call that needs more than remains: the
others return 0 or do not return. -/
theorem refused_iff {disk : Disk} {call : Call} (hn : NeedsMore disk call) :
    Refused disk call ↔ WrapsToNothing disk call := by
  cases call with
  | write path buf size offset => exact write_refused_iff hn
  | mknod path mode =>
    obtain ⟨d,hd,hp,hl,⟨found,hle,hf⟩,_⟩ := hn
    refine ⟨?_,fun hw => hw.elim⟩
    rintro ⟨result,next,hr,hneg,_⟩
    have hcall : exec (.mknod path mode) disk=_ := storageMknod_eq hp hd hl hf mode
    rw [if_neg (by omega)] at hcall
    rw [hcall] at hr
    rcases createNode_eq (nodeOffset d) (basename path) mode disk with ⟨i,_,_,_,he⟩|⟨_,he⟩
    · rw [he] at hr
      have hz := directoryPut_zero hr
      omega
    · rw [he] at hr
      cases hr
  | link source dest =>
    obtain ⟨s,d,f,hs,hd,hl,hf,hl',⟨found,hlt,hf'⟩,_⟩ := hn
    refine ⟨?_,fun hw => hw.elim⟩
    rintro ⟨result,next,hr,hneg,_⟩
    have hcall : exec (.link source dest) disk=_ := storageLink_eq hs hd hl hf hl' hf'
    rw [if_pos hlt] at hcall
    rw [hcall] at hr
    obtain ⟨_,d1,_,hr⟩ := bind_eq_ok.mp hr
    obtain ⟨rv,d2,hput,hr⟩ := bind_eq_ok.mp hr
    obtain ⟨_,d3,_,hr⟩ := bind_eq_ok.mp hr
    obtain ⟨_,d4,_,hr⟩ := bind_eq_ok.mp hr
    have hz := directoryPut_zero hput
    have hrv := (pure_eq_ok.mp hr).1
    omega
  | rename path dest =>
    obtain ⟨s,d,f,hs,hd,hl,hf,hl',_⟩ := hn
    refine ⟨?_,fun hw => hw.elim⟩
    rintro ⟨result,next,hr,hneg,_⟩
    have hcall : exec (.rename path dest) disk=_ := storageRename_eq hs hl hf hl'
    rw [hcall] at hr
    obtain ⟨_,d1,_,hr⟩ := bind_eq_ok.mp hr
    obtain ⟨rv,d2,hput,hr⟩ := bind_eq_ok.mp hr
    obtain ⟨_,d3,_,hr⟩ := bind_eq_ok.mp hr
    obtain ⟨_,d4,_,hr⟩ := bind_eq_ok.mp hr
    have hz := directoryPut_zero hput
    have hrv := (pure_eq_ok.mp hr).1
    omega
  | truncate path size =>
    obtain ⟨i,hi,hl,_⟩ := hn
    refine ⟨?_,fun hw => hw.elim⟩
    rintro ⟨result,next,hr,hneg,_⟩
    have hcall : exec (.truncate path size) disk=_ := storageTruncate_eq hi hl size
    rw [hcall] at hr
    by_cases hgrow : sizeAt disk.bytes i < size.toInt
    · rw [if_pos hgrow] at hr
      obtain ⟨_,d1,_,hr⟩ := bind_eq_ok.mp hr
      obtain ⟨_,d2,_,hr⟩ := bind_eq_ok.mp hr
      have hz := (pure_eq_ok.mp hr).1
      omega
    · rw [if_neg hgrow] at hr
      by_cases hshrink : size.toInt < sizeAt disk.bytes i
      · rw [if_pos hshrink] at hr
        obtain ⟨_,d1,_,hr⟩ := bind_eq_ok.mp hr
        have hz := (pure_eq_ok.mp hr).1
        omega
      · rw [if_neg hshrink] at hr
        have hz := (pure_eq_ok.mp hr).1
        omega
  | unlink path => exact hn.elim

/-- A clean call, or one that is refused for want of space. -/
def Orderly (disk : Disk) (call : Call) : Prop :=
  Clean disk call ∨ (NeedsMore disk call ∧ WrapsToNothing disk call)

/-- Every state of an orderly run is sound. -/
theorem sound_of_orderly {disk : Disk} (h : Reachable Orderly disk) : Sound disk.bytes := by
  induction h with
  | refl => exact sound_fresh
  | tail _ hstep ih =>
    obtain ⟨call,result,hc,hr,hd⟩ := hstep
    rcases hc with hc|⟨hn,hw⟩
    · exact sound_step ih hc hr hd
    · obtain ⟨result',next',hr',_,hbytes⟩ := (refused_iff hn).mpr hw
      rw [hr] at hr'
      rw [(EStateM.Result.ok.inj hr').2,hbytes]
      exact ih

/-- A call that needs more than remains is refused, with the image intact,
exactly when it is a write whose arithmetic wraps to nothing; and along
orderly runs without refused allocation every used page number is in 2..255
and every size is not negative. -/
theorem exhaustion_refused_iff (disk : Disk) (call : Call) :
    (NeedsMore disk call → (Refused disk call ↔ WrapsToNothing disk call)) ∧
    (Reachable Orderly disk → ∀ i, Live disk.bytes i → 0 ≤ sizeAt disk.bytes i ∧
      ∀ slot : Slot, slot.Used (blocksAt disk.bytes i) →
        2 ≤ slot.page disk.bytes i ∧ slot.page disk.bytes i<256) := by
  refine ⟨fun hn => refused_iff hn,fun h i hi => ?_⟩
  have hs := sound_of_orderly h
  exact ⟨hs.size i hi,fun slot hu => hs.owned.range i hi slot hu⟩

/-- Writing one byte at offset 2^32. -/
def farWrite : Call := .write (render [nameA]) (fun _ => 0) 1 4294967296

/-- The image with the empty file `/a`. -/
def withA : Disk := execAll [createA] fresh

/-- The write at offset 2^32 needs more pages than remain. -/
theorem needsMore_farWrite : NeedsMore withA farWrite := by
  have hpass : passes (treeLookup (render [nameA])) withA
      (fun value _ => decide (value=1))=true := by decide +kernel
  refine ⟨1,by decide,(treeLookup_readOnly _).returns hpass,?_⟩
  unfold PagesShort
  decide +kernel

/-- The write at offset 2^32 is not refused. -/
theorem farWrite_not_refused : NeedsMore withA farWrite ∧ ¬Refused withA farWrite := by
  refine ⟨needsMore_farWrite,fun hr => ?_⟩
  have hw := ((exhaustion_refused_iff withA farWrite).1 needsMore_farWrite).mp hr
  exact absurd hw.1 (by decide +kernel)

/-- Needing more than remains is not an error: on a reachable image the write
at offset 2^32 does not return at all. -/
theorem farWrite_faults :
    ¬∀ (disk : Disk) (call : Call), Reachable (fun _ _ => True) disk → NeedsMore disk call →
      Refused disk call := by
  intro h
  obtain ⟨result,next,hr,_,_⟩ := h withA farWrite
    (reachable_of_calls .refl (by decide +kernel)) needsMore_farWrite
  have hnone : passes (exec farWrite) withA (fun _ _ => true)=false := by decide +kernel
  rw [passes,hr] at hnone
  cases hnone

end ComputerSystems.NufsExhaustion
