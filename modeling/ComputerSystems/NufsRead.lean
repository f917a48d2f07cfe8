import ComputerSystems.NufsWrite

/-!
# Reading a file

`storage_read` clamps the size to what the file holds and copies block by
block. The buffer pointer advances by 4096 bytes a round whatever was copied,
so a range that starts inside a page and goes on past it leaves a hole in the
buffer and ends past the last index. The clamp is computed as a `size_t`: past
the end of the file it wraps and no longer bounds the size.
-/

namespace ComputerSystems.NufsRead

open StateProgram ByteMemory NufsImage NufsInode NufsPath NufsDirectory NufsStorage NufsCalls
  NufsOwnership NufsResize NufsFrame NufsContent NufsSound NufsIsolation NufsExhaustion NufsWrite

/-! ## Copies -/

/-- The caller's memory after a list of copies from the image. -/
def received (image : Bytes) : List Piece → Bytes → Bytes
  | [],buf => buf
  | piece::rest,buf =>
    received image rest (blit buf piece.target piece.count (fun k => image (piece.source+k)))

/-- Some copy writes the buffer index. -/
def Touched (pieces : List Piece) (index : ℕ) : Prop :=
  ∃ piece∈pieces, piece.target ≤ index ∧ index<piece.target+piece.count

/-- Indices that no copy writes keep their bytes. -/
theorem received_untouched (image : Bytes) {pieces : List Piece} {index : ℕ}
    (h : ¬Touched pieces index) (buf : Bytes) : received image pieces buf index=buf index := by
  induction pieces generalizing buf with
  | nil => rfl
  | cons piece rest ih =>
    have hrest : ¬Touched rest index := fun ⟨other,hmem,hin⟩ =>
      h ⟨other,List.mem_cons_of_mem _ hmem,hin⟩
    rw [received,ih hrest]
    refine blit_outside _ _ ?_
    by_contra hin
    exact h ⟨piece,List.mem_cons_self,by omega,by omega⟩

/-- One copy reads inside a block of the file. -/
def InBlock (memory : Bytes) (i n : ℕ) (piece : Piece) : Prop :=
  ∃ k<n, 4096*pnumAt memory i k≤piece.source ∧
    (piece.source+piece.count : ℤ)≤4096*pnumAt memory i k+4096

/-- What the rounds from a position to the end of the range copy. -/
structure Sliced (memory : Bytes) (i n start finish skipped : ℕ) (pieces : List Piece) : Prop where
  /-- Every copy reads inside a block. -/
  inside : ∀ piece∈pieces, InBlock memory i n piece
  /-- The indices written are those of the positions. -/
  indices : ∀ index, Touched pieces index ↔
    ∃ position, start≤position ∧ position<finish ∧ index=skipped+bufferIndex start position
  /-- Each of them gets the byte of its position. -/
  bytes : ∀ buf position, start≤position → position<finish →
    received memory pieces buf (skipped+bufferIndex start position)=fileByte memory i position

/-- No rounds copy nothing. -/
theorem Sliced.nil (memory : Bytes) (i n : ℕ) {start finish : ℕ} (h : finish ≤ start)
    (skipped : ℕ) : Sliced memory i n start finish skipped [] where
  inside := fun _ hp => absurd hp List.not_mem_nil
  indices := by
    intro index
    constructor
    · rintro ⟨piece,hp,_⟩
      exact absurd hp List.not_mem_nil
    · rintro ⟨position,hl,hr,_⟩
      omega
  bytes := fun _ position hl hr => by omega

section Rounds

variable {memory : Bytes} {i n : ℕ}

/-- The copy of one round, from a position to the end of its page or of the
range. -/
def roundPiece (memory : Bytes) (i start finish skipped : ℕ) : Piece :=
  ⟨skipped,4096*(pnumAt memory i (start/4096)).toNat+start%4096,
    min ((start/4096+1)*4096) finish-start⟩

/-- The copies of the later rounds write past those of the first one. -/
theorem Sliced.beyond {start finish skipped index : ℕ} {pieces : List Piece}
    (h : Sliced memory i n start finish skipped pieces) (hi : index < skipped) :
    ¬Touched pieces index := by
  intro ht
  obtain ⟨position,_,_,he⟩ := (h.indices index).mp ht
  omega

/-- One round before the others. -/
theorem Sliced.cons (hm : Mapped memory i n) {start finish skipped : ℕ} (hs : start<finish)
    (hn : finish≤4096*n) {pieces : List Piece}
    (h : Sliced memory i n (min ((start/4096+1)*4096) finish) finish (skipped+4096) pieces) :
    Sliced memory i n start finish skipped (roundPiece memory i start finish skipped::pieces) where
  inside := by
    intro piece hp
    rcases List.mem_cons.mp hp with rfl|hp
    · have hb := hm.block (start/4096) (by omega)
      refine ⟨start/4096,by omega,?_,?_⟩
      · simp only [roundPiece]
        omega
      · simp only [roundPiece]
        omega
    · exact h.inside piece hp
  indices := by
    intro index
    constructor
    · rintro ⟨piece,hp,hl,hr⟩
      rcases List.mem_cons.mp hp with rfl|hp
      · simp only [roundPiece] at hl hr
        refine ⟨start+(index-skipped),by omega,by omega,?_⟩
        rw [bufferIndex_first (by omega)]
        omega
      · obtain ⟨position,hl',hr',he⟩ := (h.indices index).mp ⟨piece,hp,hl,hr⟩
        rw [min_eq_left (by omega)] at hl' he
        refine ⟨position,by omega,hr',?_⟩
        rw [bufferIndex_later hl']
        omega
    · rintro ⟨position,hl,hr,he⟩
      by_cases hpage : position/4096=start/4096
      · rw [bufferIndex_first hpage] at he
        refine ⟨_,List.mem_cons_self,?_,?_⟩
        · simp only [roundPiece]
          omega
        · simp only [roundPiece]
          omega
      · have hlater : (start/4096+1)*4096≤position := by omega
        rw [bufferIndex_later hlater] at he
        rw [min_eq_left (by omega)] at h
        obtain ⟨piece,hp,hin⟩ := (h.indices index).mpr ⟨position,hlater,hr,by omega⟩
        exact ⟨piece,List.mem_cons_of_mem _ hp,hin⟩
  bytes := by
    intro buf position hl hr
    rw [received]
    by_cases hpage : position/4096=start/4096
    · have hindex := bufferIndex_first hpage
      rw [hindex,received_untouched memory (h.beyond (by omega))]
      have hin := blit_inside buf
        (fun k => memory ((roundPiece memory i start finish skipped).source+k))
        (show (roundPiece memory i start finish skipped).target ≤ skipped+(position-start) by
          simp only [roundPiece]; omega)
        (show skipped+(position-start)<(roundPiece memory i start finish skipped).target+
            (roundPiece memory i start finish skipped).count by
          simp only [roundPiece]; omega)
      rw [hin]
      unfold fileByte
      simp only [roundPiece]
      rw [hpage]
      congr 1
      omega
    · have hlater : (start/4096+1)*4096≤position := by omega
      have hmin : min ((start/4096+1)*4096) finish=(start/4096+1)*4096 := by omega
      have hrest := h.bytes (blit buf (roundPiece memory i start finish skipped).target
        (roundPiece memory i start finish skipped).count
        (fun k => memory ((roundPiece memory i start finish skipped).source+k))) position
        (by omega) hr
      rw [hmin] at hrest
      rw [bufferIndex_later hlater,←Nat.add_assoc]
      exact hrest

end Rounds

/-- One round of the loop of `storage_read`, inside the blocks. -/
theorem readPiece_ok {disk : Disk} {i n : ℕ} (hm : Mapped disk.bytes i n) {start finish : ℕ}
    (hs : start<finish) (hn : finish≤4096*n) (skipped : ℕ) :
    readPiece (nodeOffset i) start (pieceEnd start finish) skipped disk=
      .ok (roundPiece disk.bytes i start finish skipped) disk := by
  have hcount := hm.count
  have hk : start/4096<n := by omega
  have hb := hm.block _ hk
  rw [readPiece,blockNumber_eq (by omega),bind_of_ok (inodeGetPnum_mapped hm hk),tmod_natCast,
    pieceEnd_eq hs (by omega),if_neg (by omega),pagesGetPage_eq (by omega) (by omega),copyOut,
    Int.emod_eq_of_lt (by omega) (by omega),if_pos (by omega),roundPiece]
  congr 2
  · omega
  · omega

/-- The loop of `storage_read` with rounds enough: by induction on the rounds
left, each of which ends at a page boundary or at the end. -/
theorem readLoop_sliced {disk : Disk} {i n : ℕ} (hm : Mapped disk.bytes i n) {finish : ℕ}
    (hn : finish≤4096*n) (left : ℕ) : ∀ start skipped : ℕ, start≤finish → 1≤left →
    (start<finish → finish/4096+2 ≤ start/4096+left) →
    ∃ pieces, readLoop (nodeOffset i) finish left start skipped disk=.ok pieces disk ∧
      Sliced disk.bytes i n start finish skipped pieces := by
  have hcount := hm.count
  induction left with
  | zero =>
    intro start skipped _ hleft
    omega
  | succ left ih =>
    intro start skipped hs _ hrounds
    unfold readLoop
    by_cases hstart : start<finish
    · have hleft := hrounds hstart
      obtain ⟨pieces,hrest,hsliced⟩ := ih (min ((start/4096+1)*4096) finish) (skipped+4096)
        (Nat.min_le_right _ _) (by omega) (by omega)
      refine ⟨_,?_,Sliced.cons hm hstart hn hsliced⟩
      rw [if_pos (by omega),bind_of_ok (readPiece_ok hm hstart hn skipped),
        pieceEnd_eq hstart (by omega),bind_of_ok hrest]
      rfl
    · refine ⟨[],?_,Sliced.nil _ _ _ (by omega) _⟩
      rw [if_neg (by omega)]
      rfl

/-! ## Ranges that start inside the file -/

section Known

variable {disk : Disk} {i : ℕ} {path : List UInt8} {size : UInt64} {offset : Int64}

/-- `storage_read` after its lookup. -/
theorem storageRead_eq (hi : i<64) (hl : treeLookup path disk=.ok (i : ℤ) disk) :
    storageRead path size offset disk=
      (readLoop (nodeOffset i)
          ((offset.toInt+readSize (sizeAt disk.bytes i) offset.toInt size.toNat)%
            18446744073709551616) loopRounds offset.toInt 0 >>=
        fun pieces => pure (wrap32 (readSize (sizeAt disk.bytes i) offset.toInt size.toNat),pieces))
        disk := by
  rw [storageRead,bind_of_ok hl,if_neg (by omega),bind_of_ok (getInode_ok hi disk),
    bind_of_ok (readSize_ok hi disk)]

/-- Inside the file the clamp is the number of bytes left. -/
theorem readSize_inside {old offset size : ℕ} (h : offset≤old) (hr : old<2147483648) :
    readSize old offset size=((min size (old-offset) : ℕ) : ℤ) := by
  unfold readSize
  rw [Int.emod_eq_of_lt (by omega) (by omega)]
  split <;> omega

/-- From a position inside the file `storage_read` returns the number of bytes
it asks for that the file has, and copies exactly those. -/
theorem storageRead_inside (size : UInt64) (hm : Mapped disk.bytes i (blocksAt disk.bytes i))
    (hl : treeLookup path disk=.ok (i : ℤ) disk) {old start : ℕ} (hs : sizeAt disk.bytes i=old)
    (ho : offset.toInt=start) (hle : start≤old) :
    ∃ pieces, storageRead path size offset disk=
        .ok (((min size.toNat (old-start) : ℕ) : ℤ),pieces) disk ∧
      Sliced disk.bytes i (blocksAt disk.bytes i) start (start+min size.toNat (old-start)) 0
        pieces := by
  have hb := blocksAt_of_size hs
  have hcount := hm.count
  have hold : old<2147483648 := by omega
  obtain ⟨pieces,hloop,hsliced⟩ := readLoop_sliced hm
    (show start+min size.toNat (old-start)≤4096*blocksAt disk.bytes i by omega) loopRounds
    start 0 (by omega) (by decide) (fun _ => by simp only [loopRounds]; omega)
  refine ⟨pieces,?_,hsliced⟩
  rw [storageRead_eq hm.index hl,hs,ho,readSize_inside hle hold,←Nat.cast_add,
    Int.emod_eq_of_lt (by omega) (by omega),bind_of_ok hloop,wrap32_of_range (by omega) (by omega)]
  rfl

end Known

/-- The number of bytes that a read of the given size can get from a position
of a file. -/
def available (disk : Disk) (i : ℕ) (size : UInt64) (offset : Int64) : ℤ :=
  min size.toNat (sizeAt disk.bytes i-offset.toInt)

/-- The read returns the number of available bytes, fills that many buffer bytes
with the bytes of the file from the offset on, and writes no others. -/
def ReadsSlice (disk : Disk) (i : ℕ) (path : List UInt8) (size : UInt64) (offset : Int64) : Prop :=
  ∃ pieces, storageRead path size offset disk=.ok (available disk i size offset,pieces) disk ∧
    (∀ buf (index : ℕ), (index : ℤ)<available disk i size offset →
      received disk.bytes pieces buf index=fileByte disk.bytes i (offset.toInt.toNat+index)) ∧
    ∀ index, Touched pieces index → (index : ℤ)<available disk i size offset

/-- Under the ownership invariant, a read from a position inside a file returns
the slice exactly when the available range begins at a page boundary or ends in
its first page. -/
theorem read_slice_iff {disk : Disk} {i : ℕ} {path : List UInt8} {size : UInt64} {offset : Int64}
    (h : Owned disk.bytes (Live disk.bytes) (blocksAt disk.bytes)) (hi : Live disk.bytes i)
    (hl : treeLookup path disk=.ok (i : ℤ) disk) (h0 : 0≤offset.toInt)
    (hs : offset.toInt ≤ sizeAt disk.bytes i) :
    ReadsSlice disk i path size offset ↔
      Straight offset.toInt.toNat (available disk i size offset).toNat := by
  obtain ⟨start,hstart⟩ := Int.eq_ofNat_of_zero_le h0
  obtain ⟨old,hold⟩ := Int.eq_ofNat_of_zero_le (h0.trans hs)
  obtain ⟨pieces,hread,hsliced⟩ := storageRead_inside size (h.placed hi).mapped hl hold
    hstart (by omega)
  have havail : available disk i size offset=((min size.toNat (old-start) : ℕ) : ℤ) := by
    rw [available,hold,hstart]
    omega
  unfold ReadsSlice
  rw [havail,hstart,Int.toNat_natCast,Int.toNat_natCast]
  constructor
  · rintro ⟨pieces',hread',_,htouched⟩
    obtain ⟨hpair,_⟩ := EStateM.Result.ok.inj (hread.symm.trans hread')
    obtain ⟨_,rfl⟩ := Prod.mk.inj hpair
    by_contra hdrift
    have hnonempty : 0 < min size.toNat (old-start) := by
      unfold Straight at hdrift
      omega
    have hindex := htouched _ ((hsliced.indices _).mpr ⟨start+min size.toNat (old-start)-1,
      by omega,by omega,rfl⟩)
    have hlast := bufferIndex_drifts hdrift
    omega
  · intro hstraight
    refine ⟨pieces,hread,?_,?_⟩
    · intro buf index hindex
      have hbyte := hsliced.bytes buf (start+index) (by omega) (by omega)
      rw [bufferIndex_straight hstraight (by omega) (by omega)] at hbyte
      rw [show 0+(start+index-start)=index by omega] at hbyte
      exact hbyte
    · intro index htouched
      obtain ⟨position,hlp,hrp,he⟩ := (hsliced.indices index).mp htouched
      rw [bufferIndex_straight hstraight hlp hrp] at he
      omega

/-- Writing 4098 bytes into `/a`. -/
def writePages : Call := .write (render [nameA]) (fun k => if k<4096 then 7 else 9) 4098 0

/-- The image with the file `/a` of 4098 bytes, two bytes of them in its second
block. -/
def withPages : Disk := after (exec writePages) withA

/-- The file `/a` is inode 1 in the image with two blocks. -/
theorem lookup_withPages : treeLookup (render [nameA]) withPages=.ok (1 : ℤ) withPages :=
  lookup_of_passes (by decide +kernel)

/-- Ownership holds in the image with two blocks. -/
theorem owned_withPages : Owned withPages.bytes (Live withPages.bytes)
    (blocksAt withPages.bytes) :=
  (sound_of_reachable (NufsStorage.Reachable.call reachable_withA
    (show Clean withA writePages from resizeFits_withA (by decide +kernel) (by decide +kernel))
    (by decide +kernel))).owned

/-- From its second block on the file of 4098 bytes is read back. -/
theorem second_block_read : sizeAt withPages.bytes 1=4098 ∧
    ReadsSlice withPages 1 (render [nameA]) 100 4096 := by
  have hsize : sizeAt withPages.bytes 1=4098 := by decide +kernel
  refine ⟨hsize,(read_slice_iff owned_withPages ⟨by decide,by decide +kernel⟩ lookup_withPages
    (by decide +kernel) (by rw [hsize]; decide +kernel)).mpr (.inl (by decide +kernel))⟩

/-- Three bytes from the last one of the first block on do not come back as a
slice: two of them land at index 4096 of the buffer. -/
theorem read_across_blocks_drifts : Owned withPages.bytes (Live withPages.bytes)
      (blocksAt withPages.bytes) ∧ Live withPages.bytes 1 ∧
    treeLookup (render [nameA]) withPages=.ok (1 : ℤ) withPages ∧
    sizeAt withPages.bytes 1=4098 ∧ ¬ReadsSlice withPages 1 (render [nameA]) 3 4095 := by
  have hsize : sizeAt withPages.bytes 1=4098 := by decide +kernel
  refine ⟨owned_withPages,⟨by decide,by decide +kernel⟩,lookup_withPages,hsize,?_⟩
  rintro ⟨pieces,hread,_,htouched⟩
  have hpass : passes (storageRead (render [nameA]) 3 4095) withPages (fun value _ =>
      value.2.any (fun piece => piece.target==4096 && piece.count==2))=true := by decide +kernel
  have htest := test_of_passes hpass hread
  obtain ⟨piece,hp,hc⟩ := List.any_eq_true.mp htest
  rw [Bool.and_eq_true,beq_iff_eq,beq_iff_eq] at hc
  have hindex := htouched 4096 ⟨piece,hp,by omega,by omega⟩
  rw [available,hsize] at hindex
  exact absurd hindex (by decide +kernel)

/-! ## Ranges that start past the end of the file -/

/-- The read returns the number of available bytes, none when there are none,
and reads only bytes of the file's blocks. -/
def ReadsWithin (disk : Disk) (i : ℕ) (path : List UInt8) (size : UInt64) (offset : Int64) :
    Prop :=
  ∃ pieces, storageRead path size offset disk=
      .ok (max 0 (available disk i size offset),pieces) disk ∧
    ∀ piece∈pieces, InBlock disk.bytes i (blocksAt disk.bytes i) piece

section Known

variable {disk : Disk} {i : ℕ} {path : List UInt8} {size : UInt64} {offset : Int64}

/-- A range that ends at or before its start, as a `size_t`, is not read. -/
theorem storageRead_skipped (size : UInt64) (hi : i<64) (hl : treeLookup path disk=.ok (i : ℤ) disk)
    (h0 : 0≤offset.toInt)
    (hend : (offset.toInt+readSize (sizeAt disk.bytes i) offset.toInt size.toNat)%
      18446744073709551616≤offset.toInt) :
    storageRead path size offset disk=
      .ok (wrap32 (readSize (sizeAt disk.bytes i) offset.toInt size.toNat),[]) disk := by
  have hr := offset.toInt_lt
  have hloop : ∀ total, total≤offset.toInt →
      readLoop (nodeOffset i) total loopRounds offset.toInt 0 disk=.ok [] disk := by
    intro total ht
    rw [loopRounds,readLoop,if_neg (by omega)]
    rfl
  rw [storageRead_eq hi hl,bind_of_ok (hloop _ hend)]
  rfl

/-- A `size_t` that is zero as an `int` and does not wrap the end around is not
read through: the first round copies nothing or a negative number of bytes. -/
theorem storageRead_stuck (hi : i<64) (hl : treeLookup path disk=.ok (i : ℤ) disk)
    (h0 : 0≤offset.toInt) {count : ℕ}
    (hcount : readSize (sizeAt disk.bytes i) offset.toInt size.toNat=count) (hpos : 0<count)
    (hsum : offset.toInt+count<18446744073709551616) (hzero : wrap32 count=0) (result : ℤ×List Piece)
    (next : Disk) : storageRead path size offset disk≠.ok result next := by
  have hr := offset.toInt_lt
  rw [wrap32_eq_zero_iff] at hzero
  have hfinish : pieceEnd offset.toInt (offset.toInt+count)≤offset.toInt := by
    refine (min_le_right _ _).trans ((wrap32_le_emod _).trans ?_)
    omega
  have hlow : -2147483648≤pieceEnd offset.toInt (offset.toInt+count) :=
    le_min (wrap32_range _).1 (wrap32_range _).1
  intro hok
  rw [storageRead_eq hi hl,hcount,Int.emod_eq_of_lt (by omega) hsum] at hok
  obtain ⟨pieces,_,hloop,_⟩ := bind_eq_ok.mp hok
  rw [loopRounds,readLoop,if_pos (by omega)] at hloop
  obtain ⟨piece,_,hpiece,_⟩ := bind_eq_ok.mp hloop
  obtain ⟨pnum,mid,_,hcopy⟩ := bind_eq_ok.mp hpiece
  by_cases he : pieceEnd offset.toInt (offset.toInt+count)=offset.toInt
  · rw [if_pos he] at hcopy
    cases hcopy
  · rw [if_neg he,copyOut,if_neg (by omega)] at hcopy
    cases hcopy

/-- Past the end of the file the clamp is below the end of the `size_t` range by
the distance to the end. -/
theorem readSize_past (size : ℕ) {old offset : ℕ} (h : old<offset) (hr : offset<9223372036854775808) :
    readSize old offset size=((min size (18446744073709551616-(offset-old)) : ℕ) : ℤ) := by
  have hroom : ((old : ℤ)-offset)%18446744073709551616=
      ((18446744073709551616-(offset-old) : ℕ) : ℤ) := by omega
  unfold readSize
  rw [hroom]
  split <;> omega

end Known

/-- For every file whose blocks can be found, a read at any offset that is not
negative keeps to the file exactly when the offset is not past the end, or
nothing is asked for, or the end of the range wraps around and the clamped
size is zero as an `int`. -/
theorem read_within_iff {disk : Disk} {i : ℕ} {path : List UInt8} {size : UInt64} {offset : Int64}
    (hm : Mapped disk.bytes i (blocksAt disk.bytes i)) (hs : 0 ≤ sizeAt disk.bytes i)
    (hl : treeLookup path disk=.ok (i : ℤ) disk) (h0 : 0≤offset.toInt) :
    ReadsWithin disk i path size offset ↔
      offset.toInt ≤ sizeAt disk.bytes i ∨ size=0 ∨
        (18446744073709551616≤offset.toInt+size.toNat ∧
          4294967296∣min (size.toNat : ℤ)
            (18446744073709551616-(offset.toInt-sizeAt disk.bytes i))) := by
  have hr := offset.toInt_lt
  obtain ⟨start,hstart⟩ := Int.eq_ofNat_of_zero_le h0
  obtain ⟨old,hold⟩ := Int.eq_ofNat_of_zero_le hs
  by_cases hle : start≤old
  · obtain ⟨pieces,hread,hsliced⟩ := storageRead_inside size hm hl hold hstart hle
    have hmax : max 0 (available disk i size offset)=((min size.toNat (old-start) : ℕ) : ℤ) := by
      rw [available,hold,hstart]
      omega
    refine iff_of_true ⟨pieces,?_,hsliced.inside⟩ (.inl (by omega))
    rw [hmax]
    exact hread
  · have hsize := readSize_past size.toNat (show old<start by omega) (by omega)
    rw [←hold,←hstart] at hsize
    have hmax : max 0 (available disk i size offset)=0 := by
      rw [available,hold,hstart]
      omega
    have hmin : min (size.toNat : ℤ) (18446744073709551616-(offset.toInt-sizeAt disk.bytes i))=
        ((min size.toNat (18446744073709551616-(start-old)) : ℕ) : ℤ) := by omega
    have hzero : size=0 ↔ size.toNat=0 := UInt64.toNat_inj.symm
    have hlt := size.toNat_lt
    rw [ReadsWithin,hmax,hmin,hzero]
    by_cases hwrap : size.toNat=0 ∨ 18446744073709551616 ≤ start+size.toNat
    · have hread := storageRead_skipped size hm.index hl h0 (by rw [hsize]; omega)
      rw [hsize] at hread
      constructor
      · rintro ⟨pieces,hread',_⟩
        obtain ⟨hpair,_⟩ := EStateM.Result.ok.inj (hread.symm.trans hread')
        have hres := (wrap32_eq_zero_iff _).mp (Prod.mk.inj hpair).1
        rcases hwrap with hw|hw
        · exact .inr (.inl hw)
        · exact .inr (.inr ⟨by omega,hres⟩)
      · rintro (hc|hc|hc)
        · omega
        · refine ⟨[],hread.trans ?_,fun _ hp => absurd hp List.not_mem_nil⟩
          rw [hc,Nat.zero_min,Nat.cast_zero,wrap32_zero]
        · refine ⟨[],hread.trans ?_,fun _ hp => absurd hp List.not_mem_nil⟩
          rw [(wrap32_eq_zero_iff _).mpr hc.2]
    · have hcount : min size.toNat (18446744073709551616-(start-old))=size.toNat := by omega
      rw [hcount] at hsize
      constructor
      · rintro ⟨pieces,hread,_⟩
        exfalso
        have hok := hread
        rw [storageRead_eq hm.index hl,hsize] at hok
        obtain ⟨_,_,_,hpure⟩ := bind_eq_ok.mp hok
        obtain ⟨hpair,_⟩ := pure_eq_ok.mp hpure
        exact storageRead_stuck hm.index hl h0 hsize (by omega) (by omega)
          (Prod.mk.inj hpair).1.symm _ _ hread
      · rintro (hc|hc|hc) <;> omega

/-- The last byte of the file of two bytes is read without going past the end. -/
theorem last_byte_read : sizeAt withTwoBytes.bytes 1=2 ∧
    ReadsWithin withTwoBytes 1 (render [nameA]) 5 1 := by
  have hsize : sizeAt withTwoBytes.bytes 1=2 := by decide +kernel
  refine ⟨hsize,(read_within_iff (owned_withTwoBytes.placed ⟨by decide,by decide +kernel⟩).mapped
    (by rw [hsize]; decide) lookup_a.2 (by decide +kernel)).mpr (.inl ?_)⟩
  rw [hsize]
  decide +kernel

/-- One byte is read from offset 3 of the file of two bytes. -/
theorem read_past_end : Mapped withTwoBytes.bytes 1 (blocksAt withTwoBytes.bytes 1) ∧
    treeLookup (render [nameA]) withTwoBytes=.ok (1 : ℤ) withTwoBytes ∧
    sizeAt withTwoBytes.bytes 1=2 ∧ ¬ReadsWithin withTwoBytes 1 (render [nameA]) 1 3 := by
  have hsize : sizeAt withTwoBytes.bytes 1=2 := by decide +kernel
  refine ⟨(owned_withTwoBytes.placed ⟨by decide,by decide +kernel⟩).mapped,lookup_a.2,hsize,?_⟩
  rintro ⟨pieces,hread,_⟩
  have hpass : passes (storageRead (render [nameA]) 1 3) withTwoBytes
      (fun value _ => decide (value.1=1))=true := by decide +kernel
  have hone := test_of_passes hpass hread
  have hfirst : max 0 (available withTwoBytes 1 1 3)=1 := of_decide_eq_true hone
  rw [available,hsize] at hfirst
  exact absurd hfirst (by decide +kernel)

end ComputerSystems.NufsRead
