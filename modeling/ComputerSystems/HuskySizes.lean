import ComputerSystems.HuskyMalloc

/-!
# How much `xmalloc` of `hmalloc.c` hands out

The header is added to the request before anything else, and the pages of a
large request are counted and multiplied back. Both steps are taken on machine
words. As long as neither wraps, the stored size is large enough and so is the
length that `mmap` gets; from the first wrap on, no request is served properly.
-/

namespace ComputerSystems.HuskySizes

open BlockHeap BlockList ByteMemory HeapMemory HuskyMalloc LinkedBlocks PagedHeap RoutedHeap

/-- The length that `xmalloc` passes to `mmap`, where it calls it. -/
def mmapSize (s : Store Unit) (request : ℕ) : Option ℕ :=
  let size := blockSize request
  if size<4096 then
    (takeNode restOffset size maxNodes s.memory (s.head ())).bind (fun done =>
      if done.2.2=0 then some 4096 else none)
  else some (4096*divUp size 4096%2^64)

/-- The free list in memory: blocks of at most 2^63 bytes whose cells overlap no
other. A block may be smaller than its cell. -/
structure FreeBlocks (s : Store Unit) (list : List Block) : Prop where
  /-- The list begins at `free_list_head`. -/
  chain : Chain restOffset s.memory (s.head ()) list
  /-- No cell overlaps another. -/
  cells : Cells restOffset list
  /-- Blocks have at most 2^63 bytes. -/
  small : ∀ b∈list, b.size≤2^63

/-- Whatever `mmap` returns: if `xmalloc` returns a pointer, the stored size less
the header is at least the request; and if `mmap` is called, its length is a
positive multiple of 4096 with room for the request and the header. -/
def HoldsRequest (s : Store Unit) (request : ℕ) : Prop :=
  (∀ mmapAddr s' count, xmalloc s request mmapAddr=some (s',count) →
    ∃ c, s'.live=c::s.live ∧ request+8 ≤ sizeAt s'.memory c.addr) ∧
  ∀ length, mmapSize s request=some length → request+8≤length ∧ 0<length ∧ 4096∣length

/-! ## The block that is taken or mapped -/

variable {s s' : Store Unit} {list : List Block}

/-- Without a block that is large enough a page is mapped. -/
theorem getBlock_missing (h : FreeBlocks s list) {size : ℕ} (fresh : ℕ)
    (ht : takeFit size list=none) :
    s.getBlock restOffset () size fresh=some (s.mmap fresh 1,fresh,4096,1) := by
  have hrun := (takeNode_cells (by decide) size maxNodes (length_lt_of_cells h.cells) h.cells
    h.chain).1 ht
  unfold Store.getBlock
  rw [hrun,Option.map_some,if_neg (not_not_intro rfl)]

/-- A block that is taken keeps its size, and the rest of the list is left. -/
theorem getBlock_found (h : FreeBlocks s list) {size : ℕ} (fresh : ℕ) {found : Block}
    {left : List Block} (ht : takeFit size list=some (found,left)) :
    ∃ m p, s.getBlock restOffset () size fresh=
        some ({s with memory := m,head := Function.update s.head () p},found.addr,found.size,0) ∧
      Chain restOffset m p left := by
  obtain ⟨m,p,hrun,hchain,hframe⟩ := (takeNode_cells (by decide) size maxNodes
    (length_lt_of_cells h.cells) h.cells h.chain).2 found left ht
  obtain ⟨-,hapart⟩ := h.cells.taken ht
  have hfound : found∈list := (mem_of_takeFit ht).1
  have hkept : sizeAt m found.addr=found.size := by
    rw [←h.chain.size_eq hfound]
    refine wordAt_congr (fun x hl hr => hframe x (fun c hc => ?_))
    refine not_holds_of_apart (hapart c hc).symm ⟨hl,?_⟩
    unfold cellOf Block.stop restOffset
    dsimp only
    omega
  refine ⟨m,p,?_,hchain⟩
  unfold Store.getBlock
  rw [hrun,Option.map_some]
  dsimp only
  rw [if_pos (h.chain.addr_ne_zero hfound),hkept]

/-- A block of the free list that is large enough, or a page. -/
theorem getBlock_size (h : FreeBlocks s list) {size fresh bstart bsize count : ℕ} (hsize : size≤4096)
    (hget : s.getBlock restOffset () size fresh=some (s',bstart,bsize,count)) :
    s'.live=s.live ∧ size≤bsize ∧ bsize≤2^63 := by
  cases ht : takeFit size list with
  | none =>
    rw [getBlock_missing h fresh ht] at hget
    cases hget
    exact ⟨rfl,hsize,by decide⟩
  | some taken =>
    obtain ⟨found,left⟩ := taken
    obtain ⟨m,p,hfound,-⟩ := getBlock_found h fresh ht
    obtain ⟨-,-,-,-,hfits⟩ := takeFit_eq_some ht
    rw [hfound] at hget
    cases hget
    exact ⟨rfl,hfits,h.small found (mem_of_takeFit ht).1⟩

/-- The kept part of a block. -/
theorem splitBlock_size {bstart bsize size kept : ℕ}
    (hsplit : s.splitBlock restOffset () bstart bsize size=some (s',kept)) :
    s'.live=s.live ∧ s'.pages=s.pages ∧ (kept=size ∨ kept=bsize) := by
  unfold Store.splitBlock at hsplit
  split_ifs at hsplit with hlarge
  · obtain ⟨done,hinsert,heq⟩ := Option.map_eq_some_iff.mp hsplit
    cases heq
    unfold Store.insertFree at hinsert
    obtain ⟨chain,-,heq⟩ := Option.map_eq_some_iff.mp hinsert
    cases heq
    exact ⟨rfl,rfl,Or.inl rfl⟩
  · cases hsplit
    exact ⟨rfl,rfl,Or.inr rfl⟩

/-- A block for a small request has the size of the request or of what was taken,
which is stored in front of it. -/
theorem allocFrom_size (h : FreeBlocks s list) {size request fresh count : ℕ} (hsize : size≤4096)
    (hrun : s.allocFrom restOffset () size request fresh=some (s',count)) :
    ∃ c, s'.live=c::s.live ∧ size ≤ sizeAt s'.memory c.addr ∧ sizeAt s'.memory c.addr≤2^63 := by
  unfold Store.allocFrom at hrun
  obtain ⟨⟨mid,bstart,bsize,mapped⟩,hget,hrest⟩ := Option.bind_eq_some_iff.mp hrun
  obtain ⟨⟨cut,kept⟩,hsplit,heq⟩ := Option.map_eq_some_iff.mp hrest
  cases heq
  obtain ⟨hlive,hfits,hsmall⟩ := getBlock_size h hsize hget
  obtain ⟨hcutlive,-,hkept⟩ := splitBlock_size hsplit
  dsimp only at hkept
  have hbounds : size≤kept ∧ kept≤2^63 := by omega
  refine ⟨⟨bstart,request⟩,?_,?_⟩
  · unfold Store.give
    rw [hcutlive,hlive]
  · unfold Store.give
    rw [sizeAt_setSize (by omega)]
    exact hbounds

/-- A request of at most 16 bytes that a listed block serves gets one: the rest of
the block begins inside its cell, so storing its size leaves the list alone. -/
theorem allocFrom_returns (h : FreeBlocks s list) {size : ℕ} (request fresh : ℕ) (hsize : size≤16)
    {found : Block} {left : List Block} (ht : takeFit size list=some (found,left)) :
    ∃ done, s.allocFrom restOffset () size request fresh=some done := by
  obtain ⟨m,p,hget,hchain⟩ := getBlock_found h fresh ht
  obtain ⟨hcells,hapart⟩ := h.cells.taken ht
  unfold Store.allocFrom Store.splitBlock Store.insertFree
  rw [hget,Option.bind_some]
  dsimp only
  split_ifs with hlarge
  · have hcut : Chain restOffset (setSize m (found.addr+size) (found.size-size)) p left := by
      refine hchain.congr_cells (fun c hc x hx => putWord_outside m _ ?_)
      have hout := not_holds_of_apart (hapart c hc) hx
      unfold cellOf Block.Holds Block.stop restOffset at hout
      dsimp only at hout
      omega
    obtain ⟨done,hinsert⟩ := insertNode_returns (by decide) left maxNodes
      (setSize m (found.addr+size) (found.size-size)) (found.addr+size) p
      (length_lt_of_cells hcells) hcells hcut
    rw [Function.update_self,hinsert]
    exact ⟨_,rfl⟩
  · exact ⟨_,rfl⟩

/-! ## Where a machine word wraps -/

/-- Rounding up to pages wraps from the last page of the address space on. -/
theorem pages_wrap {size : ℕ} (h : size<2^64) :
    (size+4096≤2^64 → 4096*divUp size 4096%2^64=4096*divUp size 4096) ∧
    (2^64<size+4096 → 4096*divUp size 4096%2^64=0) := by
  have hbounds := divUp_bounds size
  constructor
  · intro hfits
    exact Nat.mod_eq_of_lt (by omega)
  · intro hover
    have hcount : divUp size 4096=2^52 := by omega
    rw [hcount]
    rfl

/-- Without a wrap the request is served. -/
theorem holds_of_fits (h : FreeBlocks s list) {request : ℕ} (hfits : request+4104≤2^64) :
    HoldsRequest s request := by
  have hsize : blockSize request=request+8 := Nat.mod_eq_of_lt (by omega)
  have hbounds := divUp_bounds (request+8)
  have hpages := (pages_wrap (show request+8<2^64 by omega)).1 (by omega)
  constructor
  · intro mmapAddr s' count hrun
    unfold xmalloc at hrun
    rw [hsize] at hrun
    dsimp only at hrun
    split_ifs at hrun with hsmall
    · obtain ⟨c,hlive,hstored,-⟩ := allocFrom_size h hsmall.le hrun
      exact ⟨c,hlive,hstored⟩
    · obtain ⟨done,hdone,heq⟩ := Option.map_eq_some_iff.mp hrun
      cases heq
      unfold Store.allocPages at hdone
      rw [hpages] at hdone
      dsimp only at hdone
      rw [if_neg (by omega)] at hdone
      cases hdone
      refine ⟨⟨mmapAddr,request⟩,rfl,?_⟩
      unfold Store.give
      rw [sizeAt_setSize (by omega)]
      exact hbounds.1
  · intro length hlength
    unfold mmapSize at hlength
    rw [hsize] at hlength
    dsimp only at hlength
    split_ifs at hlength with hsmall
    · obtain ⟨done,-,hdone⟩ := Option.bind_eq_some_iff.mp hlength
      split_ifs at hdone with hzero
      cases hdone
      exact ⟨hsmall.le,by decide,dvd_rfl⟩
    · rw [hpages] at hlength
      cases hlength
      exact ⟨hbounds.1,by omega,Nat.dvd_mul_right 4096 _⟩

/-- A request for which the header wraps gets a block that is too small, or has a
single page mapped. -/
theorem not_holds_of_header (h : FreeBlocks s list) {request : ℕ} (hn : request<2^64)
    (hover : 2^64≤request+8) : ¬HoldsRequest s request := by
  intro hholds
  have hsize : blockSize request<8 := by
    unfold blockSize
    omega
  cases ht : takeFit (blockSize request) list with
  | none =>
    have hrun := (takeNode_cells (by decide) (blockSize request) maxNodes
      (length_lt_of_cells h.cells) h.cells h.chain).1 ht
    have hlength : mmapSize s request=some 4096 := by
      unfold mmapSize
      dsimp only
      rw [if_pos (hsize.trans (by decide)),hrun]
      rfl
    have henough := (hholds.2 4096 hlength).1
    omega
  | some taken =>
    obtain ⟨found,left⟩ := taken
    obtain ⟨⟨s',count⟩,hrun⟩ :=
      allocFrom_returns h request 4096 (hsize.le.trans (by decide)) ht
    obtain ⟨c,hlive,-,hstored⟩ := allocFrom_size h (hsize.le.trans (by decide)) hrun
    have hcall : xmalloc s request 4096=some (s',count) := by
      unfold xmalloc
      dsimp only
      rw [if_pos (hsize.trans (by decide)),hrun]
    obtain ⟨d,hlive',henough⟩ := hholds.1 4096 s' count hcall
    rw [hlive] at hlive'
    obtain ⟨rfl,-⟩ := List.cons.inj hlive'
    omega

/-- A request for which the pages wrap passes 0 to `mmap`. -/
theorem not_holds_of_pages {request : ℕ} (hn : request+8<2^64) (hover : 2^64<request+4104) :
    ¬HoldsRequest s request := by
  intro hholds
  have hsize : blockSize request=request+8 := Nat.mod_eq_of_lt hn
  have hlength : mmapSize s request=some 0 := by
    unfold mmapSize
    dsimp only
    rw [hsize,if_neg (by omega),(pages_wrap hn).2 (by omega)]
  exact absurd (hholds.2 0 hlength).2.1 (Nat.lt_irrefl 0)

/-- `xmalloc` serves a request properly exactly when neither adding the header nor
rounding up to pages wraps. -/
theorem holds_request_iff (h : FreeBlocks s list) {request : ℕ} (hn : request<2^64) :
    HoldsRequest s request ↔ request+4104≤2^64 := by
  constructor
  · intro hholds
    by_contra hover
    by_cases hheader : 2^64≤request+8
    · exact not_holds_of_header h hn hheader hholds
    · exact not_holds_of_pages (s:=s) (by omega) (by omega) hholds
  · exact holds_of_fits h

/-- The heap before the first call. -/
def first : Store Unit := (start (fun _ => 0) : System).store

/-- A heap with two free blocks, one of 16 bytes at 32, which is smaller than its
cell, and one of 64 bytes at 96. -/
def smallBlocks : Store Unit :=
  {first with
    memory := fun address => (([(32,16),(48,96),(96,64)] : List (ℕ×UInt8)).lookup address).getD 0,
    head := fun _ => 32}

/-- Their cells do not overlap. -/
theorem freeBlocks_smallBlocks : FreeBlocks smallBlocks [⟨32,16⟩,⟨96,64⟩] where
  chain := ⟨rfl,by decide,by decide +kernel,by decide +kernel,by decide,by decide +kernel,
    by unfold Chain; decide +kernel⟩
  cells := ⟨by decide,List.pairwise_pair.mpr (by unfold Apart; decide)⟩
  small := by decide

/-- A request of 30 bytes. -/
theorem holds_beside_small : HoldsRequest smallBlocks 30 :=
  (holds_request_iff freeBlocks_smallBlocks (by decide)).mpr (by decide)

/-- A first request of 2^64-1 bytes gets a block of 7 bytes. -/
theorem huge_request_small_block :
    (∃ s', xmalloc first (2^64-1) 65536=some (s',1) ∧ s'.live=[⟨65536,2^64-1⟩] ∧
      sizeAt s'.memory 65536=7) ∧ ¬HoldsRequest first (2^64-1) := by
  have hrun : (xmalloc first (2^64-1) 65536).map (fun done =>
      (done.2,done.1.live,sizeAt done.1.memory 65536))=some (1,[⟨65536,2^64-1⟩],7) := by
    decide +kernel
  obtain ⟨⟨s',count⟩,hcall,hend⟩ := Option.map_eq_some_iff.mp hrun
  obtain ⟨rfl,hend⟩ := Prod.mk.inj hend
  obtain ⟨hlive,hstored⟩ := Prod.mk.inj hend
  refine ⟨⟨s',hcall,hlive,hstored⟩,fun hholds => ?_⟩
  obtain ⟨c,hlive',henough⟩ := hholds.1 65536 s' 1 hcall
  rw [hlive] at hlive'
  obtain ⟨rfl,-⟩ := List.cons.inj hlive'
  rw [hstored] at henough
  exact absurd henough (by decide)

end ComputerSystems.HuskySizes
