import ComputerSystems.RoutedHeap

/-!
# The allocator of `hmalloc.c`

One free list of cells, each with its size, an unused item and the link `rest`
at offset 16, serves all requests of less than a page; larger ones get pages of
their own. `xfree` decides by the stored size alone whether a block is listed or
unmapped. Where fresh pages never touch mapped ones, blocks tile the mapped
pages exactly. Where they may touch, a block of more than a page can come off
the list, and a block that is too small for a cell can go onto it.
-/

namespace ComputerSystems.HuskyMalloc

open BlockHeap BlockList ByteMemory HeapMemory LinkedBlocks PagedHeap RoutedHeap TransitionSystem

/-- Memory, `free_list_head` and `stats`. -/
abbrev System := Machine Unit Unit

/-- `offsetof(cell, rest)`. -/
def restOffset : ℕ := 16

/-- `xmalloc`; `mmapAddr` is what `mmap` returns if it is called, and the number of
mapped pages comes back. -/
def xmalloc (s : Store Unit) (request mmapAddr : ℕ) : Option (Store Unit × ℕ) :=
  let size := blockSize request
  if size<4096 then s.allocFrom restOffset () size request mmapAddr
  else (s.allocPages (divUp size 4096) request mmapAddr).map (fun done => (done,divUp size 4096))

/-- `xfree`: the number of unmapped pages comes back. -/
def xfree (s : Store Unit) (c : Client) : Option (Store Unit × ℕ) :=
  let bsize := sizeAt s.memory c.addr
  if bsize<4096 then (s.release restOffset () c).map (fun done => (done,0))
  else (s.unmap c).map (fun done => (done,bsize/4096))

/-- One call, or a write by a client. -/
def step : Call Unit → System → Option System
  | .malloc t request mmapAddr,m => (xmalloc m.store request mmapAddr).map (m.afterMalloc t)
  | .free t c,m => (xfree m.store c).map (m.afterFree t)
  | .write x byte,m => some {m with store := m.store.write x byte}

/-- The list for a size. -/
def listFor (_ : Unit) (size : ℕ) : Option Unit := if size<4096 then some () else none

/-- Sizes of a page and more have no list. -/
theorem routed_listFor (t : Unit) : Routed (listFor t) := by
  intro size
  unfold listFor
  split_ifs with hpage
  · exact ⟨nofun,fun h => by omega⟩
  · exact ⟨fun _ => by omega,fun _ => rfl⟩

/-- `xmalloc` chooses by the size of the block. -/
theorem xmalloc_eq (s : Store Unit) (t : Unit) (request mmapAddr : ℕ) :
    xmalloc s request mmapAddr=alloc restOffset (listFor t) s request mmapAddr := by
  unfold xmalloc alloc listFor
  dsimp only
  split_ifs with hpage <;> rfl

/-- `xfree` chooses by the stored size. -/
theorem xfree_eq (s : Store Unit) (t : Unit) (c : Client) :
    xfree s c=RoutedHeap.free restOffset (listFor t) s c := by
  unfold xfree RoutedHeap.free listFor
  dsimp only
  split_ifs with hpage <;> rfl

/-- The calls are those of an allocator that chooses by size. -/
theorem step_eq : step=RoutedHeap.step restOffset listFor := by
  funext call m
  cases call with
  | malloc t request mmapAddr => rw [step,RoutedHeap.step,xmalloc_eq m.store t]
  | free t c => rw [step,RoutedHeap.step,xfree_eq m.store t]
  | write x byte => rfl

/-! ## Fresh pages that never touch mapped ones -/

/-- Calls with requests of at least 16 and less than 2^63 bytes, of blocks in use,
where `mmap` returns fresh pages that touch no mapped one. -/
def Allowed (m : System) (call : Call Unit) : Prop := Separate restOffset listFor m call

instance (m : System) (call : Call Unit) : Decidable (Allowed m call) :=
  inferInstanceAs (Decidable (Separate restOffset listFor m call))

/-- In every reachable state blocks in use and free blocks tile the mapped pages:
they have no byte in common and cover exactly these pages, blocks in use hold
what was asked for, the free list is in order without touching blocks and the
counters know the bytes of all blocks. When nothing is in use, the free list is
the list of mapped pages; and every call succeeds. -/
theorem exact_tiling {memory : Bytes} {m : System} (h : Reachable step Allowed (start memory) m) :
    (∃ list, Accounted restOffset m (fun _ => list) ∧
      (m.store.live=[] → list=m.store.pages.sort.map (fun j => ⟨4096*j,4096⟩))) ∧
      ∀ call, Allowed m call → ∃ m', step call m=some m' := by
  rw [step_eq] at h ⊢
  obtain ⟨a,ha⟩ := reachable_tidy (by decide) routed_listFor h
  refine ⟨⟨a.free (),ha.accounted,fun hidle => ?_⟩,fun call hcall => ?_⟩
  · have hblocks : a.blocks=[] := by
      rw [Heap.blocks,ha.holds.live,hidle]
      rfl
    have hcovered := ha.good.covered
    have hlaid : Paged a.free a.blocks a.pages := ha.laid
    rw [hblocks] at hcovered hlaid
    rw [←ha.holds.pages]
    exact free_eq_pages hcovered hlaid (by decide)
  · obtain ⟨m',-,hstep,-⟩ := step_tidy (by decide) routed_listFor ha hcall
    exact ⟨m',hstep⟩

/-- One block of a page is allocated, cut and freed again: the free list is the
page. -/
theorem tiled_after_free : ∃ m : System, Reachable step Allowed (start (fun _ => 0)) m ∧
    m.store.pages={16} ∧ m.store.live=[] ∧
    ∃ list, Accounted restOffset m (fun _ => list) ∧ list=[⟨65536,4096⟩] := by
  have hrun : (follow step Allowed [.malloc () 100 65536,.free () ⟨65536,100⟩]
      (start (fun _ => 0))).map (fun m => (m.store.pages,m.store.live))=some ({16},[]) := by
    decide +kernel
  obtain ⟨m,hm,hend⟩ := Option.map_eq_some_iff.mp hrun
  obtain ⟨hpages,hlive⟩ := Prod.mk.inj hend
  have hreach := reachable_of_follow hm
  obtain ⟨list,haccount,hidle⟩ := (exact_tiling hreach).1
  refine ⟨m,hreach,hpages,hlive,list,haccount,?_⟩
  rw [hidle hlive,hpages,Finset.sort_singleton]
  rfl

/-! ## Fresh pages that may touch mapped ones -/

/-- Calls with requests of at least 16 and less than 2^63 bytes, of blocks in use,
where `mmap` returns fresh pages. -/
def Plain (m : System) : Call Unit → Prop
  | .malloc t request mmapAddr => 16≤request ∧ request<2^63 ∧
      (needed restOffset (listFor t) m.store request≠0 →
        Fresh m.store.pages mmapAddr (needed restOffset (listFor t) m.store request))
  | .free _ c => c∈m.store.live
  | .write x _ => Writable m.store x

instance (m : System) : ∀ call, Decidable (Plain m call)
  | .malloc _ _ _ => inferInstanceAs (Decidable (_ ∧ _ ∧ (_ → _)))
  | .free _ c => inferInstanceAs (Decidable (c∈m.store.live))
  | .write x _ => inferInstanceAs (Decidable (Writable m.store x))

/-- A small request that takes a free block of a page or more without cutting it
takes exactly one page. -/
def TakesPage (m : System) : Call Unit → Prop
  | .malloc _ request _ => blockSize request<4096 →
      FitsPage restOffset (blockSize request) (m.store.list restOffset ())
  | _ => True

instance (m : System) : ∀ call, Decidable (TakesPage m call)
  | .malloc _ _ _ => inferInstanceAs (Decidable (_ → _))
  | .free _ _ => inferInstanceAs (Decidable True)
  | .write _ _ => inferInstanceAs (Decidable True)

/-- The pages that `xfree` unmaps for a block. -/
def unmapped (s : Store Unit) (c : Client) : Finset ℕ :=
  pageRun (c.addr/4096) ((sizeAt s.memory c.addr+4095)/4096)

/-- `xfree` unmaps the block and nothing else: the block is made of whole pages,
which hold no byte of another block, and `munmap` succeeds. -/
structure UnmapsOwn (s : Store Unit) (c : Client) : Prop where
  /-- The block begins with a page. -/
  aligned : c.addr%4096=0
  /-- The block is made of whole pages. -/
  whole : sizeAt s.memory c.addr%4096=0
  /-- The pages hold no byte of another block in use. -/
  others : ∀ d∈s.live.erase c, ∀ x, (s.entry d).block.Holds x → x/4096∉unmapped s c
  /-- The pages hold no byte of a free block. -/
  listed : ∀ b∈s.list restOffset (), ∀ x, b.Holds x → x/4096∉unmapped s c
  /-- The call succeeds. -/
  succeeds : ∃ done, xfree s c=some done

/-- Every block that `xfree` would unmap is its own pages, and blocks in use are
mapped. -/
def UnmapsOnlyOwn (m : System) : Prop :=
  (∀ c∈m.store.live, 4096 ≤ sizeAt m.store.memory c.addr → UnmapsOwn m.store c) ∧
    ∀ c∈m.store.live, ∀ x, (m.store.entry c).block.Holds x → x/4096∈m.store.pages

/-- A machine whose blocks in use of a page or more are runs of pages. -/
structure Whole (m : System) (a : Heap Unit) : Prop extends Sound restOffset m a where
  /-- Blocks of a page or more are runs of pages. -/
  runs : Runs a
  /-- Requests had room for a cell. -/
  room : ∀ e∈a.live, 16≤e.request

/-- Every call whose small requests take whole pages only keeps the blocks whole. -/
theorem step_whole {m m' : System} {a : Heap Unit} (h : Whole m a) {call : Call Unit}
    (hcall : Plain m call) (htakes : TakesPage m call) (hstep : step call m=some m') :
    ∃ a', Whole m' a' := by
  rw [step_eq] at hstep
  cases call with
  | malloc t request mmapAddr =>
    obtain ⟨hlow,hhigh,hfresh⟩ := hcall
    have hsize := blockSize_eq hhigh
    obtain ⟨m₁,hrun,hsound,-⟩ := malloc_sound (by decide) routed_listFor h.toSound hsize hfresh
    rw [hstep] at hrun
    cases hrun
    have hfits : ∀ k, listFor t (blockSize request)=some k →
        FitsPage restOffset (blockSize request) (a.free k) := by
      intro k hk
      rw [←h.holds.list_eq h.good k]
      exact htakes ((routed_listFor t).lt_page hk)
    obtain ⟨b,hlive⟩ := allocBlock_live restOffset (listFor t) a request mmapAddr
    refine ⟨_,hsound,allocBlock_runs (by decide) (routed_listFor t) h.holds h.good h.runs hfresh hfits,
      fun e he => ?_⟩
    rw [hlive] at he
    rcases List.mem_cons.mp he with rfl|he
    · exact hlow
    · exact h.room e he
  | free t c =>
    have hentry := entry_mem h.holds hcall
    have hroom := h.room _ hentry
    have henough := h.good.enough _ hentry
    obtain ⟨m₁,hrun,hsound,-⟩ := free_sound (t:=t) (by decide) routed_listFor h.toSound hcall
      (fun _ _ => Or.inl (show 24≤_ by omega)) (fun hlarge => h.runs _ hentry hlarge)
    rw [hstep] at hrun
    cases hrun
    refine ⟨_,hsound,freeBlock_runs h.runs _,fun e he => ?_⟩
    rw [freeBlock_live] at he
    exact h.room e (List.mem_of_mem_erase he)
  | write x byte =>
    cases hstep
    exact ⟨a,write_sound (by decide) h.toSound byte hcall,h.runs,h.room⟩

/-- Where blocks are whole, `xfree` unmaps nothing but its own block. -/
theorem Whole.unmapsOnlyOwn {m : System} {a : Heap Unit} (h : Whole m a) : UnmapsOnlyOwn m := by
  refine ⟨fun c hc hlarge => ?_,fun c hc x hx => ?_⟩
  · have hentry := entry_mem h.holds hc
    have hrun := h.runs _ hentry hlarge
    have haddr : c.addr=4096*(c.addr/4096) := congrArg Block.addr hrun
    have hsize := congrArg Block.size hrun
    change sizeAt m.store.memory c.addr=4096*(sizeAt m.store.memory c.addr/4096) at hsize
    have hcount : (sizeAt m.store.memory c.addr+4095)/4096=sizeAt m.store.memory c.addr/4096 := by
      omega
    have hown : ∀ x, x/4096∈unmapped m.store c → (m.store.entry c).block.Holds x := by
      intro x hx
      unfold unmapped at hx
      rw [hcount] at hx
      rw [hrun]
      exact holds_runBlock.mpr hx
    have hcovered := h.good.covered.perm (blocks_perm hentry)
    have hroom := h.room _ hentry
    have henough := h.good.enough _ hentry
    refine ⟨by omega,by omega,fun d hd x hx hin => ?_,fun b hb x hx hin => ?_,?_⟩
    · have hother : (m.store.entry d).block∈(a.live.erase (m.store.entry c)).map Entry.block := by
        rw [live_erase h.holds c]
        exact List.mem_map_of_mem (List.mem_map_of_mem hd)
      have hapart := (List.pairwise_cons.mp hcovered.live_apart).1 _ hother
      exact not_holds_of_apart hapart hx (hown x hin)
    · rw [h.holds.list_eq h.good] at hb
      exact not_holds_of_apart (hcovered.live_free (by decide) List.mem_cons_self hb) hx (hown x hin)
    · obtain ⟨s',count,hdone,-⟩ := free_spec (by decide) (routed_listFor ()) h.holds h.good hc
        (fun _ _ => Or.inl (show 24≤_ by omega)) (fun _ => hrun)
      exact ⟨(s',count),(xfree_eq m.store () c).trans hdone⟩
  · rw [←h.holds.pages]
    exact h.good.covered.mapped (Or.inl (List.mem_map_of_mem (entry_mem h.holds hc))) hx

/-- In every run whose small requests take a free block of a page or more, if they
do not cut it, only where it is exactly one page, `xfree` unmaps nothing but its
own block. -/
theorem unmaps_only_own {memory : Bytes} {m : System}
    (h : Reachable step (fun m call => Plain m call ∧ TakesPage m call) (start memory) m) :
    UnmapsOnlyOwn m := by
  have hwhole : ∃ a, Whole m a := by
    refine h.invariant (fun m => ∃ a, Whole m a) ?_ ?_
    · exact ⟨_,sound_start memory,nofun,nofun⟩
    · rintro call before next ⟨a,ha⟩ ⟨hplain,htakes⟩ hstep
      exact step_whole ha hplain htakes hstep
  obtain ⟨a,ha⟩ := hwhole
  exact ha.unmapsOnlyOwn

/-- A block of one page, which `xfree` unmaps, next to a mapped page. -/
theorem page_is_unmapped : ∃ m : System,
    Reachable step (fun m call => Plain m call ∧ TakesPage m call) (start (fun _ => 0)) m ∧
      m.store.pages={16,17} ∧ (⟨69632,4080⟩ : Client)∈m.store.live ∧ UnmapsOwn m.store ⟨69632,4080⟩ := by
  have hrun : (follow step (fun m call => Plain m call ∧ TakesPage m call)
      [.malloc () 88 65536,.malloc () 4080 69632] (start (fun _ => 0))).map
      (fun m => (m.store.pages,m.store.live,sizeAt m.store.memory 69632))=
        some ({16,17},[⟨69632,4080⟩,⟨65536,88⟩],4096) := by
    decide +kernel
  obtain ⟨m,hm,hend⟩ := Option.map_eq_some_iff.mp hrun
  obtain ⟨hpages,hrest⟩ := Prod.mk.inj hend
  obtain ⟨hlive,hsize⟩ := Prod.mk.inj hrest
  have hreach := reachable_of_follow hm
  have hmem : (⟨69632,4080⟩ : Client)∈m.store.live := by
    rw [hlive]
    exact List.mem_cons_self
  exact ⟨m,hreach,hpages,hmem,(unmaps_only_own hreach).1 _ hmem hsize.ge⟩

/-- Two pages that touch: a block is freed into the remainder of the page before
it, the joined block is cut inside the first page and what is left, 4100 bytes
from the middle of a page on, goes to the next request. `xfree` then unmaps from
an address that is not that of a page. -/
theorem unmaps_from_inside_a_page : ∃ m : System,
    Reachable step Plain (start (fun _ => 0)) m ∧
      (⟨69628,4080⟩ : Client)∈m.store.live ∧ sizeAt m.store.memory 69628=4100 ∧
      xfree m.store ⟨69628,4080⟩=none ∧ ¬UnmapsOnlyOwn m := by
  have hrun : (follow step Plain [.malloc () 88 65536,.malloc () 4000 69632,
      .free () ⟨69632,4000⟩,.malloc () 3988 0,.malloc () 4080 0] (start (fun _ => 0))).map
      (fun m => (m.store.live,sizeAt m.store.memory 69628,(xfree m.store ⟨69628,4080⟩).isNone))=
        some ([⟨69628,4080⟩,⟨65632,3988⟩,⟨65536,88⟩],4100,true) := by
    decide +kernel
  obtain ⟨m,hm,hend⟩ := Option.map_eq_some_iff.mp hrun
  obtain ⟨hlive,hrest⟩ := Prod.mk.inj hend
  obtain ⟨hsize,hnone⟩ := Prod.mk.inj hrest
  have hmem : (⟨69628,4080⟩ : Client)∈m.store.live := by
    rw [hlive]
    exact List.mem_cons_self
  refine ⟨m,reachable_of_follow hm,hmem,hsize,Option.isNone_iff_eq_none.mp hnone,fun hown => ?_⟩
  have haligned := (hown.1 _ hmem (by rw [hsize]; decide)).aligned
  exact absurd haligned (by decide)

/-! ## Requests of any size -/

/-- Calls with requests of any size, of blocks in use, where `mmap` returns fresh
pages. -/
def AnySize (m : System) : Call Unit → Prop
  | .malloc t request mmapAddr => request<2^64 ∧
      (needed restOffset (listFor t) m.store request≠0 →
        Fresh m.store.pages mmapAddr (needed restOffset (listFor t) m.store request))
  | .free _ c => c∈m.store.live
  | .write x _ => Writable m.store x

instance (m : System) : ∀ call, Decidable (AnySize m call)
  | .malloc _ _ _ => inferInstanceAs (Decidable (_ ∧ (_ → _)))
  | .free _ c => inferInstanceAs (Decidable (c∈m.store.live))
  | .write x _ => inferInstanceAs (Decidable (Writable m.store x))

/-- The size of a request with its header does not wrap; a freed block that is
listed has room for a cell or touches a free block, and one that is unmapped is
made of whole pages. -/
def Careful (m : System) : Call Unit → Prop
  | .malloc _ request _ => request+8<2^64
  | .free _ c =>
      (sizeAt m.store.memory c.addr<4096 →
        Joins 24 (m.store.entry c).block (m.store.list restOffset ())) ∧
      (4096 ≤ sizeAt m.store.memory c.addr →
        c.addr%4096=0 ∧ sizeAt m.store.memory c.addr%4096=0)
  | .write _ _ => True

instance (m : System) : ∀ call, Decidable (Careful m call)
  | .malloc _ request _ => inferInstanceAs (Decidable (request+8<2^64))
  | .free _ _ => inferInstanceAs (Decidable ((_ → _) ∧ (_ → _)))
  | .write _ _ => inferInstanceAs (Decidable True)

/-- The clients whose blocks `xmalloc` and `xfree` must leave alone. -/
def others (m : System) : Call Unit → List Client
  | .malloc _ _ _ => m.store.live
  | .free _ c => m.store.live.erase c
  | .write _ _ => []

/-- A call leaves every byte of the header and of the user area of every other
block as it is, and mapped; the user area has the bytes asked for and all that
the stored size gives beyond them. -/
def KeepsOthers (m : System) (call : Call Unit) (m' : System) : Prop :=
  ∀ d∈others m call, ∀ x, d.addr≤x →
    x<d.addr+max (8+d.request) (sizeAt m.store.memory d.addr) →
      m'.store.memory x=m.store.memory x ∧ x/4096∈m'.store.pages

/-- The header and the user area of a block in use lie in the block. -/
theorem holds_user {m : System} {a : Heap Unit} (h : Sound restOffset m a) {d : Client}
    (hd : d∈m.store.live) {x : ℕ} (hlow : d.addr≤x)
    (hhigh : x<d.addr+max (8+d.request) (sizeAt m.store.memory d.addr)) :
    (m.store.entry d).block.Holds x := by
  have henough := h.good.enough _ (entry_mem h.holds hd)
  unfold Store.entry at henough ⊢
  unfold Block.Holds Block.stop
  dsimp only at henough ⊢
  omega

/-- A call that keeps the bytes of the blocks that stay in use keeps the others. -/
theorem keepsOthers_of {m m' : System} {a a' : Heap Unit} (h : Sound restOffset m a)
    (h' : Sound restOffset m' a') {call : Call Unit} (hothers : ∀ d∈others m call, d∈m.store.live)
    (hstay : ∀ d∈others m call, m.store.entry d∈a'.live)
    (hkeep : ∀ d∈others m call, ∀ x, (m.store.entry d).block.Holds x →
      m'.store.memory x=m.store.memory x) : KeepsOthers m call m' := by
  intro d hd x hlow hhigh
  have hx := holds_user h (hothers d hd) hlow hhigh
  refine ⟨hkeep d hd x hx,?_⟩
  rw [←h'.holds.pages]
  exact h'.good.covered.mapped (Or.inl (List.mem_map_of_mem (hstay d hd))) hx

/-- A careful call keeps the account and the others. -/
theorem step_careful {m m' : System} {a : Heap Unit} (h : Sound restOffset m a) {call : Call Unit}
    (hcall : AnySize m call) (hcareful : Careful m call) (hstep : step call m=some m') :
    ∃ a', Sound restOffset m' a' ∧ KeepsOthers m call m' := by
  rw [step_eq] at hstep
  cases call with
  | malloc t request mmapAddr =>
    obtain ⟨-,hfresh⟩ := hcall
    have hsize : blockSize request=request+8 := Nat.mod_eq_of_lt hcareful
    obtain ⟨m₁,hrun,hsound,hkeep⟩ := malloc_sound (by decide) routed_listFor h hsize hfresh
    rw [hstep] at hrun
    cases hrun
    obtain ⟨b,hlive⟩ := allocBlock_live restOffset (listFor t) a request mmapAddr
    refine ⟨_,hsound,keepsOthers_of h hsound (fun d hd => hd) (fun d hd => ?_) (fun d hd => ?_)⟩
    · rw [hlive]
      exact List.mem_cons_of_mem _ (entry_mem h.holds hd)
    · exact hkeep _ (entry_mem h.holds hd)
  | free t c =>
    obtain ⟨hlisted,hwhole⟩ := hcareful
    have hjoins : ∀ k, listFor t (sizeAt m.store.memory c.addr)=some k →
        Joins (restOffset+8) (m.store.entry c).block (a.free k) := by
      intro k hk
      rw [←h.holds.list_eq h.good k]
      exact hlisted ((routed_listFor t).lt_page hk)
    have hpages : 4096 ≤ sizeAt m.store.memory c.addr → (m.store.entry c).block=
        runBlock ((m.store.entry c).block.addr/4096) ((m.store.entry c).block.size/4096) :=
      fun hlarge => eq_runBlock (Or.inr (hwhole hlarge)) hlarge
    obtain ⟨m₁,hrun,hsound,hkeep⟩ := free_sound (by decide) routed_listFor h hcall hjoins hpages
    rw [hstep] at hrun
    cases hrun
    have hstay : ∀ d∈m.store.live.erase c, m.store.entry d∈a.live.erase (m.store.entry c) := by
      intro d hd
      rw [live_erase h.holds c]
      exact List.mem_map_of_mem hd
    refine ⟨_,hsound,keepsOthers_of h hsound (fun d hd => List.mem_of_mem_erase hd)
      (fun d hd => ?_) (fun d hd => hkeep _ (hstay d hd))⟩
    rw [freeBlock_live]
    exact hstay d hd
  | write x byte =>
    cases hstep
    exact ⟨a,write_sound (by decide) h byte hcall,nofun⟩

/-- In every run of careful calls, every call leaves the bytes of all other blocks
in use alone. -/
theorem keeps_others {memory : Bytes} {m m' : System} {call : Call Unit}
    (h : Reachable step (fun m call => AnySize m call ∧ Careful m call) (start memory) m)
    (hcall : AnySize m call) (hcareful : Careful m call) (hstep : step call m=some m') :
    KeepsOthers m call m' := by
  have hsound : ∃ a, Sound restOffset m a := by
    refine h.invariant (fun m => ∃ a, Sound restOffset m a) ?_ ?_
    · exact ⟨_,sound_start memory⟩
    · rintro before call next ⟨a,ha⟩ ⟨hany,hcare⟩ hnext
      obtain ⟨a',ha',-⟩ := step_careful ha hany hcare hnext
      exact ⟨a',ha'⟩
  obtain ⟨a,ha⟩ := hsound
  obtain ⟨a',-,hkeeps⟩ := step_careful ha hcall hcareful hstep
  exact hkeeps

/-- A block of 8 bytes is freed while it touches a free block. -/
theorem small_block_joins : ∃ m m' : System,
    Reachable step (fun m call => AnySize m call ∧ Careful m call) (start (fun _ => 0)) m ∧
      step (.free () ⟨65560,0⟩) m=some m' ∧ others m (.free () ⟨65560,0⟩)=[⟨65536,16⟩] ∧
      KeepsOthers m (.free () ⟨65560,0⟩) m' := by
  have hrun : (follow step (fun m call => AnySize m call ∧ Careful m call)
      [.malloc () 16 65536,.malloc () 0 0] (start (fun _ => 0))).map
      (fun m => (m.store.live,decide (AnySize m (.free () ⟨65560,0⟩) ∧ Careful m (.free () ⟨65560,0⟩)),
        (step (.free () ⟨65560,0⟩) m).isSome))=
        some ([⟨65560,0⟩,⟨65536,16⟩],true,true) := by
    decide +kernel
  obtain ⟨m,hm,hend⟩ := Option.map_eq_some_iff.mp hrun
  obtain ⟨hlive,hrest⟩ := Prod.mk.inj hend
  obtain ⟨hcall,hsome⟩ := Prod.mk.inj hrest
  obtain ⟨hany,hcareful⟩ := of_decide_eq_true hcall
  obtain ⟨m',hm'⟩ := Option.isSome_iff_exists.mp hsome
  have hothers : others m (.free () ⟨65560,0⟩)=[⟨65536,16⟩] := by
    rw [others,hlive]
    decide
  have hreach := reachable_of_follow hm
  exact ⟨m,m',hreach,hm',hothers,keeps_others hreach hany hcareful hm'⟩

/-- A block of 8 bytes is freed in front of a block in use: its link is written into
the other block. -/
theorem link_overwrites_neighbour : ∃ m m' : System,
    Reachable step AnySize (start (fun _ => 0)) m ∧ AnySize m (.free () ⟨65536,0⟩) ∧
      step (.free () ⟨65536,0⟩) m=some m' ∧ ¬KeepsOthers m (.free () ⟨65536,0⟩) m' := by
  have hrun : (follow step AnySize [.malloc () 0 65536,.malloc () 16 0] (start (fun _ => 0))).map
      (fun m => (m.store.live,m.store.memory 65552,
        (step (.free () ⟨65536,0⟩) m).map (fun m' => m'.store.memory 65552)))=
        some ([⟨65544,16⟩,⟨65536,0⟩],0,some 32) := by
    decide +kernel
  obtain ⟨m,hm,hend⟩ := Option.map_eq_some_iff.mp hrun
  obtain ⟨hlive,hrest⟩ := Prod.mk.inj hend
  obtain ⟨hbefore,hafter⟩ := Prod.mk.inj hrest
  obtain ⟨m',hm',hbyte⟩ := Option.map_eq_some_iff.mp hafter
  have hany : AnySize m (.free () ⟨65536,0⟩) := by
    show (⟨65536,0⟩ : Client)∈m.store.live
    rw [hlive]
    decide
  refine ⟨m,m',reachable_of_follow hm,hany,hm',fun hkeeps => ?_⟩
  have hother : (⟨65544,16⟩ : Client)∈others m (.free () ⟨65536,0⟩) := by
    rw [others,hlive]
    decide
  have hsame := (hkeeps _ hother 65552 (by decide) (by dsimp only; omega)).1
  rw [hbefore,hbyte] at hsame
  exact absurd hsame (by decide)

end ComputerSystems.HuskyMalloc
