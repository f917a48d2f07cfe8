import ComputerSystems.HeapMemory
import ComputerSystems.TransitionSystem
import Mathlib.Tactic.Ring

/-!
# Allocators that choose a list by size

An allocator with several threads: requests of less than a page are served
from a free list that depends on the thread and the size, all others by pages
of their own, and a block goes back the same way when it is freed. Each thread
counts the pages it maps and unmaps. The steps are those of memory; over them
stand the abstract heap, what one call does to it and what holds after any
number of calls by any threads. This module names no particular allocator.
-/

namespace ComputerSystems.RoutedHeap

open BlockHeap BlockList ByteMemory HeapMemory LinkedBlocks PagedHeap TransitionSystem UpdateSum

variable {τ κ : Type} [DecidableEq κ]

/-- Division, rounded up. -/
def divUp (xx yy : ℕ) : ℕ := if xx/yy*yy=xx then xx/yy else xx/yy+1

/-- The bytes of a block for a request, with its header; machine words wrap. -/
def blockSize (request : ℕ) : ℕ := (request+8)%2^64

/-- The pages that a request maps: one where its list has no fit, and all its
pages where it has no list. -/
def needed (link : ℕ) (route : ℕ → Option κ) (s : Store κ) (request : ℕ) : ℕ :=
  match route (blockSize request) with
  | some k =>
    if (takeNode link (blockSize request) maxNodes s.memory (s.head k)).map (fun done => done.2.2)=
      some 0 then 1 else 0
  | none => divUp (blockSize request) 4096

/-- A request: the number of mapped pages comes back. -/
def alloc (link : ℕ) (route : ℕ → Option κ) (s : Store κ) (request fresh : ℕ) :
    Option (Store κ × ℕ) :=
  match route (blockSize request) with
  | some k => s.allocFrom link k (blockSize request) request fresh
  | none =>
    (s.allocPages (divUp (blockSize request) 4096) request fresh).map (fun done =>
      (done,divUp (blockSize request) 4096))

/-- A block is freed, to a list or to the system: the number of unmapped pages
comes back. -/
def free (link : ℕ) (route : ℕ → Option κ) (s : Store κ) (c : Client) : Option (Store κ × ℕ) :=
  match route (sizeAt s.memory c.addr) with
  | some k => (s.release link k c).map (fun done => (done,0))
  | none => (s.unmap c).map (fun done => (done,sizeAt s.memory c.addr/4096))

/-- A request to the abstract heap. -/
def allocBlock (link : ℕ) (route : ℕ → Option κ) (a : Heap κ) (request fresh : ℕ) : Heap κ :=
  match route (blockSize request) with
  | some k => a.allocFrom (link+8) k (blockSize request) request fresh
  | none => a.allocPages (divUp (blockSize request) 4096) request fresh

/-- A block of the abstract heap is freed. -/
def freeBlock (route : ℕ → Option κ) (a : Heap κ) (e : Entry) : Heap κ :=
  match route e.block.size with
  | some k => a.release k e
  | none => a.unmap e

/-- Requests of less than a page have a list, all others have none. -/
def Routed (route : ℕ → Option κ) : Prop := ∀ size, route size=none ↔ 4096 ≤ size

/-- Rounding up: the product is enough, and less than one page more. -/
theorem divUp_bounds (size : ℕ) : size≤4096*divUp size 4096 ∧ 4096*divUp size 4096<size+4096 := by
  unfold divUp
  split_ifs with h <;> omega

/-- Requests that do not wrap. -/
theorem blockSize_eq {request : ℕ} (h : request<2^63) : blockSize request=request+8 :=
  Nat.mod_eq_of_lt (by omega)

omit [DecidableEq κ] in
/-- Sizes with a list are less than a page. -/
theorem Routed.lt_page {route : ℕ → Option κ} (h : Routed route) {size : ℕ} {k : κ}
    (hk : route size=some k) : size<4096 := by
  by_contra hlarge
  rw [(h size).mpr (by omega)] at hk
  cases hk

section Calls

variable [Fintype κ] {link : ℕ} {route : ℕ → Option κ} {s : Store κ} {a : Heap κ}

/-- The pages that are needed are those that the lists need. -/
theorem needed_eq (hlink : 8≤link) (hholds : Holds link s a) (hgood : Good (link+8) a)
    {request : ℕ} {k : κ} (hk : route (blockSize request)=some k) (fresh : ℕ) :
    needed link route s request=(a.obtain k (blockSize request) fresh).2.2 := by
  have hroom : ∀ b∈a.free k, Roomy link b :=
    fun b hb => free_roomy hgood.covered hgood.high hb
  have hne : ∀ b∈a.free k, b.addr≠0 :=
    fun b hb => addr_ne_zero hgood.covered hgood.low (Or.inr ⟨k,hb⟩)
  obtain ⟨hnone,hsome⟩ := takeNode_spec hlink (blockSize request) maxNodes
    (length_lt_maxNodes (apart_of_spaced (hgood.covered.spaced k)) hroom) hroom
    (apart_of_spaced (hgood.covered.spaced k))
    (hholds.chains k)
  unfold needed Heap.obtain
  rw [hk]
  dsimp only
  cases htake : takeFit (blockSize request) (a.free k) with
  | none =>
    rw [hnone htake]
    rfl
  | some found =>
    obtain ⟨b,left⟩ := found
    obtain ⟨m,p,hrun,-,-⟩ := hsome b left htake
    obtain ⟨before,after,hk',-,-⟩ := takeFit_eq_some htake
    have hb : b∈a.free k := by
      rw [hk']
      exact List.mem_append_right before List.mem_cons_self
    rw [hrun,Option.map_some,if_neg]
    intro hzero
    exact hne b hb (Option.some.inj hzero)

omit [Fintype κ] [DecidableEq κ] in
/-- Requests without a list need all their pages. -/
theorem needed_of_pages (link : ℕ) (s : Store κ) {request : ℕ}
    (hk : route (blockSize request)=none) :
    needed link route s request=divUp (blockSize request) 4096 := by
  unfold needed
  rw [hk]

omit [Fintype κ] in
/-- Obtaining a block leaves the blocks in use alone. -/
theorem obtain_live (a : Heap κ) (k : κ) (size fresh : ℕ) : (a.obtain k size fresh).1.live=a.live := by
  unfold Heap.obtain
  cases takeFit size (a.free k) <;> rfl

/-- What is fresh for the pages that are needed is fresh where the list has no
fit. -/
theorem fresh_of_needed (hlink : 8≤link) (hholds : Holds link s a) (hgood : Good (link+8) a)
    {request : ℕ} (fresh : ℕ) {k : κ} (hk : route (blockSize request)=some k) {p : ℕ → Prop}
    (h : needed link route s request≠0 → p (needed link route s request))
    (hnone : takeFit (blockSize request) (a.free k)=none) : p 1 := by
  have hneeded := needed_eq hlink hholds hgood hk fresh
  unfold Heap.obtain at hneeded
  rw [hnone] at hneeded
  dsimp only at hneeded
  rw [hneeded] at h
  exact h Nat.one_ne_zero

/-- A request in memory is one to the abstract heap, which keeps its account; the
bytes of all blocks in use stay. -/
theorem alloc_spec (hlink : 8≤link) (hroute : Routed route) (hholds : Holds link s a)
    (hgood : Good (link+8) a) {request fresh : ℕ} (hsize : blockSize request=request+8)
    (hfresh : needed link route s request≠0 →
      Fresh s.pages fresh (needed link route s request)) :
    ∃ s', alloc link route s request fresh=some (s',needed link route s request) ∧
      Holds link s' (allocBlock link route a request fresh) ∧
      Good (link+8) (allocBlock link route a request fresh) ∧
      (allocBlock link route a request fresh).bytes=a.bytes+4096*needed link route s request ∧
      ∀ e∈a.live, ∀ x, e.block.Holds x → s'.memory x=s.memory x := by
  have hheader : 8≤blockSize request := by omega
  rw [←hholds.pages] at hfresh
  unfold alloc allocBlock
  cases hk : route (blockSize request) with
  | some k =>
    have hpage := (hroute.lt_page hk).le
    have hnone := fun hnone => fresh_of_needed hlink hholds hgood fresh hk
      (p:=fun count => Fresh a.pages fresh count) hfresh hnone
    obtain ⟨s',hrun,hholds',hkeep⟩ := allocFrom_spec hlink hholds hgood k request hnone hheader hpage
    obtain ⟨hgood',hbytes⟩ := hgood.allocFrom (by omega) hnone hheader hpage hsize.ge
    rw [needed_eq hlink hholds hgood hk fresh]
    exact ⟨s',hrun,hholds',hgood',hbytes,hkeep⟩
  | none =>
    have hneeded := needed_of_pages link s hk
    have hbounds := divUp_bounds (blockSize request)
    rw [hneeded] at hfresh ⊢
    have hnew := hfresh (by omega)
    obtain ⟨s',hrun,hholds',hkeep⟩ := allocPages_spec hholds hgood request hnew (by omega)
    obtain ⟨hgood',hbytes⟩ := hgood.allocPages hnew (hsize.ge.trans hbounds.1)
    exact ⟨s',by rw [hrun]; rfl,hholds',hgood',hbytes,hkeep⟩

/-- A freed block in memory is one of the abstract heap, which keeps its account;
the bytes of all other blocks in use stay. -/
theorem free_spec (hlink : 8≤link) (hroute : Routed route) (hholds : Holds link s a)
    (hgood : Good (link+8) a) {c : Client} (hc : c∈s.live)
    (hjoins : ∀ k, route (sizeAt s.memory c.addr)=some k →
      Joins (link+8) (s.entry c).block (a.free k))
    (hrun : 4096 ≤ sizeAt s.memory c.addr →
      (s.entry c).block=runBlock ((s.entry c).block.addr/4096) ((s.entry c).block.size/4096)) :
    ∃ s' count, free link route s c=some (s',count) ∧
      Holds link s' (freeBlock route a (s.entry c)) ∧
      Good (link+8) (freeBlock route a (s.entry c)) ∧
      (freeBlock route a (s.entry c)).bytes+4096*count=a.bytes ∧
      ∀ e∈a.live.erase (s.entry c), ∀ x, e.block.Holds x → s'.memory x=s.memory x := by
  have hentry := entry_mem hholds hc
  have hblock : (s.entry c).block.size=sizeAt s.memory c.addr := rfl
  unfold free freeBlock
  rw [hblock]
  cases hk : route (sizeAt s.memory c.addr) with
  | some k =>
    obtain ⟨s',hdone,hholds',hkeep⟩ := release_spec hlink hholds hgood hc (hjoins k hk)
    obtain ⟨hgood',hbytes⟩ := hgood.release (by omega) hentry (hjoins k hk)
    refine ⟨s',0,?_,hholds',hgood',hbytes,hkeep⟩
    dsimp only
    rw [hdone,Option.map_some]
  | none =>
    have hpages := hrun ((hroute _).mp hk)
    have hpos := hgood.covered.live_pos (List.mem_map_of_mem hentry)
    obtain ⟨s',hdone,hholds',hsame⟩ := unmap_spec hholds hpages hpos
    obtain ⟨hgood',hbytes⟩ := hgood.unmap hentry hpages
    refine ⟨s',sizeAt s.memory c.addr/4096,?_,hholds',hgood',hbytes,fun e _ x _ => ?_⟩
    · dsimp only
      rw [hdone,Option.map_some]
    · rw [hsame]

/-- A request keeps blocks within their pages where fresh pages touch no mapped
one. -/
theorem allocBlock_laid (hlink : 8≤link) (hroute : Routed route) (hholds : Holds link s a)
    (hgood : Good (link+8) a) (hlaid : a.Laid) {request fresh : ℕ}
    (hsize : blockSize request=request+8)
    (hfresh : needed link route s request≠0 →
      Fresh s.pages fresh (needed link route s request) ∧
        Untouched s.pages (fresh/4096) (needed link route s request)) :
    (allocBlock link route a request fresh).Laid := by
  rw [←hholds.pages] at hfresh
  unfold allocBlock
  cases hk : route (blockSize request) with
  | some k =>
    have hpage := (hroute.lt_page hk).le
    have hnone := fun hnone => fresh_of_needed hlink hholds hgood fresh hk
      (p:=fun count => Fresh a.pages fresh count ∧ Untouched a.pages (fresh/4096) count) hfresh
      hnone
    exact hgood.laid_allocFrom hlaid (by omega) hnone (by omega) hpage
  | none =>
    have hneeded := needed_of_pages link s hk
    have hbounds := divUp_bounds (blockSize request)
    rw [hneeded] at hfresh
    have hnew := hfresh (by omega)
    exact laid_allocPages hlaid hnew.1 hnew.2

/-- A freed block keeps blocks within their pages. -/
theorem freeBlock_laid (hroute : Routed route) (hgood : Good (link+8) a) (hlaid : a.Laid) {e : Entry}
    (he : e∈a.live) : (freeBlock route a e).Laid := by
  unfold freeBlock
  cases hk : route e.block.size with
  | some k =>
    exact hgood.laid_release hlaid (by omega) he (hroute.lt_page hk)
  | none => exact laid_unmap hlaid he (hlaid.run he ((hroute _).mp hk))

omit [Fintype κ] in
/-- A request adds one block in use. -/
theorem allocBlock_live (link : ℕ) (route : ℕ → Option κ) (a : Heap κ) (request fresh : ℕ) :
    ∃ b, (allocBlock link route a request fresh).live=⟨b,request⟩::a.live := by
  unfold allocBlock
  cases route (blockSize request) with
  | some k =>
    have hlive := obtain_live a k (blockSize request) fresh
    dsimp only
    unfold Heap.allocFrom
    rcases place_cases (a.obtain k (blockSize request) fresh).1 (link+8) k
      (a.obtain k (blockSize request) fresh).2.1 (blockSize request) request with ⟨-,heq⟩|⟨-,heq⟩
    · rw [heq,hlive]
      exact ⟨_,rfl⟩
    · rw [heq,hlive]
      exact ⟨_,rfl⟩
  | none => exact ⟨_,rfl⟩

omit [Fintype κ] in
/-- A freed block is no longer in use. -/
theorem freeBlock_live (a : Heap κ) (e : Entry) : (freeBlock route a e).live=a.live.erase e := by
  unfold freeBlock
  cases route e.block.size <;> rfl

/-- Blocks in use of a page or more are runs of pages. -/
def Runs (a : Heap κ) : Prop :=
  ∀ e∈a.live, 4096≤e.block.size → e.block=runBlock (e.block.addr/4096) (e.block.size/4096)

/-- The first fit of a list, where it has a page or more and is not cut, is one
page. -/
def FitsPage (link size : ℕ) (list : List Block) : Prop :=
  ∀ b left, takeFit size list=some (b,left) → 4096≤b.size → b.size ≤ size+(link+8) →
    b=runBlock (b.addr/4096) 1

instance (link size : ℕ) (list : List Block) : Decidable (FitsPage link size list) :=
  match htake : takeFit size list with
  | none => isTrue (fun b left h => by rw [htake] at h; cases h)
  | some (b,left) =>
    decidable_of_iff (4096≤b.size → b.size ≤ size+(link+8) → b=runBlock (b.addr/4096) 1)
      ⟨fun h c others hc => by rw [htake] at hc; cases hc; exact h,fun h => h b left htake⟩

omit [Fintype κ] in
/-- What a small request obtains is one page where it has a page or more and is not
cut. -/
theorem obtain_page {k : κ} {size fresh : ℕ} (hfits : FitsPage link size (a.free k))
    (hfresh : takeFit size (a.free k)=none → Fresh a.pages fresh 1)
    (hlarge : 4096≤(a.obtain k size fresh).2.1.size)
    (hkept : (a.obtain k size fresh).2.1.size ≤ size+(link+8)) :
    (a.obtain k size fresh).2.1=runBlock ((a.obtain k size fresh).2.1.addr/4096) 1 := by
  unfold Heap.obtain at hlarge hkept ⊢
  cases htake : takeFit size (a.free k) with
  | none => exact (hfresh htake).block_eq
  | some found =>
    rw [htake] at hlarge hkept
    exact hfits found.1 found.2 htake hlarge hkept

/-- Requests keep the blocks in use of a page or more runs of pages. -/
theorem allocBlock_runs (hlink : 8≤link) (hroute : Routed route) (hholds : Holds link s a)
    (hgood : Good (link+8) a) (hruns : Runs a) {request fresh : ℕ}
    (hfresh : needed link route s request≠0 →
      Fresh s.pages fresh (needed link route s request))
    (hfits : ∀ k, route (blockSize request)=some k → FitsPage link (blockSize request) (a.free k)) :
    Runs (allocBlock link route a request fresh) := by
  rw [←hholds.pages] at hfresh
  unfold allocBlock
  cases hk : route (blockSize request) with
  | some k =>
    have hpage := hroute.lt_page hk
    have hnone := fun hnone => fresh_of_needed hlink hholds hgood fresh hk
      (p:=fun count => Fresh a.pages fresh count) hfresh hnone
    have hlive := obtain_live a k (blockSize request) fresh
    intro e he hlarge
    dsimp only at he
    unfold Heap.allocFrom at he
    rcases place_cases (a.obtain k (blockSize request) fresh).1 (link+8) k
      (a.obtain k (blockSize request) fresh).2.1 (blockSize request) request with ⟨hrest,heq⟩|⟨hrest,heq⟩
    · rw [heq,hlive] at he
      rcases List.mem_cons.mp he with rfl|he
      · exact absurd hlarge (Nat.not_le.mpr hpage)
      · exact hruns e he hlarge
    · rw [heq,hlive] at he
      rcases List.mem_cons.mp he with rfl|he
      · have hone := obtain_page (hfits k hk) hnone hlarge (by omega)
        dsimp only
        have hsize : (a.obtain k (blockSize request) fresh).2.1.size=4096 := congrArg Block.size hone
        rw [hsize]
        exact hone
      · exact hruns e he hlarge
  | none =>
    have hneeded := needed_of_pages link s hk
    have hbounds := divUp_bounds (blockSize request)
    have hlarge := (hroute _).mp hk
    rw [hneeded] at hfresh
    have hnew := (hfresh (by omega)).block_eq
    intro e he hsize
    rcases List.mem_cons.mp he with rfl|he
    · dsimp only
      rw [Nat.mul_div_cancel_left _ (by decide)]
      exact hnew
    · exact hruns e he hsize

omit [Fintype κ] in
/-- Freed blocks leave runs of pages. -/
theorem freeBlock_runs (hruns : Runs a) (e : Entry) : Runs (freeBlock route a e) := by
  intro d hd hlarge
  rw [freeBlock_live] at hd
  exact hruns d (List.mem_of_mem_erase hd) hlarge

end Calls

/-! ## Threads and their counters -/

/-- What a thread counts. -/
structure Counters where
  /-- Pages mapped. -/
  mapped : ℤ
  /-- Pages unmapped. -/
  unmapped : ℤ
  /-- Blocks handed out. -/
  allocated : ℤ
  /-- Blocks taken back. -/
  freed : ℤ
deriving DecidableEq

/-- Memory with its lists, and the counters of each thread. -/
structure Machine (τ κ : Type) where
  /-- Memory and lists. -/
  store : Store κ
  /-- The counters. -/
  stats : τ → Counters

/-- Calls by threads, and what clients do with their blocks. -/
inductive Call (τ : Type)
  /-- A request, with the address that `mmap` returns if it is called. -/
  | malloc (t : τ) (request fresh : ℕ)
  /-- A block is freed, by any thread. -/
  | free (t : τ) (c : Client)
  /-- A client writes a byte. -/
  | write (x : ℕ) (byte : UInt8)

variable [DecidableEq τ]

/-- The counters after a request. -/
def Machine.afterMalloc (m : Machine τ κ) (t : τ) (done : Store κ × ℕ) : Machine τ κ :=
  ⟨done.1,Function.update m.stats t {m.stats t with
    mapped := (m.stats t).mapped+done.2,allocated := (m.stats t).allocated+1}⟩

/-- The counters after a block was freed. -/
def Machine.afterFree (m : Machine τ κ) (t : τ) (done : Store κ × ℕ) : Machine τ κ :=
  ⟨done.1,Function.update m.stats t {m.stats t with
    unmapped := (m.stats t).unmapped+done.2,freed := (m.stats t).freed+1}⟩

/-- One call. -/
def step (link : ℕ) (route : τ → ℕ → Option κ) : Call τ → Machine τ κ → Option (Machine τ κ)
  | .malloc t request fresh,m => (alloc link (route t) m.store request fresh).map (m.afterMalloc t)
  | .free t c,m => (RoutedHeap.free link (route t) m.store c).map (m.afterFree t)
  | .write x byte,m => some {m with store := m.store.write x byte}

/-- Nothing mapped and nothing counted. -/
def start (memory : Bytes) : Machine τ κ := ⟨⟨memory,fun _ => 0,∅,[]⟩,fun _ => ⟨0,0,0,0⟩⟩

/-- Clients write behind the headers of their blocks. -/
def Writable (s : Store κ) (x : ℕ) : Prop :=
  ∃ c∈s.live, c.addr+8≤x ∧ x<c.addr+sizeAt s.memory c.addr

instance (s : Store κ) (x : ℕ) : Decidable (Writable s x) :=
  inferInstanceAs (Decidable (∃ c∈s.live, c.addr+8≤x ∧ x<c.addr+sizeAt s.memory c.addr))

section Account

variable [Fintype τ] [Fintype κ] {link : ℕ} {route : τ → ℕ → Option κ}

/-- Pages mapped and not unmapped, by all threads. -/
def mappedPages (stats : τ → Counters) : ℤ := ∑ t, ((stats t).mapped-(stats t).unmapped)

/-- A machine that holds an abstract heap whose account is right, as its counters
say. -/
structure Sound (link : ℕ) (m : Machine τ κ) (a : Heap κ) : Prop where
  /-- Memory holds the heap. -/
  holds : Holds link m.store a
  /-- The account is right. -/
  good : Good (link+8) a
  /-- The counters know the bytes. -/
  counted : 4096*mappedPages m.stats=a.bytes

omit [Fintype κ] [DecidableEq κ] in
/-- Pages mapped after one thread has counted. -/
theorem mappedPages_update (stats : τ → Counters) (t : τ) (value : Counters) :
    mappedPages (Function.update stats t value)+((stats t).mapped-(stats t).unmapped)=
      mappedPages stats+(value.mapped-value.unmapped) :=
  sum_update_add (fun c => c.mapped-c.unmapped) stats t value

omit [DecidableEq κ] [DecidableEq τ] in
/-- The start holds the empty heap. -/
theorem sound_start (memory : Bytes) :
    Sound link (start memory : Machine τ κ) ⟨fun _ => [],[],∅⟩ := by
  refine ⟨⟨fun _ => rfl,rfl,rfl⟩,⟨⟨?_,fun _ => List.Pairwise.nil,nofun,nofun⟩,nofun,?_,nofun⟩,?_⟩
  · intro x
    simp only [weight_nil,Finset.sum_const_zero,Finset.notMem_empty,if_false]
    rfl
  · exact Finset.notMem_empty 0
  · unfold mappedPages Heap.bytes allBytes start
    simp only [sub_self,Finset.sum_const_zero,mul_zero]
    unfold Heap.blocks total
    simp only [List.map_nil,List.sum_nil,Finset.sum_const_zero,Nat.add_zero,Nat.cast_zero]

variable {m : Machine τ κ} {a : Heap κ}

/-- A request keeps the machine sound. -/
theorem malloc_sound (hlink : 8≤link) (hroute : ∀ t, Routed (route t)) (h : Sound link m a) {t : τ}
    {request fresh : ℕ} (hsize : blockSize request=request+8)
    (hfresh : needed link (route t) m.store request≠0 →
      Fresh m.store.pages fresh (needed link (route t) m.store request)) :
    ∃ m', step link route (.malloc t request fresh) m=some m' ∧
      Sound link m' (allocBlock link (route t) a request fresh) ∧
      ∀ e∈a.live, ∀ x, e.block.Holds x → m'.store.memory x=m.store.memory x := by
  obtain ⟨s',hrun,hholds,hgood,hbytes,hkeep⟩ := alloc_spec hlink (hroute t) h.holds h.good hsize hfresh
  refine ⟨m.afterMalloc t (s',needed link (route t) m.store request),?_,⟨hholds,hgood,?_⟩,hkeep⟩
  · rw [step,hrun,Option.map_some]
  · have hcount := mappedPages_update m.stats t
      {m.stats t with mapped := (m.stats t).mapped+needed link (route t) m.store request,
                      allocated := (m.stats t).allocated+1}
    have hcounted := h.counted
    unfold Machine.afterMalloc
    dsimp only at hcount ⊢
    rw [hbytes]
    omega

/-- A freed block keeps the machine sound. -/
theorem free_sound (hlink : 8≤link) (hroute : ∀ t, Routed (route t)) (h : Sound link m a) {t : τ}
    {c : Client} (hc : c∈m.store.live)
    (hjoins : ∀ k, route t (sizeAt m.store.memory c.addr)=some k →
      Joins (link+8) (m.store.entry c).block (a.free k))
    (hrun : 4096 ≤ sizeAt m.store.memory c.addr → (m.store.entry c).block=
      runBlock ((m.store.entry c).block.addr/4096) ((m.store.entry c).block.size/4096)) :
    ∃ m', step link route (.free t c) m=some m' ∧
      Sound link m' (freeBlock (route t) a (m.store.entry c)) ∧
      ∀ e∈a.live.erase (m.store.entry c), ∀ x, e.block.Holds x →
        m'.store.memory x=m.store.memory x := by
  obtain ⟨s',count,hdone,hholds,hgood,hbytes,hkeep⟩ :=
    free_spec hlink (hroute t) h.holds h.good hc hjoins hrun
  refine ⟨m.afterFree t (s',count),?_,⟨hholds,hgood,?_⟩,hkeep⟩
  · rw [step,hdone,Option.map_some]
  · have hcount := mappedPages_update m.stats t
      {m.stats t with unmapped := (m.stats t).unmapped+count,freed := (m.stats t).freed+1}
    have hcounted := h.counted
    unfold Machine.afterFree
    dsimp only at hcount ⊢
    omega

omit [DecidableEq κ] [DecidableEq τ] in
/-- A client's write keeps the machine sound. -/
theorem write_sound (hlink : 8≤link) (h : Sound link m a) {x : ℕ} (byte : UInt8)
    (hx : Writable m.store x) : Sound link {m with store := m.store.write x byte} a := by
  obtain ⟨c,hc,hlow,hhigh⟩ := hx
  exact ⟨write_spec hlink h.holds h.good hc byte hlow hhigh,h.good,h.counted⟩

/-- Calls where fresh pages never touch a mapped one, requests have room for a list
node and blocks are freed while they are in use. -/
def Separate (link : ℕ) (route : τ → ℕ → Option κ) (m : Machine τ κ) : Call τ → Prop
  | .malloc t request fresh => link≤request ∧ request<2^63 ∧
      (needed link (route t) m.store request≠0 →
        Fresh m.store.pages fresh (needed link (route t) m.store request) ∧
          Untouched m.store.pages (fresh/4096) (needed link (route t) m.store request))
  | .free _ c => c∈m.store.live
  | .write x _ => Writable m.store x

instance (link : ℕ) (route : τ → ℕ → Option κ) (m : Machine τ κ) :
    ∀ call, Decidable (Separate link route m call)
  | .malloc _ _ _ => inferInstanceAs (Decidable (_ ∧ _ ∧ (_ → _)))
  | .free _ c => inferInstanceAs (Decidable (c∈m.store.live))
  | .write x _ => inferInstanceAs (Decidable (Writable m.store x))

/-- A sound machine whose blocks stay within their pages and came from requests
with room for a list node. -/
structure Tidy (link : ℕ) (m : Machine τ κ) (a : Heap κ) : Prop extends Sound link m a where
  /-- Blocks stay within their pages. -/
  laid : a.Laid
  /-- Requests had room for a list node. -/
  room : ∀ e∈a.live, link≤e.request

/-- Every call succeeds and keeps the machine tidy. -/
theorem step_tidy (hlink : 8≤link) (hroute : ∀ t, Routed (route t)) (h : Tidy link m a)
    {call : Call τ} (hcall : Separate link route m call) :
    ∃ m' a', step link route call m=some m' ∧ Tidy link m' a' := by
  cases call with
  | malloc t request fresh =>
    obtain ⟨hlow,hhigh,hfresh⟩ := hcall
    have hsize := blockSize_eq hhigh
    obtain ⟨m',hstep,hsound,-⟩ := malloc_sound hlink hroute h.toSound hsize
      (fun hneeded => (hfresh hneeded).1)
    have hlaid := allocBlock_laid hlink (hroute t) h.holds h.good h.laid hsize hfresh
    obtain ⟨b,hlive⟩ := allocBlock_live link (route t) a request fresh
    refine ⟨m',_,hstep,hsound,hlaid,fun e he => ?_⟩
    rw [hlive] at he
    rcases List.mem_cons.mp he with rfl|he
    · exact hlow
    · exact h.room e he
  | free t c =>
    have hentry := entry_mem h.holds hcall
    have hroom := h.room _ hentry
    have henough := h.good.enough _ hentry
    obtain ⟨m',hstep,hsound,-⟩ := free_sound (t:=t) hlink hroute h.toSound hcall
      (fun _ _ => Or.inl (by omega)) (fun hlarge => h.laid.run hentry hlarge)
    refine ⟨m',_,hstep,hsound,freeBlock_laid (hroute t) h.good h.laid hentry,fun e he => ?_⟩
    rw [freeBlock_live] at he
    exact h.room e (List.mem_of_mem_erase he)
  | write x byte =>
    exact ⟨_,a,rfl,write_sound hlink h.toSound byte hcall,h.laid,h.room⟩

/-- Machines stay tidy in every run. -/
theorem reachable_tidy (hlink : 8≤link) (hroute : ∀ t, Routed (route t)) {memory : Bytes}
    (h : Reachable (step link route) (Separate link route) (start memory) m) :
    ∃ a, Tidy link m a := by
  refine h.invariant (fun m => ∃ a, Tidy link m a) ?_ ?_
  · refine ⟨_,sound_start memory,⟨nofun,nofun,?_⟩,nofun⟩
    exact fun j hj => absurd hj (Finset.notMem_empty j)
  · rintro call before next ⟨a,ha⟩ hallowed hstep
    obtain ⟨m',a',hrun,htidy⟩ := step_tidy hlink hroute ha hallowed
    rw [hstep] at hrun
    cases hrun
    exact ⟨a',htidy⟩

/-- A freed block that is listed has room for a list node or touches a block of its
list; one that is unmapped is made of whole pages. -/
def Freeable (link : ℕ) (route : ℕ → Option κ) (s : Store κ) (c : Client) : Prop :=
  match route (sizeAt s.memory c.addr) with
  | some k => Joins (link+8) (s.entry c).block (s.list link k)
  | none => c.addr%4096=0 ∧ sizeAt s.memory c.addr%4096=0

instance (link : ℕ) (route : ℕ → Option κ) (s : Store κ) (c : Client) :
    Decidable (Freeable link route s c) :=
  match hk : route (sizeAt s.memory c.addr) with
  | some k => decidable_of_iff (Joins (link+8) (s.entry c).block (s.list link k))
      (by rw [Freeable,hk])
  | none => decidable_of_iff (c.addr%4096=0 ∧ sizeAt s.memory c.addr%4096=0)
      (by rw [Freeable,hk])

/-- Calls with requests whose sizes do not wrap, where `mmap` returns fresh pages and
blocks are freed while they are in use. -/
def Proper (link : ℕ) (route : τ → ℕ → Option κ) (m : Machine τ κ) : Call τ → Prop
  | .malloc t request fresh => request+8<2^64 ∧ (needed link (route t) m.store request≠0 →
      Fresh m.store.pages fresh (needed link (route t) m.store request))
  | .free t c => c∈m.store.live ∧ Freeable link (route t) m.store c
  | .write x _ => Writable m.store x

instance (link : ℕ) (route : τ → ℕ → Option κ) (m : Machine τ κ) :
    ∀ call, Decidable (Proper link route m call)
  | .malloc _ _ _ => inferInstanceAs (Decidable (_ ∧ (_ → _)))
  | .free t c => inferInstanceAs (Decidable (c∈m.store.live ∧ Freeable link (route t) m.store c))
  | .write x _ => inferInstanceAs (Decidable (Writable m.store x))

/-- The blocks that clients hold, with the sizes in their headers. -/
def liveBlocks (s : Store κ) : List Block := s.live.map (fun c => ⟨c.addr,sizeAt s.memory c.addr⟩)

/-- The account of every byte, in terms of memory: the lists that start at the
heads and the blocks of clients have no byte in common and are made of the
mapped pages. -/
structure Accounted (link : ℕ) (m : Machine τ κ) (lists : κ → List Block) : Prop where
  /-- The lists in memory. -/
  chains : ∀ k, Chain link m.store.memory (m.store.head k) (lists k)
  /-- Blocks of clients have no byte in common. -/
  liveApart : (liveBlocks m.store).Pairwise Apart
  /-- Blocks of clients have no byte in common with listed ones. -/
  liveFree : ∀ b∈liveBlocks m.store, ∀ k, ∀ c∈lists k, Apart b c
  /-- Blocks of different lists have no byte in common. -/
  freeApart : ∀ j k, j≠k → ∀ b∈lists j, ∀ c∈lists k, Apart b c
  /-- Lists are in the order of addresses, and their blocks do not touch. -/
  spaced : ∀ k, Spaced (lists k)
  /-- Listed blocks have room for a node. -/
  room : ∀ k, ∀ b∈lists k, link+8≤b.size
  /-- Blocks of clients hold their header and what was asked for. -/
  enough : ∀ c∈m.store.live, c.request+8 ≤ sizeAt m.store.memory c.addr
  /-- Blocks cover exactly the mapped pages. -/
  covers : ∀ x, x/4096∈m.store.pages ↔
    (∃ b∈liveBlocks m.store, b.Holds x) ∨ ∃ k, ∃ b∈lists k, b.Holds x
  /-- The counters know the bytes of all blocks. -/
  bytes : 4096*mappedPages m.stats=((∑ k, total (lists k))+total (liveBlocks m.store) : ℕ)

omit [DecidableEq τ] [Fintype τ] [DecidableEq κ] [Fintype κ] in
/-- The blocks of clients are those in use. -/
theorem liveBlocks_eq {s : Store κ} {a : Heap κ} (h : Holds link s a) : liveBlocks s=a.blocks := by
  rw [Heap.blocks,h.live,List.map_map]
  rfl

omit [DecidableEq τ] in
/-- A sound machine has the account of every byte. -/
theorem Sound.accounted (h : Sound link m a) : Accounted link m a.free where
  chains := h.holds.chains
  liveApart := by
    rw [liveBlocks_eq h.holds]
    exact h.good.covered.live_apart
  liveFree := by
    intro b hb k c hc
    rw [liveBlocks_eq h.holds] at hb
    exact h.good.covered.live_free (by omega) hb hc
  freeApart := fun j k hjk b hb c hc => h.good.covered.free_apart (by omega) hjk hb hc
  spaced := h.good.covered.spaced
  room := h.good.covered.freeSize
  enough := fun c hc => h.good.enough _ (entry_mem h.holds hc)
  covers := by
    intro x
    rw [liveBlocks_eq h.holds,←h.holds.pages]
    refine ⟨fun hx => ?_,?_⟩
    · have hcover := h.good.covered.cover x
      rw [if_pos hx] at hcover
      by_cases hlive : weight a.blocks x=0
      · have hsum : ∑ k, weight (a.free k) x≠0 := by omega
        obtain ⟨k,-,hk⟩ := Finset.exists_ne_zero_of_sum_ne_zero hsum
        exact Or.inr ⟨k,exists_holds hk⟩
      · exact Or.inl (exists_holds hlive)
    · rintro (⟨b,hb,hx⟩|⟨k,b,hb,hx⟩)
      · exact h.good.covered.mapped (Or.inl hb) hx
      · exact h.good.covered.mapped (Or.inr ⟨k,hb⟩) hx
  bytes := by
    rw [liveBlocks_eq h.holds]
    exact h.counted

end Account

end ComputerSystems.RoutedHeap
