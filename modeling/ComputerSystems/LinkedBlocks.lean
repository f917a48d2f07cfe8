import ComputerSystems.BlockList
import ComputerSystems.ByteMemory

/-!
# Free lists kept inside the free blocks

Each block of a free list begins with its size in eight bytes and holds, at a
fixed offset, the address of the next block; the list ends with 0. Insertion
and first fit walk this chain and change the fields of its blocks. As long as
every block has room for its fields, blocks are apart and addresses fit into
eight bytes, the chain does what the same operation does to the list of
blocks, and no byte outside the blocks changes. This module names no
particular allocator.
-/

namespace ComputerSystems.LinkedBlocks

open BlockList ByteMemory

/-- The size a block begins with. -/
def sizeAt (m : Bytes) (p : ℕ) : ℕ := wordAt m p 8

/-- The address of the next block, at an offset into the block. -/
def nextAt (link : ℕ) (m : Bytes) (p : ℕ) : ℕ := wordAt m (p+link) 8

/-- Store the size of a block. -/
def setSize (m : Bytes) (p size : ℕ) : Bytes := putWord m p 8 size

/-- Store the address of the next block. -/
def setNext (link : ℕ) (m : Bytes) (p next : ℕ) : Bytes := putWord m (p+link) 8 next

/-- Insert a block into the chain from a head; the new head comes back. -/
def insertNode (link : ℕ) : ℕ → Bytes → ℕ → ℕ → Option (Bytes × ℕ)
  | 0,_,_,_ => none
  | fuel+1,m,node,head =>
    if head=0 then some (setNext link m node 0,node)
    else if node<head then
      if node+sizeAt m node=head then
        let m' := setSize m node ((sizeAt m node+sizeAt m head)%2^64)
        some (setNext link m' node (nextAt link m' head),node)
      else some (setNext link m node head,node)
    else if head+sizeAt m head=node then
      let m' := setSize m head ((sizeAt m head+sizeAt m node)%2^64)
      insertNode link fuel m' head (nextAt link m' head)
    else
      (insertNode link fuel m node (nextAt link m head)).map
        (fun done => (setNext link done.1 head done.2,head))

/-- Walk on from a block that is too small, and unlink the first one that is
large enough; 0 comes back where there is none. -/
def fitLoop (link minSize : ℕ) : ℕ → Bytes → ℕ → Option (Bytes × ℕ)
  | 0,_,_ => none
  | fuel+1,m,pp =>
    if nextAt link m pp=0 then some (m,0)
    else if sizeAt m (nextAt link m pp) < minSize then fitLoop link minSize fuel m (nextAt link m pp)
    else some (setNext link m pp (nextAt link m (nextAt link m pp)),nextAt link m pp)

/-- Unlink the first block that is large enough: the memory, the new head and the
block. -/
def takeNode (link minSize fuel : ℕ) (m : Bytes) (head : ℕ) : Option (Bytes × ℕ × ℕ) :=
  if head=0 then some (m,head,0)
  else if minSize ≤ sizeAt m head then some (m,nextAt link m head,head)
  else (fitLoop link minSize fuel m head).map (fun done => (done.1,head,done.2))

/-- The blocks of the chain from an address. -/
def listFrom (link : ℕ) : ℕ → Bytes → ℕ → List Block
  | 0,_,_ => []
  | fuel+1,m,p => if p=0 then [] else ⟨p,sizeAt m p⟩::listFrom link fuel m (nextAt link m p)

/-- The chain from an address holds the blocks of a list. -/
def Chain (link : ℕ) (m : Bytes) : ℕ → List Block → Prop
  | p,[] => p=0
  | p,b::rest => p=b.addr ∧ b.addr≠0 ∧ sizeAt m b.addr=b.size ∧ Chain link m (nextAt link m b.addr) rest

/-- A block that can hold its fields, below the end of the address space. -/
def Roomy (link : ℕ) (b : Block) : Prop := link+8≤b.size ∧ b.stop<2^64

section Fields

variable {link : ℕ} {m m' : Bytes}

/-- Sizes are kept where the bytes of the block are. -/
theorem sizeAt_congr {b : Block} (hroom : Roomy link b) (h : ∀ x, b.Holds x → m' x=m x) :
    sizeAt m' b.addr=sizeAt m b.addr := by
  refine wordAt_congr (fun x hl hr => h x ?_)
  unfold Roomy at hroom
  unfold Block.Holds Block.stop
  omega

/-- Links are kept where the bytes of the block are. -/
theorem nextAt_congr {b : Block} (hroom : Roomy link b) (h : ∀ x, b.Holds x → m' x=m x) :
    nextAt link m' b.addr=nextAt link m b.addr := by
  refine wordAt_congr (fun x hl hr => h x ?_)
  unfold Roomy at hroom
  unfold Block.Holds Block.stop
  omega

/-- A stored size is read back. -/
theorem sizeAt_setSize {p size : ℕ} (h : size<2^64) : sizeAt (setSize m p size) p=size := by
  unfold sizeAt setSize
  rw [wordAt_putWord]
  exact Nat.mod_eq_of_lt (by omega)

/-- A stored link is read back. -/
theorem nextAt_setNext {p next : ℕ} (h : next<2^64) :
    nextAt link (setNext link m p next) p=next := by
  unfold nextAt setNext
  rw [wordAt_putWord]
  exact Nat.mod_eq_of_lt (by omega)

/-- The link lies behind the size. -/
theorem sizeAt_setNext {p next : ℕ} (hlink : 8≤link) :
    sizeAt (setNext link m p next) p=sizeAt m p := by
  unfold sizeAt setNext putWord
  exact wordAt_blit_apart m _ (Or.inl (by omega))

/-- The size lies before the link. -/
theorem nextAt_setSize {p size : ℕ} (hlink : 8≤link) :
    nextAt link (setSize m p size) p=nextAt link m p := by
  unfold nextAt setSize putWord
  exact wordAt_blit_apart m _ (Or.inr (by omega))

/-- A stored size changes its own block only. -/
theorem setSize_outside {b : Block} {size x : ℕ} (hroom : Roomy link b) (hx : ¬b.Holds x) :
    setSize m b.addr size x=m x := by
  refine putWord_outside m size ?_
  unfold Roomy at hroom
  unfold Block.Holds Block.stop at hx
  omega

/-- A stored link changes its own block only. -/
theorem setNext_outside {b : Block} {next x : ℕ} (hroom : Roomy link b) (hx : ¬b.Holds x) :
    setNext link m b.addr next x=m x := by
  refine putWord_outside m next ?_
  unfold Roomy at hroom
  unfold Block.Holds Block.stop at hx
  omega

/-- A chain is kept where the fields of its blocks are: by induction on the list. -/
theorem Chain.congr_fields {l : List Block} {p : ℕ} (h : Chain link m p l)
    (hsame : ∀ b∈l, ∀ x, b.addr≤x → x<b.addr+link+8 → m' x=m x) :
    Chain link m' p l := by
  induction l generalizing p with
  | nil => exact h
  | cons b rest ih =>
    obtain ⟨hp,hne,hsize,hrest⟩ := h
    have hb := hsame b List.mem_cons_self
    have hsizes : sizeAt m' b.addr=sizeAt m b.addr :=
      wordAt_congr (fun x hl hr => hb x hl (by omega))
    have hnext : nextAt link m' b.addr=nextAt link m b.addr :=
      wordAt_congr (fun x hl hr => hb x (by omega) hr)
    refine ⟨hp,hne,?_,?_⟩
    · rw [hsizes,hsize]
    · rw [hnext]
      exact ih hrest (fun c hc => hsame c (List.mem_cons_of_mem b hc))

/-- A chain is kept where the bytes of its blocks are. -/
theorem Chain.congr {l : List Block} {p : ℕ} (h : Chain link m p l) (hroom : ∀ b∈l, Roomy link b)
    (hsame : ∀ b∈l, ∀ x, b.Holds x → m' x=m x) : Chain link m' p l := by
  refine h.congr_fields (fun b hb x hl hr => hsame b hb x ?_)
  have hb' := hroom b hb
  unfold Roomy at hb'
  unfold Block.Holds Block.stop
  omega

/-- Blocks of a chain store their sizes: by induction on the list. -/
theorem Chain.size_eq {l : List Block} {p : ℕ} (h : Chain link m p l) {b : Block} (hb : b∈l) :
    sizeAt m b.addr=b.size := by
  induction l generalizing p with
  | nil => cases hb
  | cons c rest ih =>
    rcases List.mem_cons.mp hb with rfl|hb
    · exact h.2.2.1
    · exact ih h.2.2.2 hb

/-- A block of a chain is not at address 0: by induction on the list. -/
theorem Chain.addr_ne_zero {l : List Block} {p : ℕ} (h : Chain link m p l) {b : Block}
    (hb : b∈l) : b.addr≠0 := by
  induction l generalizing p with
  | nil => cases hb
  | cons head rest ih =>
    rcases List.mem_cons.mp hb with rfl|hb
    · exact h.2.1
    · exact ih h.2.2.2 hb

/-- Walking along a chain gives its list: by induction on the list. -/
theorem Chain.listFrom_eq {l : List Block} {p fuel : ℕ} (h : Chain link m p l)
    (hfuel : l.length<fuel) : listFrom link fuel m p=l := by
  induction l generalizing p fuel with
  | nil =>
    obtain ⟨fuel,rfl⟩ : ∃ more, fuel=more+1 := ⟨fuel-1,by omega⟩
    rw [listFrom,if_pos (show p=0 from h)]
  | cons b rest ih =>
    rw [List.length_cons] at hfuel
    obtain ⟨fuel,rfl⟩ : ∃ more, fuel=more+1 := ⟨fuel-1,by omega⟩
    obtain ⟨rfl,hne,hsize,hrest⟩ := h
    rw [listFrom,if_neg hne,hsize,ih hrest (by omega)]

/-- The head of a chain fits into eight bytes. -/
theorem Chain.head_lt {l : List Block} {p : ℕ} (h : Chain link m p l)
    (hroom : ∀ b∈l, Roomy link b) : p<2^64 := by
  cases l with
  | nil =>
    rw [show p=0 from h]
    exact Nat.two_pow_pos 64
  | cons b rest =>
    have hb := hroom b List.mem_cons_self
    rw [h.1]
    unfold Roomy Block.stop at hb
    omega

end Fields

/-! ## Insertion -/

section Insertion

variable {link : ℕ}

/-- Blocks that are apart have their bytes to themselves. -/
theorem not_holds_of_apart {a b : Block} (h : Apart a b) {x : ℕ} (hx : b.Holds x) : ¬a.Holds x :=
  fun ha => h.not_both x ⟨ha,hx⟩

/-- In order, with a gap, blocks are apart. -/
theorem apart_of_lt {a b : Block} (h : a.stop<b.addr) : Apart a b := Or.inl h.le

/-- Blocks of a list in order are apart. -/
theorem apart_of_spaced {l : List Block} (h : Spaced l) : l.Pairwise Apart := h.imp apart_of_lt

/-- Joined blocks end before the end of the address space: by induction on the
list. -/
theorem stop_insert {node : Block} {l : List Block} {high : ℕ} (hnode : node.stop<high)
    (hl : ∀ b∈l, b.stop<high) : ∀ b∈BlockList.insert node l, b.stop<high := by
  induction l generalizing node with
  | nil =>
    intro b hb
    rw [List.mem_singleton.mp hb]
    exact hnode
  | cons head rest ih =>
    intro b hb
    have hhead := hl head List.mem_cons_self
    have hrest : ∀ c∈rest, c.stop<high := fun c hc => hl c (List.mem_cons_of_mem head hc)
    unfold BlockList.insert at hb
    split_ifs at hb with hbefore hjoin hjoin
    · rcases List.mem_cons.mp hb with rfl|hmem
      · unfold Block.stop at hhead hjoin ⊢
        dsimp only
        omega
      · exact hrest b hmem
    · rcases List.mem_cons.mp hb with rfl|hmem
      · exact hnode
      · exact hl b hmem
    · have hjoined : Block.stop ⟨head.addr,head.size+node.size⟩<high := by
        unfold Block.stop at hnode hjoin ⊢
        dsimp only
        omega
      exact ih hjoined hrest b hb
    · rcases List.mem_cons.mp hb with rfl|hmem
      · exact hhead
      · exact ih hnode hrest b hmem

/-- Blocks of the new list have room. -/
theorem roomy_insert {node : Block} {l : List Block} (hnode : Roomy 0 node)
    (hjoins : Joins (link+8) node l) (hl : ∀ b∈l, Roomy link b) (hapart : ∀ b∈l, Apart node b)
    (hspaced : Spaced l) : ∀ b∈BlockList.insert node l, Roomy link b := by
  intro b hb
  have hpos : 0<node.size := by
    have hsize := hnode.1
    omega
  exact ⟨size_of_mem_insert hpos hjoins (fun c hc => (hl c hc).1) hapart hspaced hb,
    stop_insert hnode.2 (fun c hc => (hl c hc).2) b hb⟩

/-- A block that touches the next one makes one with room. -/
theorem roomy_joined {a b : Block} (ha : Roomy 0 a) (hb : Roomy 0 b) (hjoin : a.stop=b.addr)
    (hsize : Roomy link a ∨ Roomy link b) : Roomy link ⟨a.addr,a.size+b.size⟩ := by
  unfold Roomy at ha hb hsize ⊢
  unfold Block.stop at hb hjoin ⊢
  dsimp only
  omega

/-- A block with room for all its fields has room for its size. -/
theorem Roomy.size {b : Block} (h : Roomy link b) : Roomy 0 b := by
  unfold Roomy at h ⊢
  omega

/-- Sizes fit into eight bytes. -/
theorem Roomy.size_lt {b : Block} (h : Roomy link b) : b.size<2^64 := by
  unfold Roomy Block.stop at h
  omega

/-- A chain with a new block in front. -/
theorem chain_front {m : Bytes} {node : Block} {l : List Block} {p : ℕ} (hlink : 8≤link)
    (hroom : Roomy link node) (hne : node.addr≠0) (hsize : sizeAt m node.addr=node.size)
    (hl : ∀ b∈l, Roomy link b) (hapart : ∀ b∈l, Apart node b) (h : Chain link m p l) :
    Chain link (setNext link m node.addr p) node.addr (node::l) := by
  refine ⟨rfl,hne,?_,?_⟩
  · rw [sizeAt_setNext hlink,hsize]
  · rw [nextAt_setNext (h.head_lt hl)]
    refine h.congr hl (fun b hb x hx => ?_)
    exact setNext_outside hroom (not_holds_of_apart (hapart b hb) hx)

/-- What an insertion into a chain does: it inserts the block into the list, and
changes no byte outside the blocks. -/
def Inserts (link fuel : ℕ) (m : Bytes) (node : Block) (head : ℕ) (l : List Block) : Prop :=
  ∃ m' p, insertNode link fuel m node.addr head=some (m',p) ∧
    Chain link m' p (BlockList.insert node l) ∧ ∀ x, (∀ b∈node::l, ¬b.Holds x) → m' x=m x

section Heads

variable {fuel : ℕ} {m : Bytes} {node b : Block} {rest : List Block}

/-- The block in front touches the head and takes its place. -/
theorem inserts_join_front (hlink : 8≤link) (hroom : Roomy 0 node) (hne : node.addr≠0)
    (hsize : sizeAt m node.addr=node.size) (hl : ∀ c∈b::rest, Roomy link c)
    (hapart : ∀ c∈b::rest, Apart node c) (hspaced : Spaced (b::rest))
    (hchain : Chain link m b.addr (b::rest)) (hbefore : node.addr<b.addr) (hjoin : node.stop=b.addr) :
    Inserts link (fuel+1) m node b.addr (b::rest) := by
  obtain ⟨-,hb0,hbsize,hrest⟩ := hchain
  obtain ⟨hgap,-⟩ := List.pairwise_cons.mp hspaced
  have hb := hl b List.mem_cons_self
  have hlrest : ∀ c∈rest, Roomy link c := fun c hc => hl c (List.mem_cons_of_mem b hc)
  have hjoined : Roomy link ⟨node.addr,node.size+b.size⟩ :=
    roomy_joined hroom hb.size hjoin (Or.inr hb)
  have hsum : (sizeAt m node.addr+sizeAt m b.addr)%2^64=node.size+b.size := by
    rw [hsize,hbsize]
    exact Nat.mod_eq_of_lt hjoined.size_lt
  have hkeep : ∀ c∈b::rest, ∀ x, c.Holds x → setSize m node.addr (node.size+b.size) x=m x :=
    fun c hc x hx => setSize_outside hroom (not_holds_of_apart (hapart c hc) hx)
  have hnext := nextAt_congr hb (hkeep b List.mem_cons_self)
  have hfar : ∀ c∈rest, Apart ⟨node.addr,node.size+b.size⟩ c := by
    intro c hc
    have hc' := hgap c hc
    unfold Apart
    unfold Block.stop at hc' hjoin ⊢
    dsimp only
    omega
  refine ⟨setNext link (setSize m node.addr (node.size+b.size)) node.addr
    (nextAt link (setSize m node.addr (node.size+b.size)) b.addr),node.addr,?_,?_,?_⟩
  · rw [insertNode,if_neg hb0,if_pos hbefore,if_pos (by rw [hsize]; exact hjoin),hsum]
  · rw [BlockList.insert,if_pos hbefore,if_pos hjoin]
    refine chain_front hlink hjoined hne (sizeAt_setSize hjoined.size_lt) hlrest hfar ?_
    rw [hnext]
    exact hrest.congr hlrest (fun c hc => hkeep c (List.mem_cons_of_mem b hc))
  · intro x hx
    have hxn := hx node List.mem_cons_self
    have hxb := hx b (List.mem_cons_of_mem node List.mem_cons_self)
    have hxj : ¬Block.Holds ⟨node.addr,node.size+b.size⟩ x := by
      unfold Block.Holds at hxn hxb ⊢
      unfold Block.stop at hjoin hxn hxb ⊢
      dsimp only
      omega
    calc setNext link (setSize m node.addr (node.size+b.size)) node.addr
          (nextAt link (setSize m node.addr (node.size+b.size)) b.addr) x
        =setSize m node.addr (node.size+b.size) x :=
          setNext_outside (b:=⟨node.addr,node.size+b.size⟩) hjoined hxj
      _=m x := setSize_outside hroom hxn

/-- The block in front does not touch the head. -/
theorem inserts_front (hlink : 8≤link) (hroom : Roomy link node) (hne : node.addr≠0)
    (hsize : sizeAt m node.addr=node.size) (hl : ∀ c∈b::rest, Roomy link c)
    (hapart : ∀ c∈b::rest, Apart node c) (hchain : Chain link m b.addr (b::rest))
    (hbefore : node.addr<b.addr) (hjoin : node.stop≠b.addr) :
    Inserts link (fuel+1) m node b.addr (b::rest) := by
  refine ⟨setNext link m node.addr b.addr,node.addr,?_,?_,?_⟩
  · rw [insertNode,if_neg hchain.2.1,if_pos hbefore,if_neg (by rw [hsize]; exact hjoin)]
  · rw [BlockList.insert,if_pos hbefore,if_neg hjoin]
    exact chain_front hlink hroom hne hsize hl hapart hchain
  · exact fun x hx => setNext_outside hroom (hx node List.mem_cons_self)

/-- The head touches the block and is inserted into the rest in its place. -/
theorem inserts_join_back (hroom : Roomy 0 node) (hsize : sizeAt m node.addr=node.size)
    (hb : Roomy link b) (hb0 : b.addr≠0) (hbsize : sizeAt m b.addr=b.size)
    (hbefore : ¬node.addr<b.addr) (hjoin : b.stop=node.addr)
    (h : Inserts link fuel (setSize m b.addr (b.size+node.size)) ⟨b.addr,b.size+node.size⟩
      (nextAt link (setSize m b.addr (b.size+node.size)) b.addr) rest) :
    Inserts link (fuel+1) m node b.addr (b::rest) := by
  obtain ⟨m',p,hrun,hdone,hframe⟩ := h
  have hjoined : Roomy link ⟨b.addr,b.size+node.size⟩ :=
    roomy_joined hb.size hroom hjoin (Or.inl hb)
  have hsum : (sizeAt m b.addr+sizeAt m node.addr)%2^64=b.size+node.size := by
    rw [hsize,hbsize]
    exact Nat.mod_eq_of_lt hjoined.size_lt
  refine ⟨m',p,?_,?_,?_⟩
  · rw [insertNode,if_neg hb0,if_neg hbefore,if_pos (by rw [hbsize]; exact hjoin),hsum]
    exact hrun
  · rw [BlockList.insert,if_neg hbefore,if_pos hjoin]
    exact hdone
  · intro x hx
    have hxb := hx b (List.mem_cons_of_mem node List.mem_cons_self)
    have hxn := hx node List.mem_cons_self
    rw [hframe x ?_,setSize_outside hb hxb]
    intro c hc
    rcases List.mem_cons.mp hc with rfl|hc
    · unfold Block.Holds Block.stop at hxb hxn ⊢
      unfold Block.stop at hjoin
      dsimp only
      omega
    · exact hx c (List.mem_cons_of_mem node (List.mem_cons_of_mem b hc))

/-- The block is inserted into the rest behind the head. -/
theorem inserts_behind (hlink : 8≤link) (hb : Roomy link b) (hb0 : b.addr≠0)
    (hbsize : sizeAt m b.addr=b.size) (hbefore : ¬node.addr<b.addr) (hjoin : b.stop≠node.addr)
    (hnb : Apart node b) (hpos : 0<node.size) (hgap : ∀ c∈rest, b.stop<c.addr)
    (hinsroom : ∀ c∈BlockList.insert node rest, Roomy link c)
    (h : Inserts link fuel m node (nextAt link m b.addr) rest) :
    Inserts link (fuel+1) m node b.addr (b::rest) := by
  obtain ⟨m',p,hrun,hdone,hframe⟩ := h
  have hkeepb : ∀ x, b.Holds x → m' x=m x := by
    intro x hx
    refine hframe x (fun c hc => ?_)
    rcases List.mem_cons.mp hc with rfl|hc
    · exact not_holds_of_apart hnb hx
    · exact not_holds_of_apart (apart_of_lt (hgap c hc)).symm hx
  have hinsapart : ∀ c∈BlockList.insert node rest, Apart b c := by
    intro c hc
    refine Or.inl ?_
    unfold Apart at hnb
    rcases addr_of_mem_insert hc with heq|⟨d,hd,heq⟩
    · unfold Block.stop at hnb hjoin ⊢
      omega
    · have hd' := hgap d hd
      unfold Block.stop at hd' ⊢
      omega
  refine ⟨setNext link m' b.addr p,b.addr,?_,?_,?_⟩
  · rw [insertNode,if_neg hb0,if_neg hbefore,if_neg (by rw [hbsize]; exact hjoin),hrun]
    rfl
  · rw [BlockList.insert,if_neg hbefore,if_neg hjoin]
    refine chain_front hlink hb hb0 ?_ hinsroom hinsapart hdone
    rw [sizeAt_congr hb hkeepb,hbsize]
  · intro x hx
    rw [setNext_outside hb (hx b (List.mem_cons_of_mem node List.mem_cons_self))]
    refine hframe x (fun c hc => ?_)
    rcases List.mem_cons.mp hc with rfl|hc
    · exact hx c List.mem_cons_self
    · exact hx c (List.mem_cons_of_mem node (List.mem_cons_of_mem b hc))

end Heads

/-- Insertion into the chain is insertion into the list: by induction on the list. -/
theorem insertNode_spec (hlink : 8≤link) (l : List Block) :
    ∀ (fuel : ℕ) (m : Bytes) (node : Block) (head : ℕ), l.length<fuel → Roomy 0 node →
      Joins (link+8) node l → node.addr≠0 → sizeAt m node.addr=node.size →
      (∀ b∈l, Roomy link b) → (∀ b∈l, Apart node b) → Spaced l → Chain link m head l →
      Inserts link fuel m node head l := by
  induction l with
  | nil =>
    intro fuel m node head hfuel hsmall hjoins hne hsize hl hapart _ hchain
    rw [List.length_nil] at hfuel
    obtain ⟨fuel,rfl⟩ : ∃ more, fuel=more+1 := ⟨fuel-1,by omega⟩
    have hhead : head=0 := hchain
    have hroom : Roomy link node := by
      rcases hjoins with hjoins|⟨b,hb,-⟩
      · exact ⟨hjoins,hsmall.2⟩
      · exact absurd hb List.not_mem_nil
    refine ⟨setNext link m node.addr 0,node.addr,?_,?_,?_⟩
    · rw [insertNode,if_pos hhead]
    · exact chain_front hlink hroom hne hsize hl hapart rfl
    · intro x hx
      exact setNext_outside hroom (hx node List.mem_cons_self)
  | cons b rest ih =>
    intro fuel m node head hfuel hsmall hjoins hne hsize hl hapart hspaced hchain
    rw [List.length_cons] at hfuel
    obtain ⟨fuel,rfl⟩ : ∃ more, fuel=more+1 := ⟨fuel-1,by omega⟩
    have hhead : head=b.addr := hchain.1
    subst hhead
    have hpos : 0<node.size := by
      have hleast := hsmall.1
      omega
    have hb := hl b List.mem_cons_self
    have hnb := hapart b List.mem_cons_self
    have hlrest : ∀ c∈rest, Roomy link c := fun c hc => hl c (List.mem_cons_of_mem b hc)
    have hrestapart : ∀ c∈rest, Apart node c := fun c hc => hapart c (List.mem_cons_of_mem b hc)
    obtain ⟨hgap,hspacedrest⟩ := List.pairwise_cons.mp hspaced
    by_cases hbefore : node.addr<b.addr
    · by_cases hjoin : node.stop=b.addr
      · exact inserts_join_front hlink hsmall hne hsize hl hapart hspaced hchain hbefore hjoin
      · have hroom : Roomy link node := ⟨hjoins.front hspaced hnb hbefore hjoin,hsmall.2⟩
        exact inserts_front hlink hroom hne hsize hl hapart hchain hbefore hjoin
    · obtain ⟨-,hb0,hbsize,hrest⟩ := hchain
      by_cases hjoin : b.stop=node.addr
      · have hjoined : Roomy link ⟨b.addr,b.size+node.size⟩ :=
          roomy_joined hb.size hsmall hjoin (Or.inl hb)
        have hkeep : ∀ c∈rest, ∀ x, c.Holds x → setSize m b.addr (b.size+node.size) x=m x :=
          fun c hc x hx => setSize_outside hb (not_holds_of_apart (apart_of_lt (hgap c hc)) hx)
        have hnext : nextAt link (setSize m b.addr (b.size+node.size)) b.addr=nextAt link m b.addr :=
          nextAt_setSize hlink
        refine inserts_join_back hsmall hsize hb hb0 hbsize hbefore hjoin ?_
        refine ih fuel _ ⟨b.addr,b.size+node.size⟩ _ (by omega) hjoined.size (Or.inl hjoined.1) hb0
          (sizeAt_setSize hjoined.size_lt) hlrest ?_ hspacedrest ?_
        · exact fun c hc => apart_joined hjoin (hgap c hc) (hrestapart c hc)
        · rw [hnext]
          exact hrest.congr hlrest hkeep
      · have hrestjoins := hjoins.rest hpos hbefore hjoin
        exact inserts_behind hlink hb hb0 hbsize hbefore hjoin hnb hpos hgap
          (roomy_insert hsmall hrestjoins hlrest hrestapart hspacedrest)
          (ih fuel m node _ (by omega) hsmall hrestjoins hne hsize hlrest hrestapart hspacedrest hrest)

end Insertion

/-! ## First fit -/

section FirstFit

variable {link : ℕ}

/-- Blocks that are left were there. -/
theorem mem_of_takeFit {minSize : ℕ} {l left : List Block} {found : Block}
    (h : takeFit minSize l=some (found,left)) : found∈l ∧ ∀ b∈left, b∈l := by
  obtain ⟨before,after,rfl,rfl,-⟩ := takeFit_eq_some h
  refine ⟨List.mem_append_right _ List.mem_cons_self,fun b hb => ?_⟩
  rcases List.mem_append.mp hb with hmem|hmem
  · exact List.mem_append_left _ hmem
  · exact List.mem_append_right _ (List.mem_cons_of_mem found hmem)

/-- The bytes of a block that the list uses, from its size to its link. -/
def cellOf (link : ℕ) (b : Block) : Block := ⟨b.addr,link+8⟩

/-- Blocks whose fields do not overlap, at addresses that fit into eight bytes. Their
sizes may be anything. -/
structure Cells (link : ℕ) (l : List Block) : Prop where
  /-- Addresses fit into eight bytes. -/
  low : ∀ b∈l, b.addr<2^64
  /-- Fields do not overlap. -/
  apart : l.Pairwise (fun a b => Apart (cellOf link a) (cellOf link b))

/-- The blocks behind the first one. -/
theorem Cells.tail {b : Block} {l : List Block} (h : Cells link (b::l)) : Cells link l :=
  ⟨fun c hc => h.low c (List.mem_cons_of_mem b hc),(List.pairwise_cons.mp h.apart).2⟩

/-- A block with room holds its fields. -/
theorem Roomy.holds_cell {b : Block} (h : Roomy link b) {x : ℕ} (hx : (cellOf link b).Holds x) :
    b.Holds x := by
  unfold Roomy at h
  unfold cellOf Block.Holds Block.stop at hx
  unfold Block.Holds Block.stop
  dsimp only at hx
  omega

/-- Taking out a block leaves the fields of the others, which are apart from its
own. -/
theorem Cells.taken {minSize : ℕ} {l left : List Block} {found : Block} (h : Cells link l)
    (ht : takeFit minSize l=some (found,left)) :
    Cells link left ∧ ∀ c∈left, Apart (cellOf link found) (cellOf link c) := by
  obtain ⟨before,after,rfl,rfl,-⟩ := takeFit_eq_some ht
  obtain ⟨hfirst,hrest⟩ := List.pairwise_cons.mp
    (h.apart.perm (taken_perm before after found) (fun hab => hab.symm))
  exact ⟨⟨fun c hc => h.low c ((mem_of_takeFit ht).2 c hc),hrest⟩,hfirst⟩

/-- Blocks with room that are apart have their fields apart. -/
theorem Cells.of_roomy {l : List Block} (hroom : ∀ b∈l, Roomy link b) (hapart : l.Pairwise Apart) :
    Cells link l := by
  refine ⟨fun b hb => ?_,hapart.imp_of_mem (fun {a b} ha hb hab => ?_)⟩
  · have hb' := hroom b hb
    unfold Roomy Block.stop at hb'
    omega
  · have ha' := hroom a ha
    have hb' := hroom b hb
    unfold Roomy Block.stop at ha' hb'
    unfold Apart Block.stop at hab
    unfold Apart cellOf Block.stop
    dsimp only
    omega

/-- A stored link changes the fields of its own block only. -/
theorem setNext_outside_cell {m : Bytes} {b : Block} {next x : ℕ} (hx : ¬(cellOf link b).Holds x) :
    setNext link m b.addr next x=m x := by
  refine putWord_outside m next ?_
  unfold cellOf Block.Holds Block.stop at hx
  dsimp only at hx
  omega

/-- The head of a chain at low addresses. -/
theorem Chain.head_low {m : Bytes} {p : ℕ} {l : List Block} (h : Chain link m p l)
    (hlow : ∀ b∈l, b.addr<2^64) : p<2^64 := by
  cases l with
  | nil =>
    rw [show p=0 from h]
    exact Nat.two_pow_pos 64
  | cons b rest =>
    rw [h.1]
    exact hlow b List.mem_cons_self

/-- A chain is kept where the fields of its blocks hold the bytes they held. -/
theorem Chain.congr_cells {m m' : Bytes} {p : ℕ} {l : List Block} (h : Chain link m p l)
    (hsame : ∀ b∈l, ∀ x, (cellOf link b).Holds x → m' x=m x) : Chain link m' p l :=
  h.congr_fields (fun b hb x hl hr => hsame b hb x ⟨hl,by unfold Block.stop cellOf; dsimp only; omega⟩)

/-- A chain with a block linked in front. -/
theorem chain_linked {m : Bytes} {node : Block} {l : List Block} {p : ℕ} (hlink : 8≤link)
    (hne : node.addr≠0) (hsize : sizeAt m node.addr=node.size) (hl : Cells link (node::l))
    (h : Chain link m p l) : Chain link (setNext link m node.addr p) node.addr (node::l) := by
  have hapart := (List.pairwise_cons.mp hl.apart).1
  refine ⟨rfl,hne,?_,?_⟩
  · rw [sizeAt_setNext hlink,hsize]
  · rw [nextAt_setNext (h.head_low hl.tail.low)]
    refine h.congr_cells (fun b hb x hx => ?_)
    exact setNext_outside_cell (not_holds_of_apart (hapart b hb) hx)

/-- A stored size changes the fields of its own block only. -/
theorem setSize_outside_cell {m : Bytes} {b : Block} {size x : ℕ}
    (hx : ¬(cellOf link b).Holds x) : setSize m b.addr size x=m x := by
  refine putWord_outside m size ?_
  unfold cellOf Block.Holds Block.stop at hx
  dsimp only at hx
  omega

/-- Insertion into any chain whose fields do not overlap comes to its end: by
induction on the list. -/
theorem insertNode_returns (hlink : 8≤link) (l : List Block) :
    ∀ (fuel : ℕ) (m : Bytes) (node head : ℕ), l.length<fuel → Cells link l → Chain link m head l →
      ∃ done, insertNode link fuel m node head=some done := by
  induction l with
  | nil =>
    intro fuel m node head hfuel _ hchain
    rw [List.length_nil] at hfuel
    obtain ⟨fuel,rfl⟩ : ∃ more, fuel=more+1 := ⟨fuel-1,by omega⟩
    rw [insertNode,if_pos (show head=0 from hchain)]
    exact ⟨_,rfl⟩
  | cons b rest ih =>
    intro fuel m node head hfuel hcells hchain
    rw [List.length_cons] at hfuel
    obtain ⟨fuel,rfl⟩ : ∃ more, fuel=more+1 := ⟨fuel-1,by omega⟩
    obtain ⟨rfl,hb0,-,hrest⟩ := hchain
    obtain ⟨hfirst,-⟩ := List.pairwise_cons.mp hcells.apart
    unfold insertNode
    rw [if_neg hb0]
    split_ifs with hbefore hjoin hjoin
    · exact ⟨_,rfl⟩
    · exact ⟨_,rfl⟩
    · dsimp only
      refine ih fuel _ b.addr _ (by omega) hcells.tail ?_
      rw [nextAt_setSize hlink]
      exact hrest.congr_cells
        (fun c hc x hx => setSize_outside_cell (not_holds_of_apart (hfirst c hc) hx))
    · obtain ⟨done,hdone⟩ := ih fuel m node _ (by omega) hcells.tail hrest
      rw [hdone]
      exact ⟨_,rfl⟩

/-- Walking on from a block that is too small takes the first fit of the rest: by
induction on the rest. -/
theorem fitLoop_spec (hlink : 8≤link) (minSize : ℕ) (rest : List Block) :
    ∀ (fuel : ℕ) (m : Bytes) (a : Block), rest.length<fuel → Cells link (a::rest) →
      Chain link m a.addr (a::rest) →
      (takeFit minSize rest=none → fitLoop link minSize fuel m a.addr=some (m,0)) ∧
      ∀ found left, takeFit minSize rest=some (found,left) →
        ∃ m', fitLoop link minSize fuel m a.addr=some (m',found.addr) ∧
          Chain link m' a.addr (a::left) ∧ ∀ x, (∀ b∈a::left, ¬(cellOf link b).Holds x) → m' x=m x := by
  induction rest with
  | nil =>
    intro fuel m a hfuel _ hchain
    rw [List.length_nil] at hfuel
    obtain ⟨fuel,rfl⟩ : ∃ more, fuel=more+1 := ⟨fuel-1,by omega⟩
    have hend : nextAt link m a.addr=0 := hchain.2.2.2
    refine ⟨fun _ => ?_,fun found left hfound => ?_⟩
    · rw [fitLoop,if_pos hend]
    · cases hfound
  | cons b rest ih =>
    intro fuel m a hfuel hcells hchain
    rw [List.length_cons] at hfuel
    obtain ⟨fuel,rfl⟩ : ∃ more, fuel=more+1 := ⟨fuel-1,by omega⟩
    obtain ⟨-,ha0,hasize,hnext⟩ := hchain
    obtain ⟨hfirst,-⟩ := List.pairwise_cons.mp hcells.apart
    have hbaddr : nextAt link m a.addr=b.addr := hnext.1
    rw [hbaddr] at hnext
    obtain ⟨-,hb0,hbsize,hrest⟩ := hnext
    unfold takeFit
    by_cases hfits : minSize≤b.size
    · rw [if_pos hfits]
      refine ⟨fun hnone => absurd hnone (Option.some_ne_none _),fun found left hfound => ?_⟩
      cases hfound
      have hskip : Cells link (a::rest) := ⟨fun c hc => hcells.low c
        (List.cons_subset_cons a (List.subset_cons_self b rest) hc),
        hcells.apart.sublist ((List.sublist_cons_self b rest).cons_cons a)⟩
      refine ⟨setNext link m a.addr (nextAt link m b.addr),?_,?_,?_⟩
      · rw [fitLoop,hbaddr,if_neg hb0,hbsize,if_neg (Nat.not_lt.mpr hfits)]
      · exact chain_linked hlink ha0 hasize hskip hrest
      · exact fun x hx => setNext_outside_cell (hx a List.mem_cons_self)
    · rw [if_neg hfits]
      have hrun : fitLoop link minSize (fuel+1) m a.addr=fitLoop link minSize fuel m b.addr := by
        rw [fitLoop,hbaddr,if_neg hb0,hbsize,if_pos (Nat.lt_of_not_le hfits)]
      obtain ⟨hnone,hsome⟩ := ih fuel m b (by omega) hcells.tail ⟨rfl,hb0,hbsize,hrest⟩
      rw [hrun]
      refine ⟨fun h => hnone (Option.map_eq_none_iff.mp h),fun found left hfound => ?_⟩
      obtain ⟨⟨block,others⟩,htake,heq⟩ := Option.map_eq_some_iff.mp hfound
      cases heq
      obtain ⟨m',hdone,hchain',hframe⟩ := hsome block others htake
      have hothers : ∀ c∈b::others, c∈b::rest := by
        intro c hc
        rcases List.mem_cons.mp hc with rfl|hc
        · exact List.mem_cons_self
        · exact List.mem_cons_of_mem b ((mem_of_takeFit htake).2 c hc)
      have hkeep : ∀ x, a.addr≤x → x<a.addr+link+8 → m' x=m x := by
        intro x hl hr
        have hx : (cellOf link a).Holds x :=
          ⟨hl,by unfold Block.stop cellOf; dsimp only; omega⟩
        refine hframe x (fun c hc => ?_)
        exact not_holds_of_apart (hfirst c (hothers c hc)).symm hx
      have hsizes : sizeAt m' a.addr=sizeAt m a.addr :=
        wordAt_congr (fun x hl hr => hkeep x hl (by omega))
      have hlinks : nextAt link m' a.addr=nextAt link m a.addr :=
        wordAt_congr (fun x hl hr => hkeep x (by omega) hr)
      refine ⟨m',hdone,⟨rfl,ha0,?_,?_⟩,fun x hx => hframe x (fun c hc => ?_)⟩
      · rw [hsizes,hasize]
      · rw [hlinks,hbaddr]
        exact hchain'
      · exact hx c (List.mem_cons_of_mem a hc)

/-- First fit on the chain is first fit on the list, and changes no byte outside
the fields of the blocks that stay. -/
theorem takeNode_cells (hlink : 8≤link) (minSize fuel : ℕ) {m : Bytes} {head : ℕ} {l : List Block}
    (hfuel : l.length<fuel) (hcells : Cells link l) (hchain : Chain link m head l) :
    (takeFit minSize l=none → takeNode link minSize fuel m head=some (m,head,0)) ∧
      ∀ found left, takeFit minSize l=some (found,left) →
        ∃ m' p, takeNode link minSize fuel m head=some (m',p,found.addr) ∧ Chain link m' p left ∧
          ∀ x, (∀ b∈left, ¬(cellOf link b).Holds x) → m' x=m x := by
  cases l with
  | nil =>
    refine ⟨fun _ => ?_,fun found left hfound => ?_⟩
    · rw [takeNode,if_pos (show head=0 from hchain)]
    · cases hfound
  | cons a rest =>
    rw [List.length_cons] at hfuel
    have hhead : head=a.addr := hchain.1
    subst hhead
    have hsplit := fitLoop_spec hlink minSize rest fuel m a (by omega) hcells hchain
    obtain ⟨-,ha0,hasize,hrest⟩ := hchain
    unfold takeFit takeNode
    rw [if_neg ha0,hasize]
    by_cases hfits : minSize≤a.size
    · rw [if_pos hfits,if_pos hfits]
      refine ⟨fun hnone => absurd hnone (Option.some_ne_none _),fun found left hfound => ?_⟩
      cases hfound
      exact ⟨m,nextAt link m a.addr,rfl,hrest,fun x _ => rfl⟩
    · rw [if_neg hfits,if_neg hfits]
      refine ⟨fun hnone => ?_,fun found left hfound => ?_⟩
      · rw [hsplit.1 (Option.map_eq_none_iff.mp hnone)]
        rfl
      · obtain ⟨⟨block,others⟩,htake,heq⟩ := Option.map_eq_some_iff.mp hfound
        cases heq
        obtain ⟨m',hdone,hchain',hframe⟩ := hsplit.2 block others htake
        refine ⟨m',a.addr,?_,hchain',hframe⟩
        rw [hdone]
        rfl

/-- First fit among blocks with room changes no byte outside the blocks that stay. -/
theorem takeNode_spec (hlink : 8≤link) (minSize fuel : ℕ) {m : Bytes} {head : ℕ} {l : List Block}
    (hfuel : l.length<fuel) (hroom : ∀ b∈l, Roomy link b) (hapart : l.Pairwise Apart)
    (hchain : Chain link m head l) :
    (takeFit minSize l=none → takeNode link minSize fuel m head=some (m,head,0)) ∧
      ∀ found left, takeFit minSize l=some (found,left) →
        ∃ m' p, takeNode link minSize fuel m head=some (m',p,found.addr) ∧ Chain link m' p left ∧
          ∀ x, (∀ b∈left, ¬b.Holds x) → m' x=m x := by
  obtain ⟨hnone,hsome⟩ :=
    takeNode_cells hlink minSize fuel hfuel (Cells.of_roomy hroom hapart) hchain
  refine ⟨hnone,fun found left hfound => ?_⟩
  obtain ⟨m',p,hrun,hchain',hframe⟩ := hsome found left hfound
  refine ⟨m',p,hrun,hchain',fun x hx => hframe x (fun b hb hcell => ?_)⟩
  exact hx b hb ((hroom b ((mem_of_takeFit hfound).2 b hb)).holds_cell hcell)

end FirstFit

end ComputerSystems.LinkedBlocks
