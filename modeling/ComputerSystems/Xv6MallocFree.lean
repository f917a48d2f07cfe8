import ComputerSystems.Xv6MallocHeap

/-!
# Freeing a block

`xfree_helper` walks to the place of a block in the circle, and what it does there
is to link the block in and to join it with the blocks it touches. Afterwards no two
free blocks touch, if none did before.
-/

namespace ComputerSystems.Xv6Malloc

open OrderedCycle

variable {base : ℕ} {cell cell' : ℕ → Header} {mapped : ℕ → Bool} {total : ℕ}
  {nodes live : Finset ℕ} {bp p : ℕ}

/-! ## The place of a block -/

/-- Where the loop of `xfree_helper` stops is the place of the block. -/
theorem findSlot_slot (hcycle : Cycle nodes (fun a => (cell a).ptr)) (rounds : ℕ) :
    ∀ {a : ℕ}, a∈nodes → findSlot cell bp rounds a=some p → p∈nodes ∧ Slot bp p (cell p).ptr := by
  induction rounds with
  | zero =>
    intro a _ h
    cases h
  | succ rounds ih =>
    intro a ha h
    rw [findSlot] at h
    split_ifs at h with hbetween hends
    · cases h
      exact ⟨ha,Or.inl hbetween⟩
    · cases h
      exact ⟨ha,Or.inr hends⟩
    · exact ih (hcycle a ha).mem h

/-- The loop stops within the number of nodes before it. -/
theorem findSlot_stops (hcycle : Cycle nodes (fun a => (cell a).ptr)) (hbp : bp∉nodes)
    (rounds : ℕ) : ∀ {a : ℕ}, a∈nodes → ahead nodes bp a<rounds →
    (findSlot cell bp rounds a).isSome=true := by
  induction rounds with
  | zero =>
    intro a _ h
    exact absurd h (Nat.not_lt_zero _)
  | succ rounds ih =>
    intro a ha h
    rw [findSlot]
    split_ifs with hbetween hends
    · rfl
    · rfl
    · refine ih (hcycle a ha).mem ?_
      have hslot : ¬Slot bp a (cell a).ptr := not_or.mpr ⟨hbetween,hends⟩
      have := @ahead_lt _ _ nodes (fun a => (cell a).ptr) a bp hcycle ha hbp hslot
      omega

/-- A free block that begins where a block ends is the next one. -/
theorem Tiled.touches_next (h : Tiled base cell mapped total nodes live) (hp : p∈nodes)
    (hbp : bp∈live) (hbase : bp≠base) (hslot : Slot bp p (cell p).ptr)
    (htouch : bp+(cell bp).size∈nodes) : bp+(cell bp).size=(cell p).ptr := by
  have hbpall : bp∈nodes∪live := Finset.mem_union_right nodes hbp
  obtain ⟨hmem,hnear⟩ := h.follows hp
  have hpos := h.pos bp hbpall hbase
  have hbelow : bp<(cell p).ptr → bp+(cell bp).size≤(cell p).ptr :=
    h.order bp hbpall _ (Finset.mem_union_left live hmem)
  rcases hnear with ⟨hlt,hnear⟩|⟨hle,hends⟩
  · rcases hslot with ⟨hpb,hbn⟩|⟨hnp,-⟩
    · have := hbelow hbn
      rcases hnear _ htouch with hc|hc <;> omega
    · omega
  · rcases hslot with ⟨hpb,hbn⟩|⟨-,hpb|hbn⟩
    · omega
    · have := (hends _ htouch).2
      omega
    · have := hbelow hbn
      have := (hends _ htouch).1
      omega

/-- A free block that ends where a block begins is the one before. -/
theorem Tiled.touches_before (h : Tiled base cell mapped total nodes live) (hp : p∈nodes)
    (hslot : Slot bp p (cell p).ptr) {a : ℕ} (ha : a∈nodes) (hbase : a≠base)
    (htouch : a+(cell a).size=bp) : a=p := by
  have haall : a∈nodes∪live := Finset.mem_union_left live ha
  have hpall : p∈nodes∪live := Finset.mem_union_left live hp
  obtain ⟨-,hnear⟩ := h.follows hp
  have hpos := h.pos a haall hbase
  have horder : a<p → a+(cell a).size≤p := h.order a haall p hpall
  rcases hnear with ⟨hlt,hnear⟩|⟨hle,hends⟩
  · rcases hslot with ⟨hpb,hbn⟩|⟨hnp,-⟩
    · rcases hnear a ha with hc|hc
      · by_contra hap
        have := horder (by omega)
        omega
      · omega
    · omega
  · have hbounds := hends a ha
    rcases hslot with ⟨hpb,hbn⟩|⟨-,hpb|hbn⟩
    · omega
    · by_contra hap
      have := horder (by omega)
      omega
    · omega

/-! ## Joining -/

/-- No two free blocks touch. -/
def Gaps (base : ℕ) (cell : ℕ → Header) (nodes : Finset ℕ) : Prop :=
  ∀ a∈nodes, a≠base → a+(cell a).size∉nodes

/-- A block linked in behind the one before its place, after it was joined with the
next one. -/
def linked (cell : ℕ → Header) (bp p : ℕ) : ℕ → Header :=
  Function.update (joinUpper cell bp p) p {cell p with ptr := bp}

/-- What `xfree_helper` does to the memory is to link the block in and to join it
with the one before when they touch. -/
theorem joinLower_eq (hne : p≠bp) :
    joinLower (joinUpper cell bp p) bp p=
      if p+(cell p).size=bp then
        Function.update (linked cell bp p) p
          {ptr := (linked cell bp p bp).ptr
           size := uint ((cell p).size+(linked cell bp p bp).size)}
      else linked cell bp p := by
  have hupper : joinUpper cell bp p p=cell p := by
    unfold joinUpper
    dsimp only
    split_ifs <;> exact Function.update_of_ne hne _ cell
  have hself : linked cell bp p bp=joinUpper cell bp p bp := Function.update_of_ne hne.symm _ _
  rw [joinLower,hupper,hself]
  split_ifs
  · rw [linked,Function.update_idem]
  · rfl

/-- The block before is not the next one, unless it is the static header. -/
theorem Tiled.next_ne (h : Tiled base cell mapped total nodes live) (hp : p∈nodes)
    (hnext : (cell p).ptr≠base) : (cell p).ptr≠p := by
  intro heq
  have hfollows := h.follows hp
  rw [heq] at hfollows
  rcases hfollows.near with ⟨hlt,-⟩|⟨-,hends⟩
  · exact absurd hlt (lt_irrefl p)
  · have hbase := hends base h.base_mem
    exact hnext (heq.trans (Nat.le_antisymm hbase.1 hbase.2))

/-- What holds of a block that is linked in. -/
structure Linked (base : ℕ) (cell cell' : ℕ → Header) (mapped : ℕ → Bool) (total : ℕ)
    (nodes nodes' live : Finset ℕ) (bp p : ℕ) : Prop where
  /-- The blocks tile the mapped units. -/
  tiled : Tiled base cell' mapped total nodes' (live.erase bp)
  /-- The circle has no other new node. -/
  subset : ∀ a∈nodes', a=bp ∨ a∈nodes
  /-- The block before is free. -/
  before : p∈nodes'
  /-- The block is free. -/
  self : bp∈nodes'
  /-- The one leads to the other. -/
  next : (cell' p).ptr=bp
  /-- The block before has its size. -/
  size : (cell' p).size=(cell p).size
  /-- The block has at least its size. -/
  grown : (cell bp).size≤(cell' bp).size
  /-- No other free block touches one. -/
  gap : ∀ a∈nodes', a≠base → a≠p → a+(cell' a).size∉nodes'
  /-- The block before touches at most the new one. -/
  last : p≠base → p+(cell' p).size∈nodes' → p+(cell' p).size=bp
  /-- Other memory is as it was. -/
  rest : ∀ c, c≠p → c≠bp → cell' c=cell c

/-- A block that does not touch the next one is linked in. -/
theorem linked_apart (h : Tiled base cell mapped total nodes live) (hgap : Gaps base cell nodes)
    (hp : p∈nodes) (hbp : bp∈live) (hbase : bp≠base) (hslot : Slot bp p (cell p).ptr)
    (hapart : bp+(cell bp).size≠(cell p).ptr) :
    Linked base cell (linked cell bp p) mapped total nodes (insert bp nodes) live bp p := by
  have hne : p≠bp := fun heq => h.apart p hp (heq ▸ hbp)
  have hupper : joinUpper cell bp p=Function.update cell bp {cell bp with ptr := (cell p).ptr} :=
    if_neg hapart
  have hselfp : linked cell bp p p={cell p with ptr := bp} := Function.update_self p _ _
  have hselfbp : linked cell bp p bp={cell bp with ptr := (cell p).ptr} := by
    rw [linked,Function.update_of_ne hne.symm,hupper,Function.update_self]
  have hrest : ∀ c, c≠p → c≠bp → linked cell bp p c=cell c := by
    intro c hcp hcb
    rw [linked,Function.update_of_ne hcp,hupper,Function.update_of_ne hcb]
  have hsize : ∀ c, (linked cell bp p c).size=(cell c).size := by
    intro c
    by_cases hcp : c=p
    · rw [hcp,hselfp]
    · by_cases hcb : c=bp
      · rw [hcb,hselfbp]
      · rw [hrest c hcp hcb]
  have hpos := h.pos bp (Finset.mem_union_right nodes hbp) hbase
  have hends : ∀ a∈insert bp nodes, a≠base → a+(cell a).size∈insert bp nodes →
      a=p ∧ a+(cell a).size=bp := by
    intro a ha hane hmem
    rcases Finset.mem_insert.mp ha with rfl|ha
    · rcases Finset.mem_insert.mp hmem with heq|hmem
      · omega
      · exact absurd (h.touches_next hp hbp hbase hslot hmem) hapart
    · rcases Finset.mem_insert.mp hmem with heq|hmem
      · exact ⟨h.touches_before hp hslot ha hane heq,heq⟩
      · exact absurd hmem (hgap a ha hane)
  refine ⟨?_,fun a ha => Finset.mem_insert.mp ha,Finset.mem_insert_of_mem hp,
    Finset.mem_insert_self bp nodes,by rw [hselfp],hsize p,(hsize bp).ge,?_,?_,hrest⟩
  · refine h.link hp hbp hslot (by rw [hselfp]) (by rw [hselfbp]) ?_ hsize
    intro c hc hcp
    have hcb : c≠bp := fun heq => h.apart c hc (heq ▸ hbp)
    rw [hrest c hcp hcb]
  · intro a ha hane hap hmem
    rw [hsize] at hmem
    exact hap (hends a ha hane hmem).1
  · intro hpne hmem
    rw [hsize] at hmem ⊢
    exact (hends p (Finset.mem_insert_of_mem hp) hpne hmem).2

/-- A block that touches the next one is linked in and joined with it. -/
theorem linked_touching (h : Tiled base cell mapped total nodes live) (hgap : Gaps base cell nodes)
    (hsmall : total<4294967296) (hp : p∈nodes) (hbp : bp∈live) (hbase : bp≠base)
    (hshore : bp+(cell bp).size≠base) (hslot : Slot bp p (cell p).ptr)
    (htouch : bp+(cell bp).size=(cell p).ptr) :
    Linked base cell (linked cell bp p) mapped total nodes ((insert bp nodes).erase (cell p).ptr)
      live bp p := by
  have hne : p≠bp := fun heq => h.apart p hp (heq ▸ hbp)
  have hnextbase : (cell p).ptr≠base := htouch ▸ hshore
  have hnextp := h.next_ne hp hnextbase
  have hnextmem : (cell p).ptr∈nodes := (h.follows hp).mem
  have hnextbp : (cell p).ptr≠bp := fun heq => h.apart _ hnextmem (heq.symm ▸ hbp)
  have hbpall : bp∈nodes∪live := Finset.mem_union_right nodes hbp
  have hnextall : (cell p).ptr∈nodes∪live := Finset.mem_union_left live hnextmem
  have hadd := h.add_lt hsmall hbpall hnextall hnextbp.symm
  have hupper : joinUpper cell bp p=Function.update cell bp
      {ptr := (cell (cell p).ptr).ptr,size := uint ((cell bp).size+(cell (cell p).ptr).size)} :=
    if_pos htouch
  -- the memory between linking and joining, which the code never writes
  let between := Function.update (Function.update cell bp {cell bp with ptr := (cell p).ptr}) p
    {cell p with ptr := bp}
  have hbetweenp : between p={cell p with ptr := bp} := Function.update_self p _ _
  have hbetweenbp : between bp={cell bp with ptr := (cell p).ptr} := by
    change Function.update _ p _ bp=_
    rw [Function.update_of_ne hne.symm,Function.update_self]
  have hbetween : ∀ c, c≠p → c≠bp → between c=cell c := by
    intro c hcp hcb
    change Function.update _ p _ c=_
    rw [Function.update_of_ne hcp,Function.update_of_ne hcb]
  have hbetweensize : ∀ c, (between c).size=(cell c).size := by
    intro c
    by_cases hcp : c=p
    · rw [hcp,hbetweenp]
    · by_cases hcb : c=bp
      · rw [hcb,hbetweenbp]
      · rw [hbetween c hcp hcb]
  have hlink : Tiled base between mapped total (insert bp nodes) (live.erase bp) := by
    refine h.link hp hbp hslot (by rw [hbetweenp]) (by rw [hbetweenbp]) ?_ hbetweensize
    intro c hc hcp
    have hcb : c≠bp := fun heq => h.apart c hc (heq ▸ hbp)
    rw [hbetween c hcp hcb]
  have hselfp : linked cell bp p p={cell p with ptr := bp} := Function.update_self p _ _
  have hselfbp : linked cell bp p bp=
      {ptr := (cell (cell p).ptr).ptr,size := (cell bp).size+(cell (cell p).ptr).size} := by
    rw [linked,Function.update_of_ne hne.symm,hupper,Function.update_self,uint,
      Nat.mod_eq_of_lt hadd]
  have hrest : ∀ c, c≠p → c≠bp → linked cell bp p c=cell c := by
    intro c hcp hcb
    rw [linked,Function.update_of_ne hcp,hupper,Function.update_of_ne hcb]
  have hmem : ∀ a, a∈(insert bp nodes).erase (cell p).ptr → a=bp ∨ (a∈nodes ∧ a≠(cell p).ptr) := by
    intro a ha
    obtain ⟨hane,ha⟩ := Finset.mem_erase.mp ha
    exact (Finset.mem_insert.mp ha).imp id (fun ha => ⟨ha,hane⟩)
  refine ⟨?_,fun a ha => (hmem a ha).imp id And.left,?_,?_,by rw [hselfp],by rw [hselfp],?_,?_,?_,
    hrest⟩
  · refine hlink.join (Finset.mem_insert_self bp nodes) (by rw [hbetweenbp]) ?_ hnextbase
      hnextbp.symm ?_ ?_ ?_
    · rw [hbetweensize]
      exact htouch
    · rw [hselfbp,hbetween _ hnextp hnextbp]
    · rw [hselfbp,hbetweensize,hbetweensize]
    · intro c hcb _
      by_cases hcp : c=p
      · rw [hcp,hselfp,hbetweenp]
      · rw [hrest c hcp hcb,hbetween c hcp hcb]
  · exact Finset.mem_erase.mpr ⟨hnextp.symm,Finset.mem_insert_of_mem hp⟩
  · exact Finset.mem_erase.mpr ⟨hnextbp.symm,Finset.mem_insert_self bp nodes⟩
  · rw [hselfbp]
    exact Nat.le_add_right _ _
  · intro a ha hane hap hend
    rcases hmem a ha with rfl|⟨han,hanext⟩
    · rw [hselfbp] at hend
      have hpos := h.pos a hbpall hane
      have hsame : a+((cell a).size+(cell (cell p).ptr).size)=
          (cell p).ptr+(cell (cell p).ptr).size := by
        omega
      dsimp only at hend
      rcases hmem _ hend with heq|⟨hin,-⟩
      · omega
      · rw [hsame] at hin
        exact hgap _ hnextmem hnextbase hin
    · have hab : a≠bp := fun heq => h.apart a han (heq ▸ hbp)
      rw [hrest a hap hab] at hend
      rcases hmem _ hend with heq|⟨hin,-⟩
      · exact hap (h.touches_before hp hslot han hane heq)
      · exact hgap a han hane hin
  · intro hpne hend
    rw [hselfp] at hend ⊢
    rcases hmem _ hend with heq|⟨hin,-⟩
    · exact heq
    · exact absurd hin (hgap p hp hpne)

/-- What `xfree_helper` does to the blocks. -/
structure Freed (base : ℕ) (cell cell' : ℕ → Header) (mapped : ℕ → Bool) (total : ℕ)
    (nodes nodes' live : Finset ℕ) (bp p : ℕ) : Prop where
  /-- The blocks tile the mapped units. -/
  tiled : Tiled base cell' mapped total nodes' (live.erase bp)
  /-- The circle has no other new node. -/
  subset : nodes'⊆insert bp nodes
  /-- The new `freep` is free. -/
  start : p∈nodes'
  /-- It was free before. -/
  old : p∈nodes
  /-- No two free blocks touch. -/
  gaps : Gaps base cell' nodes'
  /-- Some free block is at least as large as the one that was freed. -/
  large : ∃ q∈nodes', (cell bp).size≤(cell' q).size
  /-- Other memory is as it was. -/
  rest : ∀ c, c≠p → c≠bp → cell' c=cell c

/-- `xfree_helper` links a block in and joins it with the blocks it touches. -/
theorem freed_xfreeHelper (h : Tiled base cell mapped total nodes live)
    (hgap : Gaps base cell nodes) (hsmall : total<4294967296) (hbp : bp∈live)
    (hshore : bp+(cell bp).size≠base) {rounds freep : ℕ} (hfreep : freep∈nodes)
    (heq : xfreeHelper rounds cell freep bp=some (cell',p)) :
    ∃ nodes', Freed base cell cell' mapped total nodes nodes' live bp p := by
  have hplace : p∈nodes ∧ Slot bp p (cell p).ptr ∧ cell'=joinLower (joinUpper cell bp p) bp p := by
    unfold xfreeHelper at heq
    split at heq
    case h_1 q hq =>
      cases heq
      obtain ⟨hmem,hslot⟩ := findSlot_slot h.cycle rounds hfreep hq
      exact ⟨hmem,hslot,rfl⟩
    case h_2 => cases heq
  obtain ⟨hp,hslot,rfl⟩ := hplace
  have hne : p≠bp := fun heq => h.apart p hp (heq ▸ hbp)
  have hbase : bp≠base := fun heq => h.apart base h.base_mem (heq ▸ hbp)
  have hlinked : ∃ middle, Linked base cell (linked cell bp p) mapped total nodes middle live bp p := by
    by_cases htouch : bp+(cell bp).size=(cell p).ptr
    · exact ⟨_,linked_touching h hgap hsmall hp hbp hbase hshore hslot htouch⟩
    · exact ⟨_,linked_apart h hgap hp hbp hbase hslot htouch⟩
  obtain ⟨middle,hl⟩ := hlinked
  have hsubset : middle⊆insert bp nodes := fun c hc => Finset.mem_insert.mpr (hl.subset c hc)
  rw [joinLower_eq hne]
  split_ifs with htouch
  · have hpbase : p≠base := by
      rintro rfl
      rw [h.base_size] at htouch
      exact hne htouch
    have hadd := hl.tiled.add_lt hsmall (Finset.mem_union_left _ hl.before)
      (Finset.mem_union_left _ hl.self) hne
    rw [hl.size] at hadd
    let joined := Function.update (linked cell bp p) p
      {ptr := (linked cell bp p bp).ptr
       size := uint ((cell p).size+(linked cell bp p bp).size)}
    have hjoinedp : joined p={ptr := (linked cell bp p bp).ptr
                              size := (cell p).size+(linked cell bp p bp).size} := by
      change Function.update _ p _ p=_
      rw [Function.update_self,uint,Nat.mod_eq_of_lt hadd]
    have hjoined : ∀ c, c≠p → joined c=linked cell bp p c :=
      fun c hcp => Function.update_of_ne hcp _ _
    refine ⟨middle.erase bp,?_,(Finset.erase_subset bp middle).trans hsubset,
      Finset.mem_erase.mpr ⟨hne,hl.before⟩,hp,?_,⟨p,?_,?_⟩,?_⟩
    · refine hl.tiled.join hl.before hl.next ?_ hbase hne ?_ ?_ (fun c hcp _ => hjoined c hcp)
      · rw [hl.size]
        exact htouch
      · exact (congrArg Header.ptr hjoinedp).trans rfl
      · refine (congrArg Header.size hjoinedp).trans ?_
        rw [hl.size]
    · intro a ha hane hmem
      change a+(joined a).size∈_ at hmem
      have ha' := Finset.mem_of_mem_erase ha
      have hmem' := Finset.mem_of_mem_erase hmem
      by_cases hap : a=p
      · rw [hap,hjoinedp] at hmem'
        have hgapbp := hl.gap bp hl.self hbase hne.symm
        dsimp only at hmem'
        rw [show p+((cell p).size+(linked cell bp p bp).size)=
          bp+(linked cell bp p bp).size by omega] at hmem'
        exact hgapbp hmem'
      · rw [hjoined a hap] at hmem'
        exact hl.gap a ha' hane hap hmem'
    · exact Finset.mem_erase.mpr ⟨hne,hl.before⟩
    · change _≤(joined p).size
      rw [hjoinedp]
      exact hl.grown.trans (Nat.le_add_left _ _)
    · intro c hcp hcb
      exact (hjoined c hcp).trans (hl.rest c hcp hcb)
  · refine ⟨middle,hl.tiled,hsubset,hl.before,hp,?_,⟨bp,hl.self,hl.grown⟩,hl.rest⟩
    intro a ha hane hmem
    by_cases hap : a=p
    · rw [hap] at hane hmem
      have hlast := hl.last hane hmem
      rw [hl.size] at hlast
      exact htouch hlast
    · exact hl.gap a ha hane hap hmem

end ComputerSystems.Xv6Malloc
