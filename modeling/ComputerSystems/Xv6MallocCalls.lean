import ComputerSystems.Xv6MallocRun

/-!
# The calls of the allocator

Whatever a program asks for, frees and writes, its blocks have the size it asked
for, lie apart from each other and hold what it wrote, and every mapped unit is in
one block. Every call returns, and `xmalloc` maps memory at most once.
-/

namespace ComputerSystems.Xv6Malloc

open OrderedCycle TransitionSystem

variable {base : ℕ} {cell : ℕ → Header} {nodes : Finset ℕ} {s t : State}

/-- Nothing was asked for yet. -/
structure Idle (s : State) : Prop where
  /-- No circle. -/
  freep : s.freep=none
  /-- No call. -/
  pending : s.pending=none
  /-- No blocks. -/
  live : s.live=∅
  /-- No mapping. -/
  mapped : s.mapped=fun _ => false
  /-- Of no size. -/
  total : s.total=0

/-- What holds of every reachable state. -/
structure Sound (base : ℕ) (s : State) : Prop where
  /-- A request under way is below 2^32 units. -/
  pending : ∀ nbytes, s.pending=some nbytes → (nbytes+15)/16+1<4294967296
  /-- Nothing was asked for, or the blocks are as they should be. -/
  heap : Idle s ∨ ∃ nodes f, Heap base s nodes f

/-- The first call makes the circle. -/
theorem Idle.heap (h : Idle s) (base : ℕ) :
    Heap base {s with cell := Function.update s.cell base {ptr := base,size := 0},freep := some base}
      {base} base := by
  refine ⟨?_,rfl,Finset.mem_singleton_self base,?_,?_,?_,?_,?_⟩
  · rw [h.live,h.mapped,h.total]
    exact tiled_base base s.cell
  · intro a ha hne
    exact absurd (Finset.mem_singleton.mp ha) hne
  · intro b hb
    rw [h.live] at hb
    exact absurd hb (Finset.notMem_empty b)
  · rw [h.total]
    decide
  · intro b hb
    rw [h.live] at hb
    exact absurd hb (Finset.notMem_empty b)
  · intro b hb
    rw [h.live] at hb
    exact absurd hb (Finset.notMem_empty b)

/-- How a walk of `xmalloc` ends. -/
theorem heap_walk {f rounds nbytes : ℕ} (h : Heap base s nodes f)
    (hbytes : (nbytes+15)/16+1<4294967296) (hs : walk rounds nbytes f s=some t) :
    (∃ nodes' f', Heap base t nodes' f') ∧
      ((t.pending=none ∧ ∃ b∈t.live, t.result=some (b+1) ∧ t.asked b=nbytes) ∨
        (t.pending=some nbytes ∧ ∀ c∈nodes, (s.cell c).size<nunits nbytes)) := by
  unfold walk at hs
  split at hs
  case h_1 prevp p heq =>
    cases hs
    obtain ⟨hprevp,hp,hlarge⟩ := search_found h.tiled.cycle rounds h.start rfl heq
    obtain ⟨nodes',hnew⟩ := heap_handOut h hbytes hprevp hp hlarge
    refine ⟨⟨nodes',prevp,hnew⟩,Or.inl ⟨rfl,_,Finset.mem_insert_self _ _,rfl,?_⟩⟩
    exact Function.update_self _ nbytes s.asked
  case h_2 heq =>
    cases hs
    have hnext := h.tiled.follows h.start
    refine ⟨⟨nodes,f,⟨h.tiled,h.freep,h.start,h.gaps,h.shore,h.small,h.asked,h.kept⟩⟩,
      Or.inr ⟨rfl,?_⟩⟩
    refine search_core h.tiled.cycle h.start rounds hnext.mem ?_ heq
    intro c hc hpassed
    exact absurd hpassed (not_passed_next hnext hc)
  case h_3 => cases hs

/-- A walk of `xmalloc` ends. -/
theorem walk_ends {f rounds nbytes : ℕ} (h : Heap base s nodes f) (hrounds : nodes.card<rounds) :
    ∃ t, walk rounds nbytes f s=some t := by
  have hnext := h.tiled.follows h.start
  have hsome : (search s.cell f (nunits nbytes) rounds f (s.cell f).ptr).isSome=true :=
    search_stops h.tiled.cycle h.start rounds hnext.mem
      ((unpassed_le_card nodes f (s.cell f).ptr).trans_lt hrounds)
  obtain ⟨found,hfound⟩ := Option.isSome_iff_exists.mp hsome
  unfold walk
  rw [hfound]
  cases found with
  | found prevp p => exact ⟨_,rfl⟩
  | core => exact ⟨_,rfl⟩

/-- `xfree_helper` ends. -/
theorem xfreeHelper_ends {cell : ℕ → Header} {f bp rounds : ℕ}
    (hcycle : Cycle nodes (fun a => (cell a).ptr)) (hf : f∈nodes) (hbp : bp∉nodes)
    (hrounds : nodes.card<rounds) : ∃ r, xfreeHelper rounds cell f bp=some r := by
  have hsome : (findSlot cell bp rounds f).isSome=true :=
    findSlot_stops hcycle hbp rounds hf ((ahead_le_card nodes bp f).trans_lt hrounds)
  obtain ⟨p,hp⟩ := Option.isSome_iff_exists.mp hsome
  unfold xfreeHelper
  rw [hp]
  exact ⟨_,rfl⟩

/-- A mapping is freed into the circle. -/
theorem core_freed {f rounds a nu : ℕ} (h : Heap base s nodes f) (hnu : 0<nu)
    (hfresh : Fresh base a nu s) (hrounds : nodes.card<rounds) :
    ∃ cell' p, xfreeHelper rounds (coreCell s a nu) f a=some (cell',p) := by
  obtain ⟨hnew,-,hsmall⟩ := hfresh
  have hsize : (coreCell s a nu a).size=nu := by
    rw [coreCell,Function.update_self]
    exact Nat.mod_eq_of_lt (by omega)
  have hgrown := h.tiled.grow hnu hnew hsize (fun c hc => coreCell_of_not_mem hnu hc)
  obtain ⟨⟨cell',p⟩,hr⟩ := xfreeHelper_ends hgrown.cycle h.start
    (fun hmem => hgrown.apart a hmem (Finset.mem_insert_self a _)) hrounds
  exact ⟨cell',p,hr⟩

/-- With a new mapping, `xmalloc` hands out a block. -/
theorem heap_morecore {f rounds nbytes a : ℕ} (h : Heap base s nodes f)
    (hbytes : (nbytes+15)/16+1<4294967296) (hfresh : Fresh base a (coreUnits nbytes) s)
    (hs : morecore rounds nbytes a f s=some t) :
    (∃ nodes' f', Heap base t nodes' f') ∧ t.pending=none ∧
      ∃ b∈t.live, t.result=some (b+1) ∧ t.asked b=nbytes := by
  unfold morecore at hs
  dsimp only at hs
  split at hs
  case h_2 => cases hs
  case h_1 cell' p heq =>
    obtain ⟨nodes',hnew,-,q,hq,hlarge⟩ := heap_core h (coreUnits_pos nbytes) hfresh heq
    obtain ⟨hheap,hend⟩ := heap_walk hnew hbytes hs
    rcases hend with hdone|⟨-,htoosmall⟩
    · exact ⟨hheap,hdone⟩
    · have hqsmall := htoosmall q hq
      have hunits := nunits_le_coreUnits nbytes
      change (cell' q).size<nunits nbytes at hqsmall
      omega

/-- Every step keeps what holds of every reachable state. -/
theorem sound_step {act : Action} (h : Sound base s) (ha : Careful base s act)
    (hs : step base act s=some t) : Sound base t := by
  cases act with
  | malloc rounds nbytes =>
    simp only [step] at hs
    split_ifs at hs
    have hwalk : (∃ nodes' f', Heap base t nodes' f') ∧
        ((t.pending=none ∧ ∃ b∈t.live, t.result=some (b+1) ∧ t.asked b=nbytes) ∨
          t.pending=some nbytes) := by
      rcases h.heap with hidle|⟨nodes,f,hheap⟩
      · rw [xmalloc,hidle.freep] at hs
        obtain ⟨hnew,hend⟩ := heap_walk (hidle.heap base) ha hs
        exact ⟨hnew,hend.imp id And.left⟩
      · rw [xmalloc,hheap.freep] at hs
        obtain ⟨hnew,hend⟩ := heap_walk hheap ha hs
        exact ⟨hnew,hend.imp id And.left⟩
    refine ⟨?_,Or.inr hwalk.1⟩
    intro n hn
    rcases hwalk.2 with ⟨hnone,-⟩|hsome
    · rw [hnone] at hn
      cases hn
    · rw [hsome] at hn
      cases hn
      exact ha
  | mmap rounds a =>
    simp only [step] at hs
    split at hs
    case h_1 nbytes f hpending hfreep =>
      cases hs
      refine ⟨fun n hn => ?_,?_⟩
      · cases hn
      · rcases h.heap with hidle|⟨nodes,f',hheap⟩
        · rw [hidle.pending] at hpending
          cases hpending
        · exact Or.inr ⟨nodes,f',⟨hheap.tiled,hheap.freep,hheap.start,hheap.gaps,hheap.shore,
            hheap.small,hheap.asked,hheap.kept⟩⟩
    case h_2 nbytes f a hpending hfreep =>
      rcases h.heap with hidle|⟨nodes,f',hheap⟩
      · rw [hidle.pending] at hpending
        cases hpending
      · cases hheap.freep.symm.trans hfreep
        rw [Careful,hpending,Option.getD_some] at ha
        obtain ⟨hnew,hnone,-⟩ := heap_morecore hheap (h.pending nbytes hpending) ha hs
        refine ⟨fun n hn => ?_,Or.inr hnew⟩
        rw [hnone] at hn
        cases hn
    case h_3 => cases hs
  | free rounds ap =>
    simp only [step] at hs
    split_ifs at hs with hpending
    rcases h.heap with hidle|⟨nodes,f,hheap⟩
    · have hap := ha.2
      rw [hidle.live] at hap
      exact absurd hap (Finset.notMem_empty _)
    · obtain ⟨nodes',f',hnew,hsame⟩ := heap_xfree hheap ha.2 hs
      refine ⟨fun n hn => ?_,Or.inr ⟨nodes',f',hnew⟩⟩
      rw [hsame,hpending] at hn
      cases hn
  | write u value =>
    cases hs
    rcases h.heap with hidle|⟨nodes,f,hheap⟩
    · obtain ⟨b,hb,-⟩ := ha
      rw [hidle.live] at hb
      exact absurd hb (Finset.notMem_empty _)
    · exact ⟨h.pending,Or.inr ⟨nodes,f,heap_write hheap ha⟩⟩

/-- Every reachable state is as it should be. -/
theorem sound_reachable (hs : Reachable (step base) (Careful base) (booted cell) s) :
    Sound base s := by
  refine hs.invariant (Sound base) ⟨?_,Or.inl ⟨rfl,rfl,rfl,rfl,rfl⟩⟩
    (fun _ _ _ h ha hstep => sound_step h ha hstep)
  intro n hn
  cases hn

/-- In every run of a careful program each of its blocks has a header and at least
the bytes it asked for, the blocks lie apart from each other in mapped memory, and
each unit of a block holds what the program wrote to it last, whatever was asked for
and freed since. -/
theorem program_blocks_kept (hs : Reachable (step base) (Careful base) (booted cell) s) :
    (∀ b∈s.live, s.asked b+16≤16*(s.cell b).size) ∧
    (∀ b∈s.live, ∀ c∈s.live, b<c → b+(s.cell b).size≤c) ∧
    (∀ b∈s.live, ∀ u, b≤u → u<b+(s.cell b).size → s.mapped u=true) ∧
    ∀ b∈s.live, ∀ u, b<u → u<b+(s.cell b).size → ∀ value, s.written u=some value →
      s.cell u=value := by
  rcases (sound_reachable hs).heap with hidle|⟨nodes,f,h⟩
  · have hnone : ∀ b, b∉s.live := by
      intro b
      rw [hidle.live]
      exact Finset.notMem_empty b
    exact ⟨fun b hb => absurd hb (hnone b),fun b hb => absurd hb (hnone b),
      fun b hb => absurd hb (hnone b),fun b hb => absurd hb (hnone b)⟩
  · refine ⟨h.asked,?_,?_,h.kept⟩
    · intro b hb c hc
      exact h.tiled.order b (Finset.mem_union_right _ hb) c (Finset.mem_union_right _ hc)
    · intro b hb u hbu hub
      exact (h.tiled.cover u).mpr ⟨b,Finset.mem_union_right _ hb,hbu,hub⟩

/-- A request of ten bytes, and its mapping. -/
theorem ten_bytes_reached :
    ∃ s, Reachable (step 1) (Careful 1) (booted (fun _ => ⟨0,0⟩)) s ∧
      s.live={9094} ∧ s.written 9095=some ⟨7,8⟩ ∧ (s.cell 9094).size=2 ∧ s.pending=none := by
  have hrun : ∃ s₁ s₂ s₃, step 1 (.malloc 5 10) (booted (fun _ => ⟨0,0⟩))=some s₁ ∧
      s₁.pending=some 10 ∧ (s₁.mapped=fun _ => false) ∧ s₁.total=0 ∧
      step 1 (.mmap 5 (some 5000)) s₁=some s₂ ∧ s₂.live={9094} ∧ s₂.asked 9094=10 ∧
      step 1 (.write 9095 ⟨7,8⟩) s₂=some s₃ ∧ s₃.live={9094} ∧ s₃.written 9095=some ⟨7,8⟩ ∧
      (s₃.cell 9094).size=2 ∧ s₃.pending=none :=
    ⟨_,_,_,rfl,rfl,rfl,rfl,rfl,rfl,rfl,rfl,rfl,rfl,rfl,rfl⟩
  obtain ⟨s₁,s₂,s₃,h₁,hpending,hmapped,htotal,h₂,hlive,hasked,h₃,hlive',hwritten,hsize,hnone⟩ := hrun
  have hfirst : Careful 1 (booted (fun _ => ⟨0,0⟩)) (.malloc 5 10) := by
    change (10+15)/16+1<4294967296
    decide
  have hsecond : Careful 1 s₁ (.mmap 5 (some 5000)) := by
    rw [Careful,hpending]
    have hunits : coreUnits ((some 10).getD 0)=4096 := by decide
    rw [hunits]
    refine ⟨fun u _ hu => ⟨by rw [hmapped],by omega⟩,by decide,?_⟩
    rw [htotal]
    decide
  have hthird : Careful 1 s₂ (.write 9095 ⟨7,8⟩) := by
    refine ⟨9094,?_,by decide,?_⟩
    · rw [hlive]
      exact Finset.mem_singleton_self 9094
    · rw [hasked]
  exact ⟨s₃,((Reachable.start _).step hfirst h₁ |>.step hsecond h₂).step hthird h₃,hlive',hwritten,
    hsize,hnone⟩

/-- What was written to the ten bytes is there. -/
theorem ten_bytes_kept :
    ∃ s, Reachable (step 1) (Careful 1) (booted (fun _ => ⟨0,0⟩)) s ∧ s.cell 9095=⟨7,8⟩ := by
  obtain ⟨s,hs,hlive,hwritten,hsize,-⟩ := ten_bytes_reached
  have hmem : 9094∈s.live := by
    rw [hlive]
    exact Finset.mem_singleton_self 9094
  refine ⟨s,hs,(program_blocks_kept hs).2.2.2 9094 hmem 9095 (by decide) ?_ _ hwritten⟩
  rw [hsize]
  decide

/-- Once a call was made, the free blocks form a circle in the order of their
addresses, with the static header and `freep` in it, no two of them touch, and every
mapped unit is in exactly one block, a free one or one of the program. -/
theorem circle_kept (hs : Reachable (step base) (Careful base) (booted cell) s)
    (hcalled : s.freep≠none) :
    ∃ nodes f, s.freep=some f ∧ f∈nodes ∧ base∈nodes ∧ Cycle nodes (fun a => (s.cell a).ptr) ∧
      (∀ a∈nodes, a≠base → a+(s.cell a).size∉nodes) ∧
      ∀ u, s.mapped u=true ↔ ∃! b, b∈nodes∪s.live ∧ b≤u ∧ u<b+(s.cell b).size := by
  rcases (sound_reachable hs).heap with hidle|⟨nodes,f,h⟩
  · exact absurd hidle.freep hcalled
  · refine ⟨nodes,f,h.freep,h.start,h.tiled.base_mem,h.tiled.cycle,h.gaps,?_⟩
    intro u
    rw [h.tiled.cover u]
    constructor
    · rintro ⟨b,hb,hbu,hub⟩
      refine ⟨b,⟨hb,hbu,hub⟩,?_⟩
      rintro c ⟨hc,hcu,huc⟩
      rcases Nat.lt_trichotomy c b with hlt|heq|hlt
      · have := h.tiled.order c hc b hb hlt
        omega
      · exact heq
      · have := h.tiled.order b hb c hc hlt
        omega
    · rintro ⟨b,hb,-⟩
      exact ⟨b,hb⟩

/-- Behind the first request the mapped units are in one block each. -/
theorem ten_bytes_circle :
    ∃ s, Reachable (step 1) (Careful 1) (booted (fun _ => ⟨0,0⟩)) s ∧
      ∃ nodes f, s.freep=some f ∧ f∈nodes ∧ 1∈nodes ∧ Cycle nodes (fun a => (s.cell a).ptr) ∧
        (∀ a∈nodes, a≠1 → a+(s.cell a).size∉nodes) ∧
        ∀ u, s.mapped u=true ↔ ∃! b, b∈nodes∪s.live ∧ b≤u ∧ u<b+(s.cell b).size := by
  obtain ⟨s,hs,hlive,-⟩ := ten_bytes_reached
  refine ⟨s,hs,circle_kept hs ?_⟩
  intro hnone
  rcases (sound_reachable hs).heap with hidle|⟨nodes,f,h⟩
  · rw [hidle.live] at hlive
    exact absurd hlive.symm (Finset.singleton_ne_empty 9094)
  · rw [h.freep] at hnone
    cases hnone

/-- Every call of a careful program returns, given enough rounds for its walks:
`xmalloc` hands out a block or maps memory, once memory is mapped it hands out a
block, and `xfree` finds the place of its block. -/
theorem calls_return (hs : Reachable (step base) (Careful base) (booted cell) s) :
    ∃ bound, ∀ rounds, bound<rounds →
      (∀ nbytes, s.pending=none → (nbytes+15)/16+1<4294967296 →
        ∃ t, step base (.malloc rounds nbytes) s=some t ∧
          ((t.pending=none ∧ ∃ b∈t.live, t.result=some (b+1) ∧ t.asked b=nbytes) ∨
            t.pending=some nbytes)) ∧
      (∀ nbytes a, s.pending=some nbytes → Fresh base a (coreUnits nbytes) s →
        ∃ t, step base (.mmap rounds (some a)) s=some t ∧ t.pending=none ∧
          ∃ b∈t.live, t.result=some (b+1) ∧ t.asked b=nbytes) ∧
      ∀ ap, s.pending=none → 0<ap → ap-1∈s.live → ∃ t, step base (.free rounds ap) s=some t := by
  have hsound := sound_reachable hs
  rcases hsound.heap with hidle|⟨nodes,f,h⟩
  · refine ⟨1,fun rounds hrounds => ⟨?_,?_,?_⟩⟩
    · intro nbytes hpending hbytes
      have hheap := hidle.heap base
      obtain ⟨t,ht⟩ := @walk_ends base _ _ base rounds nbytes hheap
        (by rw [Finset.card_singleton]; exact hrounds)
      refine ⟨t,?_,(heap_walk hheap hbytes ht).2.imp id And.left⟩
      rw [step,if_pos hpending,xmalloc,hidle.freep]
      exact ht
    · intro nbytes a hpending
      rw [hidle.pending] at hpending
      cases hpending
    · intro ap _ _ hap
      rw [hidle.live] at hap
      exact absurd hap (Finset.notMem_empty _)
  · refine ⟨nodes.card+1,fun rounds hrounds => ⟨?_,?_,?_⟩⟩
    · intro nbytes hpending hbytes
      obtain ⟨t,ht⟩ := @walk_ends base _ _ f rounds nbytes h (by omega)
      refine ⟨t,?_,(heap_walk h hbytes ht).2.imp id And.left⟩
      rw [step,if_pos hpending,xmalloc,h.freep]
      exact ht
    · intro nbytes a hpending hfresh
      have hbytes := hsound.pending nbytes hpending
      obtain ⟨cell',p,hfreed⟩ := core_freed h (coreUnits_pos nbytes) hfresh
        (show nodes.card<rounds by omega)
      obtain ⟨nodes',hnew,hcard,-⟩ := heap_core h (coreUnits_pos nbytes) hfresh hfreed
      obtain ⟨t,ht⟩ := @walk_ends base _ _ p rounds nbytes hnew (by omega)
      have hcore : morecore rounds nbytes a f s=some t := by
        unfold morecore
        dsimp only
        rw [show Function.update (mapUnits a (coreUnits nbytes) s).cell a
          {(mapUnits a (coreUnits nbytes) s).cell a with size := uint (coreUnits nbytes)}=
          coreCell s a (coreUnits nbytes) from rfl,hfreed]
        exact ht
      refine ⟨t,?_,(heap_morecore h hbytes hfresh hcore).2⟩
      simp only [step,hpending,h.freep]
      exact hcore
    · intro ap hpending _ hap
      have hnew : ap-1∉nodes := fun hmem => h.tiled.apart _ hmem hap
      obtain ⟨r,hr⟩ := xfreeHelper_ends h.tiled.cycle h.start hnew
        (show nodes.card<rounds by omega)
      rw [step,if_pos hpending,xfree,h.freep]
      dsimp only
      rw [hr]
      exact ⟨_,rfl⟩

/-- The ten bytes can be freed. -/
theorem ten_bytes_freed :
    ∃ s t rounds, Reachable (step 1) (Careful 1) (booted (fun _ => ⟨0,0⟩)) s ∧
      step 1 (.free rounds 9095) s=some t := by
  obtain ⟨s,hs,hlive,-,-,hnone⟩ := ten_bytes_reached
  obtain ⟨bound,hreturn⟩ := calls_return hs
  have hmem : 9095-1∈s.live := by
    rw [hlive]
    exact Finset.mem_singleton_self 9094
  obtain ⟨t,ht⟩ := (hreturn (bound+1) (Nat.lt_succ_self bound)).2.2 9095 hnone (by decide) hmem
  exact ⟨s,t,bound+1,hs,ht⟩

end ComputerSystems.Xv6Malloc
