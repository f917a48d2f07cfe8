import ComputerSystems.Xv6MallocFree

/-!
# What every run of the allocator keeps

Whatever a program asks for, frees and writes, its blocks have the size it asked
for, lie apart from each other and hold what it wrote; the free blocks form an
ordered circle in which no two touch; and every mapped unit is in one block. Every
call returns, and `xmalloc` maps memory at most once.
-/

namespace ComputerSystems.Xv6Malloc

open OrderedCycle TransitionSystem

variable {base : ℕ} {cell cell' : ℕ → Header} {mapped : ℕ → Bool} {total : ℕ}
  {nodes live : Finset ℕ} {s t : State}

/-! ## Walking around -/

/-- A walk ends behind a free block at one that is large enough. -/
theorem search_found (hcycle : Cycle nodes (fun a => (cell a).ptr)) {freep units a b : ℕ}
    (rounds : ℕ) : ∀ {prevp p : ℕ}, prevp∈nodes → (cell prevp).ptr=p →
    search cell freep units rounds prevp p=some (.found a b) →
    a∈nodes ∧ (cell a).ptr=b ∧ units≤(cell b).size := by
  induction rounds with
  | zero =>
    intro prevp p _ _ h
    cases h
  | succ rounds ih =>
    intro prevp p hprevp hp h
    have hmem : p∈nodes := hp ▸ (hcycle prevp hprevp).mem
    rw [search] at h
    split_ifs at h with hlarge hback
    · cases h
      exact ⟨hprevp,hp,hlarge⟩
    · cases h
    · exact ih hmem rfl h

/-- A walk that comes back has found every free block too small. -/
theorem search_core (hcycle : Cycle nodes (fun a => (cell a).ptr)) {freep units : ℕ}
    (hfreep : freep∈nodes) (rounds : ℕ) : ∀ {prevp p : ℕ}, p∈nodes →
    (∀ c∈nodes, Passed freep p c → (cell c).size<units) →
    search cell freep units rounds prevp p=some .core → ∀ c∈nodes, (cell c).size<units := by
  induction rounds with
  | zero =>
    intro prevp p _ _ h
    cases h
  | succ rounds ih =>
    intro prevp p hp hpassed h
    rw [search] at h
    split_ifs at h with hlarge hback
    · cases h
    · intro c hc
      by_cases hcp : c=p
      · rw [hcp]
        exact Nat.lt_of_not_le hlarge
      · refine hpassed c hc ?_
        rw [hback] at hcp ⊢
        exact passed_all hcp
    · refine ih (hcycle p hp).mem ?_ h
      intro c hc hc'
      rcases (@passed_next _ _ nodes (fun a => (cell a).ptr) c freep p hcycle hfreep hp hback
        hc).mp hc' with hbefore|rfl
      · exact hpassed c hc hbefore
      · exact Nat.lt_of_not_le hlarge

/-- A walk ends within the number of nodes before it. -/
theorem search_stops (hcycle : Cycle nodes (fun a => (cell a).ptr)) {freep units : ℕ}
    (hfreep : freep∈nodes) (rounds : ℕ) : ∀ {prevp p : ℕ}, p∈nodes →
    unpassed nodes freep p<rounds → (search cell freep units rounds prevp p).isSome=true := by
  induction rounds with
  | zero =>
    intro prevp p _ h
    exact absurd h (Nat.not_lt_zero _)
  | succ rounds ih =>
    intro prevp p hp h
    rw [search]
    split_ifs with hlarge hback
    · rfl
    · rfl
    · refine ih (hcycle p hp).mem ?_
      have := @unpassed_lt _ _ nodes (fun a => (cell a).ptr) freep p hcycle hfreep hp hback
      omega

/-! ## The invariant -/

/-- What holds of every reachable state behind the first call. -/
structure Heap (base : ℕ) (s : State) (nodes : Finset ℕ) (f : ℕ) : Prop where
  /-- The blocks tile the mapped units. -/
  tiled : Tiled base s.cell s.mapped s.total nodes s.live
  /-- `freep` is set. -/
  freep : s.freep=some f
  /-- It is free. -/
  start : f∈nodes
  /-- No two free blocks touch. -/
  gaps : Gaps base s.cell nodes
  /-- No block of the program touches the static header. -/
  shore : ∀ b∈s.live, b+(s.cell b).size≠base
  /-- No 2^32 units are mapped. -/
  small : s.total<4294967296
  /-- The blocks of the program are large enough. -/
  asked : ∀ b∈s.live, s.asked b+16≤16*(s.cell b).size
  /-- They hold what was written. -/
  kept : ∀ b∈s.live, ∀ u, b<u → u<b+(s.cell b).size → ∀ value, s.written u=some value →
    s.cell u=value

/-- The number of units for a request below 2^32 units. -/
theorem nunits_eq {nbytes : ℕ} (h : (nbytes+15)/16+1<4294967296) :
    nunits nbytes=(nbytes+15)/16+1 := by
  unfold nunits uint
  omega

/-- A block that is large enough, or its end, is handed out. -/
theorem heap_handOut {f a b nbytes : ℕ} (h : Heap base s nodes f)
    (hbytes : (nbytes+15)/16+1<4294967296) (ha : a∈nodes) (hb : (s.cell a).ptr=b)
    (hlarge : nunits nbytes≤(s.cell b).size) :
    ∃ nodes', Heap base (handOut nbytes a b s) nodes' a := by
  have hunits := nunits_eq hbytes
  have hpos : 0<nunits nbytes := by omega
  have hbmem : b∈nodes := hb ▸ (h.tiled.follows ha).mem
  have hbbase : b≠base := by
    rintro rfl
    rw [h.tiled.base_size] at hlarge
    omega
  have hball : b∈nodes∪s.live := Finset.mem_union_left _ hbmem
  have haall : a∈nodes∪s.live := Finset.mem_union_left _ ha
  by_cases hexact : (s.cell b).size=nunits nbytes
  · have hab : a≠b := by
      have hnext := h.tiled.next_ne ha (hb ▸ hbbase)
      rw [hb] at hnext
      exact hnext.symm
    let cell' := Function.update s.cell a {s.cell a with ptr := (s.cell b).ptr}
    have hself : cell' a={s.cell a with ptr := (s.cell b).ptr} := Function.update_self a _ _
    have hrest : ∀ c, c≠a → cell' c=s.cell c := fun c hc => Function.update_of_ne hc _ _
    have hsize : ∀ c, (cell' c).size=(s.cell c).size := by
      intro c
      by_cases hca : c=a
      · rw [hca,hself]
      · rw [hrest c hca]
    have hout : handOut nbytes a b s={s with
        cell := cell'
        freep := some a
        pending := none
        result := some (b+1)
        live := insert b s.live
        asked := Function.update s.asked b nbytes
        written := fun u => if b≤u ∧ u<b+nunits nbytes then none else s.written u} := by
      unfold handOut
      dsimp only
      rw [if_pos hexact,if_pos hexact]
    have htiled : Tiled base cell' s.mapped s.total (nodes.erase b) (insert b s.live) :=
      h.tiled.takeOut ha hb hbbase hab (by rw [hself]) (hsize a) hrest
    rw [hout]
    refine ⟨nodes.erase b,htiled,rfl,Finset.mem_erase.mpr ⟨hab,ha⟩,?_,?_,h.small,?_,?_⟩
    · intro c hc hcbase hmem
      change c+(cell' c).size∈_ at hmem
      rw [hsize] at hmem
      exact h.gaps c (Finset.mem_of_mem_erase hc) hcbase (Finset.mem_of_mem_erase hmem)
    · intro c hc
      change c+(cell' c).size≠base
      rw [hsize]
      rcases Finset.mem_insert.mp hc with rfl|hc
      · intro heq
        exact h.gaps c hbmem hbbase (heq ▸ h.tiled.base_mem)
      · exact h.shore c hc
    · intro c hc
      change Function.update s.asked b nbytes c+16≤16*(cell' c).size
      rw [hsize]
      by_cases hcb : c=b
      · rw [hcb,Function.update_self]
        omega
      · rw [Function.update_of_ne hcb]
        exact h.asked c ((Finset.mem_insert.mp hc).resolve_left hcb)
    · intro c hc u hcu huc value hvalue
      change u<c+(cell' c).size at huc
      rw [hsize] at huc
      change (if b≤u ∧ u<b+nunits nbytes then none else s.written u)=some value at hvalue
      split_ifs at hvalue with hin
      have hcb : c≠b := by
        rintro rfl
        omega
      have hclive := (Finset.mem_insert.mp hc).resolve_left hcb
      have hua : u≠a := by
        rintro rfl
        exact h.tiled.not_inside haall (Finset.mem_union_right _ hclive) hcu huc
      change cell' u=value
      rw [hrest u hua]
      exact h.kept c hclive u hcu huc value hvalue
  · have hlt : nunits nbytes<(s.cell b).size := Nat.lt_of_le_of_ne hlarge (Ne.symm hexact)
    let q := b+((s.cell b).size-nunits nbytes)
    have hqb : q≠b := by
      change b+((s.cell b).size-nunits nbytes)≠b
      omega
    let cell' := Function.update
      (Function.update s.cell b {s.cell b with size := (s.cell b).size-nunits nbytes}) q
      {s.cell q with size := nunits nbytes}
    have hselfq : cell' q={s.cell q with size := nunits nbytes} := Function.update_self q _ _
    have hselfb : cell' b={s.cell b with size := (s.cell b).size-nunits nbytes} := by
      change Function.update _ q _ b=_
      rw [Function.update_of_ne hqb.symm,Function.update_self]
    have hrest : ∀ c, c≠b → c≠q → cell' c=s.cell c := by
      intro c hcb hcq
      change Function.update _ q _ c=_
      rw [Function.update_of_ne hcq,Function.update_of_ne hcb]
    have hout : handOut nbytes a b s={s with
        cell := cell'
        freep := some a
        pending := none
        result := some (q+1)
        live := insert q s.live
        asked := Function.update s.asked q nbytes
        written := fun u => if q≤u ∧ u<q+nunits nbytes then none else s.written u} := by
      unfold handOut
      dsimp only
      rw [if_neg hexact,if_neg hexact]
    have hinside : ∀ c∈nodes∪s.live, c≠b → ¬(c≤q ∧ q<c+(s.cell c).size) := by
      rintro c hc hcb ⟨hcq,hqc⟩
      change c≤b+((s.cell b).size-nunits nbytes) at hcq
      change b+((s.cell b).size-nunits nbytes)<c+(s.cell c).size at hqc
      rcases Nat.lt_or_gt_of_ne hcb with hlt'|hlt'
      · have := h.tiled.order c hc b hball hlt'
        omega
      · have := h.tiled.order b hball c hc hlt'
        omega
    have hqnew : q∉nodes∪s.live := by
      intro hmem
      have hne : q≠base → False := by
        intro hqbase
        have := h.tiled.pos q hmem hqbase
        exact hinside q hmem hqb ⟨Nat.le_refl q,by omega⟩
      have hqbase : q=base := by
        by_contra hqbase
        exact hne hqbase
      have := h.tiled.order b hball base (Finset.mem_union_left _ h.tiled.base_mem)
        (by rw [←hqbase]; change b<b+((s.cell b).size-nunits nbytes); omega)
      rw [←hqbase] at this
      change b+(s.cell b).size≤b+((s.cell b).size-nunits nbytes) at this
      omega
    have hold : ∀ c∈nodes∪s.live, c≠b → cell' c=s.cell c := by
      intro c hc hcb
      refine hrest c hcb ?_
      rintro rfl
      exact hqnew hc
    have htiled : Tiled base cell' s.mapped s.total nodes (insert q s.live) :=
      h.tiled.cut hbmem hbbase hpos hlt rfl (by rw [hselfb]) (by rw [hselfb]) (by rw [hselfq]) hrest
    rw [hout]
    refine ⟨nodes,htiled,rfl,ha,?_,?_,h.small,?_,?_⟩
    · intro c hc hcbase hmem
      change c+(cell' c).size∈nodes at hmem
      by_cases hcb : c=b
      · rw [hcb,hselfb] at hmem
        exact hqnew (Finset.mem_union_left _ hmem)
      · rw [hold c (Finset.mem_union_left _ hc) hcb] at hmem
        exact h.gaps c hc hcbase hmem
    · intro c hc
      change c+(cell' c).size≠base
      by_cases hcq : c=q
      · rw [hcq,hselfq]
        intro heq
        have hend : b+(s.cell b).size=base := by
          rw [←heq]
          change b+(s.cell b).size=b+((s.cell b).size-nunits nbytes)+nunits nbytes
          omega
        exact h.gaps b hbmem hbbase (hend ▸ h.tiled.base_mem)
      · have hclive := (Finset.mem_insert.mp hc).resolve_left hcq
        have hcb : c≠b := by
          rintro rfl
          exact h.tiled.apart c hbmem hclive
        rw [hold c (Finset.mem_union_right _ hclive) hcb]
        exact h.shore c hclive
    · intro c hc
      change Function.update s.asked q nbytes c+16≤16*(cell' c).size
      by_cases hcq : c=q
      · rw [hcq,hselfq,Function.update_self]
        dsimp only
        omega
      · have hclive := (Finset.mem_insert.mp hc).resolve_left hcq
        have hcb : c≠b := by
          rintro rfl
          exact h.tiled.apart c hbmem hclive
        rw [Function.update_of_ne hcq,hold c (Finset.mem_union_right _ hclive) hcb]
        exact h.asked c hclive
    · intro c hc u hcu huc value hvalue
      change u<c+(cell' c).size at huc
      change (if q≤u ∧ u<q+nunits nbytes then none else s.written u)=some value at hvalue
      split_ifs at hvalue with hin
      have hcq : c≠q := by
        rintro rfl
        rw [hselfq] at huc
        dsimp only at huc
        omega
      have hclive := (Finset.mem_insert.mp hc).resolve_left hcq
      have hcb : c≠b := by
        rintro rfl
        exact h.tiled.apart c hbmem hclive
      have hcall := Finset.mem_union_right nodes hclive
      rw [hold c hcall hcb] at huc
      have hub : u≠b := by
        rintro rfl
        exact h.tiled.not_inside hball hcall hcu huc
      have huq : u≠q := by
        rintro rfl
        exact hinside c hcall hcb ⟨hcu.le,huc⟩
      change cell' u=value
      rw [hrest u hub huq]
      exact h.kept c hclive u hcu huc value hvalue

/-- Memory that is the same at every block keeps the tiling. -/
theorem Tiled.congr (h : Tiled base cell mapped total nodes live)
    (hsame : ∀ c∈nodes∪live, cell' c=cell c) : Tiled base cell' mapped total nodes live := by
  have hbase := hsame base (Finset.mem_union_left live h.base_mem)
  refine ⟨h.base_mem,by rw [hbase]; exact h.base_size,?_,h.apart,?_,?_,?_,?_⟩
  · intro c hc
    change Follows nodes c (cell' c).ptr
    rw [hsame c (Finset.mem_union_left live hc)]
    exact h.follows hc
  · intro b hb hne
    rw [hsame b hb]
    exact h.pos b hb hne
  · intro a ha b hb hlt
    rw [hsame a ha]
    exact h.order a ha b hb hlt
  · intro u
    rw [h.cover u]
    constructor
    · rintro ⟨b,hb,hin⟩
      exact ⟨b,hb,by rw [hsame b hb]; exact hin⟩
    · rintro ⟨b,hb,hin⟩
      rw [hsame b hb] at hin
      exact ⟨b,hb,hin⟩
  · rw [Finset.sum_congr rfl (fun c hc => congrArg Header.size (hsame c hc))]
    exact h.sum

/-- The unit that a program writes lies inside one of its blocks. -/
theorem Heap.given {f u : ℕ} (h : Heap base s nodes f) (hu : Given u s) :
    ∃ b∈s.live, b<u ∧ u<b+(s.cell b).size := by
  obtain ⟨b,hb,hbu,hub⟩ := hu
  have hasked := h.asked b hb
  exact ⟨b,hb,hbu,by omega⟩

/-- The program writes to one of its blocks. -/
theorem heap_write {f u : ℕ} {value : Header} (h : Heap base s nodes f) (hu : Given u s) :
    Heap base {s with
      cell := Function.update s.cell u value
      written := Function.update s.written u (some value)} nodes f := by
  obtain ⟨b,hb,hbu,hub⟩ := h.given hu
  have hsame : ∀ c∈nodes∪s.live, Function.update s.cell u value c=s.cell c := by
    intro c hc
    refine Function.update_of_ne ?_ value s.cell
    rintro rfl
    exact h.tiled.not_inside hc (Finset.mem_union_right _ hb) hbu hub
  refine ⟨h.tiled.congr hsame,h.freep,h.start,?_,?_,h.small,?_,?_⟩
  · intro a ha hne
    change a+(Function.update s.cell u value a).size∉nodes
    rw [hsame a (Finset.mem_union_left _ ha)]
    exact h.gaps a ha hne
  · intro c hc
    change c+(Function.update s.cell u value c).size≠base
    rw [hsame c (Finset.mem_union_right _ hc)]
    exact h.shore c hc
  · intro c hc
    change s.asked c+16≤16*(Function.update s.cell u value c).size
    rw [hsame c (Finset.mem_union_right _ hc)]
    exact h.asked c hc
  · intro c hc w hcw hwc x hx
    change w<c+(Function.update s.cell u value c).size at hwc
    rw [hsame c (Finset.mem_union_right _ hc)] at hwc
    change Function.update s.written u (some value) w=some x at hx
    change Function.update s.cell u value w=x
    by_cases hwu : w=u
    · rw [hwu,Function.update_self] at hx ⊢
      exact Option.some.inj hx
    · rw [Function.update_of_ne hwu] at hx ⊢
      exact h.kept c hc w hcw hwc x hx

/-- A block of the program is freed. -/
theorem heap_xfree {f rounds ap : ℕ} (h : Heap base s nodes f) (hap : ap-1∈s.live)
    (hs : xfree rounds ap s=some t) : ∃ nodes' f', Heap base t nodes' f' ∧ t.pending=s.pending := by
  rw [xfree,h.freep] at hs
  dsimp only at hs
  split at hs
  case h_2 => cases hs
  case h_1 cell' p heq =>
    cases hs
    obtain ⟨nodes',hfreed⟩ :=
      freed_xfreeHelper h.tiled h.gaps h.small hap (h.shore _ hap) h.start heq
    have hother : ∀ c∈s.live.erase (ap-1), cell' c=s.cell c := by
      intro c hc
      refine hfreed.rest c ?_ (Finset.ne_of_mem_erase hc)
      rintro rfl
      exact h.tiled.apart c hfreed.old (Finset.mem_of_mem_erase hc)
    refine ⟨nodes',p,⟨hfreed.tiled,rfl,hfreed.start,hfreed.gaps,?_,h.small,?_,?_⟩,rfl⟩
    · intro c hc
      change c+(cell' c).size≠base
      rw [hother c hc]
      exact h.shore c (Finset.mem_of_mem_erase hc)
    · intro c hc
      change s.asked c+16≤16*(cell' c).size
      rw [hother c hc]
      exact h.asked c (Finset.mem_of_mem_erase hc)
    · intro c hc u hcu huc value hvalue
      change u<c+(cell' c).size at huc
      rw [hother c hc] at huc
      have hclive := Finset.mem_of_mem_erase hc
      have hcall := Finset.mem_union_right nodes hclive
      change cell' u=value
      rw [hfreed.rest u ?_ ?_]
      · exact h.kept c hclive u hcu huc value hvalue
      · rintro rfl
        exact h.tiled.not_inside (Finset.mem_union_left _ hfreed.old) hcall hcu huc
      · rintro rfl
        exact h.tiled.not_inside (Finset.mem_union_right _ hap) hcall hcu huc

/-- The units of a mapping. -/
theorem coreUnits_pos (nbytes : ℕ) : 0<coreUnits nbytes := by
  unfold coreUnits
  split_ifs <;> omega

/-- A mapping is large enough for its request. -/
theorem nunits_le_coreUnits (nbytes : ℕ) : nunits nbytes≤coreUnits nbytes := by
  unfold coreUnits
  split_ifs <;> omega

/-- The memory of a mapping, with its header. -/
def coreCell (s : State) (a nu : ℕ) : ℕ → Header :=
  Function.update (mapUnits a nu s).cell a {(mapUnits a nu s).cell a with size := uint nu}

/-- Other memory is as it was before the mapping. -/
theorem coreCell_of_not_mem {a nu c : ℕ} (hnu : 0<nu) (hc : c<a ∨ a+nu≤c) :
    coreCell s a nu c=s.cell c := by
  have hca : c≠a := by omega
  rw [coreCell,Function.update_of_ne hca]
  exact if_neg (by omega)

/-- A mapping is freed into the circle. -/
theorem heap_core {f rounds a nu : ℕ} {p : ℕ} (h : Heap base s nodes f) (hnu : 0<nu)
    (hfresh : Fresh base a nu s)
    (heq : xfreeHelper rounds (coreCell s a nu) f a=some (cell',p)) :
    ∃ nodes', Heap base {mapUnits a nu s with cell := cell',freep := some p} nodes' p ∧
      nodes'.card≤nodes.card+1 ∧ ∃ q∈nodes', nu≤(cell' q).size := by
  obtain ⟨hnew,hend,hsmall⟩ := hfresh
  have hsize : (coreCell s a nu a).size=nu := by
    rw [coreCell,Function.update_self]
    exact Nat.mod_eq_of_lt (by omega)
  have hgrown := h.tiled.grow hnu hnew hsize (fun c hc => coreCell_of_not_mem hnu hc)
  have houtside : ∀ b∈nodes∪s.live, ∀ u, b≤u → u<b+(s.cell b).size → u<a ∨ a+nu≤u := by
    intro b hb u hbu hub
    by_contra hin
    have hmapped := (h.tiled.cover u).mpr ⟨b,hb,hbu,hub⟩
    rw [(hnew u (by omega) (by omega)).1] at hmapped
    cases hmapped
  have hsame : ∀ c∈nodes∪s.live, coreCell s a nu c=s.cell c := by
    intro c hc
    refine coreCell_of_not_mem hnu ?_
    by_cases hcbase : c=base
    · by_contra hin
      exact (hnew c (by omega) (by omega)).2 hcbase
    · have := h.tiled.pos c hc hcbase
      exact houtside c hc c (Nat.le_refl c) (by omega)
  have hfreshlive : a∉s.live := by
    intro ha
    have hpos := h.tiled.pos a (Finset.mem_union_right _ ha)
      (fun heq => h.tiled.apart base h.tiled.base_mem (heq ▸ ha))
    rcases houtside a (Finset.mem_union_right _ ha) a (Nat.le_refl a) (by omega) with hin|hin <;>
      omega
  have hgaps : Gaps base (coreCell s a nu) nodes := by
    intro c hc hne
    rw [hsame c (Finset.mem_union_left _ hc)]
    exact h.gaps c hc hne
  obtain ⟨nodes',hfreed⟩ := freed_xfreeHelper hgrown hgaps hsmall (Finset.mem_insert_self a _)
    (by rw [hsize]; exact hend) h.start heq
  have htiled := hfreed.tiled
  rw [Finset.erase_insert hfreshlive] at htiled
  have hother : ∀ c∈s.live, cell' c=s.cell c := by
    intro c hc
    rw [hfreed.rest c ?_ ?_,hsame c (Finset.mem_union_right _ hc)]
    · rintro rfl
      exact h.tiled.apart c hfreed.old hc
    · rintro rfl
      exact hfreshlive hc
  refine ⟨nodes',⟨htiled,rfl,hfreed.start,hfreed.gaps,?_,hsmall,?_,?_⟩,
    (Finset.card_le_card hfreed.subset).trans (Finset.card_insert_le a nodes),?_⟩
  · intro c hc
    change c+(cell' c).size≠base
    rw [hother c hc]
    exact h.shore c hc
  · intro c hc
    change s.asked c+16≤16*(cell' c).size
    rw [hother c hc]
    exact h.asked c hc
  · intro c hc u hcu huc value hvalue
    change u<c+(cell' c).size at huc
    rw [hother c hc] at huc
    have hcall := Finset.mem_union_right nodes hc
    have hout := houtside c hcall u hcu.le huc
    change cell' u=value
    rw [hfreed.rest u ?_ ?_,coreCell_of_not_mem hnu hout]
    · exact h.kept c hc u hcu huc value hvalue
    · rintro rfl
      exact h.tiled.not_inside (Finset.mem_union_left _ hfreed.old) hcall hcu huc
    · rintro rfl
      omega
  · obtain ⟨q,hq,hlarge⟩ := hfreed.large
    rw [hsize] at hlarge
    exact ⟨q,hq,hlarge⟩

end ComputerSystems.Xv6Malloc
