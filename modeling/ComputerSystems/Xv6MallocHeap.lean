import ComputerSystems.Xv6Malloc
import Mathlib.Algebra.BigOperators.Group.Finset.Basic
import Mathlib.Algebra.Order.BigOperators.Group.Finset

/-!
# The blocks of the allocator

Free blocks and blocks of the program tile the mapped memory, and the free blocks
form an ordered circle with the static header. Linking a block in, joining two free
blocks that touch, cutting a block off and taking one out keep this.
-/

namespace ComputerSystems.Xv6Malloc

open OrderedCycle

/-- The circle of free blocks and the blocks of the program tile the mapped units. -/
structure Tiled (base : ℕ) (cell : ℕ → Header) (mapped : ℕ → Bool) (total : ℕ)
    (nodes live : Finset ℕ) : Prop where
  /-- The static header is in the circle. -/
  base_mem : base∈nodes
  /-- It has no units. -/
  base_size : (cell base).size=0
  /-- The circle is in order. -/
  cycle : Cycle nodes (fun a => (cell a).ptr)
  /-- A block is free or the program's. -/
  apart : ∀ b∈nodes, b∉live
  /-- Every other block has units. -/
  pos : ∀ b∈nodes∪live, b≠base → 0<(cell b).size
  /-- Blocks do not overlap. -/
  order : ∀ a∈nodes∪live, ∀ b∈nodes∪live, a<b → a+(cell a).size≤b
  /-- The blocks have all mapped units. -/
  cover : ∀ u, mapped u=true ↔ ∃ b∈nodes∪live, b≤u ∧ u<b+(cell b).size
  /-- The sizes add up. -/
  sum : ∑ b∈nodes∪live, (cell b).size=total

variable {base : ℕ} {cell cell' : ℕ → Header} {mapped : ℕ → Bool} {total : ℕ}
  {nodes live : Finset ℕ}

/-- A free block leads to the next one. -/
theorem Tiled.follows (h : Tiled base cell mapped total nodes live) {a : ℕ} (ha : a∈nodes) :
    Follows nodes a (cell a).ptr :=
  h.cycle a ha

/-- No block begins inside another one. -/
theorem Tiled.not_inside (h : Tiled base cell mapped total nodes live) {a b : ℕ}
    (ha : a∈nodes∪live) (hb : b∈nodes∪live) (hlt : b<a) : ¬a<b+(cell b).size :=
  not_lt.mpr (h.order b hb a ha hlt)

/-- The sizes of two blocks together do not overflow. -/
theorem Tiled.add_lt (h : Tiled base cell mapped total nodes live) (hsmall : total<4294967296)
    {a b : ℕ} (ha : a∈nodes∪live) (hb : b∈nodes∪live) (hab : a≠b) :
    (cell a).size+(cell b).size<4294967296 := by
  have hle : ∑ c∈({a,b} : Finset ℕ), (cell c).size≤∑ c∈nodes∪live, (cell c).size := by
    refine Finset.sum_le_sum_of_subset ?_
    intro c hc
    rcases Finset.mem_insert.mp hc with rfl|hc
    · exact ha
    · rw [Finset.mem_singleton.mp hc]
      exact hb
  rw [Finset.sum_pair hab,h.sum] at hle
  omega

/-- A block of the program is linked in at its place. -/
theorem Tiled.link (h : Tiled base cell mapped total nodes live) {a x : ℕ} (ha : a∈nodes)
    (hx : x∈live) (hslot : Slot x a (cell a).ptr) (hleft : (cell' a).ptr=x)
    (hright : (cell' x).ptr=(cell a).ptr)
    (hptr : ∀ c∈nodes, c≠a → (cell' c).ptr=(cell c).ptr)
    (hsize : ∀ c, (cell' c).size=(cell c).size) :
    Tiled base cell' mapped total (insert x nodes) (live.erase x) := by
  have hxn : x∉nodes := fun hmem => h.apart x hmem hx
  have hsame : insert x nodes∪live.erase x=nodes∪live := by
    ext c
    simp only [Finset.mem_union,Finset.mem_insert,Finset.mem_erase]
    by_cases hcx : c=x
    · rw [hcx]
      tauto
    · tauto
  refine ⟨Finset.mem_insert_of_mem h.base_mem,(hsize base).trans h.base_size,
    h.cycle.insert ha hxn hslot hleft hright hptr,?_,?_,?_,?_,?_⟩
  · intro b hb hlive
    obtain ⟨hbx,hlive⟩ := Finset.mem_erase.mp hlive
    rcases Finset.mem_insert.mp hb with rfl|hb
    · exact hbx rfl
    · exact h.apart b hb hlive
  · rw [hsame]
    intro b hb hne
    rw [hsize]
    exact h.pos b hb hne
  · rw [hsame]
    intro b hb c hc hlt
    rw [hsize]
    exact h.order b hb c hc hlt
  · rw [hsame]
    intro u
    rw [h.cover u]
    simp only [hsize]
  · rw [hsame,Finset.sum_congr rfl (fun c _ => hsize c)]
    exact h.sum

/-- Two free blocks that touch are joined. -/
theorem Tiled.join (h : Tiled base cell mapped total nodes live) {a b : ℕ} (ha : a∈nodes)
    (hb : (cell a).ptr=b) (htouch : a+(cell a).size=b) (hbase : b≠base) (hab : a≠b)
    (hptr : (cell' a).ptr=(cell b).ptr) (hsize : (cell' a).size=(cell a).size+(cell b).size)
    (hrest : ∀ c, c≠a → c≠b → cell' c=cell c) :
    Tiled base cell' mapped total (nodes.erase b) live := by
  have hbmem : b∈nodes := hb ▸ (h.cycle a ha).mem
  have hblive : b∉live := h.apart b hbmem
  have hsame : nodes.erase b∪live=(nodes∪live).erase b := by
    ext c
    simp only [Finset.mem_union,Finset.mem_erase]
    by_cases hcb : c=b
    · rw [hcb]
      tauto
    · tauto
  have haall : a∈nodes∪live := Finset.mem_union_left live ha
  have hball : b∈nodes∪live := Finset.mem_union_left live hbmem
  have hother : ∀ c∈(nodes∪live).erase b, c≠a → cell' c=cell c :=
    fun c hc hca => hrest c hca (Finset.ne_of_mem_erase hc)
  have hbaseA : (cell' base).size=0 := by
    by_cases hab' : base=a
    · exfalso
      have hzero := h.base_size
      rw [hab'] at hzero
      omega
    · rw [hrest base hab' hbase.symm]
      exact h.base_size
  refine ⟨Finset.mem_erase.mpr ⟨hbase.symm,h.base_mem⟩,hbaseA,?_,?_,?_,?_,?_,?_⟩
  · refine h.cycle.erase ha hb hab hptr ?_
    intro c _ hca hcb
    rw [hrest c hca hcb]
  · intro c hc
    exact h.apart c (Finset.mem_of_mem_erase hc)
  · rw [hsame]
    intro c hc hne
    by_cases hca : c=a
    · rw [hca,hsize]
      rw [hca] at hne
      have := h.pos a haall hne
      omega
    · rw [hother c hc hca]
      exact h.pos c (Finset.mem_of_mem_erase hc) hne
  · rw [hsame]
    intro c hc d hd hlt
    have hd' := Finset.mem_of_mem_erase hd
    by_cases hca : c=a
    · rw [hca] at hlt
      rw [hca,hsize]
      have hle := h.order a haall d hd' hlt
      have hlt' : b<d := by
        rw [htouch] at hle
        exact Nat.lt_of_le_of_ne hle (Finset.ne_of_mem_erase hd).symm
      have := h.order b hball d hd' hlt'
      omega
    · rw [hother c hc hca]
      exact h.order c (Finset.mem_of_mem_erase hc) d hd' hlt
  · rw [hsame]
    intro u
    rw [h.cover u]
    constructor
    · rintro ⟨c,hc,hcu,huc⟩
      by_cases hcab : c=a ∨ c=b
      · refine ⟨a,Finset.mem_erase.mpr ⟨hab,haall⟩,?_,?_⟩
        · rcases hcab with rfl|rfl <;> omega
        · rw [hsize]
          rcases hcab with rfl|rfl <;> omega
      · rw [not_or] at hcab
        refine ⟨c,Finset.mem_erase.mpr ⟨hcab.2,hc⟩,hcu,?_⟩
        rw [hrest c hcab.1 hcab.2]
        exact huc
    · rintro ⟨c,hc,hcu,huc⟩
      by_cases hca : c=a
      · rw [hca,hsize] at huc
        rw [hca] at hcu
        by_cases hub : u<b
        · exact ⟨a,haall,hcu,by omega⟩
        · exact ⟨b,hball,by omega,by omega⟩
      · rw [hother c hc hca] at huc
        exact ⟨c,Finset.mem_of_mem_erase hc,hcu,huc⟩
  · rw [hsame,←h.sum,←Finset.add_sum_erase (nodes∪live) (fun c => (cell c).size) hball]
    have haerase : a∈(nodes∪live).erase b := Finset.mem_erase.mpr ⟨hab,haall⟩
    rw [←Finset.add_sum_erase _ (fun c => (cell' c).size) haerase,
      ←Finset.add_sum_erase _ (fun c => (cell c).size) haerase,hsize]
    have hsum : ∑ c∈((nodes∪live).erase b).erase a, (cell' c).size=
        ∑ c∈((nodes∪live).erase b).erase a, (cell c).size := by
      refine Finset.sum_congr rfl (fun c hc => ?_)
      rw [hother c (Finset.mem_of_mem_erase hc) (Finset.ne_of_mem_erase hc)]
    rw [hsum]
    omega

/-- The end of a free block is cut off for the program. -/
theorem Tiled.cut (h : Tiled base cell mapped total nodes live) {p q units : ℕ} (hp : p∈nodes)
    (hbase : p≠base) (hpos : 0<units) (hlt : units<(cell p).size)
    (hq : q=p+((cell p).size-units)) (hptr : (cell' p).ptr=(cell p).ptr)
    (hsizep : (cell' p).size=(cell p).size-units) (hsizeq : (cell' q).size=units)
    (hrest : ∀ c, c≠p → c≠q → cell' c=cell c) :
    Tiled base cell' mapped total nodes (insert q live) := by
  have hpall : p∈nodes∪live := Finset.mem_union_left live hp
  have hqp : q≠p := by omega
  have hnew : q∉nodes∪live := by
    intro hmem
    exact h.not_inside hmem hpall (by omega) (by omega)
  have hqn : q∉nodes := fun hmem => hnew (Finset.mem_union_left live hmem)
  have hsame : nodes∪insert q live=insert q (nodes∪live) := by
    rw [Finset.union_insert]
  have hold : ∀ c∈nodes∪live, c≠p → cell' c=cell c := by
    intro c hc hcp
    refine hrest c hcp ?_
    rintro rfl
    exact hnew hc
  have hqbase : q≠base := fun heq => hqn (heq ▸ h.base_mem)
  refine ⟨h.base_mem,?_,?_,?_,?_,?_,?_,?_⟩
  · rw [hrest base hbase.symm hqbase.symm]
    exact h.base_size
  · intro c hc
    have hsameptr : (cell' c).ptr=(cell c).ptr := by
      by_cases hcp : c=p
      · rw [hcp]
        exact hptr
      · rw [hold c (Finset.mem_union_left live hc) hcp]
    change Follows nodes c (cell' c).ptr
    rw [hsameptr]
    exact h.cycle c hc
  · intro b hb hlive
    rcases Finset.mem_insert.mp hlive with rfl|hlive
    · exact hqn hb
    · exact h.apart b hb hlive
  · rw [hsame]
    intro b hb hne
    rcases Finset.mem_insert.mp hb with rfl|hb
    · rw [hsizeq]
      exact hpos
    · by_cases hbp : b=p
      · rw [hbp,hsizep]
        omega
      · rw [hold b hb hbp]
        exact h.pos b hb hne
  · rw [hsame]
    intro a ha' b hb' hab
    rcases Finset.mem_insert.mp ha' with rfl|ha
    · rcases Finset.mem_insert.mp hb' with rfl|hb
      · exact absurd hab (Nat.lt_irrefl _)
      · rw [hsizeq]
        have := h.order p hpall b hb (by omega)
        omega
    · rcases Finset.mem_insert.mp hb' with rfl|hb
      · by_cases hap : a=p
        · rw [hap,hsizep]
          omega
        · rw [hold a ha hap]
          rcases Nat.lt_or_ge a p with hlt'|hge
          · have := h.order a ha p hpall hlt'
            omega
          · exact absurd (show a<p+(cell p).size by omega)
              (h.not_inside ha hpall (by omega))
      · by_cases hap : a=p
        · rw [hap,hsizep]
          rw [hap] at hab
          have := h.order p hpall b hb hab
          omega
        · rw [hold a ha hap]
          exact h.order a ha b hb hab
  · rw [hsame]
    intro u
    rw [h.cover u]
    constructor
    · rintro ⟨c,hc,hcu,huc⟩
      by_cases hcp : c=p
      · rw [hcp] at hcu huc
        by_cases huq : u<q
        · exact ⟨p,Finset.mem_insert_of_mem hpall,hcu,by rw [hsizep]; omega⟩
        · exact ⟨q,Finset.mem_insert_self q _,by omega,by rw [hsizeq]; omega⟩
      · exact ⟨c,Finset.mem_insert_of_mem hc,hcu,by rw [hold c hc hcp]; exact huc⟩
    · rintro ⟨c,hc,hcu,huc⟩
      rcases Finset.mem_insert.mp hc with rfl|hc
      · rw [hsizeq] at huc
        exact ⟨p,hpall,by omega,by omega⟩
      · by_cases hcp : c=p
        · rw [hcp,hsizep] at huc
          rw [hcp] at hcu
          exact ⟨p,hpall,hcu,by omega⟩
        · rw [hold c hc hcp] at huc
          exact ⟨c,hc,hcu,huc⟩
  · rw [hsame,Finset.sum_insert hnew,hsizeq,←h.sum,
      ←Finset.add_sum_erase _ (fun c => (cell' c).size) hpall,
      ←Finset.add_sum_erase _ (fun c => (cell c).size) hpall,hsizep]
    have hsum : ∑ c∈(nodes∪live).erase p, (cell' c).size=
        ∑ c∈(nodes∪live).erase p, (cell c).size := by
      refine Finset.sum_congr rfl (fun c hc => ?_)
      rw [hold c (Finset.mem_of_mem_erase hc) (Finset.ne_of_mem_erase hc)]
    rw [hsum]
    omega

/-- A free block is taken out of the circle for the program. -/
theorem Tiled.takeOut (h : Tiled base cell mapped total nodes live) {a p : ℕ} (ha : a∈nodes)
    (hp : (cell a).ptr=p) (hbase : p≠base) (hap : a≠p) (hptr : (cell' a).ptr=(cell p).ptr)
    (hsize : (cell' a).size=(cell a).size) (hrest : ∀ c, c≠a → cell' c=cell c) :
    Tiled base cell' mapped total (nodes.erase p) (insert p live) := by
  have hpmem : p∈nodes := hp ▸ (h.cycle a ha).mem
  have hsame : nodes.erase p∪insert p live=nodes∪live := by
    ext c
    simp only [Finset.mem_union,Finset.mem_insert,Finset.mem_erase]
    by_cases hcp : c=p
    · rw [hcp]
      tauto
    · tauto
  have hsizes : ∀ c, (cell' c).size=(cell c).size := by
    intro c
    by_cases hca : c=a
    · rw [hca]
      exact hsize
    · rw [hrest c hca]
  refine ⟨Finset.mem_erase.mpr ⟨hbase.symm,h.base_mem⟩,(hsizes base).trans h.base_size,?_,?_,?_,?_,
    ?_,?_⟩
  · refine h.cycle.erase ha hp hap hptr ?_
    intro c _ hca _
    rw [hrest c hca]
  · intro b hb hlive
    obtain ⟨hbp,hb⟩ := Finset.mem_erase.mp hb
    rcases Finset.mem_insert.mp hlive with heq|hlive
    · exact hbp heq
    · exact h.apart b hb hlive
  · rw [hsame]
    intro b hb hne
    rw [hsizes]
    exact h.pos b hb hne
  · rw [hsame]
    intro b hb c hc hlt
    rw [hsizes]
    exact h.order b hb c hc hlt
  · rw [hsame]
    intro u
    rw [h.cover u]
    simp only [hsizes]
  · rw [hsame,Finset.sum_congr rfl (fun c _ => hsizes c)]
    exact h.sum

/-- A new mapping is a block of the program until it is freed. -/
theorem Tiled.grow (h : Tiled base cell mapped total nodes live) {a nu : ℕ} (hnu : 0<nu)
    (hfresh : ∀ u<a+nu, a≤u → mapped u=false ∧ u≠base) (hsize : (cell' a).size=nu)
    (hrest : ∀ c, c<a ∨ a+nu≤c → cell' c=cell c) :
    Tiled base cell' (fun u => mapped u || decide (a≤u ∧ u<a+nu)) (total+nu) nodes
      (insert a live) := by
  have hclear : ∀ b∈nodes∪live, b+(cell b).size≤a ∧ b<a ∨ a+nu≤b := by
    intro b hb
    by_cases hbbase : b=base
    · rw [hbbase,h.base_size]
      by_contra hin
      exact (hfresh base (by omega) (by omega)).2 rfl
    · have hpos := h.pos b hb hbbase
      by_contra hin
      -- the first unit of both is mapped and new
      have hmapped : mapped (max a b)=true :=
        (h.cover (max a b)).mpr ⟨b,hb,by omega,by omega⟩
      have hnew := (hfresh (max a b) (by omega) (by omega)).1
      rw [hmapped] at hnew
      cases hnew
  have hold : ∀ c∈nodes∪live, cell' c=cell c :=
    fun c hc => hrest c ((hclear c hc).imp And.right id)
  have hnew : a∉nodes∪live := by
    intro hmem
    rcases hclear a hmem with hin|hin <;> omega
  have hsame : nodes∪insert a live=insert a (nodes∪live) := by
    rw [Finset.union_insert]
  refine ⟨h.base_mem,?_,?_,?_,?_,?_,?_,?_⟩
  · rw [hold base (Finset.mem_union_left live h.base_mem)]
    exact h.base_size
  · intro c hc
    change Follows nodes c (cell' c).ptr
    rw [hold c (Finset.mem_union_left live hc)]
    exact h.cycle c hc
  · intro b hb hlive
    rcases Finset.mem_insert.mp hlive with rfl|hlive
    · exact hnew (Finset.mem_union_left live hb)
    · exact h.apart b hb hlive
  · rw [hsame]
    intro b hb hne
    rcases Finset.mem_insert.mp hb with rfl|hb
    · rw [hsize]
      exact hnu
    · rw [hold b hb]
      exact h.pos b hb hne
  · rw [hsame]
    intro b hb' c hc' hlt
    rcases Finset.mem_insert.mp hb' with rfl|hb
    · rcases Finset.mem_insert.mp hc' with rfl|hc
      · exact absurd hlt (Nat.lt_irrefl _)
      · rw [hsize]
        rcases hclear c hc with hin|hin <;> omega
    · rw [hold b hb]
      rcases Finset.mem_insert.mp hc' with rfl|hc
      · rcases hclear b hb with hin|hin <;> omega
      · exact h.order b hb c hc hlt
  · rw [hsame]
    intro u
    rw [Bool.or_eq_true,decide_eq_true_eq,h.cover u]
    constructor
    · rintro (⟨c,hc,hcu,huc⟩|hu)
      · exact ⟨c,Finset.mem_insert_of_mem hc,hcu,by rw [hold c hc]; exact huc⟩
      · exact ⟨a,Finset.mem_insert_self a _,hu.1,by rw [hsize]; exact hu.2⟩
    · rintro ⟨c,hc,hcu,huc⟩
      rcases Finset.mem_insert.mp hc with rfl|hc
      · rw [hsize] at huc
        exact Or.inr ⟨hcu,huc⟩
      · rw [hold c hc] at huc
        exact Or.inl ⟨c,hc,hcu,huc⟩
  · rw [hsame,Finset.sum_insert hnew,hsize,Finset.sum_congr rfl
      (fun c hc => congrArg Header.size (hold c hc)),h.sum]
    omega

/-- The circle before the first call has no block but the static header. -/
theorem tiled_base (base : ℕ) (cell : ℕ → Header) :
    Tiled base (Function.update cell base {ptr := base,size := 0}) (fun _ => false) 0 {base} ∅ := by
  have hself : Function.update cell base {ptr := base,size := 0} base={ptr := base,size := 0} :=
    Function.update_self base _ cell
  have honly : ∀ b∈({base} : Finset ℕ)∪∅, b=base := by
    intro b hb
    rw [Finset.union_empty] at hb
    exact Finset.mem_singleton.mp hb
  refine ⟨Finset.mem_singleton_self base,by rw [hself],cycle_singleton (by rw [hself]),?_,?_,?_,?_,
    ?_⟩
  · intro b _
    exact Finset.notMem_empty b
  · intro b hb hne
    exact absurd (honly b hb) hne
  · intro a ha b hb hlt
    rw [honly a ha,honly b hb] at hlt
    exact absurd hlt (Nat.lt_irrefl base)
  · intro u
    constructor
    · intro hu
      cases hu
    · rintro ⟨b,hb,hbu,hub⟩
      rw [honly b hb,hself] at hub
      rw [honly b hb] at hbu
      exact absurd hub (not_lt.mpr hbu)
  · rw [Finset.union_empty,Finset.sum_singleton,hself]

end ComputerSystems.Xv6Malloc
