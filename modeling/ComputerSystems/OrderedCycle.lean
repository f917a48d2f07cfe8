import Mathlib.Data.Finset.Card
import Mathlib.Data.Finset.Insert
import Mathlib.Order.Defs.LinearOrder

/-!
# Ordered cycles

Nodes of a linear order are linked in a circle: every node leads to the next
larger one, and the largest node back to the smallest. This module names no
particular list. A node is inserted behind its place and erased behind its
predecessor; a walk along the links comes to the place of every new node, and a
walk around comes to every node.
-/

namespace ComputerSystems.OrderedCycle

variable {α : Type*} [LinearOrder α] {nodes : Finset α} {next next' : α → α} {a b c d x : α}

/-- A node comes right behind another one, around the circle. -/
structure Follows (nodes : Finset α) (a b : α) : Prop where
  /-- It is a node. -/
  mem : b∈nodes
  /-- Nothing is between them, or they are the largest and the smallest node. -/
  near : (a<b ∧ ∀ c∈nodes, c≤a ∨ b≤c) ∨ (b≤a ∧ ∀ c∈nodes, b≤c ∧ c≤a)

/-- Every node leads to the node behind it. -/
def Cycle (nodes : Finset α) (next : α → α) : Prop := ∀ a∈nodes, Follows nodes a (next a)

/-- The place between two nodes where a new node belongs. -/
def Slot (x a b : α) : Prop := (a<x ∧ x<b) ∨ (b≤a ∧ (a<x ∨ x<b))

instance (x a b : α) : Decidable (Slot x a b) := inferInstanceAs (Decidable (_ ∨ _))

/-- A node alone leads to itself. -/
theorem cycle_singleton (h : next a=a) : Cycle {a} next := by
  intro c hc
  rw [Finset.mem_singleton] at hc
  rw [hc,h]
  refine ⟨Finset.mem_singleton_self a,Or.inr ⟨le_refl a,?_⟩⟩
  intro d hd
  rw [Finset.mem_singleton] at hd
  rw [hd]
  exact ⟨le_refl a,le_refl a⟩

/-- A new node comes right behind the one before its place. -/
theorem Follows.insert_left (h : Follows nodes a b) (hslot : Slot x a b) :
    Follows (insert x nodes) a x := by
  refine ⟨Finset.mem_insert_self x nodes,?_⟩
  rcases h.near with ⟨hlt,hnear⟩|⟨hle,hends⟩
  · rcases hslot with ⟨hax,hxb⟩|⟨hba,-⟩
    · refine Or.inl ⟨hax,fun c hc => ?_⟩
      rcases Finset.mem_insert.mp hc with rfl|hc
      · exact Or.inr (le_refl c)
      · exact (hnear c hc).imp_right hxb.le.trans
    · exact absurd hlt (not_lt.mpr hba)
  · rcases hslot with ⟨hax,hxb⟩|⟨-,hax|hxb⟩
    · exact absurd (hax.trans hxb) (not_lt.mpr hle)
    · refine Or.inl ⟨hax,fun c hc => ?_⟩
      rcases Finset.mem_insert.mp hc with rfl|hc
      · exact Or.inr (le_refl c)
      · exact Or.inl (hends c hc).2
    · refine Or.inr ⟨hxb.le.trans hle,fun c hc => ?_⟩
      rcases Finset.mem_insert.mp hc with rfl|hc
      · exact ⟨le_refl c,hxb.le.trans hle⟩
      · exact ⟨hxb.le.trans (hends c hc).1,(hends c hc).2⟩

/-- The node behind the place of a new node comes right behind it. -/
theorem Follows.insert_right (h : Follows nodes a b) (hslot : Slot x a b) :
    Follows (insert x nodes) x b := by
  refine ⟨Finset.mem_insert_of_mem h.mem,?_⟩
  rcases h.near with ⟨hlt,hnear⟩|⟨hle,hends⟩
  · rcases hslot with ⟨hax,hxb⟩|⟨hba,-⟩
    · refine Or.inl ⟨hxb,fun c hc => ?_⟩
      rcases Finset.mem_insert.mp hc with rfl|hc
      · exact Or.inl (le_refl c)
      · exact (hnear c hc).imp_left (fun hca => hca.trans hax.le)
    · exact absurd hlt (not_lt.mpr hba)
  · rcases hslot with ⟨hax,hxb⟩|⟨-,hax|hxb⟩
    · exact absurd (hax.trans hxb) (not_lt.mpr hle)
    · refine Or.inr ⟨hle.trans hax.le,fun c hc => ?_⟩
      rcases Finset.mem_insert.mp hc with rfl|hc
      · exact ⟨hle.trans hax.le,le_refl c⟩
      · exact ⟨(hends c hc).1,(hends c hc).2.trans hax.le⟩
    · refine Or.inl ⟨hxb,fun c hc => ?_⟩
      rcases Finset.mem_insert.mp hc with rfl|hc
      · exact Or.inl (le_refl c)
      · exact Or.inr (hends c hc).1

/-- A new node changes nothing between other nodes. -/
theorem Follows.insert_other (h : Follows nodes a b) (hslot : Slot x a b) (ha : a∈nodes)
    (hc : c∈nodes) (hca : c≠a) (hcd : Follows nodes c d) : Follows (insert x nodes) c d := by
  refine ⟨Finset.mem_insert_of_mem hcd.mem,?_⟩
  rcases hcd.near with ⟨hlt,hnear⟩|⟨hle,hends⟩
  · have hbehind : c≤a → d≤a := by
      intro hle
      exact (hnear a ha).resolve_left (fun hac => hca (le_antisymm hle hac))
    refine Or.inl ⟨hlt,fun e he => ?_⟩
    rcases Finset.mem_insert.mp he with rfl|he
    · rcases h.near with ⟨hab,hnear'⟩|⟨hba,hends'⟩
      · have hbetween : a<e ∧ e<b := hslot.resolve_right (fun hw => absurd hab (not_lt.mpr hw.1))
        rcases hnear' c hc with hle|hle
        · exact Or.inr ((hbehind hle).trans hbetween.1.le)
        · exact Or.inl (hbetween.2.le.trans hle)
      · rcases hslot with hbetween|⟨-,hae|heb⟩
        · exact absurd (hbetween.1.trans hbetween.2) (not_lt.mpr hba)
        · exact Or.inr ((hbehind (hends' c hc).2).trans hae.le)
        · exact Or.inl (heb.le.trans (hends' c hc).1)
    · exact hnear e he
  · -- the largest node is not the one before the place, so the place has nodes on both sides
    have hac : ¬c≤a := fun hle' => hca (le_antisymm hle' (hends a ha).2)
    have hab : a<b := by
      rcases h.near with ⟨hab,-⟩|⟨-,hends'⟩
      · exact hab
      · exact absurd (hends' c hc).2 hac
    have hbetween : a<x ∧ x<b := hslot.resolve_right (fun hw => absurd hab (not_lt.mpr hw.1))
    refine Or.inr ⟨hle,fun e he => ?_⟩
    rcases Finset.mem_insert.mp he with rfl|he
    · exact ⟨(hends a ha).1.trans hbetween.1.le,hbetween.2.le.trans (hends b h.mem).2⟩
    · exact hends e he

/-- A new node is linked in at its place. -/
theorem Cycle.insert (h : Cycle nodes next) (ha : a∈nodes) (hx : x∉nodes)
    (hslot : Slot x a (next a)) (hleft : next' a=x) (hright : next' x=next a)
    (hrest : ∀ c∈nodes, c≠a → next' c=next c) : Cycle (insert x nodes) next' := by
  have hnear := h a ha
  intro c hc
  rcases Finset.mem_insert.mp hc with rfl|hc
  · rw [hright]
    exact hnear.insert_right hslot
  · by_cases hca : c=a
    · rw [hca,hleft]
      exact hnear.insert_left hslot
    · rw [hrest c hc hca]
      exact hnear.insert_other hslot ha hc hca (h c hc)

/-- A node is linked out behind the node before it. -/
theorem Cycle.erase (h : Cycle nodes next) (ha : a∈nodes) (hx : next a=x) (hax : a≠x)
    (hleft : next' a=next x) (hrest : ∀ c∈nodes, c≠a → c≠x → next' c=next c) :
    Cycle (nodes.erase x) next' := by
  have hxmem : x∈nodes := hx ▸ (h a ha).mem
  have hfirst : Follows nodes a x := hx ▸ h a ha
  have hsecond := h x hxmem
  -- only the node before it led to the erased one
  have honly : ∀ c∈nodes, c≠a → next c≠x := by
    intro c hc hca hcx
    have hthird : Follows nodes c x := hcx ▸ h c hc
    rcases hfirst.near with ⟨hlt,hnear⟩|⟨hle,hends⟩
    · rcases hthird.near with ⟨hlt',hnear'⟩|⟨-,hends'⟩
      · have hca' := (hnear c hc).resolve_right (not_le.mpr hlt')
        have hac' := (hnear' a ha).resolve_right (not_le.mpr hlt)
        exact hca (le_antisymm hca' hac')
      · exact absurd (hends' a ha).1 (not_le.mpr hlt)
    · rcases hthird.near with ⟨hlt',-⟩|⟨-,hends'⟩
      · exact absurd (hends c hc).1 (not_le.mpr hlt')
      · exact hca (le_antisymm (hends c hc).2 (hends' a ha).2)
  intro c hc
  obtain ⟨hcx,hc⟩ := Finset.mem_erase.mp hc
  by_cases hca : c=a
  · rw [hca,hleft]
    have hne : next x≠x := by
      intro heq
      have hself : Follows nodes x x := by
        have hself := h x hxmem
        rw [heq] at hself
        exact hself
      rcases hself.near with ⟨hlt,-⟩|⟨-,hends⟩
      · exact lt_irrefl x hlt
      · exact hax (le_antisymm (hends a ha).2 (hends a ha).1)
    refine ⟨Finset.mem_erase.mpr ⟨hne,hsecond.mem⟩,?_⟩
    rcases hfirst.near with ⟨hlt,hnear⟩|⟨hle,hends⟩
    · rcases hsecond.near with ⟨hlt',hnear'⟩|⟨hle',hends'⟩
      · refine Or.inl ⟨hlt.trans hlt',fun d hd => ?_⟩
        obtain ⟨hdx,hd⟩ := Finset.mem_erase.mp hd
        rcases hnear d hd with hda|hxd
        · exact Or.inl hda
        · exact Or.inr ((hnear' d hd).resolve_left (fun hdx' => hdx (le_antisymm hdx' hxd)))
      · refine Or.inr ⟨(hends' a ha).1,fun d hd => ?_⟩
        obtain ⟨hdx,hd⟩ := Finset.mem_erase.mp hd
        refine ⟨(hends' d hd).1,?_⟩
        exact (hnear d hd).resolve_right (fun hxd => hdx (le_antisymm (hends' d hd).2 hxd))
    · rcases hsecond.near with ⟨hlt',hnear'⟩|⟨hle',hends'⟩
      · refine Or.inr ⟨(hends _ hsecond.mem).2,fun d hd => ?_⟩
        obtain ⟨hdx,hd⟩ := Finset.mem_erase.mp hd
        refine ⟨?_,(hends d hd).2⟩
        exact (hnear' d hd).resolve_left (fun hdx' => hdx (le_antisymm hdx' (hends d hd).1))
      · exact absurd (le_antisymm (hends' a ha).2 hle) hax
  · rw [hrest c hc hca hcx]
    have hcd := h c hc
    refine ⟨Finset.mem_erase.mpr ⟨honly c hc hca,hcd.mem⟩,?_⟩
    rcases hcd.near with ⟨hlt,hnear⟩|⟨hle,hends⟩
    · exact Or.inl ⟨hlt,fun d hd => hnear d (Finset.mem_of_mem_erase hd)⟩
    · exact Or.inr ⟨hle,fun d hd => hends d (Finset.mem_of_mem_erase hd)⟩

/-! ## A walk to the place of a new node -/

/-- The nodes that a walk to the place of a new node has before it. -/
def ahead (nodes : Finset α) (x a : α) : ℕ :=
  if a<x then (nodes.filter (fun c => a<c ∧ c<x)).card
  else (nodes.filter (fun c => a<c ∨ c<x)).card

/-- There are no more nodes before a walk than there are nodes. -/
theorem ahead_le_card (nodes : Finset α) (x a : α) : ahead nodes x a≤nodes.card := by
  unfold ahead
  split_ifs <;> exact Finset.card_filter_le _ _

/-- Every step of the walk that is not at the place brings it closer. -/
theorem ahead_lt (h : Cycle nodes next) (ha : a∈nodes) (hx : x∉nodes)
    (hslot : ¬Slot x a (next a)) : ahead nodes x (next a)<ahead nodes x a := by
  obtain ⟨hmem,hnear⟩ := h a ha
  have hnext : next a≠x := fun heq => hx (heq ▸ hmem)
  have hxa : a≠x := fun heq => hx (heq ▸ ha)
  have hlow : a<x → a<next a ∧ next a<x := by
    intro hax
    rcases hnear with ⟨hlt,-⟩|⟨hle,-⟩
    · exact ⟨hlt,lt_of_le_of_ne (not_lt.mp (fun hlt' => hslot (Or.inl ⟨hax,hlt'⟩))) hnext⟩
    · exact absurd (Or.inr ⟨hle,Or.inl hax⟩) hslot
  unfold ahead
  by_cases hax : a<x
  · obtain ⟨hup,hbelow⟩ := hlow hax
    rw [if_pos hax,if_pos hbelow]
    refine Finset.card_lt_card (Finset.ssubset_iff_subset_ne.mpr ⟨?_,?_⟩)
    · intro c hc
      obtain ⟨hc,hbetween⟩ := Finset.mem_filter.mp hc
      exact Finset.mem_filter.mpr ⟨hc,hup.trans hbetween.1,hbetween.2⟩
    · intro heq
      have hthere : next a∈nodes.filter (fun c => a<c ∧ c<x) :=
        Finset.mem_filter.mpr ⟨hmem,hup,hbelow⟩
      rw [←heq] at hthere
      exact lt_irrefl _ (Finset.mem_filter.mp hthere).2.1
  · rw [if_neg hax]
    have hxlt : x<a := lt_of_le_of_ne (not_lt.mp hax) hxa.symm
    rcases hnear with ⟨hup,-⟩|⟨hle,hends⟩
    · have habove : ¬next a<x := not_lt.mpr (hxlt.le.trans hup.le)
      rw [if_neg habove]
      refine Finset.card_lt_card (Finset.ssubset_iff_subset_ne.mpr ⟨?_,?_⟩)
      · intro c hc
        obtain ⟨hc,hside⟩ := Finset.mem_filter.mp hc
        exact Finset.mem_filter.mpr ⟨hc,hside.imp_left hup.trans⟩
      · intro heq
        have hthere : next a∈nodes.filter (fun c => a<c ∨ c<x) :=
          Finset.mem_filter.mpr ⟨hmem,Or.inl hup⟩
        rw [←heq] at hthere
        exact (Finset.mem_filter.mp hthere).2.elim (lt_irrefl _) habove
    · have hbelow : next a<x := by
        refine lt_of_le_of_ne (not_lt.mp (fun hlt => hslot ?_)) hnext
        exact Or.inr ⟨hle,Or.inr hlt⟩
      rw [if_pos hbelow]
      refine Finset.card_lt_card (Finset.ssubset_iff_subset_ne.mpr ⟨?_,?_⟩)
      · intro c hc
        obtain ⟨hc,hbetween⟩ := Finset.mem_filter.mp hc
        exact Finset.mem_filter.mpr ⟨hc,Or.inr hbetween.2⟩
      · intro heq
        have hthere : next a∈nodes.filter (fun c => a<c ∨ c<x) :=
          Finset.mem_filter.mpr ⟨hmem,Or.inr hbelow⟩
        rw [←heq] at hthere
        exact lt_irrefl _ (Finset.mem_filter.mp hthere).2.1

/-! ## A walk around -/

/-- A walk around that began behind a node has come by another one. -/
def Passed (first here c : α) : Prop := if first<here then first<c ∧ c<here else first<c ∨ c<here

instance (first here c : α) : Decidable (Passed first here c) :=
  inferInstanceAs (Decidable (ite _ _ _))

/-- A walk that begins has come by nothing. -/
theorem not_passed_next {first here : α} (h : Follows nodes first here) (hc : c∈nodes) :
    ¬Passed first here c := by
  unfold Passed
  rcases h.near with ⟨hlt,hnear⟩|⟨hle,hends⟩
  · rw [if_pos hlt]
    rintro ⟨h1,h2⟩
    exact (hnear c hc).elim (not_le.mpr h1) (not_le.mpr h2)
  · rw [if_neg (not_lt.mpr hle)]
    rintro (h1|h1)
    · exact not_le.mpr h1 (hends c hc).2
    · exact not_le.mpr h1 (hends c hc).1

/-- A step of the walk comes by the node it leaves. -/
theorem passed_next {first here : α} (h : Cycle nodes next) (hfirst : first∈nodes)
    (hhere : here∈nodes) (hne : here≠first) (hc : c∈nodes) :
    Passed first (next here) c ↔ Passed first here c ∨ c=here := by
  obtain ⟨-,hnear⟩ := h here hhere
  have hstep : here<next here → (c<next here ↔ c<here ∨ c=here) := by
    intro hlt
    rw [←le_iff_lt_or_eq]
    rcases hnear with ⟨-,hnear⟩|⟨hle,-⟩
    · exact ⟨fun hcn => (hnear c hc).resolve_right (not_le.mpr hcn),fun hle => hle.trans_lt hlt⟩
    · exact absurd hlt (not_lt.mpr hle)
  unfold Passed
  by_cases hlt : first<here
  · rw [if_pos hlt]
    rcases hnear with ⟨hup,-⟩|⟨-,hends⟩
    · rw [if_pos (hlt.trans hup),hstep hup]
      constructor
      · rintro ⟨h1,h2|h2⟩
        · exact Or.inl ⟨h1,h2⟩
        · exact Or.inr h2
      · rintro (⟨h1,h2⟩|rfl)
        · exact ⟨h1,Or.inl h2⟩
        · exact ⟨hlt,Or.inr rfl⟩
    · rw [if_neg (not_lt.mpr (hends first hfirst).1)]
      constructor
      · rintro (h1|h1)
        · rcases (hends c hc).2.lt_or_eq with h2|h2
          · exact Or.inl ⟨h1,h2⟩
          · exact Or.inr h2
        · exact absurd (hends c hc).1 (not_le.mpr h1)
      · rintro (⟨h1,-⟩|rfl)
        · exact Or.inl h1
        · exact Or.inl hlt
  · rw [if_neg hlt]
    have hbelow : here<first := lt_of_le_of_ne (not_lt.mp hlt) hne
    rcases hnear with ⟨hup,hnear⟩|⟨-,hends⟩
    · have hle : next here≤first := (hnear first hfirst).resolve_left (not_le.mpr hbelow)
      rw [if_neg (not_lt.mpr hle),hstep hup]
      tauto
    · exact absurd (hends first hfirst).2 (not_le.mpr hbelow)

/-- A walk that is back at its beginning has come by every other node. -/
theorem passed_all {first : α} (hne : c≠first) : Passed first first c := by
  unfold Passed
  rw [if_neg (lt_irrefl first)]
  exact (lt_or_gt_of_ne hne).symm

/-- The nodes that a walk around has not come by. -/
def unpassed (nodes : Finset α) (first here : α) : ℕ :=
  (nodes.filter (fun c => ¬Passed first here c)).card

/-- There are no more nodes before a walk than there are nodes. -/
theorem unpassed_le_card (nodes : Finset α) (first here : α) :
    unpassed nodes first here≤nodes.card :=
  Finset.card_filter_le _ _

/-- Every step of the walk comes by one more node. -/
theorem unpassed_lt {first here : α} (h : Cycle nodes next) (hfirst : first∈nodes)
    (hhere : here∈nodes) (hne : here≠first) :
    unpassed nodes first (next here)<unpassed nodes first here := by
  have hself : ¬Passed first here here := by
    unfold Passed
    split_ifs with hlt
    · exact fun hpassed => lt_irrefl _ hpassed.2
    · exact fun hpassed => hpassed.elim hlt (lt_irrefl _)
  refine Finset.card_lt_card (Finset.ssubset_iff_subset_ne.mpr ⟨?_,?_⟩)
  · intro c hc
    obtain ⟨hc,hnot⟩ := Finset.mem_filter.mp hc
    rw [passed_next h hfirst hhere hne hc] at hnot
    exact Finset.mem_filter.mpr ⟨hc,fun hpassed => hnot (Or.inl hpassed)⟩
  · intro heq
    have hthere : here∈nodes.filter (fun c => ¬Passed first here c) :=
      Finset.mem_filter.mpr ⟨hhere,hself⟩
    rw [←heq] at hthere
    exact (Finset.mem_filter.mp hthere).2 ((passed_next h hfirst hhere hne hhere).mpr (Or.inr rfl))

end ComputerSystems.OrderedCycle
