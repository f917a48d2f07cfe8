import ComputerSystems.NufsSettled
import ComputerSystems.NufsWrite

/-!
# Names longer than their field

`directory_put` copies a name into a field of 48 bytes and then stores the
inode number right behind the field. What `directory_lookup` compares is
everything up to the first NUL, so an entry holds the name it was given if the
name fits, and otherwise its first 48 bytes and the low byte of the number. A
file created under a name is found again exactly when the two agree.
-/

namespace ComputerSystems.NufsNames

open StateProgram ByteMemory DirectoryTree NufsImage NufsInode NufsPath NufsDirectory NufsStorage
  NufsCalls NufsOwnership NufsResize NufsEntry NufsSound NufsExhaustion NufsListing NufsCatalog
  NufsNamespace NufsWrite NufsFolders NufsSettled

/-! ## Stored names -/

/-- The name that an entry holds. -/
def storedName (name : List UInt8) (i : ℕ) : List UInt8 :=
  if name.length≤47 then name else name.take 48++[UInt8.ofNat i]

/-- The entry of an inode holds the name it was given: the name fits its field,
or its only byte beyond it is the inode number. -/
def KeepsName (name : List UInt8) (i : ℕ) : Prop :=
  name.length≤47 ∨ (name.length=49 ∧ name[48]?=some (UInt8.ofNat i))

/-- Entries hold the name they were given exactly under this condition. -/
theorem storedName_eq_iff (name : List UInt8) (i : ℕ) :
    storedName name i=name ↔ KeepsName name i := by
  unfold storedName KeepsName
  by_cases hl : name.length≤47
  · simp only [hl,if_true,true_or]
  · rw [if_neg hl]
    constructor
    · intro he
      have hlen := congrArg List.length he
      rw [List.length_append,List.length_take,List.length_singleton] at hlen
      refine .inr ⟨by omega,?_⟩
      rw [←he,List.getElem?_append_right (by rw [List.length_take]; omega),List.length_take,
        Nat.min_eq_left (by omega)]
      rfl
    · rintro (hle|⟨hlen,hbyte⟩)
      · exact absurd hle hl
      · have hdrop : name.drop 48=[UInt8.ofNat i] := by
          obtain ⟨hlt,hget⟩ := List.getElem?_eq_some_iff.mp hbyte
          rw [List.drop_eq_getElem_cons hlt,hget,List.drop_eq_nil_of_le (by omega)]
        rw [←hdrop,List.take_append_drop]

/-- Stored names end in their entries. -/
theorem storedName_length (name : List UInt8) (i : ℕ) : (storedName name i).length<64 := by
  unfold storedName
  split
  · omega
  · rw [List.length_append,List.length_take,List.length_singleton]
    omega

/-- Stored names hold no NUL. -/
theorem storedName_plain {name : List UInt8} {i : ℕ} (hn : ∀ byte∈name, byte≠0)
    (hi : 0 < i ∧ i<64) : ∀ byte∈storedName name i, byte≠0 := by
  unfold storedName
  split
  · exact hn
  · intro byte hb
    rcases List.mem_append.mp hb with hb|hb
    · exact hn byte (List.mem_of_mem_take hb)
    · rw [List.mem_singleton.mp hb]
      intro hz
      have hnat := congrArg UInt8.toNat hz
      rw [UInt8.toNat_ofNat',Nat.mod_eq_of_lt (by omega)] at hnat
      exact absurd hnat (by simp only [UInt8.toNat_zero]; omega)

/-- The bytes of a stored number below 256. -/
theorem putInt_low (memory : Bytes) (start : ℕ) {value : ℕ} (hv : value<256) :
    putInt memory start value start=UInt8.ofNat value ∧ putInt memory start value (start+1)=0 := by
  have hword : ((value : ℤ)%4294967296).toNat=value := by omega
  rw [putInt,putWord,hword]
  refine ⟨?_,?_⟩
  · rw [blit_inside _ _ (by omega) (by omega),Nat.sub_self,pow_zero,Nat.div_one]
  · rw [blit_inside _ _ (by omega) (by omega),Nat.add_sub_cancel_left,pow_one,
      Nat.div_eq_of_lt hv]
    rfl

/-- What is read back from an entry just stored. -/
theorem cStringAt_putEntry (memory : Bytes) (start : ℕ) {name : List UInt8} {i : ℕ}
    (hn : ∀ byte∈name, byte≠0) (hi : 0 < i ∧ i<64) :
    cStringAt (putEntry memory start name i) start 64=storedName name i := by
  refine cStringAt_of_bytes (storedName_length name i) (storedName_plain hn hi) (fun k hk => ?_)
  have hfield : k<48 → k≤name.length → putEntry memory start name i (start+k)=name.getD k 0 := by
    intro hlt hle
    rw [putEntry,putInt_outside _ _ (by omega),blit_inside _ _ (by omega) (by omega),
      Nat.add_sub_cancel_left]
  obtain ⟨hlow,hnext⟩ := putInt_low (blit memory start (name.length+1) (fun k => name.getD k 0))
    (start+48) (show i<256 by omega)
  unfold storedName at hk ⊢
  by_cases hl : name.length≤47
  · rw [if_pos hl] at hk ⊢
    exact hfield (by omega) hk
  · rw [if_neg hl] at hk ⊢
    have htake : (name.take 48).length=48 := by
      rw [List.length_take]
      omega
    rw [List.length_append,htake,List.length_singleton] at hk
    rcases Nat.lt_trichotomy k 48 with hlt|rfl|hgt
    · rw [hfield hlt (by omega),List.getD_append _ _ _ _ (by omega)]
      simp only [List.getD_eq_getElem?_getD,List.getElem?_take,if_pos hlt]
    · rw [putEntry,hlow,List.getD_append_right _ _ _ _ (by omega),htake]
      rfl
    · have hk49 : k=49 := by omega
      subst hk49
      rw [putEntry,show start+49=start+48+1 from rfl,hnext,
        List.getD_append_right _ _ _ _ (by omega),htake]
      rfl

/-! ## Listings after an insertion -/

/-- An entry leaves the bytes before it alone, however long its name is. -/
theorem putEntry_before (memory : Bytes) {start address : ℕ} (name : List UInt8) (inum : ℤ)
    (h : address < start) : putEntry memory start name inum address=memory address := by
  rw [putEntry,putInt_outside _ _ (by omega),blit_outside _ _ (by omega)]

section Enlarged

variable {memory grown : Bytes} {d j count : ℕ} {name : List UInt8}

/-- The size and the direct pointers of a directory after entering a name of any
length. -/
theorem entered_record (memory : Bytes) {s : ℕ} (hd : d<64) (hp : 2≤ptrAt grown d 0)
    (hs : s+64<2147483648) (j : ℕ) (name : List UInt8) :
    sizeAt (entered memory grown d j s name) d=((s+64 : ℕ) : ℤ) ∧
      ∀ k<2, ptrAt (entered memory grown d j s name) d k=ptrAt grown d k := by
  constructor
  · have hkeep : sizeAt (entered memory grown d j s name) d=
        sizeAt (prepared memory grown d j s) d :=
      intAt_congr (fun address hl hr => putEntry_before _ _ _ (by omega))
    rw [hkeep,prepared,sizeAt,intAt_putInt_apart _ _ (by omega),intAt_putInt,
      wrap32_of_range (by omega) (by omega)]
  · intro k hk
    have hkeep : ptrAt (entered memory grown d j s name) d k=
        ptrAt (prepared memory grown d j s) d k :=
      intAt_congr (fun address hl hr => putEntry_before _ _ _ (by omega))
    rw [hkeep,prepared,ptrAt,intAt_putInt_apart _ _ (by omega),intAt_putInt_apart _ _ (by omega),
      ptrAt]

/-- The directory lists one entry more, under the stored name. -/
theorem Enlarged.labels (hi : Enlarged memory grown d count) (hj : 0 < j ∧ j<64)
    (hn : ∀ byte∈name, byte≠0) :
    labelsAt (entered memory grown d j (64*count) name) d 64=
      labelsAt memory d 64++[⟨storedName name j,j⟩] := by
  have hp := hi.page
  have hd := hi.live.1
  have hroom := hi.room
  obtain ⟨hsize,hptrs⟩ := entered_record memory hd hp.1
    (show 64*count+64<2147483648 by omega) j name
  have hptr := hptrs 0 (by omega)
  rw [show 64*count+64=64*(count+1) by omega] at hsize
  refine labelsAt_append (Nat.le_refl _) hi.size hsize (fun ii hii k hk => ?_) ?_
  · have hfirst := hi.first (by omega)
    rw [entryStart,entryStart,hptr,hfirst,entered,putEntry_before _ _ _ (by rw [hfirst]; omega),
      prepared,putInt_outside _ _ (by omega),putInt_outside _ _ (by omega)]
    exact hi.grown.frame _ (by omega) (by omega) (by omega)
  · have hinum : intAt (entered memory grown d j (64*count) name)
        (4096*(ptrAt grown d 0).toNat+64*count+48)=j := by
      rw [entered,putEntry,intAt_putInt,wrap32_of_range (by omega) (by omega)]
    rw [entryStart,hptr,labelAt,hinum,entered,cStringAt_putEntry _ _ hn hj]

end Enlarged

/-! ## The call up to the stores -/

/-- The inode that `alloc_inode` takes next. -/
def NewInode (memory : Bytes) (i : ℕ) : Prop :=
  i<64 ∧ inodeBit memory i=false ∧ ∀ earlier, earlier < i → inodeBit memory earlier=true

/-- Room for one more inode, page and entry of a directory. -/
structure Room (memory : Bytes) (d i : ℕ) : Prop where
  /-- The inode. -/
  inode : NewInode memory i
  /-- A page. -/
  page : 0<freePages memory
  /-- An entry in the first page of the directory. -/
  entry : (entriesAt memory d).length<64

/-- Creating an inode takes no page. -/
theorem freePages_created (memory : Bytes) (mode : ℤ) {i : ℕ} (hi : i<64) :
    freePages (created memory i mode)=freePages memory := by
  unfold freePages
  congr 1
  refine Finset.filter_congr (fun page hp => ?_)
  have hlt := (Finset.mem_Ico.mp hp).2
  rw [show pageBit (created memory i mode) page=pageBit memory page from
    bitAt_congr (created_outside mode memory hi (by omega) (by omega))]

/-- `directory_put` with enough free pages comes to its stores, whatever the name. -/
theorem directoryPut_granted (disk : Disk) {d j s : ℕ} (h : Sound disk.bytes)
    (hd : Live disk.bytes d) (hs : sizeAt disk.bytes d=s)
    (hfree : ¬PagesShort disk.bytes d ((s+64 : ℕ) : ℤ)) (hj : j<64) (name : List UInt8) :
    ∃ (grown : Bytes) (mid : Disk), mid.denied=disk.denied ∧
      Grown disk.bytes grown d ((s+4095)/4096) ((s+64+4095)/4096) ∧ directoryPut (nodeOffset d) name j disk=
        storeEntry ((4096*(ptrAt grown d 0).toNat+s : ℕ) : ℤ) name j
          {mid with bytes := prepared disk.bytes grown d j s} := by
  have hb := blocksAt_of_size hs
  obtain ⟨hsmall,hpages⟩ := granted_of_pages h.owned hd hs hfree
  obtain ⟨mid,grown,hgrow,hdenied,hg,hmid,_⟩ := growInode_taken h.owned hd hs hb
    (show s ≤ s+64 by omega) hsmall hpages
  have hsize : wrap32 (sizeAt disk.bytes d+64)=((s+64 : ℕ) : ℤ) := by
    rw [hs,wrap32_of_range (by omega) (by omega)]
    push_cast
    rfl
  refine ⟨grown,mid,hdenied,hg,?_⟩
  rw [directoryPut,bind_of_ok (readSize_ok hd.1 disk),hsize,bind_of_ok hgrow]
  exact directoryPut_filled h.owned hd hb hg (by omega) hmid hsmall hj name

/-- With enough free pages a short name is entered in the first page. -/
theorem directoryPut_returns (disk : Disk) {d j count : ℕ} (h : Sound disk.bytes)
    (hd : Live disk.bytes d) (hs : sizeAt disk.bytes d=((64*count : ℕ) : ℤ)) (hroom : count<64)
    (hfree : ¬PagesShort disk.bytes d (sizeAt disk.bytes d+64)) (hj : j<64) {name : List UInt8}
    (hshort : name.length<64) :
    ∃ mid, directoryPut (nodeOffset d) name j disk=.ok 0 mid ∧ mid.denied=disk.denied := by
  have hgrant : ¬PagesShort disk.bytes d ((64*count+64 : ℕ) : ℤ) := by
    rw [hs] at hfree
    push_cast at hfree ⊢
    exact hfree
  obtain ⟨grown,mid,hdenied,hg,hput⟩ := directoryPut_granted disk h hd hs hgrant hj name
  have hpage := Grown.first_block hg h.owned hd (blocksAt_of_size hs) (by omega)
  rw [storeEntry_ok (by omega) (by omega)] at hput
  exact ⟨_,hput,hdenied⟩

/-- One free page is enough for an entry in the first page. -/
theorem pages_of_room {memory : Bytes} {d count : ℕ} (hs : sizeAt memory d=((64*count : ℕ) : ℤ))
    (hroom : count<64) (hfree : 0<freePages memory) :
    ¬PagesShort memory d ((64*count+64 : ℕ) : ℤ) := by
  have hnew : pagesFor ((64*count+64+4095)/4096)≤1 := by
    rw [show (64*count+64+4095)/4096=1 by omega]
    decide
  rw [PagesShort,hs,dataPages_natCast,dataPages_natCast]
  omega

/-- `storage_mknod` of an absent name comes to its stores, whatever the name. -/
theorem storageMknod_stored {disk : Disk} {place : Location Component} {d i count : ℕ}
    (h : Sound disk.bytes) (hd : Live disk.bytes d)
    (hs : sizeAt disk.bytes d=((64*count : ℕ) : ℤ))
    (hparent : treeLookup (dirname (pathOf place)) disk=.ok (d : ℤ) disk)
    (hname : directoryLookup (nodeOffset d) (basename (pathOf place)) disk=.ok noEntry disk)
    (hr : Room disk.bytes d i) (mode : ℤ) :
    ∃ (grown : Bytes) (mid : Disk), Enlarged (created disk.bytes i mode) grown d count ∧
      storageMknod (pathOf place) mode disk=
        storeEntry ((4096*(ptrAt grown d 0).toNat+64*count : ℕ) : ℤ) place.base.bytes i
          {mid with bytes := prepared (created disk.bytes i mode) grown d i (64*count)} := by
  obtain ⟨hi,hfree,hleast⟩ := hr.inode
  have hroom := hr.entry
  rw [length_entriesAt hs] at hroom
  have hne : d≠i := by
    rintro rfl
    have hmark := hd.2
    rw [hfree] at hmark
    cases hmark
  have hsize : sizeAt (created disk.bytes i mode) d=((64*count : ℕ) : ℤ) :=
    (created_field_other mode disk.bytes hi 12 hne (by omega)).trans hs
  have hpages : 0<freePages (created disk.bytes i mode) := by
    rw [freePages_created disk.bytes mode hi]
    exact hr.page
  have hsound := sound_created mode h hi hfree
  have hlive := (created_live mode disk.bytes hi d).mpr (.inr hd)
  obtain ⟨grown,mid,_,hgrown,hput⟩ := directoryPut_granted {disk with bytes := created disk.bytes i mode}
    hsound hlive hsize (pages_of_room hsize hroom hpages) hi place.base.bytes
  rw [show (64*count+64+4095)/4096=1 by omega] at hgrown
  refine ⟨grown,mid,⟨hsound,hlive,hsize,hroom,hgrown⟩,?_⟩
  have hcall := storageMknod_eq (render_head (place.parent++[place.base])) hd.1 hparent hname mode
  rw [pathOf,hcall,if_neg (by decide),basename_render]
  rcases createNode_eq (nodeOffset d) place.base.bytes mode disk with
    ⟨other,hother,hunmarked,hbelow,heq⟩|⟨hall,_⟩
  · have hsame : other=i := by
      rcases Nat.lt_trichotomy other i with hlt|he|hgt
      · rw [hleast other hlt] at hunmarked
        cases hunmarked
      · exact he
      · rw [hbelow i hgt] at hfree
        cases hfree
    rw [heq,hsame]
    exact hput
  · rw [hall i hi] at hfree
    cases hfree

/-! ## Lookups after the call -/

/-- What the new name is for: the call returns 0, the path leads to the inode,
and every other path resolves as before. -/
def FoundAfter (disk : Disk) (place : Location Component) (mode : ℤ) (i : ℕ) : Prop :=
  ∃ next, storageMknod (pathOf place) mode disk=.ok 0 next ∧
    treeLookup (pathOf place) next=.ok (i : ℤ) next ∧
    ∀ path, path≠place.parent++[place.base] → ∀ j, Resolves next path j ↔ Resolves disk path j

/-- The children after a name has been entered. -/
def childAfter (c : Catalog) (d : ℕ) (base : Component) (i : ℕ) (l : ℕ) (label : Component) :
    Option ℕ :=
  if l=d ∧ label=base then some i else childAt c l label

/-- The image after the stores of `storage_mknod` in a marked directory. -/
structure Made (memory next : Bytes) (d i count : ℕ) (mode : ℤ) (base : Component) : Prop where
  /-- The invariant before. -/
  settled : Settled memory
  /-- The directory. -/
  folder : Folder memory d
  /-- Its entries. -/
  size : sizeAt memory d=((64*count : ℕ) : ℤ)
  /-- The name was absent. -/
  absent : childAt (folders memory) d base=none
  /-- The inode was not marked. -/
  index : i<64
  /-- The inode was not marked. -/
  free : inodeBit memory i=false
  /-- The growth and the stores. -/
  stored : ∃ grown, Enlarged (created memory i mode) grown d count ∧
    next=entered (created memory i mode) grown d i (64*count) base.bytes

section Made

variable {disk next : Disk} {d i count : ℕ} {mode : ℤ} {base : Component}

/-- What was marked is not the new inode. -/
theorem Made.ne_of_live (h : Made disk.bytes next.bytes d i count mode base) {l : ℕ}
    (hl : Live disk.bytes l) : l≠i := by
  rintro rfl
  have hmark := hl.2
  rw [h.free] at hmark
  cases hmark

/-- The directory lists one entry more, under the stored name. -/
theorem Made.labels (h : Made disk.bytes next.bytes d i count mode base) :
    labelsAt next.bytes d 64=
      (folders disk.bytes).entries d++[⟨storedName base.bytes i,i⟩] := by
  obtain ⟨grown,he,hn⟩ := h.stored
  have hzero : 0≠i := h.ne_of_live h.settled.consistent.root.1
  have hlisting := created_listing mode h.settled.filed.sound h.index (h.ne_of_live h.folder.1)
    (h.settled.filed.size_le h.folder) (fun _ => h.folder.1)
  have hended := (h.settled.filed.listable h.folder).names
  rw [←hlisting] at hended
  rw [hn,Enlarged.labels he ⟨Nat.pos_of_ne_zero hzero.symm,h.index⟩
    (fun byte hb => (base.plain byte hb).1),labelsAt_of_ended (by omega) hended,hlisting,
    folders_entries h.folder]

/-- `directory_lookup` in the directory searches these entries. -/
theorem Made.lookup (h : Made disk.bytes next.bytes d i count mode base) (label : Component) :
    directoryLookup (nodeOffset d) label.bytes next=.ok (lookupCode
      ((folders disk.bytes).entries d++[⟨storedName base.bytes i,i⟩]) label.bytes) next := by
  have hlabels := h.labels
  obtain ⟨grown,he,hn⟩ := h.stored
  have hroom := he.room
  obtain ⟨hsize,hptrs⟩ := entered_record (created disk.bytes i mode) h.folder.1.1 he.page.1
    (show 64*count+64<2147483648 by omega) i base.bytes
  have hptr := hptrs 0 (by omega)
  rw [show 64*count+64=64*(count+1) by omega] at hsize
  have hended : ∀ entry∈labelsAt next.bytes d 64, entry.name.length<64 := by
    rw [hlabels]
    intro entry hm
    rcases List.mem_append.mp hm with hm|hm
    · rw [folders_entries h.folder] at hm
      exact Nat.lt_trans ((h.settled.filed.listable h.folder).names entry hm) (by omega)
    · rw [List.mem_singleton.mp hm]
      exact storedName_length base.bytes i
  rw [←hn] at hsize hptr
  rw [directoryLookup_labels (Nat.le_refl 64) h.folder.1.1 (show count+1≤64 by omega) hsize
    (fun _ => hptr ▸ he.page) hended (fun byte hb => (label.plain byte hb).1),hlabels]

/-- The new name is found in the directory exactly when it is stored as it is. -/
theorem Made.lookup_base (h : Made disk.bytes next.bytes d i count mode base) :
    directoryLookup (nodeOffset d) base.bytes next=.ok (i : ℤ) next ↔
      KeepsName base.bytes i := by
  rw [h.lookup,lookupCode_last (child_none h.absent),←storedName_eq_iff]
  dsimp only
  by_cases he : storedName base.bytes i=base.bytes
  · rw [if_pos he]
    exact ⟨fun _ => he,fun _ => rfl⟩
  · rw [if_neg he]
    refine ⟨fun hx => absurd (EStateM.Result.ok.inj hx).1 ?_,fun hx => absurd hx he⟩
    rw [noEntry]
    omega

/-- Marked directories other than the new inode. -/
theorem Made.folder_next (h : Made disk.bytes next.bytes d i count mode base)
    (hk : base.bytes.length<64) {l : ℕ} (hne : l≠i) :
    Folder next.bytes l ↔ Folder disk.bytes l := by
  obtain ⟨grown,he,hn⟩ := h.stored
  rw [hn,Entering.folder_next ⟨he,h.index,hk⟩]
  exact folder_created disk.bytes mode h.index hne

/-- The other marked directories list what they did. -/
theorem Made.others (h : Made disk.bytes next.bytes d i count mode base)
    (hk : base.bytes.length<64) {l : ℕ} (hl : Folder disk.bytes l) (hne : l≠d) :
    Listable next.bytes l ∧ entriesAt next.bytes l=entriesAt disk.bytes l := by
  have hf := h.settled.filed
  have hni := h.ne_of_live hl.1
  have hlive := ((h.folder_next hk hni).mpr hl).1
  obtain ⟨grown,hgrown,hn⟩ := h.stored
  have he : Entering (created disk.bytes i mode) grown d i count base.bytes := ⟨hgrown,h.index,hk⟩
  have hold : sizeAt (created disk.bytes i mode) l=sizeAt disk.bytes l :=
    created_field_other mode disk.bytes h.index 12 hni (by omega)
  have hsize := he.sizes hl.1.1
  rw [if_neg hne,hold,←hn] at hsize
  have hlist : entriesAt next.bytes l=entriesAt disk.bytes l := by
    rw [hn,he.others hl.1.1 hne (hold ▸ hf.size_le hl)
      (fun _ => (created_live mode disk.bytes h.index l).mpr (.inr hl.1))]
    exact created_listing mode hf.sound h.index hni (hf.size_le hl) (fun _ => hl.1)
  refine ⟨⟨hl.1.1,hsize ▸ hf.size l hl,fun hpos => ?_,hlist ▸ (hf.listable hl).names⟩,hlist⟩
  have hsound : Sound next.bytes := hn ▸ Entering.sound_next he
  exact (hsound.first_page hlive hpos).2

/-- A new directory has no entries. -/
theorem Made.empty (h : Made disk.bytes next.bytes d i count mode base)
    (hk : base.bytes.length<64) : Listable next.bytes i ∧ entriesAt next.bytes i=[] := by
  obtain ⟨grown,hgrown,hn⟩ := h.stored
  have he : Entering (created disk.bytes i mode) grown d i count base.bytes := ⟨hgrown,h.index,hk⟩
  have hsize := he.sizes h.index
  rw [if_neg (h.ne_of_live h.folder.1).symm,(created_fields mode disk.bytes h.index).2.2.2,←hn]
    at hsize
  have hnil := entriesAt_zero hsize
  refine ⟨⟨h.index,⟨0,by omega,hsize⟩,fun hpos => ?_,fun entry hm => ?_⟩,hnil⟩
  · rw [hsize] at hpos
    exact absurd hpos (Int.lt_irrefl 0)
  · rw [hnil] at hm
    exact absurd hm List.not_mem_nil

/-- A name stored as it is guides the lookups. -/
theorem Made.guide (h : Made disk.bytes next.bytes d i count mode base)
    (hk : KeepsName base.bytes i) :
    Guide next (childAfter (folders disk.bytes) d base i) := by
  have hshort : base.bytes.length<64 := by
    rcases hk with hk|⟨hk,_⟩ <;> omega
  have hdi := h.ne_of_live h.folder.1
  have hc := h.settled.consistent
  constructor
  · intro l hl label
    have hplain : ∀ byte∈label.bytes, byte≠0 := fun byte hb => (label.plain byte hb).1
    by_cases hd : l=d
    · rw [hd]
      by_cases hb : label=base
      · rw [hb,childAfter,if_pos ⟨rfl,rfl⟩]
        exact h.lookup_base.mpr hk
      · have hne : storedName base.bytes i≠label.bytes := by
          rw [(storedName_eq_iff base.bytes i).mpr hk]
          exact fun he => hb (Component.ext_bytes he).symm
        rw [childAfter,if_neg (fun hx => hb hx.2),h.lookup,lookupCode_other hne,hc.lookupCode_child]
    · rw [childAfter,if_neg (fun hx => hd hx.1),←hc.lookupCode_child]
      by_cases hi : l=i
      · obtain ⟨hlist,hnil⟩ := h.empty hshort
        have hdead : ¬Folder disk.bytes i := fun hx => h.ne_of_live hx.1 rfl
        rw [hi,directoryLookup_eq hlist hplain,hnil,folders_nil hdead]
      · have hold := (h.folder_next hshort hi).mp hl
        obtain ⟨hlist,hsame⟩ := h.others hshort hold hd
        rw [directoryLookup_eq hlist hplain,hsame,folders_entries hold]
  · intro l label j hchild
    by_cases hd : l=d
    · rw [hd]
      exact (h.folder_next hshort hdi).mpr h.folder
    · rw [childAfter,if_neg (fun hx => hd hx.1)] at hchild
      have hold := folder_iff.mp (holder_of_child hc hchild)
      exact (h.folder_next hshort (h.ne_of_live hold.1)).mpr hold

end Made

/-- Where a path leads after a name has been entered: only the path with this
name as its last one leads elsewhere. -/
theorem walk_childAfter {c : Catalog} (hs : Single c) (hc : Consistent c)
    {place : Location Component} {d i : ℕ} (hp : resolveAt c place.parent=some d) (hd : c.folder d)
    (habsent : childAt c d place.base=none) (hi : ¬c.live i) {path : List Component}
    (hne : path≠place.parent++[place.base]) :
    walk (childAfter c d place.base i) 0 path=resolveAt c path := by
  have hdi : i≠d := by
    rintro rfl
    exact hi (hc.resolve_live hp)
  have hnone : ∀ label, childAt c i label=none := by
    intro label
    cases hx : childAt c i label with
    | none => rfl
    | some j => exact absurd (holder_of_child hc hx).1 hi
  have hsame : ∀ l label, ¬(l=d ∧ label=place.base) →
      childAfter c d place.base i l label=childAt c l label := fun l label hedge => if_neg hedge
  have hleaf : ∀ l label j, (l=d ∧ label=place.base) → childAt c l label=some j →
      ∀ label', childAt c j label'=none := by
    rintro l label j ⟨rfl,rfl⟩ hx
    rw [habsent] at hx
    cases hx
  have hleaf' : ∀ l label j, (l=d ∧ label=place.base) →
      childAfter c d place.base i l label=some j →
      ∀ label', childAfter c d place.base i j label'=none := by
    intro l label j hedge hx label'
    rw [childAfter,if_pos hedge,Option.some.injEq] at hx
    rw [←hx,childAfter,if_neg (fun hy => hdi hy.1)]
    exact hnone label'
  rcases walk_changed hsame hleaf hleaf' 0 path with he|⟨front,name,parent,hpath,hw,_,rfl,rfl⟩
  · exact he
  · rw [hs.path_unique hc hd hw hp] at hpath
    exact absurd hpath hne

/-- An absent name is found after `storage_mknod` exactly when its entry keeps it. -/
theorem foundAfter_iff {disk : Disk} (h : Settled disk.bytes) {place : Location Component}
    {d i : ℕ} (hres : Resolves disk place.parent d) (hd : Folder disk.bytes d)
    (habsent : treeLookup (pathOf place) disk=.ok noEntry disk) (hr : Room disk.bytes d i)
    (mode : ℤ) : FoundAfter disk place mode i ↔ KeepsName place.base.bytes i := by
  have hlook := h.looked hres hd
  obtain ⟨hi,hfree,_⟩ := hr.inode
  obtain ⟨count,_,hs⟩ := h.filed.size d hd
  have hchild : childAt (folders disk.bytes) d place.base=none := by
    have hcode := (EStateM.Result.ok.inj (hlook.path.symm.trans habsent)).1
    cases hf : childAt (folders disk.bytes) d place.base with
    | none => rfl
    | some j =>
      rw [hf] at hcode
      exact absurd hcode (by simp only [foundCode,noEntry]; omega)
  have hname := hlook.name
  rw [hchild] at hname
  obtain ⟨grown,mid,he,hcall⟩ := storageMknod_stored h.filed.sound hd.1 hs hlook.parent hname hr
    mode
  have hpage := he.page
  have hroom := he.room
  have hmade : ∀ next : Disk, next.bytes=entered (created disk.bytes i mode) grown d i (64*count)
      place.base.bytes → Made disk.bytes next.bytes d i count mode place.base := fun next hn =>
    ⟨h,hd,hs,hchild,hi,hfree,grown,he,hn⟩
  have hconcat : place.parent≠place.parent++[place.base] := by simp
  constructor
  · rintro ⟨next,hok,hpath,hothers⟩
    rw [hcall] at hok
    obtain ⟨_,_,hn⟩ := storeEntry_returned (by omega) hok
    have hmid := hmade next (by rw [hn]; rfl)
    have hparent := ((hothers place.parent hconcat d).mpr hres).lookup
    rw [pathOf,treeLookup_concat,bind_of_ok hparent,bind_of_ok (getInode_ok hd.1.1 next)] at hpath
    exact hmid.lookup_base.mp hpath
  · intro hk
    have hshort : place.base.bytes.length<64 := by
      rcases hk with hk|⟨hk,_⟩ <;> omega
    obtain ⟨next,hok,hn⟩ : ∃ next : Disk, storageMknod (pathOf place) mode disk=.ok 0 next ∧
        next.bytes=entered (created disk.bytes i mode) grown d i (64*count) place.base.bytes :=
      ⟨_,hcall.trans (storeEntry_ok (by omega) (by omega) _ _),rfl⟩
    have hg := (hmade next hn).guide hk
    have hdead : ¬(folders disk.bytes).live i := fun hx => by
      have hmark := hx.2
      rw [hfree] at hmark
      cases hmark
    have hwalk : ∀ path, path≠place.parent++[place.base] →
        walk (childAfter (folders disk.bytes) d place.base i) 0 path=
          resolveAt (folders disk.bytes) path := fun path hne =>
      walk_childAfter h.single h.consistent hlook.sited.resolve hlook.sited.folder hchild hdead hne
    refine ⟨next,hok,hg.lookup_of_walk _ ?_,fun path hne j => ?_⟩
    · rw [walk_concat,hwalk place.parent hconcat,hlook.sited.resolve,Option.bind_some,childAfter,
        if_pos ⟨rfl,rfl⟩]
    · rw [hg.resolves_iff,hwalk path hne,h.resolves]

/-! ## Runs -/

/-- Along every run of regular calls, an absent name for which there is room is
found after `storage_mknod` exactly when it has at most 47 bytes, or 49 of which
the last is the number of the new inode. -/
theorem mknod_found_iff {disk : Disk} (h : Reachable Regular disk) {place : Location Component}
    {d i : ℕ} (hres : Resolves disk place.parent d) (hd : Folder disk.bytes d)
    (habsent : treeLookup (pathOf place) disk=.ok noEntry disk) (hr : Room disk.bytes d i)
    (mode : ℤ) : FoundAfter disk place mode i ↔ KeepsName place.base.bytes i :=
  foundAfter_iff (settled_of_reachable (fun _ _ hcall => hcall) h) hres hd habsent hr mode

/-- The file `/a` in a fresh image. -/
def placeA : Location Component := ⟨[],nameA⟩

/-- Paths that are absent in a fresh image. -/
theorem absent_of_passes {path : List UInt8}
    (h : passes (treeLookup path) fresh (fun value _ => decide (value=noEntry))=true) :
    treeLookup path fresh=.ok noEntry fresh := (treeLookup_readOnly _).returns h

/-- The root of a fresh image is an empty directory, and resolves. -/
theorem root_of_fresh : Resolves fresh [] 0 ∧ Folder fresh.bytes 0 ∧ Room fresh.bytes 0 1 := by
  refine ⟨⟨rfl,fun front hf hne => absurd (List.prefix_nil.mp hf) hne⟩,?_,⟨?_,?_,?_⟩⟩
  · decide +kernel
  · exact ⟨by decide,by decide +kernel,fun earlier he => by
      rw [show earlier=0 by omega]
      decide +kernel⟩
  · decide +kernel
  · decide +kernel

/-- The file `/a` is found. -/
theorem found_placeA : FoundAfter fresh placeA 33188 1 :=
  (mknod_found_iff .refl root_of_fresh.1 root_of_fresh.2.1 (absent_of_passes (by decide +kernel))
    root_of_fresh.2.2 33188).mpr (.inl (by decide))

/-- A name of 48 bytes. -/
def longName : Component :=
  ⟨List.replicate 48 97,by decide,fun byte hb => by rw [List.eq_of_mem_replicate hb]; decide⟩

/-- A file with a name of 48 bytes is not found again. -/
theorem long_name_lost :
    ¬∀ (disk : Disk) (place : Location Component) (d i : ℕ) (mode : ℤ),
      Reachable (fun _ _ => True) disk → Resolves disk place.parent d → Folder disk.bytes d →
      place.base.bytes.length≤255 → treeLookup (pathOf place) disk=.ok noEntry disk →
      Room disk.bytes d i → FoundAfter disk place mode i := by
  intro h
  obtain ⟨hres,hroot,hroom⟩ := root_of_fresh
  have habsent : treeLookup (pathOf ⟨[],longName⟩) fresh=.ok noEntry fresh :=
    absent_of_passes (by decide +kernel)
  have hfound := h fresh ⟨[],longName⟩ 0 1 33188 .refl hres hroot (by decide) habsent hroom
  have hkeeps := (foundAfter_iff settled_fresh hres hroot habsent hroom 33188).mp hfound
  rcases hkeeps with hle|⟨hlen,_⟩
  · exact absurd hle (by decide)
  · exact absurd hlen (by decide)

end ComputerSystems.NufsNames
