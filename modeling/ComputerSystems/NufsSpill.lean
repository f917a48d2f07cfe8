import ComputerSystems.NufsFailure
import ComputerSystems.NufsNames

/-!
# Entries beyond the first page

`directory_put` grows the directory block by block, but stores the entry at an
address counted from the first block. The two agree as long as the entry lies
in the first page; the first entry after it is stored in the page that follows
in the image, whoever owns it.
-/

namespace ComputerSystems.NufsSpill

open StateProgram ByteMemory DirectoryTree NufsImage NufsInode NufsPath NufsDirectory NufsStorage
  NufsCalls NufsFailure NufsOwnership NufsResize NufsEntry NufsSound NufsIsolation NufsExhaustion
  NufsListing NufsCatalog NufsNamespace NufsLifetime NufsWrite NufsFolders NufsSettled NufsNames

/-- The bytes that an insertion may change: the page marks, the two records, and
the pages that the directory owns afterwards. -/
def Owning (next : Bytes) (d j address : ℕ) : Prop :=
  address<32 ∨ (4096+64*d≤address ∧ address<4096+64*d+64) ∨
    (4096+64*j≤address ∧ address<4096+64*j+64) ∨
    ∃ k, k < blocksAt next d ∧ pnumAt next d k=((address/4096 : ℕ) : ℤ)

/-- `directory_put` returns 0, changes only such bytes, and a name that its
directory did not have is found there. -/
def PutConfined (disk : Disk) (d j : ℕ) (name : List UInt8) : Prop :=
  ∃ next, directoryPut (nodeOffset d) name j disk=.ok 0 next ∧
    (∀ address, next.bytes address≠disk.bytes address → Owning next.bytes d j address) ∧
    (searchDirectory (nodeOffset d) name disk=.ok none disk →
      directoryLookup (nodeOffset d) name next=.ok (j : ℤ) next)

/-- The address of the next entry lies in its block: in the first page, or in the
page after it when that is the one the directory takes. -/
def Adjoining (memory : Bytes) (d count : ℕ) : Prop :=
  count<64 ∨ (count=64 ∧ NextPage memory (ptrAt memory d 0+1))

/-! ## Scans -/

/-- A scan that misses goes on where it stopped. -/
theorem findEntry_beyond {entries : ℤ} {name : List UInt8} {disk : Disk} (more left : ℕ) :
    ∀ {ii : ℤ}, findEntry entries name left ii disk=.ok none disk →
      findEntry entries name (left+more) ii disk=findEntry entries name more (ii+left) disk := by
  induction left with
  | zero =>
    intro ii _
    rw [Nat.zero_add,Nat.cast_zero,add_zero]
  | succ left ih =>
    intro ii h
    obtain ⟨same,mid,hsame,hrest⟩ := bind_eq_ok.mp h
    have hmid := (streqAt_readOnly _ _).eq_of_ok hsame
    rw [hmid] at hsame hrest
    rw [Nat.add_right_comm,findEntry,bind_of_ok hsame]
    by_cases hc : same=true
    · rw [if_pos hc] at hrest
      cases (pure_eq_ok.mp hrest).1
    · rw [if_neg hc] at hrest
      rw [if_neg hc,ih hrest]
      push_cast
      rw [add_assoc,add_comm 1]

/-- The next page is one. -/
theorem NextPage.unique {memory : Bytes} {page other : ℤ} (h : NextPage memory page)
    (ho : NextPage memory other) : page=other := by
  have hl := h.lower
  have hl' := ho.lower
  rcases lt_trichotomy page other with hlt|he|hgt
  · have hmark := ho.least page.toNat (by omega) (by omega)
    rw [h.unmarked] at hmark
    cases hmark
  · exact he
  · have hmark := h.least other.toNat (by omega) (by omega)
    rw [ho.unmarked] at hmark
    cases hmark

/-! ## One more entry -/

/-- A directory that grows by an entry whose address lies in its block. -/
structure Extended (memory grown : Bytes) (d count : ℕ) : Prop where
  /-- The ownership invariant before. -/
  sound : Sound memory
  /-- The directory is marked. -/
  live : Live memory d
  /-- Its entries. -/
  size : sizeAt memory d=((64*count : ℕ) : ℤ)
  /-- The address of the next entry lies in its block. -/
  adjoining : Adjoining memory d count
  /-- The growth of the directory. -/
  grown : Grown memory grown d ((64*count+4095)/4096) ((64*count+64+4095)/4096)

section Extended

variable {memory grown : Bytes} {d j count : ℕ} {name : List UInt8}

/-- There are at most 64 entries before. -/
theorem Extended.count_le (h : Extended memory grown d count) : count≤64 := by
  rcases h.adjoining with hlt|⟨rfl,_⟩ <;> omega

/-- The first block after the growth. -/
theorem Extended.page (h : Extended memory grown d count) :
    2≤ptrAt grown d 0 ∧ ptrAt grown d 0<256 :=
  Grown.first_block h.grown h.sound.owned h.live (blocksAt_of_size h.size) (by omega)

/-- A directory with entries keeps its first block. -/
theorem Extended.first (h : Extended memory grown d count) (hpos : 0<count) :
    ptrAt grown d 0=ptrAt memory d 0 := by
  have hkeep := h.grown.keep (.block 0) (by simp only [Slot.Used]; omega)
  simp only [Slot.page,pnumAt,if_pos (show 0<2 by omega)] at hkeep
  exact hkeep

/-- The block of the new entry is the page of its address. -/
theorem Extended.block (h : Extended memory grown d count) :
    count/64<2 ∧ count/64<(64*count+64+4095)/4096 ∧
      ptrAt grown d (count/64)=ptrAt grown d 0+((count/64 : ℕ) : ℤ) ∧
      ptrAt grown d 0+((count/64 : ℕ) : ℤ)<256 := by
  have hpage := h.page
  rcases h.adjoining with hlt|⟨rfl,hnext⟩
  · rw [Nat.div_eq_of_lt hlt,Nat.cast_zero,add_zero]
    exact ⟨by omega,by omega,rfl,hpage.2⟩
  · have hnew := h.grown.first (by omega) (by omega)
    rw [show (64*64+4095)/4096=1 by omega,pnumAt,if_pos (by omega)] at hnew
    have hfirst := h.first (by omega)
    have hsame := NextPage.unique hnew hnext
    have hupper := hnext.upper
    rw [show 64/64=1 by omega,hsame,hfirst,Nat.cast_one]
    exact ⟨by omega,by omega,rfl,hupper⟩

/-- The entry lies inside the mapping. -/
theorem Extended.bound (h : Extended memory grown d count) :
    4096*(ptrAt grown d 0).toNat+64*count+64≤1048576 := by
  have hpage := h.page
  have hle := h.count_le
  obtain ⟨_,_,_,hlt⟩ := h.block
  omega

/-- Growing and storing a short name change only bytes of the directory's pages,
of the two records and of the page marks. -/
theorem Extended.confined (h : Extended memory grown d count) (hshort : name.length<64)
    {address : ℕ} (hne : entered memory grown d j (64*count) name address≠memory address) :
    Owning (entered memory grown d j (64*count) name) d j address := by
  have hpage := h.page
  have hle := h.count_le
  obtain ⟨hk,hused,hblock,hlt⟩ := h.block
  obtain ⟨hsize,hptrs⟩ := entered_record memory h.live.1 hpage.1
    (show 64*count+64<2147483648 by omega) j name
  by_contra hout
  refine hne ?_
  unfold Owning at hout
  push Not at hout
  obtain ⟨hmarks,hd,hj,hpages⟩ := hout
  have hslot := hpages (count/64) (by rw [blocksAt_of_size hsize]; exact hused)
  rw [pnumAt,if_pos hk,hptrs _ hk,hblock] at hslot
  rw [entered_outside hshort (by omega) (by omega) (by omega)]
  exact h.grown.frame address (by omega) (by omega) (by omega)

/-- The bytes of earlier entries are kept. -/
theorem Extended.before (h : Extended memory grown d count) (hj : j<64) {address : ℕ}
    (hlow : 4096*(ptrAt grown d 0).toNat≤address)
    (hhigh : address<4096*(ptrAt grown d 0).toNat+64*count) :
    entered memory grown d j (64*count) name address=memory address := by
  have hpage := h.page
  have hle := h.count_le
  have hd := h.live.1
  rw [entered,putEntry_before _ _ _ hhigh,prepared,putInt_outside _ _ (by omega),
    putInt_outside _ _ (by omega)]
  exact h.grown.frame address (by omega) (by omega) (by omega)

/-- A name that was absent is not among the earlier entries. -/
theorem Extended.missed {disk next : Disk} (h : Extended disk.bytes grown d count) (hj : j<64)
    (hshort : name.length≤47) (hn : next.bytes=entered disk.bytes grown d j (64*count) name)
    (habsent : searchDirectory (nodeOffset d) name disk=.ok none disk) :
    findEntry ((4096*(ptrAt grown d 0).toNat : ℕ) : ℤ) name count ((0 : ℕ) : ℤ) next=
      .ok none next := by
  have hle := h.count_le
  have hold : findEntry ((4096*(ptrAt grown d 0).toNat : ℕ) : ℤ) name count ((0 : ℕ) : ℤ) disk=
      .ok none disk := by
    by_cases hz : count=0
    · rw [hz]
      rfl
    · have hfirst := h.first (by omega)
      have hcount : entryCount ((64*count : ℕ) : ℤ)=(count : ℤ) := by
        rw [entryCount_natCast (by omega),Nat.mul_div_cancel_left count (by omega)]
      rw [searchDirectory,bind_of_ok (directoryGetEntries_ok h.live.1 disk),
        bind_of_ok (readSize_ok h.live.1 disk),h.size,hcount,Int.toNat_natCast,
        (entries_offset (hfirst ▸ h.page)).1] at habsent
      rw [hfirst]
      exact habsent
  refine findEntry_agree name count (fun k _ hk n hl => ?_) hold
  rw [hn]
  exact h.before hj (by omega) (by omega)

/-- The new entry has the name and the number. -/
theorem entered_entry (memory grown : Bytes) (d s : ℕ) (hj : j<64) (hshort : name.length≤47)
    (hplain : ∀ byte∈name, byte≠0) :
    entryAt (entered memory grown d j s name) (4096*(ptrAt grown d 0).toNat+s)=⟨name,j⟩ :=
  entryAt_putEntry _ _ (by omega) hplain (by omega)

/-- A name that was absent is found at the new entry. -/
theorem Extended.found {disk next : Disk} (h : Extended disk.bytes grown d count) (hj : j<64)
    (hshort : name.length≤47) (hplain : ∀ byte∈name, byte≠0)
    (hn : next.bytes=entered disk.bytes grown d j (64*count) name)
    (habsent : searchDirectory (nodeOffset d) name disk=.ok none disk) :
    directoryLookup (nodeOffset d) name next=.ok (j : ℤ) next := by
  have hd := h.live.1
  have hle := h.count_le
  have hbound := h.bound
  obtain ⟨hsize,hptrs⟩ := entered_record disk.bytes hd h.page.1
    (show 64*count+64<2147483648 by omega) j name
  have hptr := hptrs 0 (by omega)
  have hentry := entered_entry disk.bytes grown d (64*count) hj hshort hplain
  rw [←hn] at hsize hptr hentry
  have hoffset := (entries_offset (hptr ▸ h.page)).1
  have hmiss := h.missed hj hshort hn habsent
  rw [hptr] at hoffset
  generalize (ptrAt grown d 0).toNat=p at *
  have hname : cStringAt next.bytes (4096*p+64*count) 48=name := congrArg Entry.name hentry
  have hinum : intAt next.bytes (4096*p+64*count+48)=j := congrArg Entry.inum hentry
  have hsame := streqAt_eq 48 (show 4096*p+64*count+48≤1048576 by omega)
    (show (cStringAt next.bytes (4096*p+64*count) 48).length<48 by rw [hname]; omega) hplain
  have haddr : ((4096*p : ℕ) : ℤ)+64*(((0 : ℕ) : ℤ)+(count : ℤ))=((4096*p+64*count : ℕ) : ℤ) := by
    push_cast
    omega
  have hcount : entryCount ((64*count+64 : ℕ) : ℤ)=((count+1 : ℕ) : ℤ) := by
    rw [entryCount_natCast (by omega)]
    omega
  have hsearch : searchDirectory (nodeOffset d) name next=.ok (some (count : ℤ)) next := by
    rw [searchDirectory,bind_of_ok (directoryGetEntries_ok hd next),
      bind_of_ok (readSize_ok hd next),hsize,hcount,Int.toNat_natCast,hptr,hoffset]
    refine (findEntry_beyond 1 count hmiss).trans ?_
    rw [findEntry,haddr,bind_of_ok hsame,hname,decide_eq_true rfl,if_pos rfl,Nat.cast_zero,zero_add]
    rfl
  have hread : ((4096*p : ℕ) : ℤ)+64*(count : ℤ)+48=((4096*p+64*count+48 : ℕ) : ℤ) := by
    push_cast
    rfl
  rw [directoryLookup,bind_of_ok (directoryGetEntries_ok hd next),bind_of_ok hsearch,hptr,hoffset]
  dsimp only
  rw [hread,readInt_ok (by omega),hinum]

end Extended

/-- An insertion whose address lies in its block is confined. -/
theorem putConfined_of_adjoining {disk : Disk} {d j count : ℕ} {name : List UInt8}
    (h : Sound disk.bytes) (hd : Live disk.bytes d) (hj : j<64)
    (hs : sizeAt disk.bytes d=((64*count : ℕ) : ℤ)) (hshort : name.length≤47)
    (hplain : ∀ byte∈name, byte≠0) (hfree : ¬PagesShort disk.bytes d (sizeAt disk.bytes d+64))
    (ha : Adjoining disk.bytes d count) : PutConfined disk d j name := by
  have hgrant : ¬PagesShort disk.bytes d ((64*count+64 : ℕ) : ℤ) := by
    rw [hs] at hfree
    push_cast at hfree ⊢
    exact hfree
  obtain ⟨grown,mid,_,hg,hput⟩ := directoryPut_granted disk h hd hs hgrant hj name
  have hext : Extended disk.bytes grown d count := ⟨h,hd,hs,ha,hg⟩
  have hbound := hext.bound
  obtain ⟨next,hok,hn⟩ : ∃ next : Disk, directoryPut (nodeOffset d) name j disk=.ok 0 next ∧
      next.bytes=entered disk.bytes grown d j (64*count) name :=
    ⟨_,hput.trans (storeEntry_ok (by omega) (by omega) _ _),rfl⟩
  refine ⟨next,hok,fun address hne => ?_,hext.found hj hshort hplain hn⟩
  rw [hn] at hne ⊢
  exact hext.confined (by omega) hne

/-- Along every run of clean calls, a directory whose next entry lies in the
first page, or in the page after it when that is the next free one, is the only
one that `directory_put` writes to, and the name is found there. -/
theorem directoryPut_confined {disk : Disk} (h : Reachable Clean disk) {d j count : ℕ}
    {name : List UInt8} (hd : Live disk.bytes d) (hj : j<64)
    (hs : sizeAt disk.bytes d=((64*count : ℕ) : ℤ)) (hshort : name.length≤47)
    (hplain : ∀ byte∈name, byte≠0) (hfree : ¬PagesShort disk.bytes d (sizeAt disk.bytes d+64))
    (ha : Adjoining disk.bytes d count) : PutConfined disk d j name :=
  putConfined_of_adjoining (sound_of_reachable h) hd hj hs hshort hplain hfree ha

/-- Entering a second name for `/a` in the root. -/
theorem second_name_confined : PutConfined withA 0 1 [98] :=
  directoryPut_confined reachable_withA (show Live withA.bytes 0 from ⟨by decide,by decide +kernel⟩)
    (by decide) (show sizeAt withA.bytes 0=((64*1 : ℕ) : ℤ) by decide +kernel) (by decide)
    (by decide +kernel) (by unfold PagesShort; decide +kernel) (.inl (by decide))

/-! ## A full first page -/

/-- Names for links: one byte each. -/
def linkName (k : ℕ) : Component :=
  ⟨[UInt8.ofNat (128+k%64)],by simp,fun byte hb => by
    have hval : (UInt8.ofNat (128+k%64)).toNat=128+k%64 := by
      rw [UInt8.toNat_ofNat']
      omega
    rw [List.mem_singleton.mp hb]
    refine ⟨fun he => ?_,fun he => ?_⟩
    · rw [he] at hval
      exact absurd hval (by simp only [UInt8.toNat_zero]; omega)
    · rw [he] at hval
      exact absurd hval (by rw [show (47 : UInt8).toNat=47 from rfl]; omega)⟩

/-- The first 64 names for links differ. -/
theorem linkName_inj {k l : ℕ} (hk : k<64) (hl : l<64)
    (h : (linkName k).bytes=(linkName l).bytes) : k=l := by
  have hbyte := congrArg UInt8.toNat (List.singleton_inj.mp h)
  rw [UInt8.toNat_ofNat',UInt8.toNat_ofNat'] at hbyte
  omega

/-- Names for links are not `a`. -/
theorem linkName_ne (k : ℕ) : nameA.bytes≠(linkName k).bytes := by
  intro h
  have hbyte := congrArg UInt8.toNat (List.singleton_inj.mp h)
  rw [UInt8.toNat_ofNat',show (97 : UInt8).toNat=97 from rfl] at hbyte
  omega

/-- The root has the file `/a` of two bytes and so many links to it; the pages of
the two adjoin. -/
structure Crowded (disk : Disk) (k : ℕ) : Prop where
  /-- The image is reached by calls. -/
  reachable : Reachable (fun _ _ => True) disk
  /-- Ownership. -/
  sound : Sound disk.bytes
  /-- The root is a directory. -/
  root : Folder disk.bytes 0
  /-- The size of the root. -/
  size : sizeAt disk.bytes 0=((64*(k+1) : ℕ) : ℤ)
  /-- Its entries. -/
  entries : entriesAt disk.bytes 0=
    ⟨nameA.bytes,1⟩::(List.range k).map (fun n => ⟨(linkName n).bytes,1⟩)
  /-- Its page. -/
  first : ptrAt disk.bytes 0 0=2
  /-- The file is marked and not empty. -/
  file : Live disk.bytes 1 ∧ sizeAt disk.bytes 1=2
  /-- Its page. -/
  block : ptrAt disk.bytes 1 0=3
  /-- Its first byte. -/
  byte : disk.bytes 12288=7
  /-- There is a further page. -/
  free : pageBit disk.bytes 4=false

/-- The image with a file of two bytes is reached by calls. -/
theorem reachable_withTwoBytes : Reachable (fun _ _ => True) withTwoBytes := by
  have hfirst : Reachable (fun _ _ => True) withA := reachable_of_calls .refl (by decide +kernel)
  exact hfirst.call trivial (by decide +kernel)

/-- The image with a file of two bytes and no link. -/
theorem crowded_withTwoBytes : Crowded withTwoBytes 0 :=
  ⟨reachable_withTwoBytes,sound_withTwoBytes,by decide +kernel,by decide +kernel,by decide +kernel,
    by decide +kernel,⟨⟨by decide,by decide +kernel⟩,by decide +kernel⟩,by decide +kernel,
    by decide +kernel,by decide +kernel⟩

section Crowded

variable {disk : Disk} {k : ℕ}

/-- Every entry is found under its name only. -/
theorem Crowded.listable (h : Crowded disk k) (hk : k<64) : Listable disk.bytes 0 where
  index := by decide
  size := ⟨k+1,hk,h.size⟩
  page := fun hpos => (h.sound.first_page h.root.1 hpos).2
  names := by
    rw [h.entries]
    intro entry he
    rcases List.mem_cons.mp he with he|he
    · rw [he]
      decide
    · obtain ⟨n,_,rfl⟩ := List.mem_map.mp he
      exact (by decide : 1<48)

/-- `directory_lookup` finds `a`, and does not find the next name. -/
theorem Crowded.lookups (h : Crowded disk k) (hk : k<64) :
    directoryLookup (nodeOffset 0) nameA.bytes disk=.ok ((1 : ℕ) : ℤ) disk ∧
      directoryLookup (nodeOffset 0) (linkName k).bytes disk=.ok noEntry disk := by
  have hlist := h.listable hk
  constructor
  · rw [directoryLookup_eq hlist (fun byte hb => (nameA.plain byte hb).1),h.entries,lookupCode,
      findName,List.find?_cons_of_pos (by simp)]
    rfl
  · have hmissing : findName (entriesAt disk.bytes 0) (linkName k).bytes=none := by
      rw [h.entries,findName,List.find?_eq_none]
      intro entry he hx
      have hname : entry.name=(linkName k).bytes := of_decide_eq_true hx
      rcases List.mem_cons.mp he with he|he
      · rw [he] at hname
        exact linkName_ne k hname
      · obtain ⟨n,hn,rfl⟩ := List.mem_map.mp he
        have hlt := List.mem_range.mp hn
        have hsame := linkName_inj (by omega) hk hname
        omega
    rw [directoryLookup_eq hlist (fun byte hb => ((linkName k).plain byte hb).1),lookupCode,hmissing]

/-- Entering the next link in the root. -/
theorem Crowded.put (h : Crowded disk k) (hk : k<63) : ∃ (grown : Bytes) (mid : Disk),
    Entering disk.bytes grown 0 1 (k+1) (linkName k).bytes ∧ mid.denied=disk.denied ∧
      mid.bytes=entered disk.bytes grown 0 1 (64*(k+1)) (linkName k).bytes ∧
      directoryPut (nodeOffset 0) (linkName k).bytes ((1 : ℕ) : ℤ) disk=.ok 0 mid := by
  have hfree : ¬PagesShort disk.bytes 0 ((64*(k+1)+64 : ℕ) : ℤ) := by
    have hnew : pagesFor ((64*(k+1)+64+4095)/4096)=pagesFor ((64*(k+1)+4095)/4096) := by
      rw [show (64*(k+1)+64+4095)/4096=(64*(k+1)+4095)/4096 by omega]
    rw [PagesShort,h.size,dataPages_natCast,dataPages_natCast]
    omega
  obtain ⟨grown,mid,hdenied,hg,hput⟩ := directoryPut_granted disk h.sound h.root.1 h.size hfree
    (show 1<64 by omega) (linkName k).bytes
  rw [show (64*(k+1)+64+4095)/4096=1 by omega] at hg
  have hlength : (linkName k).bytes.length=1 := rfl
  have he : Entering disk.bytes grown 0 1 (k+1) (linkName k).bytes :=
    ⟨⟨h.sound,h.root.1,h.size,by omega,hg⟩,by omega,by omega⟩
  have hpage := he.page
  rw [storeEntry_ok (by omega) (by omega)] at hput
  exact ⟨grown,{mid with bytes := entered disk.bytes grown 0 1 (64*(k+1)) (linkName k).bytes},he,
    hdenied,rfl,hput⟩

/-- The next link to `/a` returns. -/
theorem Crowded.link (h : Crowded disk k) (hk : k<63) :
    ∃ (grown : Bytes) (next : Disk) (value : ℤ),
      Entering disk.bytes grown 0 1 (k+1) (linkName k).bytes ∧
      exec (.link (render [nameA]) (render [linkName k])) disk=.ok 0 next ∧
      next.denied=disk.denied ∧ next.bytes=
        putInt (entered disk.bytes grown 0 1 (64*(k+1)) (linkName k).bytes) (4096+64*1+4) value := by
  obtain ⟨hsource,htarget⟩ := h.lookups (by omega)
  obtain ⟨grown,mid,he,hdenied,hmid,hput⟩ := h.put hk
  have hroot : ∀ name : Component,
      treeLookup (dirname (render ([]++[name]))) disk=.ok ((0 : ℕ) : ℤ) disk := by
    intro name
    rw [dirname_render]
    rfl
  have hcall := storageLink_eq (show 0<64 by omega) (show 0<64 by omega) (hroot nameA)
    (by rw [basename_render]; exact hsource) (hroot (linkName k))
    (by rw [basename_render]; exact htarget)
  rw [if_pos (by decide),basename_render,addName,bind_of_ok (getInode_ok (by omega) disk),
    bind_of_ok hput,bind_of_ok (getInode_ok (by omega) mid),
    bind_of_ok (addRefs_ok (by omega) 1 mid)] at hcall
  exact ⟨grown,_,_,he,hcall,hdenied,by rw [←hmid]⟩

/-- One more link keeps both pages where they are. -/
theorem Crowded.next (h : Crowded disk k) (hk : k<63) : ∃ next, Crowded next (k+1) := by
  obtain ⟨grown,next,value,he,hcall,hdenied,hn⟩ := h.link hk
  have hfirst := he.first (Nat.succ_pos k)
  have hsize : ∀ l<64, sizeAt next.bytes l=
      if l=0 then ((64*(k+1+1) : ℕ) : ℤ) else sizeAt disk.bytes l := by
    intro l hl
    rw [hn]
    exact (size_putRefs _ 1 l value).trans (he.sizes hl)
  have hlive : Live next.bytes 1 ↔ Live disk.bytes 1 := by
    rw [hn]
    exact (live_putRefs _ 1 1 value).trans (he.lives 1)
  have hroot : Folder next.bytes 0 ↔ Folder disk.bytes 0 := by
    rw [hn]
    exact (folder_putRefs _ 1 0 value).trans (Entering.folder_next he)
  have hptr : ptrAt next.bytes 0 0=ptrAt disk.bytes 0 0 := by
    rw [hn,←hfirst]
    exact (intAt_putInt_apart _ _ (by omega)).trans (he.pointer 0 (by omega))
  have helse : ∀ address, 4096≤address → (address<4096+12 ∨ 4096+28≤address) →
      (address<4096+68 ∨ 4096+72≤address) → (address<8192 ∨ 12288≤address) →
      next.bytes address=disk.bytes address := by
    intro address hl hs hr hp
    rw [h.first] at hfirst
    rw [hn,putInt_outside _ _ (by omega)]
    exact he.elsewhere (by omega) (by omega) (by omega) (by omega)
  have hentries : entriesAt next.bytes 0=entriesAt disk.bytes 0++[⟨(linkName k).bytes,1⟩] := by
    have hin := he.sizes (show 0<64 by omega)
    have hsound := Entering.sound_next he
    rw [if_pos rfl] at hin
    rw [hn]
    refine (putRefs_listing hsound (show 1<64 by omega) value (by rw [hin]; omega) (fun _ =>
      (he.lives 0).mpr h.root.1)).trans ?_
    exact he.listing (show 1<48 by omega) (fun byte hb => ((linkName k).plain byte hb).1)
  have hfree : pageBit next.bytes 4=false := by
    have hmarks := he.grown.marks 4 (by omega)
    have hkeep : pageBit next.bytes 4=pageBit grown 4 := by
      refine bitAt_congr ?_
      rw [hn,putInt_outside _ _ (by omega)]
      have hpage := he.page
      exact entered_outside he.short (by omega) (by omega) (by omega)
    rw [hkeep,Bool.eq_false_iff]
    intro hx
    rcases hmarks.mp hx with hold|⟨slot,hu,hnu,_⟩
    · rw [h.free] at hold
      cases hold
    · rw [show (64*(k+1)+4095)/4096=1 by omega] at hnu
      exact hnu hu
  refine ⟨next,h.reachable.tail ⟨_,0,trivial,hcall,hdenied⟩,?_,hroot.mpr h.root,hsize 0 (by omega),?_,
    hptr.trans h.first,⟨hlive.mpr h.file.1,(hsize 1 (by omega)).trans h.file.2⟩,?_,?_,hfree⟩
  · rw [hn]
    exact sound_refs (Entering.sound_next he) (show 1<64 by omega) value
  · rw [hentries,h.entries,List.range_succ,List.map_append,List.map_singleton,List.cons_append]
  · exact (intAt_congr (fun address hl hr => helse address (by omega) (by omega) (by omega)
      (by omega))).trans h.block
  · exact (helse 12288 (by omega) (by omega) (by omega) (by omega)).trans h.byte

/-- The root can be filled up to 64 entries. -/
theorem crowded_full : ∃ disk, Crowded disk 63 := by
  have hrun : ∀ k≤63, ∃ disk, Crowded disk k := by
    intro k hk
    induction k with
    | zero => exact ⟨withTwoBytes,crowded_withTwoBytes⟩
    | succ k ih =>
      obtain ⟨disk,h⟩ := ih (by omega)
      exact h.next (by omega)
  exact hrun 63 (Nat.le_refl 63)

/-- There is a page for the 65th entry. -/
theorem Crowded.granted (h : Crowded disk k) (hk : k=63) :
    ¬PagesShort disk.bytes 0 ((4096+64 : ℕ) : ℤ) := by
  have hpos : 0<freePages disk.bytes :=
    Finset.card_pos.mpr ⟨4,Finset.mem_filter.mpr ⟨by decide,h.free⟩⟩
  have hsize : sizeAt disk.bytes 0=((4096 : ℕ) : ℤ) := by
    rw [h.size,hk]
  rw [PagesShort,hsize,dataPages_natCast,dataPages_natCast,
    show pagesFor ((4096+64+4095)/4096)=2 from rfl,show pagesFor ((4096+4095)/4096)=1 from rfl]
  omega

/-- The 65th entry of the root overwrites the first byte of the file. -/
theorem Crowded.spills (h : Crowded disk k) (hk : k=63) : ¬PutConfined disk 0 1 [122] := by
  rintro ⟨next,hok,hframe,_⟩
  have hsize : sizeAt disk.bytes 0=((4096 : ℕ) : ℤ) := by
    rw [h.size,hk]
  obtain ⟨grown,mid,_,hg,hput⟩ := directoryPut_granted disk h.sound h.root.1 hsize (h.granted hk)
    (show 1<64 by omega) [122]
  have hkeep := hg.keep (.block 0) (by simp only [Slot.Used]; omega)
  simp only [Slot.page,pnumAt,if_pos (show 0<2 by omega),h.first] at hkeep
  obtain ⟨hgrown,hptrs⟩ := entered_record disk.bytes (show 0<64 by omega)
    (show 2≤ptrAt grown 0 0 by omega) (show 4096+64<2147483648 by omega) 1 [122]
  rw [hput] at hok
  obtain ⟨_,_,hnext⟩ := storeEntry_returned (by omega) hok
  have hn : next.bytes=entered disk.bytes grown 0 1 4096 [122] := by
    rw [hnext]
    rfl
  have hbyte : next.bytes 12288=122 := by
    rw [hn,entered,hkeep,putEntry,putInt_outside _ _ (by omega),blit_inside _ _ (by omega)
      (by simp only [List.length_singleton]; omega)]
    rfl
  have hchanged : next.bytes 12288≠disk.bytes 12288 := by
    rw [hbyte,h.byte]
    decide
  rw [←hn] at hgrown hptrs
  rcases hframe 12288 hchanged with hlow|⟨_,hlow⟩|⟨_,hlow⟩|⟨block,hlt,hpage⟩
  · omega
  · omega
  · omega
  · rw [blocksAt_of_size hgrown] at hlt
    have htwo : block<2 := by omega
    rw [pnumAt,if_pos htwo,hptrs block htwo] at hpage
    by_cases hz : block=0
    · rw [hz,hkeep] at hpage
      omega
    · have hone : block=1 := by omega
      have hnew := (hg.new (.block 1) (by simp only [Slot.Used]; omega)
        (by simp only [Slot.Used]; omega)).2.2
      have hfile : 0<blocksAt disk.bytes 1 := by
        rw [blocksAt_of_size (show sizeAt disk.bytes 1=((2 : ℕ) : ℤ) from h.file.2)]
        omega
      have hmark := h.sound.owned.marked 1 h.file.1 (.block 0) hfile
      simp only [Slot.page,pnumAt,if_pos (show 0<2 by omega),if_pos (show 1<2 by omega),
        h.block] at hnew hmark
      rw [hone] at hpage
      rw [hpage] at hnew
      rw [show (((12288/4096 : ℕ) : ℤ)).toNat=(3 : ℤ).toNat from rfl,hmark] at hnew
      cases hnew

end Crowded

/-- An insertion into a full directory need not be confined: the 65th entry of
the root is stored in the page of a file. -/
theorem full_directory_spills :
    ¬∀ (disk : Disk) (d j count : ℕ) (name : List UInt8), Reachable (fun _ _ => True) disk →
      Folder disk.bytes d → Live disk.bytes j → sizeAt disk.bytes d=((64*count : ℕ) : ℤ) →
      name≠[] → name.length≤47 → (∀ byte∈name, byte≠0 ∧ byte≠47) →
      ¬PagesShort disk.bytes d (sizeAt disk.bytes d+64) → PutConfined disk d j name := by
  intro hall
  obtain ⟨disk,h⟩ := crowded_full
  refine h.spills rfl (hall disk 0 1 64 [122] h.reachable h.root h.file.1 h.size (by decide)
    (by decide) (by decide +kernel) ?_)
  rw [h.size]
  exact h.granted rfl

end ComputerSystems.NufsSpill
