import ComputerSystems.NufsListing
import ComputerSystems.KeyedList

/-!
# A one-page directory as a finite map

A directory of at most 64 entries with distinct names, in one data page, stands
for the finite map from its names to their inode numbers. On every such image,
reachable or not, `directory_lookup` reads the map, `directory_put` inserts into
it, `directory_delete` erases from it and `directory_list` lists its names.
-/

namespace ComputerSystems.NufsMap

open StateProgram ByteMemory PackedList KeyedList NufsImage NufsInode NufsDirectory NufsCalls
open NufsOwnership NufsResize NufsEntry NufsListing

/-! ## `directory_list` -/

/-- `strdup`: the bytes of a C string, with a bound on their number that no string of
the image reaches. -/
def strdup : ℕ → ℤ → Nufs (List UInt8)
  | 0,_ => throw .segv
  | left+1,offset => do
    let byte ← readByte offset
    if byte=0 then return []
    else do
      let rest ← strdup left (offset+1)
      return byte::rest

/-- The loop of `directory_list`: each name is put in front of those before, with the
number of entries left. -/
def listNames (entries : ℤ) : ℕ → ℤ → List (List UInt8) → Nufs (List (List UInt8))
  | 0,_,names => return names
  | left+1,ii,names => do
    let first ← strdup 1048576 (entries+64*ii)
    listNames entries left (ii+1) (first::names)

/-- `directory_list`. -/
def directoryList (path : List UInt8) : Nufs (List (List UInt8)) := do
  let dirnum ← treeLookup path
  let dd ← getInode dirnum
  let entries ← directoryGetEntries dd
  let size ← readInt (dd+12)
  listNames entries (entryCount size).toNat 0 []

/-! ## The map -/

/-- The names of a directory with their inode numbers. -/
def namesAt (memory : Bytes) (d : ℕ) : Finmap (fun _ : List UInt8 => ℤ) :=
  mapOf Entry.name Entry.inum (entriesAt memory d)

/-- A directory with a number of entries in one page: distinct names that end in their
fields, inodes that know their numbers, and pointers that are pages. -/
structure Filed (memory : Bytes) (d count : ℕ) : Prop where
  /-- The directory is a table index. -/
  index : d<64
  /-- There are at most 64 entries. -/
  full : count≤64
  /-- The size is that of the entries. -/
  size : sizeAt memory d=((64*count : ℕ) : ℤ)
  /-- Names are distinct. -/
  distinct : ((entriesAt memory d).map Entry.name).Nodup
  /-- Names end in their fields. -/
  short : ∀ entry∈entriesAt memory d, entry.name.length≤47
  /-- Entries name inodes that know their numbers. -/
  known : ∀ entry∈entriesAt memory d, ∃ j : ℕ, entry.inum=j ∧ j<64 ∧ inumAt memory j=j
  /-- The direct pointers are page numbers. -/
  direct : ∀ k<2, 0≤ptrAt memory d k ∧ ptrAt memory d k<256
  /-- The indirect pointer is a page number. -/
  indirect : 0 ≤ iptrAt memory d ∧ iptrAt memory d<256
  /-- The page of the inodes is marked. -/
  marked : pageBit memory 1=true
  /-- The entries lie behind the bitmaps and the inodes. -/
  page : 0<count → 2≤ptrAt memory d 0

/-- Such a directory, with a page to come if there is none yet. -/
structure OnePage (memory : Bytes) (d count : ℕ) : Prop extends Filed memory d count where
  /-- An empty directory can get a page. -/
  room : count=0 → ∃ page, 1≤page ∧ page<256 ∧ pageBit memory page=false

/-- A directory that represents a map: names are distinct, and `directory_lookup` gives
the number of a name, or `-ENOENT`. -/
structure Represents (disk : Disk) (d : ℕ) (names : Finmap (fun _ : List UInt8 => ℤ)) : Prop where
  /-- Names are distinct. -/
  distinct : ((entriesAt disk.bytes d).map Entry.name).Nodup
  /-- Every C string is looked up in the map. -/
  lookup : ∀ name : List UInt8, (∀ byte∈name, byte≠0) →
    directoryLookup (nodeOffset d) name disk=.ok ((names.lookup name).getD noEntry) disk

section Reading

variable {disk : Disk} {d count : ℕ} {name : List UInt8}

/-- Such a directory can be listed. -/
theorem Filed.listable (h : Filed disk.bytes d count) : Listable disk.bytes d where
  index := h.index
  size := ⟨count,h.full,h.size⟩
  page := by
    intro hpos
    have hsize := h.size
    exact ⟨h.page (by omega),(h.direct 0 (by omega)).2⟩
  names := fun entry he => Nat.lt_succ_of_le (h.short entry he)

/-- What `directory_lookup` returns is what the map says. -/
theorem lookupCode_eq (memory : Bytes) (d : ℕ) (name : List UInt8) :
    lookupCode (entriesAt memory d) name=((namesAt memory d).lookup name).getD noEntry := by
  rw [namesAt,lookup_mapOf,lookupCode,findName]
  cases (entriesAt memory d).find? (fun entry => entry.name=name) <;> rfl

/-- A directory that can be listed, with distinct names, represents its map. -/
theorem represents_of_listable (h : Listable disk.bytes d)
    (hdistinct : ((entriesAt disk.bytes d).map Entry.name).Nodup) :
    Represents disk d (namesAt disk.bytes d) := by
  refine ⟨hdistinct,fun name hn => ?_⟩
  rw [directoryLookup_eq h hn,lookupCode_eq]

/-- A C string is copied up to its NUL. -/
theorem strdup_eq (limit : ℕ) : ∀ {left start : ℕ}, limit≤left → start+limit≤1048576 →
    (cStringAt disk.bytes start limit).length<limit →
    strdup left start disk=.ok (cStringAt disk.bytes start limit) disk := by
  induction limit with
  | zero =>
    intro left start _ _ hl
    exact absurd hl (Nat.not_lt_zero _)
  | succ limit ih =>
    intro left start hleft hb hl
    obtain ⟨left,rfl⟩ : ∃ more, left=more+1 := ⟨left-1,by omega⟩
    rw [strdup,bind_of_ok (readByte_ok (by omega) disk)]
    by_cases hz : disk.bytes start=0
    · rw [if_pos hz,cStringAt,if_pos hz]
      rfl
    · rw [cStringAt,if_neg hz,List.length_cons] at hl
      have hrest := ih (show limit≤left by omega) (show start+1+limit≤1048576 by omega) (by omega)
      have hnext : (start : ℤ)+1=((start+1 : ℕ) : ℤ) := by
        push_cast
        rfl
      rw [if_neg hz,hnext,bind_of_ok hrest,cStringAt,if_neg hz]
      rfl

/-- The loop puts the names of its entries in front, the last one first. -/
theorem listNames_eq {p : ℕ} (hp : p<256) (left : ℕ) : ∀ {ii : ℕ} {names : List (List UInt8)},
    ii+left≤64 →
    (∀ k, ii≤k → k < ii+left → (cStringAt disk.bytes (4096*p+64*k) 48).length<48) →
    listNames ((4096*p : ℕ) : ℤ) left ii names disk=
      .ok (((List.range' ii left).map (fun k => cStringAt disk.bytes (4096*p+64*k) 48)).reverse++
        names) disk := by
  induction left with
  | zero =>
    intro ii names _ _
    rfl
  | succ left ih =>
    intro ii names hle hl
    have haddr : ((4096*p : ℕ) : ℤ)+64*(ii : ℤ)=((4096*p+64*ii : ℕ) : ℤ) := by
      push_cast
      rfl
    have hfirst := strdup_eq 48 (show 48≤1048576 by decide)
      (show 4096*p+64*ii+48≤1048576 by omega) (hl ii (Nat.le_refl _) (by omega))
    have hlater : ∀ k, ii+1≤k → k < ii+1+left →
        (cStringAt disk.bytes (4096*p+64*k) 48).length<48 :=
      fun k hk hk' => hl k (by omega) (by omega)
    have hnext : (ii : ℤ)+1=((ii+1 : ℕ) : ℤ) := by
      push_cast
      rfl
    rw [listNames,haddr,bind_of_ok hfirst,hnext,ih (by omega) hlater,List.range'_succ,List.map_cons,
      List.reverse_cons,List.append_assoc,List.singleton_append]

/-- `directory_list` of a path that leads to the directory gives its names. -/
theorem Filed.list_eq (h : Filed disk.bytes d count) {path : List UInt8}
    (hpath : treeLookup path disk=.ok d disk) :
    directoryList path disk=.ok ((entriesAt disk.bytes d).map Entry.name).reverse disk := by
  have hcount : entryCount ((64*count : ℕ) : ℤ)=(count : ℤ) := by
    have hfull := h.full
    rw [entryCount_natCast (by omega),Nat.mul_div_cancel_left count (by omega)]
  rw [directoryList,bind_of_ok hpath,bind_of_ok (getInode_ok h.index disk),
    bind_of_ok (directoryGetEntries_ok h.index disk),bind_of_ok (readSize_ok h.index disk),h.size,
    hcount,Int.toNat_natCast]
  have hentries : entriesAt disk.bytes d=(List.range count).map
      (fun ii => entryAt disk.bytes (entryStart disk.bytes d ii)) := by
    rw [entriesAt,h.size,Int.toNat_natCast,Nat.mul_div_cancel_left count (by omega)]
  cases count with
  | zero =>
    rw [hentries]
    rfl
  | succ rest =>
    obtain ⟨hoffset,hpage⟩ := entries_offset ⟨h.page (Nat.succ_pos rest),(h.direct 0 (by omega)).2⟩
    have hshort : ∀ k, 0≤k → k<0+(rest+1) →
        (cStringAt disk.bytes (4096*(ptrAt disk.bytes d 0).toNat+64*k) 48).length<48 := by
      intro k _ hk
      have hmem : entryAt disk.bytes (entryStart disk.bytes d k)∈entriesAt disk.bytes d := by
        rw [hentries]
        exact List.mem_map.mpr ⟨k,List.mem_range.mpr (by omega),rfl⟩
      exact Nat.lt_succ_of_le (h.short _ hmem)
    have hfull := h.full
    have hnames := @listNames_eq disk _ hpage (rest+1) 0 [] (by omega) hshort
    rw [Nat.cast_zero] at hnames
    rw [hoffset,hnames,hentries,List.append_nil,List.map_map,List.range_eq_range']
    rfl

end Reading

/-! ## Insertion -/

/-- The image after `directory_put`, from that with the grown directory. -/
def inserted (grown : Bytes) (d j p s : ℕ) (name : List UInt8) : Bytes :=
  let sized := putInt grown (4096+64*d+12) (s+64 : ℕ)
  putEntry (putInt sized (4096+64*j+4) (refsAt sized j+1)) (4096*p+s) name j

/-- The image of a directory that has a page for one entry more, its first page. -/
structure Paged (memory grown : Bytes) (d count p : ℕ) : Prop where
  /-- The first pointer. -/
  pointer : ptrAt grown d 0=p
  /-- It is that of a data page. -/
  range : 2≤p ∧ p<256
  /-- A directory with entries has kept it. -/
  first : 0<count → ptrAt memory d 0=p
  /-- Only marks and the pointer have changed. -/
  frame : ∀ address, 32≤address → (address<4096+64*d+16 ∨ 4096+64*d+20≤address) →
    grown address=memory address
  /-- No mark was cleared. -/
  marks : ∀ page<256, pageBit memory page=true → pageBit grown page=true

section Putting

variable {disk : Disk} {grown : Bytes} {d count j p : ℕ} {name : List UInt8}

/-- Growing by one entry takes a page for an empty directory, and nothing else. -/
theorem OnePage.grow_eq (h : OnePage disk.bytes d count) (hroom : count<64) :
    ∃ grown p, Paged disk.bytes grown d count p ∧
      growInode (nodeOffset d) ((64*count+64 : ℕ) : ℤ) disk=.ok ((64*count+64 : ℕ) : ℤ)
        {disk with bytes := putInt grown (4096+64*d+12) (64*count+64 : ℕ)} := by
  have hd := h.index
  have hlast : ∀ grown : Bytes, (writeInt (nodeOffset d+12) ((64*count+64 : ℕ) : ℤ) >>= fun _ =>
      readInt (nodeOffset d+12)) {disk with bytes := grown}=.ok ((64*count+64 : ℕ) : ℤ)
        {disk with bytes := putInt grown (4096+64*d+12) (64*count+64 : ℕ)} := by
    intro grown
    rw [bind_of_ok (writeSize_ok hd _ _),readSize_ok hd,sizeAt,intAt_putInt,
      wrap32_of_range (by omega) (by omega)]
  rcases Nat.eq_zero_or_pos count with rfl|hpos
  · obtain ⟨free,hfree,hfree',hclear⟩ := h.room rfl
    rcases allocPage_spec disk with ⟨page,hlow,hhigh,hbit,-,halloc⟩|⟨hall,-⟩
    · have hne : page≠1 := by
        rintro rfl
        exact absurd (h.marked.symm.trans hbit) (by decide)
      have hzero : bytesToPages ((64*0 : ℕ) : ℤ)=0 := by decide
      have hrounds : (bytesToPages ((64*0+64 : ℕ) : ℤ)-0).toNat=1 := by decide
      have hwrite : writeInt (nodeOffset d+16+4*0) (page : ℤ)
          {disk with bytes := putBit disk.bytes 0 page true}=.ok () {disk with
            bytes := putInt (putBit disk.bytes 0 page true) (4096+64*d+16) page} := by
        rw [mul_zero,add_zero]
        exact writeField_ok 16 hd (by omega) (page : ℤ) _
      have hloop : growLoop (nodeOffset d) 1 0 disk=.ok () {disk with
          bytes := putInt (putBit disk.bytes 0 page true) (4096+64*d+16) page} := by
        rw [growLoop,growBlock,if_pos (by decide),bind_assoc,bind_of_ok halloc,bind_of_ok hwrite]
        rfl
      refine ⟨putInt (putBit disk.bytes 0 page true) (4096+64*d+16) page,page,
        ⟨?_,by omega,fun hpos => absurd hpos (Nat.lt_irrefl 0),fun address hl hout => ?_,
          fun marked hlt hm => ?_⟩,?_⟩
      · rw [ptrAt,Nat.mul_zero,Nat.add_zero,intAt_putInt,wrap32_of_range (by omega) (by omega)]
      · rw [putInt_outside _ _ (by omega),putBit_outside _ _ (by omega)]
      · rw [pageBit_putInt _ _ (by omega) hlt,pageBit_putBit]
        split
        · rfl
        · exact hm
      · rw [growInode,bind_of_ok (readSize_ok hd disk),h.size,hzero,hrounds,bind_of_ok hloop]
        exact hlast _
    · rw [hall free hfree hfree'] at hclear
      cases hclear
  · have hrounds : (bytesToPages ((64*count+64 : ℕ) : ℤ)-
        bytesToPages ((64*count : ℕ) : ℤ)).toNat=0 := by
      rw [bytesToPages_natCast,bytesToPages_natCast]
      omega
    have hfirst := h.page hpos
    have hrange := (h.direct 0 (by omega)).2
    refine ⟨disk.bytes,(ptrAt disk.bytes d 0).toNat,
      ⟨by omega,by omega,fun _ => by omega,fun _ _ _ => rfl,fun _ _ hm => hm⟩,?_⟩
    have hloop : growLoop (nodeOffset d) 0 (bytesToPages ((64*count : ℕ) : ℤ)) disk=.ok () disk := rfl
    rw [growInode,bind_of_ok (readSize_ok hd disk),h.size,hrounds,bind_of_ok hloop]
    exact hlast disk.bytes

/-- `directory_put` into a directory with room in its page. -/
theorem OnePage.put_eq (h : OnePage disk.bytes d count) (hroom : count<64) (hj : j<64)
    (hname : name.length≤47) :
    ∃ grown p, Paged disk.bytes grown d count p ∧ directoryPut (nodeOffset d) name j disk=
      .ok 0 {disk with bytes := inserted grown d j p (64*count) name} := by
  obtain ⟨grown,p,hpaged,hgrow⟩ := h.grow_eq hroom
  have hd := h.index
  obtain ⟨hlow,hhigh⟩ := hpaged.range
  have hsize : wrap32 (sizeAt disk.bytes d+64)=((64*count+64 : ℕ) : ℤ) := by
    rw [h.size,wrap32_of_range (by omega) (by omega)]
    push_cast
    rfl
  have hpointer : ptrAt (putInt grown (4096+64*d+12) ((64*count+64 : ℕ) : ℤ)) d 0=p :=
    (intAt_putInt_apart _ _ (by omega)).trans hpaged.pointer
  have hlength : sizeAt (putInt grown (4096+64*d+12) ((64*count+64 : ℕ) : ℤ)) d=
      ((64*count+64 : ℕ) : ℤ) := by
    rw [sizeAt,intAt_putInt,wrap32_of_range (by omega) (by omega)]
  have hcounted := @directoryPut_counted
    {disk with bytes := putInt grown (4096+64*d+12) ((64*count+64 : ℕ) : ℤ)} d j p (64*count) hd hj
    hpointer hhigh hlength name
  refine ⟨grown,p,hpaged,?_⟩
  rw [directoryPut,bind_of_ok (readSize_ok hd disk),hsize,bind_of_ok hgrow,hcounted,
    storeEntry_ok (by omega) (by omega),inserted]

/-- An insertion writes the size, one reference count and one entry. -/
theorem inserted_outside (hname : name.length≤47) {s address : ℕ}
    (hs : address<4096+64*d+12 ∨ 4096+64*d+16≤address)
    (hr : address<4096+64*j+4 ∨ 4096+64*j+8≤address)
    (he : address<4096*p+s ∨ 4096*p+s+64≤address) :
    inserted grown d j p s name address=grown address := by
  rw [inserted,putEntry_outside _ (by omega) _ he,putInt_outside _ _ hr,putInt_outside _ _ hs]

/-- The directory after an insertion: its size and its first pointer. -/
theorem Paged.fields (h : Paged disk.bytes grown d count p) (hd : d<64) (hroom : count<64)
     (hname : name.length≤47) :
    sizeAt (inserted grown d j p (64*count) name) d=((64*(count+1) : ℕ) : ℤ) ∧
      ptrAt (inserted grown d j p (64*count) name) d 0=p := by
  obtain ⟨hlow,hhigh⟩ := h.range
  constructor
  · have hkeep : sizeAt (inserted grown d j p (64*count) name) d=
        sizeAt (putInt (putInt grown (4096+64*d+12) (64*count+64 : ℕ)) (4096+64*j+4)
          (refsAt (putInt grown (4096+64*d+12) (64*count+64 : ℕ)) j+1)) d :=
      intAt_congr (fun address hl hr => putEntry_outside _ (by omega) _ (by omega))
    rw [hkeep,sizeAt,intAt_putInt_apart _ _ (by omega),intAt_putInt,
      wrap32_of_range (by omega) (by omega),Nat.mul_add]
  · rw [←h.pointer]
    exact intAt_congr (fun address hl hr =>
      inserted_outside hname (by omega) (by omega) (by omega))

/-- The directory lists one entry more. -/
theorem OnePage.listing_put (h : OnePage disk.bytes d count)
    (hpaged : Paged disk.bytes grown d count p) (hroom : count<64) (hj : j<64)
    (hname : name.length≤47) (hplain : ∀ byte∈name, byte≠0) :
    entriesAt (inserted grown d j p (64*count) name) d=entriesAt disk.bytes d++[⟨name,j⟩] := by
  obtain ⟨hsize,hpointer⟩ := hpaged.fields h.index hroom hname
  obtain ⟨hlow,hhigh⟩ := hpaged.range
  have hd := h.index
  refine entriesAt_append h.size hsize (fun ii hii k hk => ?_) ?_
  · rw [entryStart,entryStart,hpointer,hpaged.first (by omega),Int.toNat_natCast,
      inserted_outside hname (by omega) (by omega) (by omega)]
    exact hpaged.frame _ (by omega) (by omega)
  · rw [entryStart,hpointer,Int.toNat_natCast]
    exact entryAt_putEntry _ _ (by omega) hplain (by omega)

/-- An insertion of an absent name inserts it into the map. -/
theorem OnePage.put_map (h : OnePage disk.bytes d count)
    (hpaged : Paged disk.bytes grown d count p) (hroom : count<64) (hj : j<64)
    (hname : name.length≤47) (hplain : ∀ byte∈name, byte≠0)
    (habsent : name∉namesAt disk.bytes d) :
    Listable (inserted grown d j p (64*count) name) d ∧
      ((entriesAt (inserted grown d j p (64*count) name) d).map Entry.name).Nodup ∧
      namesAt (inserted grown d j p (64*count) name) d=
        (namesAt disk.bytes d).insert name j := by
  have hlisting := h.listing_put hpaged hroom hj hname hplain
  obtain ⟨hsize,hpointer⟩ := hpaged.fields h.index hroom hname
  obtain ⟨hlow,hhigh⟩ := hpaged.range
  rw [namesAt,mem_mapOf] at habsent
  refine ⟨⟨h.index,⟨count+1,by omega,hsize⟩,fun _ => by omega,fun entry he => ?_⟩,?_,?_⟩
  · rw [hlisting] at he
    rcases List.mem_append.mp he with he|he
    · exact Nat.lt_succ_of_le (h.short entry he)
    · rw [List.mem_singleton.mp he]
      exact Nat.lt_succ_of_le hname
  · rw [hlisting,List.map_append,List.map_singleton]
    refine List.nodup_append.mpr ⟨h.distinct,List.nodup_singleton _,fun one hone other hother => ?_⟩
    rw [List.mem_singleton.mp hother]
    rintro rfl
    exact habsent hone
  · rw [namesAt,hlisting]
    exact mapOf_concat habsent

/-- After `directory_put` of an absent name the directory represents the map with it. -/
theorem OnePage.put_represents (h : OnePage disk.bytes d count) (hroom : count<64) (hj : j<64)
    (hname : name.length≤47) (hplain : ∀ byte∈name, byte≠0)
    (habsent : name∉namesAt disk.bytes d) :
    ∃ next, directoryPut (nodeOffset d) name j disk=.ok 0 next ∧
      Represents next d ((namesAt disk.bytes d).insert name j) := by
  obtain ⟨grown,p,hpaged,hput⟩ := h.put_eq hroom hj hname
  obtain ⟨hlist,hdistinct,hmap⟩ := h.put_map hpaged hroom hj hname hplain habsent
  refine ⟨_,hput,?_⟩
  rw [←hmap]
  exact represents_of_listable hlist hdistinct

end Putting

/-! ## Deletion -/

section Deleting

variable {disk : Disk} {d count : ℕ} {name : List UInt8}

/-- A one-page directory can lose an entry. -/
theorem Filed.shrinkable (h : Filed disk.bytes d count) (m : ℕ) :
    Shrinkable disk.bytes d 1 m where
  last := by
    intro _
    have hptr : pnumAt disk.bytes d 1=ptrAt disk.bytes d 1 := by
      rw [pnumAt,if_pos (by decide)]
    obtain ⟨hlow,hhigh⟩ := h.direct 1 (by decide)
    rw [hptr]
    exact ⟨hlow,hhigh,.inl (by decide)⟩
  inner := by
    intro k hm hk
    omega
  indirect := fun _ => h.indirect

/-- A name of the map is found in an entry with the number of an inode that knows it. -/
theorem Filed.find_present (h : Filed disk.bytes d count) (hpresent : name∈namesAt disk.bytes d) :
    ∃ j : ℕ, j<64 ∧ inumAt disk.bytes j=j ∧
      findName (entriesAt disk.bytes d) name=some ⟨name,j⟩ := by
  rw [namesAt,mem_mapOf] at hpresent
  obtain ⟨entry,hmem,hname⟩ := List.mem_map.mp hpresent
  cases hf : findName (entriesAt disk.bytes d) name with
  | none =>
    have hother := List.find?_eq_none.mp hf entry hmem
    exact absurd hname (by simpa using hother)
  | some found =>
    obtain ⟨_,hat,hsame⟩ := nameIndex_of_find hf
    obtain ⟨j,hnumber,hj,hknown⟩ := h.known found (List.mem_of_getElem? hat)
    refine ⟨j,hj,hknown,congrArg some ?_⟩
    cases found
    simp only at hsame hnumber
    rw [hsame,hnumber]

/-- `directory_delete` of a name of the map. -/
theorem Filed.delete_eq (h : Filed disk.bytes d count) (hplain : ∀ byte∈name, byte≠0)
    (hpresent : name∈namesAt disk.bytes d) :
    ∃ j ii : ℕ, j<64 ∧ inumAt disk.bytes j=j ∧ ii<count ∧
      (entriesAt disk.bytes d)[ii]?=some ⟨name,j⟩ ∧ directoryDelete (nodeOffset d) name disk=
        .ok 0 {disk with bytes := removed disk.bytes d j (64*count) ii} := by
  obtain ⟨j,hj,hknown,hf⟩ := h.find_present hpresent
  obtain ⟨hlt,hat,-⟩ := nameIndex_of_find hf
  rw [length_entriesAt h.size] at hlt
  exact ⟨j,_,hj,hknown,hlt,hat,
    directoryDelete_found h.listable h.size hplain hf hj (by omega) (h.shrinkable _)⟩

/-- A deletion of a name erases it from the map. -/
theorem Filed.delete_map (h : Filed disk.bytes d count) {j ii : ℕ} (hj : j<64)
    (hknown : inumAt disk.bytes j=j) (hlt : ii<count)
    (hat : (entriesAt disk.bytes d)[ii]?=some ⟨name,j⟩) :
    Listable (removed disk.bytes d j (64*count) ii) d ∧
      ((entriesAt (removed disk.bytes d j (64*count) ii) d).map Entry.name).Nodup ∧
      namesAt (removed disk.bytes d j (64*count) ii) d=(namesAt disk.bytes d).erase name := by
  have hd := h.index
  have hfull := h.full
  have hlow := h.page (by omega)
  have hq : inumAt disk.bytes j<64 := by omega
  have hlisting := removed_listing hd hj h.size hlow hfull hlt hq (h.shrinkable _)
  have hpointer := removed_pointer hd hlow hfull hlt hq (h.shrinkable _)
  have hsize := removed_size disk.bytes d j ii (show 64*count≤4096 by omega)
  obtain ⟨hlength,helement⟩ := List.getElem?_eq_some_iff.mp hat
  obtain ⟨hdistinct,herase⟩ := @mapOf_swapRemove _ _ _ _ _ Entry.inum _ h.distinct _ hlength
  refine ⟨⟨hd,⟨count-1,by omega,?_⟩,fun _ => ?_,fun entry he => ?_⟩,?_,?_⟩
  · rw [hsize,Nat.mul_sub,Nat.mul_one]
  · rw [hpointer]
    exact ⟨hlow,(h.direct 0 (by decide)).2⟩
  · rw [hlisting] at he
    have hmem := (swapRemove_perm hlength).mem_iff.mpr (List.mem_cons_of_mem _ he)
    exact Nat.lt_succ_of_le (h.short entry hmem)
  · rw [hlisting]
    exact hdistinct
  · rw [namesAt,hlisting,herase,helement]
    rfl

/-- After `directory_delete` of a name the directory represents the map without it. -/
theorem Filed.delete_represents (h : Filed disk.bytes d count) (hplain : ∀ byte∈name, byte≠0)
    (hpresent : name∈namesAt disk.bytes d) :
    ∃ next, directoryDelete (nodeOffset d) name disk=.ok 0 next ∧
      Represents next d ((namesAt disk.bytes d).erase name) := by
  obtain ⟨j,ii,hj,hknown,hlt,hat,hdelete⟩ := h.delete_eq hplain hpresent
  obtain ⟨hlist,hdistinct,hmap⟩ := h.delete_map hj hknown hlt hat
  refine ⟨_,hdelete,?_⟩
  rw [←hmap]
  exact represents_of_listable hlist hdistinct

/-- A deletion of an absent name changes nothing. -/
theorem Filed.delete_absent (h : Filed disk.bytes d count) (hplain : ∀ byte∈name, byte≠0)
    (habsent : name∉namesAt disk.bytes d) :
    directoryDelete (nodeOffset d) name disk=.ok noEntry disk := by
  rw [namesAt,mem_mapOf] at habsent
  have hnone : (List.range count).find? (fun ii =>
      (entryAt disk.bytes (entryStart disk.bytes d ii)).name=name)=none := by
    refine List.find?_eq_none.mpr (fun ii hii hsame => habsent ?_)
    have hmem : entryAt disk.bytes (entryStart disk.bytes d ii)∈entriesAt disk.bytes d := by
      rw [entriesAt,h.size,Int.toNat_natCast,Nat.mul_div_cancel_left count (by omega)]
      exact List.mem_map.mpr ⟨ii,hii,rfl⟩
    exact List.mem_map.mpr ⟨_,hmem,of_decide_eq_true hsame⟩
  have hsearch := searchDirectory_eq h.listable h.size hplain
  rw [hnone] at hsearch
  rw [directoryDelete,bind_of_ok (directoryGetEntries_ok h.index disk),
    bind_of_ok (readSize_ok h.index disk),bind_of_ok hsearch]
  rfl

end Deleting

/-- A one-page directory is a finite map: `directory_put` of an absent name inserts it,
`directory_delete` erases a name or returns `-ENOENT`, and `directory_list` gives every
name once. -/
theorem directory_is_map {disk : Disk} {d count : ℕ} (h : OnePage disk.bytes d count) :
    Represents disk d (namesAt disk.bytes d) ∧
    (∀ (name : List UInt8) (inum : ℕ), (∀ byte∈name, byte≠0) → name.length≤47 → inum<64 →
      count<64 → name∉namesAt disk.bytes d →
      ∃ next, directoryPut (nodeOffset d) name inum disk=.ok 0 next ∧
        Represents next d ((namesAt disk.bytes d).insert name inum)) ∧
    (∀ name : List UInt8, (∀ byte∈name, byte≠0) → name∈namesAt disk.bytes d →
      ∃ next, directoryDelete (nodeOffset d) name disk=.ok 0 next ∧
        Represents next d ((namesAt disk.bytes d).erase name)) ∧
    (∀ name : List UInt8, (∀ byte∈name, byte≠0) → name∉namesAt disk.bytes d →
      directoryDelete (nodeOffset d) name disk=.ok noEntry disk) ∧
    ∀ path : List UInt8, treeLookup path disk=.ok d disk →
      ∃ names, directoryList path disk=.ok names disk ∧ names.Nodup ∧
        ∀ name, name∈names ↔ name∈namesAt disk.bytes d := by
  refine ⟨represents_of_listable h.listable h.distinct,?_,?_,?_,fun path hpath => ?_⟩
  · intro name inum hplain hname hinum hroom habsent
    exact h.put_represents hroom hinum hname hplain habsent
  · intro name hplain hpresent
    exact h.delete_represents hplain hpresent
  · intro name hplain habsent
    exact h.delete_absent hplain habsent
  · refine ⟨_,h.list_eq hpath,List.nodup_reverse.mpr h.distinct,fun name => ?_⟩
    rw [List.mem_reverse,namesAt,mem_mapOf]

/-- A root with the entry `a` for inode 1. -/
def sample : Disk where
  bytes address :=
    if address=0 then 6 else if address=4108 then 64 else if address=4112 then 2
    else if address=4160 then 1 else if address=8192 then 97 else if address=8240 then 1
    else if address=4224 then 2 else 0
  denied := 0

/-- The root of the sample is such a directory. -/
theorem onePage_sample : OnePage sample.bytes 0 1 := by
  have hentries : entriesAt sample.bytes 0=[⟨[97],1⟩] := by decide +kernel
  refine ⟨⟨by decide,by decide,by decide +kernel,?_,?_,?_,by decide +kernel,by decide +kernel,
    by decide +kernel,fun _ => by decide +kernel⟩,fun hzero => absurd hzero (by decide)⟩
  · rw [hentries]
    exact List.nodup_singleton _
  · rw [hentries]
    exact List.forall_mem_singleton.mpr (by decide)
  · rw [hentries]
    intro entry hmem
    rw [List.mem_singleton.mp hmem]
    exact ⟨1,rfl,by decide,by decide +kernel⟩

/-- The name `b` is put there for inode 2, `a` is deleted, and `/` lists `a`. -/
theorem sample_is_map : Represents sample 0 (namesAt sample.bytes 0) ∧
    (∃ next, directoryPut (nodeOffset 0) [98] (2 : ℕ) sample=.ok 0 next ∧
      Represents next 0 ((namesAt sample.bytes 0).insert [98] (2 : ℕ))) ∧
    (∃ next, directoryDelete (nodeOffset 0) [97] sample=.ok 0 next ∧
      Represents next 0 ((namesAt sample.bytes 0).erase [97])) ∧
    directoryDelete (nodeOffset 0) [98] sample=.ok noEntry sample ∧
    ∃ names, directoryList [47] sample=.ok names sample ∧ names.Nodup ∧
      ∀ name, name∈names ↔ name∈namesAt sample.bytes 0 := by
  have hentries : entriesAt sample.bytes 0=[⟨[97],1⟩] := by decide +kernel
  have hpresent : [97]∈namesAt sample.bytes 0 := by
    rw [namesAt,mem_mapOf,hentries]
    decide
  have habsent : [98]∉namesAt sample.bytes 0 := by
    rw [namesAt,mem_mapOf,hentries]
    decide
  have ha : ∀ byte∈([97] : List UInt8), byte≠0 := List.forall_mem_singleton.mpr (by decide)
  have hb : ∀ byte∈([98] : List UInt8), byte≠0 := List.forall_mem_singleton.mpr (by decide)
  obtain ⟨hmap,hput,hdelete,hmissing,hlist⟩ := directory_is_map onePage_sample
  exact ⟨hmap,hput [98] 2 hb (by decide) (by decide) (by decide) habsent,hdelete [97] ha hpresent,
    hmissing [98] hb habsent,hlist [47] (by rfl)⟩

/-! ## Sequences of changes -/

/-- A change of one directory. -/
inductive Change
  /-- `directory_put` of a name with an inode number. -/
  | put (name : List UInt8) (inum : ℕ)
  /-- `directory_delete` of a name. -/
  | delete (name : List UInt8)

/-- The call of a change. -/
def Change.call (d : ℕ) : Change → Nufs ℤ
  | .put name inum => directoryPut (nodeOffset d) name inum
  | .delete name => directoryDelete (nodeOffset d) name

/-- What a change does to the map. -/
def Change.apply (names : Finmap (fun _ : List UInt8 => ℤ)) :
    Change → Finmap (fun _ : List UInt8 => ℤ)
  | .put name inum => names.insert name inum
  | .delete name => names.erase name

/-- What a change returns. -/
def Change.code (names : Finmap (fun _ : List UInt8 => ℤ)) : Change → ℤ
  | .put _ _ => 0
  | .delete name => if name∈names then 0 else noEntry

/-- The changes that are asked for: only absent names are put, for inodes that know their
numbers, while there is room. -/
def Change.Fits (disk : Disk) (d : ℕ) : Change → Prop
  | .put name inum => (∀ byte∈name, byte≠0) ∧ name.length≤47 ∧ inum<64 ∧
      inumAt disk.bytes inum=inum ∧ name∉namesAt disk.bytes d ∧
      (entriesAt disk.bytes d).length<64 ∧
      (entriesAt disk.bytes d=[] → ∃ page, 1≤page ∧ page<256 ∧ pageBit disk.bytes page=false)
  | .delete name => ∀ byte∈name, byte≠0

/-- Changes one after another, with what each returns. -/
def runChanges (d : ℕ) : List Change → Nufs (List ℤ)
  | [] => return []
  | change::rest => do
    let code ← change.call d
    let codes ← runChanges d rest
    return code::codes

/-- Every change fits the image it meets. -/
def AllFit (d : ℕ) : List Change → Disk → Prop
  | [],_ => True
  | change::rest,disk =>
    change.Fits disk d ∧ ∀ code next, change.call d disk=.ok code next → AllFit d rest next

/-- What the changes return on the map. -/
def codesOf (names : Finmap (fun _ : List UInt8 => ℤ)) : List Change → List ℤ
  | [] => []
  | change::rest => change.code names::codesOf (change.apply names) rest

/-- A one-page directory whose unused pointers are not the page of the inodes. -/
structure Steady (memory : Bytes) (d count : ℕ) : Prop extends Filed memory d count where
  /-- The page of the second block, which `shrink_inode` may free. -/
  second : ptrAt memory d 1≠1
  /-- The indirect page, which `shrink_inode` frees. -/
  spare : iptrAt memory d≠1

section Steady

variable {disk : Disk} {grown : Bytes} {d j p count : ℕ} {name : List UInt8}

/-- An insertion keeps the other fields of the records. -/
theorem Paged.field_eq (h : Paged disk.bytes grown d count p) (hname : name.length≤47) {start : ℕ}
    (hlow : 4096 ≤ start) (hhigh : start+4≤8192)
    (hd : start+4≤4096+64*d+12 ∨ 4096+64*d+20 ≤ start)
    (hj : start+4≤4096+64*j+4 ∨ 4096+64*j+8 ≤ start) :
    intAt (inserted grown d j p (64*count) name) start=intAt disk.bytes start := by
  have hpage := h.range.1
  refine intAt_congr (fun address hl hr => ?_)
  rw [inserted_outside hname (by omega) (by omega) (by omega)]
  exact h.frame address (by omega) (by omega)

/-- A removal keeps the other fields of the records. -/
theorem Filed.field_eq (h : Filed disk.bytes d count) {ii : ℕ} (hknown : inumAt disk.bytes j=j)
    (hj64 : j<64) (hlt : ii<count) {start : ℕ} (hlow : 4096 ≤ start) (hhigh : start+4≤8192)
    (hd : start+4≤4096+64*d+12 ∨ 4096+64*d+16 ≤ start)
    (hj : start+4≤4096+64*j+4 ∨ 4096+64*j+8 ≤ start) :
    intAt (removed disk.bytes d j (64*count) ii) start=intAt disk.bytes start := by
  have hfull := h.full
  have hpage := h.page (by omega)
  have hindex := h.index
  have hq : inumAt disk.bytes j<64 := by omega
  exact intAt_congr (fun address hl hr => removed_outside hq (by omega) (h.shrinkable _) hindex hpage
    (by omega) (by omega) (by omega) (by omega))

/-- A steady directory never frees the page of the inodes. -/
theorem Steady.unfreed (h : Steady disk.bytes d count) (m : ℕ) : 1∉freedPages disk.bytes d 1 m := by
  have hone := h.second
  have hsecond := (h.direct 1 (by decide)).1
  have hspare := h.spare
  have hindirect := h.indirect.1
  intro hmem
  rcases List.mem_append.mp hmem with hmem|hmem
  · obtain ⟨round,hround,heq⟩ := List.mem_map.mp hmem
    have hzero : round=0 := by
      have := List.mem_range.mp hround
      omega
    rw [hzero,Nat.sub_zero,pnumAt,if_pos (by decide)] at heq
    omega
  · split at hmem
    · have heq := List.mem_singleton.mp hmem
      omega
    · cases hmem

/-- An insertion keeps the directory steady. -/
theorem Steady.put (h : Steady disk.bytes d count) (hone : OnePage disk.bytes d count)
    (hpaged : Paged disk.bytes grown d count p) (hroom : count<64) (hj : j<64)
    (hknown : inumAt disk.bytes j=j) (hname : name.length≤47) (hplain : ∀ byte∈name, byte≠0)
    (habsent : name∉namesAt disk.bytes d) :
    Steady (inserted grown d j p (64*count) name) d (count+1) := by
  obtain ⟨hlist,hdistinct,-⟩ := hone.put_map hpaged hroom hj hname hplain habsent
  obtain ⟨hsize,hpointer⟩ := hpaged.fields h.index hroom hname
  obtain ⟨hlow,hhigh⟩ := hpaged.range
  have hd := h.index
  have hnumber : ∀ l<64, inumAt (inserted grown d j p (64*count) name) l=inumAt disk.bytes l :=
    fun l hl => hpaged.field_eq hname (by omega) (by omega) (by omega) (by omega)
  have hsecond : ptrAt (inserted grown d j p (64*count) name) d 1=ptrAt disk.bytes d 1 :=
    hpaged.field_eq hname (by omega) (by omega) (by omega) (by omega)
  have hspare : iptrAt (inserted grown d j p (64*count) name) d=iptrAt disk.bytes d :=
    hpaged.field_eq hname (by omega) (by omega) (by omega) (by omega)
  refine ⟨⟨hd,by omega,hsize,hdistinct,fun entry he => Nat.le_of_lt_succ (hlist.names entry he),
    fun entry he => ?_,fun k hk => ?_,?_,?_,fun _ => by omega⟩,?_,?_⟩
  · rw [hone.listing_put hpaged hroom hj hname hplain] at he
    rcases List.mem_append.mp he with he|he
    · obtain ⟨l,hl,hlt,hself⟩ := h.known entry he
      exact ⟨l,hl,hlt,(hnumber l hlt).trans hself⟩
    · rw [List.mem_singleton.mp he]
      exact ⟨j,rfl,hj,(hnumber j hj).trans hknown⟩
  · obtain rfl|rfl : k=0 ∨ k=1 := by omega
    · rw [hpointer]
      omega
    · rw [hsecond]
      exact h.direct 1 hk
  · rw [hspare]
    exact h.indirect
  · have hmark := hpaged.marks 1 (by omega) h.marked
    rw [←hmark]
    refine pageBit_congr (fun address ha => ?_) (by omega)
    exact inserted_outside hname (by omega) (by omega) (by omega)
  · rw [hsecond]
    exact h.second
  · rw [hspare]
    exact h.spare

/-- A removal keeps the directory steady. -/
theorem Steady.delete (h : Steady disk.bytes d count) {ii : ℕ} (hj : j<64)
    (hknown : inumAt disk.bytes j=j) (hlt : ii<count)
    (hat : (entriesAt disk.bytes d)[ii]?=some ⟨name,j⟩) :
    Steady (removed disk.bytes d j (64*count) ii) d (count-1) := by
  obtain ⟨hlist,hdistinct,-⟩ := h.delete_map hj hknown hlt hat
  have hd := h.index
  have hfull := h.full
  have hlow := h.page (by omega)
  have hq : inumAt disk.bytes j<64 := by omega
  have hsize := removed_size disk.bytes d j ii (show 64*count≤4096 by omega)
  have hpointer := removed_pointer hd hlow hfull hlt hq (h.shrinkable _)
  have hnumber : ∀ l<64, inumAt (removed disk.bytes d j (64*count) ii) l=inumAt disk.bytes l :=
    fun l hl => h.field_eq hknown hj hlt (by omega) (by omega) (by omega) (by omega)
  have hsecond : ptrAt (removed disk.bytes d j (64*count) ii) d 1=ptrAt disk.bytes d 1 :=
    h.field_eq hknown hj hlt (by omega) (by omega) (by omega) (by omega)
  have hspare : iptrAt (removed disk.bytes d j (64*count) ii) d=iptrAt disk.bytes d :=
    h.field_eq hknown hj hlt (by omega) (by omega) (by omega) (by omega)
  obtain ⟨hlength,-⟩ := List.getElem?_eq_some_iff.mp hat
  refine ⟨⟨hd,by omega,?_,hdistinct,fun entry he => Nat.le_of_lt_succ (hlist.names entry he),
    fun entry he => ?_,fun k hk => ?_,?_,?_,fun _ => ?_⟩,?_,?_⟩
  · rw [hsize,Nat.mul_sub,Nat.mul_one]
  · rw [removed_listing hd hj h.size hlow hfull hlt hq (h.shrinkable _)] at he
    have hmem := (swapRemove_perm hlength).mem_iff.mpr (List.mem_cons_of_mem _ he)
    obtain ⟨l,hl,hlt',hself⟩ := h.known entry hmem
    exact ⟨l,hl,hlt',(hnumber l hlt').trans hself⟩
  · obtain rfl|rfl : k=0 ∨ k=1 := by omega
    · rw [hpointer]
      exact h.direct 0 hk
    · rw [hsecond]
      exact h.direct 1 hk
  · rw [hspare]
    exact h.indirect
  · rw [pageBit_removed hq (by omega) hlow (h.direct 0 (by decide)).2 hd (by omega),h.marked,
      Bool.true_and,Bool.not_eq_true',decide_eq_false_iff_not]
    exact h.unfreed _
  · rw [hpointer]
    exact hlow
  · rw [hsecond]
    exact h.second
  · rw [hspare]
    exact h.spare

/-- A steady directory represents its map. -/
theorem Steady.represents (h : Steady disk.bytes d count) :
    Represents disk d (namesAt disk.bytes d) := represents_of_listable h.listable h.distinct

/-- One change does to the directory what it does to the map. -/
theorem Steady.step (h : Steady disk.bytes d count) {change : Change} (hfits : change.Fits disk d) :
    ∃ next later, change.call d disk=.ok (change.code (namesAt disk.bytes d)) next ∧
      Steady next.bytes d later ∧ namesAt next.bytes d=change.apply (namesAt disk.bytes d) := by
  cases change with
  | put name inum =>
    obtain ⟨hplain,hname,hinum,hknown,habsent,hroom,hpage⟩ := hfits
    have hlength := length_entriesAt h.size
    have hone : OnePage disk.bytes d count := by
      refine ⟨h.toFiled,fun hzero => hpage (List.eq_nil_of_length_eq_zero ?_)⟩
      rw [hlength,hzero]
    rw [hlength] at hroom
    obtain ⟨grown,p,hpaged,hput⟩ := hone.put_eq hroom hinum hname
    have hmap := (hone.put_map hpaged hroom hinum hname hplain habsent).2.2
    exact ⟨_,count+1,hput,h.put hone hpaged hroom hinum hknown hname hplain habsent,hmap⟩
  | delete name =>
    by_cases hpresent : name∈namesAt disk.bytes d
    · obtain ⟨j,ii,hj,hknown,hlt,hat,hdelete⟩ := h.delete_eq hfits hpresent
      have hcode : (Change.delete name).code (namesAt disk.bytes d)=0 := if_pos hpresent
      rw [hcode]
      exact ⟨_,count-1,hdelete,h.delete hj hknown hlt hat,(h.delete_map hj hknown hlt hat).2.2⟩
    · have hcode : (Change.delete name).code (namesAt disk.bytes d)=noEntry := if_neg hpresent
      rw [hcode]
      refine ⟨disk,count,h.delete_absent hfits hpresent,h,Finmap.ext_lookup (fun other => ?_)⟩
      by_cases hsame : other=name
      · rw [hsame,Change.apply,Finmap.lookup_erase,Finmap.lookup_eq_none]
        exact hpresent
      · rw [Change.apply,Finmap.lookup_erase_ne hsame]

/-- Any sequence of changes that fit does to the directory what it does to the map. -/
theorem Steady.run (h : Steady disk.bytes d count) {changes : List Change}
    (hfit : AllFit d changes disk) :
    ∃ next later, runChanges d changes disk=.ok (codesOf (namesAt disk.bytes d) changes) next ∧
      Steady next.bytes d later ∧
      Represents next d (changes.foldl Change.apply (namesAt disk.bytes d)) := by
  induction changes generalizing disk count with
  | nil => exact ⟨disk,count,rfl,h,h.represents⟩
  | cons change rest ih =>
    obtain ⟨hfirst,hrest⟩ := hfit
    obtain ⟨mid,further,hcall,hsteady,hmap⟩ := h.step hfirst
    obtain ⟨next,later,hrun,hnext,hrep⟩ := ih hsteady (hrest _ _ hcall)
    rw [hmap] at hrun hrep
    refine ⟨next,later,?_,hnext,hrep⟩
    rw [runChanges,bind_of_ok hcall,bind_of_ok hrun]
    rfl

end Steady

end ComputerSystems.NufsMap
