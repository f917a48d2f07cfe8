import ComputerSystems.NufsEntry
import ComputerSystems.PackedList

/-!
# The entries of a directory as a list

A directory of at most one block is read as the list of its entries, each a
name and an inode number. On such directories `directory_lookup` is the search
for the first entry with the name, and `tree_lookup` of a normalized path is
that of its parent followed by one such search.
-/

namespace ComputerSystems.NufsListing

open StateProgram ByteMemory PackedList NufsImage NufsInode NufsPath NufsDirectory NufsCalls
  NufsOwnership NufsResize NufsEntry

/-- One entry of a directory. -/
structure Entry where
  /-- The name before its NUL. -/
  name : List UInt8
  /-- The inode number. -/
  inum : ℤ
  deriving DecidableEq

/-- The entry stored at an offset. -/
def entryAt (memory : Bytes) (start : ℕ) : Entry :=
  ⟨cStringAt memory start 48,intAt memory (start+48)⟩

/-- The entry stored at an offset, with a name of at most a number of bytes. -/
def labelAt (memory : Bytes) (limit start : ℕ) : Entry :=
  ⟨cStringAt memory start limit,intAt memory (start+48)⟩

/-- The offset of an entry of a directory. -/
def entryStart (memory : Bytes) (d ii : ℕ) : ℕ := 4096*(ptrAt memory d 0).toNat+64*ii

/-- The entries of a directory. -/
def entriesAt (memory : Bytes) (d : ℕ) : List Entry :=
  (List.range ((sizeAt memory d).toNat/64)).map (fun ii => entryAt memory (entryStart memory d ii))

/-- The entries of a directory, with names of at most a number of bytes. -/
def labelsAt (memory : Bytes) (d limit : ℕ) : List Entry :=
  (List.range ((sizeAt memory d).toNat/64)).map
    (fun ii => labelAt memory limit (entryStart memory d ii))

/-- The entry found by a search for a name. -/
def findName (entries : List Entry) (name : List UInt8) : Option Entry :=
  entries.find? (fun entry => entry.name=name)

/-- The index of that entry. -/
def nameIndex (entries : List Entry) (name : List UInt8) : ℕ :=
  entries.findIdx (fun entry => entry.name=name)

/-- What `directory_lookup` returns for a list of entries. -/
def lookupCode (entries : List Entry) (name : List UInt8) : ℤ :=
  match findName entries name with
  | some entry => entry.inum
  | none => noEntry

/-- An entry that was found stands at its index. -/
theorem nameIndex_of_find {entries : List Entry} {name : List UInt8} {entry : Entry}
    (h : findName entries name=some entry) : nameIndex entries name<entries.length ∧
      entries[nameIndex entries name]?=some entry ∧ entry.name=name := by
  have hname := List.find?_some h
  rw [findName,List.find?_eq_getElem?_findIdx] at h
  obtain ⟨hlt,_⟩ := List.getElem?_eq_some_iff.mp h
  exact ⟨hlt,h,by simpa using hname⟩

/-- A name that is not there before is found in the last entry, if at all. -/
theorem lookupCode_last {entries : List Entry} {name : List UInt8}
    (h : findName entries name=none) (last : Entry) :
    lookupCode (entries++[last]) name=if last.name=name then last.inum else noEntry := by
  rw [findName] at h
  rw [lookupCode,findName,List.find?_append,h,Option.none_or,List.find?_singleton]
  by_cases he : last.name=name
  · simp only [he,decide_true,if_true]
  · simp only [he,decide_false,Bool.false_eq_true,if_false]

/-- Other names are found as before a further entry. -/
theorem lookupCode_other {last : Entry} {name : List UInt8} (h : last.name≠name)
    (entries : List Entry) : lookupCode (entries++[last]) name=lookupCode entries name := by
  have hlast : [last].find? (fun entry => entry.name=name)=none := by
    rw [List.find?_singleton]
    simp only [h,decide_false,Bool.false_eq_true,if_false]
  rw [lookupCode,findName,List.find?_append,hlast,Option.or_none,lookupCode,findName]

/-- Equal bytes at two places make equal entries. -/
theorem labelAt_shift {memory next : Bytes} {limit start other : ℕ} (hlimit : limit≤64)
    (h : ∀ k<64, next (start+k)=memory (other+k)) :
    labelAt next limit start=labelAt memory limit other := by
  have hname : cStringAt next start limit=cStringAt memory other limit :=
    cStringAt_shift (fun k hk => h k (by omega))
  have hinum : intAt next (start+48)=intAt memory (other+48) := by
    refine intAt_shift (fun k hk => ?_)
    rw [Nat.add_assoc,Nat.add_assoc]
    exact h (48+k) (by omega)
  rw [labelAt,hname,hinum,labelAt]

/-- Equal bytes at two places make equal entries with names in their fields. -/
theorem entryAt_shift {memory next : Bytes} {start other : ℕ}
    (h : ∀ k<64, next (start+k)=memory (other+k)) : entryAt next start=entryAt memory other :=
  labelAt_shift (by omega) h

/-- Names that end in their fields are read alike up to the end of the entry. -/
theorem labelsAt_of_ended {memory : Bytes} {d limit : ℕ} (hlimit : 48≤limit)
    (hl : ∀ entry∈entriesAt memory d, entry.name.length<48) :
    labelsAt memory d limit=entriesAt memory d := by
  refine List.map_congr_left (fun ii hii => ?_)
  have hended := hl _ (List.mem_map.mpr ⟨ii,hii,rfl⟩)
  rw [labelAt,cStringAt_of_ended hended hlimit]
  rfl

/-- The entries of a directory depend on its size, its first block pointer and
the bytes of its first block. -/
theorem entriesAt_congr {memory next : Bytes} {d : ℕ} (hfit : sizeAt memory d≤4096)
    (hs : sizeAt next d=sizeAt memory d)
    (h : 0 < sizeAt memory d → ptrAt next d 0=ptrAt memory d 0 ∧
      ∀ address, address/4096=(ptrAt memory d 0).toNat → next address=memory address) :
    entriesAt next d=entriesAt memory d := by
  rw [entriesAt,hs,entriesAt]
  refine List.map_congr_left (fun ii hii => ?_)
  have hlt := List.mem_range.mp hii
  obtain ⟨hp,hbytes⟩ := h (by omega)
  have hstart : entryStart next d ii=entryStart memory d ii := by rw [entryStart,hp,entryStart]
  rw [hstart]
  refine entryAt_shift (fun k hk => hbytes _ ?_)
  rw [entryStart]
  omega

/-- A directory that has grown by one entry lists it behind the others. -/
theorem labelsAt_append {memory next : Bytes} {d count limit : ℕ} {last : Entry} (hlimit : limit≤64)
    (hs : sizeAt memory d=((64*count : ℕ) : ℤ)) (hs' : sizeAt next d=((64*(count+1) : ℕ) : ℤ))
    (hkeep : ∀ ii<count, ∀ k<64,
      next (entryStart next d ii+k)=memory (entryStart memory d ii+k))
    (hlast : labelAt next limit (entryStart next d count)=last) :
    labelsAt next d limit=labelsAt memory d limit++[last] := by
  rw [labelsAt,hs',Int.toNat_natCast,Nat.mul_div_cancel_left _ (by omega),List.range_succ,
    List.map_append,List.map_singleton,hlast,labelsAt,hs,Int.toNat_natCast,
    Nat.mul_div_cancel_left _ (by omega)]
  refine congrArg (fun front => front++[last]) (List.map_congr_left (fun ii hii => ?_))
  exact labelAt_shift hlimit (hkeep ii (List.mem_range.mp hii))

/-- The same for names in their fields. -/
theorem entriesAt_append {memory next : Bytes} {d count : ℕ} {last : Entry}
    (hs : sizeAt memory d=((64*count : ℕ) : ℤ)) (hs' : sizeAt next d=((64*(count+1) : ℕ) : ℤ))
    (hkeep : ∀ ii<count, ∀ k<64,
      next (entryStart next d ii+k)=memory (entryStart memory d ii+k))
    (hlast : entryAt next (entryStart next d count)=last) :
    entriesAt next d=entriesAt memory d++[last] :=
  labelsAt_append (show 48≤64 by decide) hs hs' hkeep hlast

/-- An empty directory has no entries. -/
theorem entriesAt_zero {memory : Bytes} {d : ℕ} (h : sizeAt memory d=0) :
    entriesAt memory d=[] := by
  rw [entriesAt,h]
  rfl

/-- An entry just stored is read back. -/
theorem entryAt_putEntry (memory : Bytes) (start : ℕ) {name : List UInt8} {inum : ℤ}
    (hl : name.length<48) (hn : ∀ byte∈name, byte≠0) (hr : -2147483648 ≤ inum ∧ inum<2147483648) :
    entryAt (putEntry memory start name inum) start=⟨name,inum⟩ := by
  have hname : cStringAt (putEntry memory start name inum) start 48=name := by
    refine cStringAt_of_bytes hl hn (fun k hk => ?_)
    rw [putEntry,putInt_outside _ _ (by omega),blit_inside _ _ (by omega) (by omega)]
    congr 1
    omega
  rw [entryAt,hname,putEntry,intAt_putInt,wrap32_of_range hr.1 hr.2]

/-- A directory that can be listed: whole entries in one data page, with names
that end in their fields. -/
structure Listable (memory : Bytes) (d : ℕ) : Prop where
  /-- The directory is a table index. -/
  index : d<64
  /-- The size is that of at most 64 entries. -/
  size : ∃ count≤64, sizeAt memory d=((64*count : ℕ) : ℤ)
  /-- A directory with entries has its first block in a data page. -/
  page : 0 < sizeAt memory d → 2≤ptrAt memory d 0 ∧ ptrAt memory d 0<256
  /-- Names end in their fields. -/
  names : ∀ entry∈entriesAt memory d, entry.name.length<48

/-- The number of entries of a listable directory. -/
theorem length_entriesAt {memory : Bytes} {d count : ℕ}
    (hs : sizeAt memory d=((64*count : ℕ) : ℤ)) : (entriesAt memory d).length=count := by
  rw [entriesAt,List.length_map,List.length_range,hs,Int.toNat_natCast]
  omega

/-- `streq` on a stored name. -/
theorem streqAt_eq {disk : Disk} (limit : ℕ) : ∀ {start : ℕ} {name : List UInt8},
    start+limit≤1048576 → (cStringAt disk.bytes start limit).length<limit →
    (∀ byte∈name, byte≠0) →
    streqAt start name disk=.ok (decide (cStringAt disk.bytes start limit=name)) disk := by
  induction limit with
  | zero =>
    intro start name _ hl _
    exact absurd hl (Nat.not_lt_zero _)
  | succ limit ih =>
    intro start name hb hl hn
    have hread : readByte start disk=.ok (disk.bytes start) disk := by
      rw [readByte,if_pos (by omega),Int.toNat_natCast]
    cases name with
    | nil =>
      rw [streqAt,bind_of_ok hread]
      by_cases hz : disk.bytes start=0
      · rw [cStringAt,if_pos hz,hz]
        rfl
      · rw [cStringAt,if_neg hz,decide_eq_false hz]
        rfl
    | cons byte rest =>
      have hne : byte≠0 := hn byte (by simp)
      rw [streqAt,bind_of_ok hread]
      by_cases hz : disk.bytes start=0
      · have hdiff : disk.bytes start≠byte := fun he => hne (he.symm.trans hz)
        rw [if_neg hdiff]
        simp only [cStringAt,if_pos hz,reduceCtorEq,decide_false]
        rfl
      · simp only [cStringAt,if_neg hz,List.length_cons] at hl ⊢
        by_cases he : disk.bytes start=byte
        · have hplain : ∀ other∈rest, other≠0 := fun other ho => hn other (by simp [ho])
          have hrest := ih (show start+1+limit≤1048576 by omega) (by omega) hplain
          rw [if_pos he]
          simp only [List.cons.injEq,he,true_and]
          rw [←hrest]
          push_cast
          rfl
        · rw [if_neg he]
          simp only [List.cons.injEq,he,false_and,decide_false]
          rfl

/-- The scan for a name compares the C strings that end in their entries. -/
theorem findEntry_strings {disk : Disk} {p limit : ℕ} (hp : p<256) (hlimit : limit≤64)
    {name : List UInt8} (hn : ∀ byte∈name, byte≠0) (left : ℕ) : ∀ {ii : ℕ}, ii+left≤64 →
    (∀ k, ii≤k → k < ii+left → (cStringAt disk.bytes (4096*p+64*k) limit).length<limit) →
    findEntry ((4096*p : ℕ) : ℤ) name left ii disk=.ok (((List.range' ii left).find? (fun k =>
      cStringAt disk.bytes (4096*p+64*k) limit=name)).map (fun k : ℕ => (k : ℤ))) disk := by
  induction left with
  | zero =>
    intro ii _ _
    rfl
  | succ left ih =>
    intro ii hle hl
    have haddr : ((4096*p : ℕ) : ℤ)+64*(ii : ℤ)=((4096*p+64*ii : ℕ) : ℤ) := by
      push_cast
      rfl
    have hsame := streqAt_eq limit (show 4096*p+64*ii+limit≤1048576 by omega)
      (hl ii (Nat.le_refl _) (by omega)) hn
    have hrest := ih (show ii+1+left≤64 by omega) (fun k hk hk' => hl k (by omega) (by omega))
    rw [findEntry,haddr,bind_of_ok hsame,List.range'_succ,List.find?_cons]
    by_cases he : cStringAt disk.bytes (4096*p+64*ii) limit=name
    · simp only [he,decide_true,if_true,Option.map_some]
      rfl
    · simp only [he,decide_false,Bool.false_eq_true,if_false]
      rw [←hrest]
      push_cast
      rfl

section Labels

variable {disk : Disk} {d count limit : ℕ} {name : List UInt8}

/-- The entry array of a directory with its first block in a data page. -/
theorem entries_offset (hp : 2≤ptrAt disk.bytes d 0 ∧ ptrAt disk.bytes d 0<256) :
    pagesGetPage (ptrAt disk.bytes d 0)=((4096*(ptrAt disk.bytes d 0).toNat : ℕ) : ℤ) ∧
      (ptrAt disk.bytes d 0).toNat<256 := by
  rw [pagesGetPage_eq (by omega) (by omega)]
  push_cast
  omega

/-- The search of a directory in one page whose names end in their entries. -/
theorem searchDirectory_labels (hlimit : limit≤64) (hd : d<64) (hle : count≤64)
    (hs : sizeAt disk.bytes d=((64*count : ℕ) : ℤ))
    (hp : 0<count → 2≤ptrAt disk.bytes d 0 ∧ ptrAt disk.bytes d 0<256)
    (hl : ∀ entry∈labelsAt disk.bytes d limit, entry.name.length<limit)
    (hn : ∀ byte∈name, byte≠0) :
    searchDirectory (nodeOffset d) name disk=.ok (((List.range count).find? (fun ii =>
      (labelAt disk.bytes limit (entryStart disk.bytes d ii)).name=name)).map
        (fun ii : ℕ => (ii : ℤ))) disk := by
  rw [labelsAt,hs,Int.toNat_natCast,Nat.mul_div_cancel_left count (by omega)] at hl
  have hec : entryCount ((64*count : ℕ) : ℤ)=(count : ℤ) := by
    rw [entryCount_natCast (by omega),Nat.mul_div_cancel_left count (by omega)]
  rw [searchDirectory,bind_of_ok (directoryGetEntries_ok hd disk),
    bind_of_ok (readSize_ok hd disk),hs,hec,Int.toNat_natCast,List.range_eq_range']
  cases count with
  | zero => rfl
  | succ rest =>
    obtain ⟨hoffset,hpage⟩ := entries_offset (hp (Nat.succ_pos rest))
    rw [hoffset]
    have hscan := findEntry_strings hpage hlimit hn (rest+1) (show 0+(rest+1)≤64 by omega)
      (fun k _ hk => hl _ (List.mem_map.mpr ⟨k,List.mem_range.mpr (by omega),rfl⟩))
    rw [Nat.cast_zero] at hscan
    exact hscan

/-- `directory_lookup` in such a directory. -/
theorem directoryLookup_labels (hlimit : limit≤64) (hd : d<64) (hle : count≤64)
    (hs : sizeAt disk.bytes d=((64*count : ℕ) : ℤ))
    (hp : 0<count → 2≤ptrAt disk.bytes d 0 ∧ ptrAt disk.bytes d 0<256)
    (hl : ∀ entry∈labelsAt disk.bytes d limit, entry.name.length<limit)
    (hn : ∀ byte∈name, byte≠0) :
    directoryLookup (nodeOffset d) name disk=
      .ok (lookupCode (labelsAt disk.bytes d limit) name) disk := by
  rw [directoryLookup,bind_of_ok (directoryGetEntries_ok hd disk),
    bind_of_ok (searchDirectory_labels hlimit hd hle hs hp hl hn),lookupCode,findName,labelsAt,hs,
    Int.toNat_natCast,Nat.mul_div_cancel_left count (by omega),List.find?_map]
  cases hf : (List.range count).find? (fun ii =>
      decide ((labelAt disk.bytes limit (entryStart disk.bytes d ii)).name=name)) with
  | none =>
    have hf' : (List.range count).find? ((fun entry : Entry => decide (entry.name=name)) ∘
        fun ii => labelAt disk.bytes limit (entryStart disk.bytes d ii))=none := hf
    rw [hf']
    rfl
  | some ii =>
    have hf' : (List.range count).find? ((fun entry : Entry => decide (entry.name=name)) ∘
        fun ii => labelAt disk.bytes limit (entryStart disk.bytes d ii))=some ii := hf
    have hii := List.mem_range.mp (List.mem_of_find?_eq_some hf)
    obtain ⟨hoffset,hpage⟩ := entries_offset (hp (by omega))
    have haddr : ((4096*(ptrAt disk.bytes d 0).toNat : ℕ) : ℤ)+64*(ii : ℤ)+48=
        ((entryStart disk.bytes d ii+48 : ℕ) : ℤ) := by
      rw [entryStart]
      push_cast
      rfl
    rw [hf',hoffset]
    simp only [Option.map_some]
    rw [haddr,readInt_ok (by rw [entryStart]; omega)]
    rfl

end Labels

section Listable

variable {disk : Disk} {d count : ℕ} {name : List UInt8}

/-- The search of a listable directory. -/
theorem searchDirectory_eq (h : Listable disk.bytes d)
    (hs : sizeAt disk.bytes d=((64*count : ℕ) : ℤ)) (hn : ∀ byte∈name, byte≠0) :
    searchDirectory (nodeOffset d) name disk=.ok (((List.range count).find? (fun ii =>
      (entryAt disk.bytes (entryStart disk.bytes d ii)).name=name)).map
        (fun ii : ℕ => (ii : ℤ))) disk := by
  have hcount : count≤64 := by
    obtain ⟨other,hle,he⟩ := h.size
    rw [hs] at he
    omega
  exact searchDirectory_labels (by omega) h.index hcount hs (fun hpos => h.page (by omega)) h.names hn

/-- `directory_lookup` on a listable directory. -/
theorem directoryLookup_eq (h : Listable disk.bytes d) (hn : ∀ byte∈name, byte≠0) :
    directoryLookup (nodeOffset d) name disk=
      .ok (lookupCode (entriesAt disk.bytes d) name) disk := by
  obtain ⟨count,hle,hs⟩ := h.size
  exact directoryLookup_labels (by omega) h.index hle hs (fun hpos => h.page (by omega)) h.names hn

/-- A name that is there is found at its first index. -/
theorem searchDirectory_found (h : Listable disk.bytes d) (hn : ∀ byte∈name, byte≠0) {entry : Entry}
    (hf : findName (entriesAt disk.bytes d) name=some entry) :
    searchDirectory (nodeOffset d) name disk=
      .ok (some (nameIndex (entriesAt disk.bytes d) name : ℤ)) disk := by
  obtain ⟨count,hle,hs⟩ := h.size
  have hlt := (nameIndex_of_find hf).1
  rw [length_entriesAt hs] at hlt
  have hidx : nameIndex (entriesAt disk.bytes d) name=(List.range count).findIdx (fun ii =>
      decide ((entryAt disk.bytes (entryStart disk.bytes d ii)).name=name)) := by
    rw [nameIndex,entriesAt,hs,Int.toNat_natCast,Nat.mul_div_cancel_left count (by omega),
      List.findIdx_map]
    rfl
  rw [searchDirectory_eq h hs hn,List.find?_eq_getElem?_findIdx,←hidx,List.getElem?_range hlt]
  rfl

/-- `directory_delete` of a name that is there removes its first entry. -/
theorem directoryDelete_found (h : Listable disk.bytes d)
    (hs : sizeAt disk.bytes d=((64*count : ℕ) : ℤ)) (hn : ∀ byte∈name, byte≠0) {j : ℕ}
    (hf : findName (entriesAt disk.bytes d) name=some ⟨name,j⟩) (hj : j<64)
    (hq : 0 ≤ inumAt disk.bytes j ∧ inumAt disk.bytes j<64)
    (hshrink : Shrinkable disk.bytes d 1 ((64*count-64+4095)/4096)) :
    directoryDelete (nodeOffset d) name disk=.ok 0 {disk with
      bytes := removed disk.bytes d j (64*count) (nameIndex (entriesAt disk.bytes d) name)} := by
  obtain ⟨hlt,hat,-⟩ := nameIndex_of_find hf
  have hsearch := searchDirectory_found h hn hf
  have hle : count≤64 := by
    obtain ⟨other,hle,he⟩ := h.size
    rw [hs] at he
    omega
  rw [length_entriesAt hs] at hlt
  generalize nameIndex (entriesAt disk.bytes d) name=ii at *
  have hpage := h.page (by omega)
  have hentry : intAt disk.bytes (4096*(ptrAt disk.bytes d 0).toNat+64*ii+48)=j := by
    rw [entriesAt,hs,Int.toNat_natCast,Nat.mul_div_cancel_left _ (by omega),List.getElem?_map,
      List.getElem?_range hlt] at hat
    exact congrArg Entry.inum (Option.some.inj hat)
  have hcount : 64*count/64=count := Nat.mul_div_cancel_left _ (by omega)
  have hok := removeEntry_ok h.index (Int.toNat_of_nonneg (by omega)).symm (by omega) (by omega) hs
    (by omega) (by omega) (by omega) hentry hj hq hshrink
  rw [hcount] at hok
  rw [directoryDelete,bind_of_ok (directoryGetEntries_ok h.index disk),
    bind_of_ok (readSize_ok h.index disk),bind_of_ok hsearch,hs,entryCount_natCast (by omega),hcount,
    (entries_offset hpage).1]
  exact hok

end Listable

/-! ## Removal -/

section Removal

variable {memory : Bytes} {d j count ii : ℕ}

/-- The bytes of the first block after a removal: the last entry is in the hole. -/
theorem removed_block (hd : d<64) (hj : j<64) (hp2 : 2≤ptrAt memory d 0) (hfull : count≤64)
    (hbound : ii<count) (hq : inumAt memory j<64)
    (hshrink : Shrinkable memory d 1 ((64*count-64+4095)/4096)) {m k : ℕ} (hm : m<64) (hk : k<64) :
    removed memory d j (64*count) ii (4096*(ptrAt memory d 0).toNat+64*m+k)=
      memory (4096*(ptrAt memory d 0).toNat+64*(if m=ii then count-1 else m)+k) := by
  have hcounted : ∀ address, 8192≤address →
      freeIfUnused (dropRef memory j) j address=memory address := fun address ha =>
    freeIfUnused_outside hq (by omega) (by omega)
  rw [removed,shrunk_outside (Shrinkable.edited hq (by omega) hp2 hd hshrink) _
    (by omega) (by omega),edited]
  split
  · rename_i he
    rw [blit_inside _ _ (by omega) (by omega),hcounted _ (by omega)]
    congr 1
    omega
  · rename_i hne
    rw [blit_outside _ _ (by omega),hcounted _ (by omega)]

/-- The first pointer after a removal. -/
theorem removed_pointer (hd : d<64) (hp2 : 2≤ptrAt memory d 0) (hfull : count≤64)
    (hbound : ii<count) (hq : inumAt memory j<64)
    (hshrink : Shrinkable memory d 1 ((64*count-64+4095)/4096)) :
    ptrAt (removed memory d j (64*count) ii) d 0=ptrAt memory d 0 :=
  intAt_congr (fun address hl hr => removed_outside hq (by omega) hshrink hd hp2 (by omega)
    (by omega) (by omega) (by omega))

/-- The directory lists its entries without the removed one, packed. -/
theorem removed_listing (hd : d<64) (hj : j<64) (hs : sizeAt memory d=((64*count : ℕ) : ℤ))
    (hp2 : 2≤ptrAt memory d 0) (hfull : count≤64) (hbound : ii<count) (hq : inumAt memory j<64)
    (hshrink : Shrinkable memory d 1 ((64*count-64+4095)/4096)) :
    entriesAt (removed memory d j (64*count) ii) d=swapRemove (entriesAt memory d) ii := by
  have hsize := removed_size memory d j ii (show 64*count≤4096 by omega)
  have hcount : (64*count-64)/64=count-1 := by omega
  rw [entriesAt,hsize,Int.toNat_natCast,hcount,entriesAt,hs,Int.toNat_natCast,
    Nat.mul_div_cancel_left _ (by omega),swapRemove_map_range _ hbound]
  refine List.map_congr_left (fun m hm => ?_)
  have hlt := List.mem_range.mp hm
  have hentry : entryAt (removed memory d j (64*count) ii) (4096*(ptrAt memory d 0).toNat+64*m)=
      entryAt memory (4096*(ptrAt memory d 0).toNat+64*(if m=ii then count-1 else m)) :=
    entryAt_shift (fun k hk => removed_block hd hj hp2 hfull hbound hq hshrink (by omega) hk)
  rw [entryStart,removed_pointer hd hp2 hfull hbound hq hshrink,hentry]
  split
  · rfl
  · rfl

end Removal

/-! ## Paths -/

/-- A path and one further name. -/
theorem treeWalk_concat (names : List (List UInt8)) (last : List UInt8) (hne : names≠[]) :
    ∀ (curr : ℤ) (disk : Disk), treeWalk curr (names++[last]) disk=
      (treeWalk curr names >>= fun inum => getInode inum >>= fun node =>
        directoryLookup node last) disk := by
  induction names with
  | nil => exact absurd rfl hne
  | cons name rest ih =>
    intro curr disk
    cases rest with
    | nil =>
      simp only [List.cons_append,List.nil_append,treeWalk,bind_assoc]
    | cons second rest =>
      have hstep := fun inum mid => ih (by simp) inum mid
      simp only [List.cons_append,treeWalk,bind_assoc] at hstep ⊢
      cases hg : getInode curr disk with
      | error fault next => rw [bind_of_error hg,bind_of_error hg]
      | ok node next =>
        rw [bind_of_ok hg,bind_of_ok hg]
        cases hl : directoryLookup node name next with
        | error fault next' => rw [bind_of_error hl,bind_of_error hl]
        | ok inum next' =>
          rw [bind_of_ok hl,bind_of_ok hl]
          exact hstep inum next'

/-- `tree_lookup` of a normalized path is that of its parent and one search. -/
theorem treeLookup_concat (front : List Component) (last : Component) (disk : Disk) :
    treeLookup (render (front++[last])) disk=
      (treeLookup (render front) >>= fun inum => getInode inum >>= fun node =>
        directoryLookup node last.bytes) disk := by
  have hne := render_ne_root (show front++[last]≠[] by simp)
  have hcons : render (front++[last])≠[] := by
    have hh := render_head (front++[last])
    intro he
    rw [he] at hh
    cases hh
  cases front with
  | nil =>
    have hsplit := sSplit_render last []
    rw [List.nil_append] at hne hcons ⊢
    rw [treeLookup,if_neg hne,if_neg hcons,hsplit]
    rfl
  | cons first rest =>
    have hsplit := sSplit_render first (rest++[last])
    have hsplit' := sSplit_render first rest
    have hne' := render_ne_root (show first::rest≠[] by simp)
    have hcons' : render (first::rest)≠[] := by
      have hh := render_head (first::rest)
      intro he
      rw [he] at hh
      cases hh
    rw [List.cons_append] at hne hcons ⊢
    rw [treeLookup,if_neg hne,if_neg hcons,hsplit,List.map_append,List.map_singleton,
      ←List.cons_append,treeWalk_concat _ _ (by simp)]
    have hfront : treeLookup (render (first::rest))=
        treeWalk 0 (first.bytes::rest.map Component.bytes) := by
      rw [treeLookup,if_neg hne',if_neg hcons',hsplit']
    rw [hfront]

end ComputerSystems.NufsListing
