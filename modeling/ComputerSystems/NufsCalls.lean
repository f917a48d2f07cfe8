import ComputerSystems.NufsStorage

/-!
# What a returned call has done

One inversion lemma for each function of the storage layer: a call that
returned either failed at a lookup, in the unchanged image, or went through
its lookups to the branch that works on the image, with every inode number it
used a table index. The later invariants are derived from these lemmas alone.
-/

namespace ComputerSystems.NufsCalls

open StateProgram ByteMemory NufsImage NufsInode NufsPath NufsDirectory NufsStorage

/-- Returning keeps value and state. -/
theorem pure_eq_ok {α : Type} {value result : α} {disk next : Disk} :
    (pure value : Nufs α) disk=.ok result next ↔ result=value ∧ next=disk := by
  constructor
  · intro h
    cases h
    exact ⟨rfl,rfl⟩
  · rintro ⟨rfl,rfl⟩
    rfl

/-- A returned `int` read is a stored `int` inside the mapping. -/
theorem readInt_returned {offset value : ℤ} {disk next : Disk}
    (h : readInt offset disk=.ok value next) :
    0≤offset ∧ offset+4≤1048576 ∧ value=intAt disk.bytes offset.toNat ∧ next=disk := by
  unfold readInt at h
  split at h
  · rename_i hc
    injection h with hv hn
    exact ⟨hc.1,hc.2,hv.symm,hn.symm⟩
  · cases h

/-- A returned byte read is a byte inside the mapping. -/
theorem readByte_returned {offset : ℤ} {value : UInt8} {disk next : Disk}
    (h : readByte offset disk=.ok value next) :
    0≤offset ∧ offset<1048576 ∧ value=disk.bytes offset.toNat ∧ next=disk := by
  unfold readByte at h
  split at h
  · rename_i hc
    injection h with hv hn
    exact ⟨hc.1,hc.2,hv.symm,hn.symm⟩
  · cases h

/-! ## Lookups -/

/-- `directory_lookup` returns an `int`. -/
theorem directoryLookup_range {dd value : ℤ} {name : List UInt8} {disk next : Disk}
    (h : directoryLookup dd name disk=.ok value next) : -2147483648≤value ∧ value<2147483648 := by
  obtain ⟨entries,d1,_,h⟩ := bind_eq_ok.mp h
  obtain ⟨found,d2,_,h⟩ := bind_eq_ok.mp h
  cases found with
  | none =>
    obtain ⟨rfl,_⟩ := pure_eq_ok.mp h
    decide
  | some ii =>
    obtain ⟨_,_,hv,_⟩ := readInt_returned h
    rw [hv]
    exact intAt_range _ _

/-- The walk returns an `int`. -/
theorem treeWalk_range {curr value : ℤ} {names : List (List UInt8)} {disk next : Disk}
    (h : treeWalk curr names disk=.ok value next) : -2147483648≤value ∧ value<2147483648 := by
  induction names generalizing curr disk with
  | nil => cases h
  | cons name rest ih =>
    cases rest with
    | nil =>
      obtain ⟨node,d1,_,h⟩ := bind_eq_ok.mp h
      exact directoryLookup_range h
    | cons second rest =>
      obtain ⟨node,d1,_,h⟩ := bind_eq_ok.mp h
      obtain ⟨inum,d2,_,h⟩ := bind_eq_ok.mp h
      exact ih h

/-- `tree_lookup` returns an `int`. -/
theorem treeLookup_range {path : List UInt8} {value : ℤ} {disk next : Disk}
    (h : treeLookup path disk=.ok value next) : -2147483648≤value ∧ value<2147483648 := by
  unfold treeLookup at h
  split at h
  · obtain ⟨rfl,_⟩ := pure_eq_ok.mp h
    decide
  · split at h
    · cases h
    · exact treeWalk_range h

/-- A lookup that was checked for an error value either failed, in the
unchanged image, or continued from it. -/
theorem guarded_returned {lookup : Nufs ℤ} {rest : ℤ → Nufs ℤ} {result : ℤ} {disk next : Disk}
    (hr : ReadOnly lookup)
    (h : (lookup >>= fun inum => if inum<0 then pure inum else rest inum) disk=.ok result next) :
    (result<0 ∧ next=disk) ∨
      ∃ inum, lookup disk=.ok inum disk ∧ 0 ≤ inum ∧ rest inum disk=.ok result next := by
  obtain ⟨inum,mid,hl,hrest⟩ := bind_eq_ok.mp h
  have hm := hr.eq_of_ok hl
  rw [hm] at hl hrest
  by_cases hneg : inum<0
  · rw [if_pos hneg] at hrest
    obtain ⟨rfl,rfl⟩ := pure_eq_ok.mp hrest
    exact .inl ⟨hneg,rfl⟩
  · rw [if_neg hneg] at hrest
    exact .inr ⟨inum,hl,by omega,hrest⟩

/-- A located record is one of the 64 of the table. -/
theorem located_returned {α : Type} {inum : ℤ} {rest : ℤ → Nufs α} {result : α} {disk next : Disk}
    (hr : -2147483648 ≤ inum ∧ inum<2147483648)
    (h : (getInode inum >>= rest) disk=.ok result next) :
    ∃ i : ℕ, inum=i ∧ i<64 ∧ rest (nodeOffset i) disk=.ok result next := by
  obtain ⟨node,mid,hn,hrest⟩ := bind_eq_ok.mp h
  obtain ⟨i,hinum,hi,hnode,hmid⟩ := getInode_returned hr hn
  rw [hnode,hmid] at hrest
  exact ⟨i,hinum,hi,hrest⟩

/-- Counting references rewrites one field. -/
theorem addRefs_ok {i : ℕ} (hi : i<64) (change : ℤ) (disk : Disk) :
    addRefs (nodeOffset i) change disk=
      .ok () {disk with bytes := putInt disk.bytes (4096+64*i+4) (refsAt disk.bytes i+change)} := by
  rw [addRefs,bind_of_ok (readRefs_ok hi disk),writeRefs_ok hi]

/-! ## The calls -/

/-- A returned `storage_mknod`. -/
theorem mknod_returned {path : List UInt8} {mode result : ℤ} {disk next : Disk}
    (h : storageMknod path mode disk=.ok result next) :
    (result<0 ∧ next=disk) ∨ ∃ d : ℕ, d<64 ∧ treeLookup (dirname path) disk=.ok (d : ℤ) disk ∧
      ∃ found, found≤0 ∧ directoryLookup (nodeOffset d) (basename path) disk=.ok found disk ∧
        createNode (nodeOffset d) (basename path) mode disk=.ok result next := by
  unfold storageMknod at h
  split at h
  · obtain ⟨rfl,rfl⟩ := pure_eq_ok.mp h
    exact .inl ⟨by decide,rfl⟩
  · rcases guarded_returned (treeLookup_readOnly _) h with hf|⟨inum,hl,hpos,h⟩
    · exact .inl hf
    · obtain ⟨d,rfl,hd,h⟩ := located_returned (treeLookup_range hl) h
      obtain ⟨found,mid,hfound,hrest⟩ := bind_eq_ok.mp h
      have hm := (directoryLookup_readOnly _ _).eq_of_ok hfound
      rw [hm] at hfound hrest
      by_cases hp : 0<found
      · rw [if_pos hp] at hrest
        obtain ⟨rfl,rfl⟩ := pure_eq_ok.mp hrest
        exact .inl ⟨by decide,rfl⟩
      · rw [if_neg hp] at hrest
        exact .inr ⟨d,hd,hl,found,by omega,hfound,hrest⟩

/-- A returned `storage_unlink`. -/
theorem unlink_returned {path : List UInt8} {result : ℤ} {disk next : Disk}
    (h : storageUnlink path disk=.ok result next) :
    (result<0 ∧ next=disk) ∨ ∃ d i : ℕ, d<64 ∧ i<64 ∧
      treeLookup (dirname path) disk=.ok (d : ℤ) disk ∧
      treeLookup path disk=.ok (i : ℤ) disk ∧
      (∃ inum, 0 ≤ inum ∧ directoryLookup (nodeOffset d) (basename path) disk=.ok inum disk) ∧
      directoryDelete (nodeOffset d) (basename path)
        {disk with bytes := putInt disk.bytes (4096+64*i+4) (refsAt disk.bytes i-1)}=
          .ok result next := by
  rcases guarded_returned (treeLookup_readOnly _) h with hf|⟨inum,hl,hpos,h⟩
  · exact .inl hf
  · obtain ⟨d,rfl,hd,h⟩ := located_returned (treeLookup_range hl) h
    rcases guarded_returned (directoryLookup_readOnly _ _) h with hf|⟨found,hfound,hpos',h⟩
    · exact .inl hf
    · obtain ⟨pathInum,mid,hp,hrest⟩ := bind_eq_ok.mp h
      have hm := (treeLookup_readOnly _).eq_of_ok hp
      rw [hm] at hp hrest
      obtain ⟨i,rfl,hi,hdrop⟩ := located_returned (treeLookup_range hp) hrest
      rw [bind_of_ok (addRefs_ok hi (-1) disk),bind_of_ok (getInode_ok hd _)] at hdrop
      exact .inr ⟨d,i,hd,hi,hl,hp,⟨found,hpos',hfound⟩,hdrop⟩

/-- A returned `storage_link`. -/
theorem link_returned {source dest : List UInt8} {result : ℤ} {disk next : Disk}
    (h : storageLink source dest disk=.ok result next) :
    (result<0 ∧ next=disk) ∨ ∃ s d f : ℕ, s<64 ∧ d<64 ∧ f<64 ∧
      treeLookup (dirname source) disk=.ok (s : ℤ) disk ∧
      directoryLookup (nodeOffset s) (basename source) disk=.ok (f : ℤ) disk ∧
      treeLookup (dirname dest) disk=.ok (d : ℤ) disk ∧
      (∃ found, found<0 ∧ directoryLookup (nodeOffset d) (basename dest) disk=.ok found disk) ∧
      ∃ mid, directoryPut (nodeOffset d) (basename dest) f disk=.ok result mid ∧
        next={mid with bytes := putInt mid.bytes (4096+64*f+4) (refsAt mid.bytes f+1)} := by
  rcases guarded_returned (treeLookup_readOnly _) h with hf|⟨inum,hl,hpos,h⟩
  · exact .inl hf
  · obtain ⟨s,rfl,hs,h⟩ := located_returned (treeLookup_range hl) h
    rcases guarded_returned (directoryLookup_readOnly _ _) h with hf|⟨fromInum,hfrom,hpos',h⟩
    · exact .inl hf
    · rcases guarded_returned (treeLookup_readOnly _) h with hf|⟨toDir,hto,hpos'',h⟩
      · exact .inl hf
      · obtain ⟨d,rfl,hd,h⟩ := located_returned (treeLookup_range hto) h
        obtain ⟨found,mid,hfound,hrest⟩ := bind_eq_ok.mp h
        have hm := (directoryLookup_readOnly _ _).eq_of_ok hfound
        rw [hm] at hfound hrest
        by_cases hneg : found<0
        · rw [if_pos hneg,addName,bind_of_ok (getInode_ok hd disk)] at hrest
          obtain ⟨rv,put,hput,hadd⟩ := bind_eq_ok.mp hrest
          obtain ⟨f,rfl,hf,hadd⟩ := located_returned (directoryLookup_range hfrom) hadd
          rw [bind_of_ok (addRefs_ok hf 1 put)] at hadd
          obtain ⟨rfl,hnext⟩ := pure_eq_ok.mp hadd
          exact .inr ⟨s,d,f,hs,hd,hf,hl,hfrom,hto,⟨found,hneg,hfound⟩,put,hput,hnext⟩
        · rw [if_neg hneg] at hrest
          obtain ⟨rfl,rfl⟩ := pure_eq_ok.mp hrest
          exact .inl ⟨by decide,rfl⟩

/-- A returned `storage_rename`. -/
theorem rename_returned {path dest : List UInt8} {result : ℤ} {disk next : Disk}
    (h : storageRename path dest disk=.ok result next) :
    (result<0 ∧ next=disk) ∨ ∃ d t : ℕ, d<64 ∧ t<64 ∧
      treeLookup (dirname path) disk=.ok (d : ℤ) disk ∧
      treeLookup (dirname dest) disk=.ok (t : ℤ) disk ∧
      ∃ inum, 0 ≤ inum ∧ directoryLookup (nodeOffset d) (basename path) disk=.ok inum disk ∧
        ∃ mid, directoryPut (nodeOffset t) (basename dest) inum disk=.ok result mid ∧
          ∃ code, directoryDelete (nodeOffset d) (basename path) mid=.ok code next := by
  rcases guarded_returned (treeLookup_readOnly _) h with hf|⟨dirInum,hl,hpos,h⟩
  · exact .inl hf
  · obtain ⟨d,rfl,hd,h⟩ := located_returned (treeLookup_range hl) h
    rcases guarded_returned (directoryLookup_readOnly _ _) h with hf|⟨inum,hinum,hpos',h⟩
    · exact .inl hf
    · rcases guarded_returned (treeLookup_readOnly _) h with hf|⟨toDir,hto,hpos'',h⟩
      · exact .inl hf
      · obtain ⟨t,rfl,ht,h⟩ := located_returned (treeLookup_range hto) h
        obtain ⟨rv,mid,hput,h⟩ := bind_eq_ok.mp h
        rw [bind_of_ok (getInode_ok hd mid)] at h
        obtain ⟨code,last,hdel,h⟩ := bind_eq_ok.mp h
        obtain ⟨rfl,rfl⟩ := pure_eq_ok.mp h
        exact .inr ⟨d,t,hd,ht,hl,hto,inum,hpos',hinum,mid,hput,code,hdel⟩

/-- A returned `storage_write`. -/
theorem write_returned {path : List UInt8} {buf : ℕ → UInt8} {size : UInt64} {offset : Int64}
    {result : ℤ} {disk next : Disk} (h : storageWrite path buf size offset disk=.ok result next) :
    (result<0 ∧ next=disk) ∨ ∃ i : ℕ, i<64 ∧ treeLookup path disk=.ok (i : ℤ) disk ∧
      result=wrap32 size.toNat ∧ ∃ mid,
        resizeForWrite (nodeOffset i) (sizeAt disk.bytes i) (wrap32 (offset.toInt+size.toNat)) disk=
          .ok () mid ∧
        writeLoop (nodeOffset i) buf ((offset.toInt+size.toNat)%18446744073709551616) loopRounds
          offset.toInt 0 mid=.ok () next := by
  rcases guarded_returned (treeLookup_readOnly _) h with hf|⟨inum,hl,hpos,h⟩
  · exact .inl hf
  · obtain ⟨i,rfl,hi,h⟩ := located_returned (treeLookup_range hl) h
    rw [bind_of_ok (readSize_ok hi disk)] at h
    obtain ⟨_,mid,hresize,h⟩ := bind_eq_ok.mp h
    obtain ⟨_,last,hloop,h⟩ := bind_eq_ok.mp h
    obtain ⟨hresult,hlast⟩ := pure_eq_ok.mp h
    rw [hlast]
    exact .inr ⟨i,hi,hl,hresult,mid,hresize,hloop⟩

/-- A returned `storage_truncate`. -/
theorem truncate_returned {path : List UInt8} {size : Int64} {result : ℤ} {disk next : Disk}
    (h : storageTruncate path size disk=.ok result next) :
    (result<0 ∧ next=disk) ∨ ∃ i : ℕ, i<64 ∧ treeLookup path disk=.ok (i : ℤ) disk ∧ result=0 ∧
      ((sizeAt disk.bytes i < size.toInt ∧ ∃ value mid,
          growInode (nodeOffset i) (wrap32 size.toInt) disk=.ok value mid ∧
          truncateLoop (nodeOffset i) size.toInt loopRounds (sizeAt disk.bytes i) mid=.ok () next) ∨
        (size.toInt < sizeAt disk.bytes i ∧ ∃ value,
          shrinkInode (nodeOffset i) (wrap32 size.toInt) disk=.ok value next) ∨
        (sizeAt disk.bytes i=size.toInt ∧ next=disk)) := by
  rcases guarded_returned (treeLookup_readOnly _) h with hf|⟨inum,hl,hpos,h⟩
  · exact .inl hf
  · obtain ⟨i,rfl,hi,h⟩ := located_returned (treeLookup_range hl) h
    rw [bind_of_ok (readSize_ok hi disk)] at h
    right
    by_cases hgrow : sizeAt disk.bytes i < size.toInt
    · rw [if_pos hgrow] at h
      obtain ⟨value,mid,hg,h⟩ := bind_eq_ok.mp h
      obtain ⟨_,last,hloop,h⟩ := bind_eq_ok.mp h
      obtain ⟨rfl,rfl⟩ := pure_eq_ok.mp h
      exact ⟨i,hi,hl,rfl,.inl ⟨hgrow,value,mid,hg,hloop⟩⟩
    · rw [if_neg hgrow] at h
      by_cases hshrink : size.toInt < sizeAt disk.bytes i
      · rw [if_pos hshrink] at h
        obtain ⟨value,mid,hs,h⟩ := bind_eq_ok.mp h
        obtain ⟨rfl,rfl⟩ := pure_eq_ok.mp h
        exact ⟨i,hi,hl,rfl,.inr (.inl ⟨hshrink,value,hs⟩)⟩
      · rw [if_neg hshrink] at h
        obtain ⟨rfl,rfl⟩ := pure_eq_ok.mp h
        exact ⟨i,hi,hl,rfl,.inr (.inr ⟨by omega,rfl⟩)⟩

/-! ## Calls whose lookups are known -/

section Known

variable {path dest : List UInt8} {disk : Disk} {d t i : ℕ}

/-- A lookup that found an inode goes on to its record. -/
theorem found_eq {lookup : Nufs ℤ} (rest : ℤ → Nufs ℤ) (hl : lookup disk=.ok (i : ℤ) disk) :
    (lookup >>= fun inum => if inum<0 then pure inum else rest inum) disk=rest i disk := by
  rw [bind_of_ok hl,if_neg (by omega)]

/-- A lookup that failed ends the call with its code. -/
theorem missing_eq {lookup : Nufs ℤ} (rest : ℤ → Nufs ℤ) {code : ℤ} (hc : code<0)
    (hl : lookup disk=.ok code disk) :
    (lookup >>= fun inum => if inum<0 then pure inum else rest inum) disk=.ok code disk := by
  rw [bind_of_ok hl,if_pos hc]
  rfl

/-- `storage_mknod` after its lookups. -/
theorem storageMknod_eq (hp : path.head?=some 47) (hd : d<64)
    (hl : treeLookup (dirname path) disk=.ok (d : ℤ) disk) {found : ℤ}
    (hf : directoryLookup (nodeOffset d) (basename path) disk=.ok found disk) (mode : ℤ) :
    storageMknod path mode disk=(if 0<found then (pure exists_ : Nufs ℤ)
      else createNode (nodeOffset d) (basename path) mode) disk := by
  rw [storageMknod,if_neg (by simpa using hp)]
  refine (found_eq _ hl).trans ?_
  rw [bind_of_ok (getInode_ok hd disk),bind_of_ok hf]

/-- `storage_unlink` after its lookups. -/
theorem storageUnlink_eq (hd : d<64) (hi : i<64)
    (hl : treeLookup (dirname path) disk=.ok (d : ℤ) disk) {f : ℕ}
    (hf : directoryLookup (nodeOffset d) (basename path) disk=.ok (f : ℤ) disk)
    (hp : treeLookup path disk=.ok (i : ℤ) disk) :
    storageUnlink path disk=directoryDelete (nodeOffset d) (basename path)
      {disk with bytes := putInt disk.bytes (4096+64*i+4) (refsAt disk.bytes i+(-1))} := by
  refine (found_eq _ hl).trans ?_
  rw [bind_of_ok (getInode_ok hd disk)]
  refine (found_eq _ hf).trans ?_
  rw [dropName,bind_of_ok hp,bind_of_ok (getInode_ok hi disk),bind_of_ok (addRefs_ok hi (-1) disk),
    bind_of_ok (getInode_ok hd _)]

/-- `storage_link` after its lookups. -/
theorem storageLink_eq {f : ℕ} (hd : d<64) (ht : t<64)
    (hl : treeLookup (dirname path) disk=.ok (d : ℤ) disk)
    (hf : directoryLookup (nodeOffset d) (basename path) disk=.ok (f : ℤ) disk)
    (hl' : treeLookup (dirname dest) disk=.ok (t : ℤ) disk) {found : ℤ}
    (hf' : directoryLookup (nodeOffset t) (basename dest) disk=.ok found disk) :
    storageLink path dest disk=(if found<0 then addName t (basename dest) f
      else (pure exists_ : Nufs ℤ)) disk := by
  refine (found_eq _ hl).trans ?_
  rw [bind_of_ok (getInode_ok hd disk)]
  refine (found_eq _ hf).trans ((found_eq _ hl').trans ?_)
  rw [bind_of_ok (getInode_ok ht disk),bind_of_ok hf']

/-- `storage_rename` after its lookups. -/
theorem storageRename_eq {f : ℕ} (hd : d<64)
    (hl : treeLookup (dirname path) disk=.ok (d : ℤ) disk)
    (hf : directoryLookup (nodeOffset d) (basename path) disk=.ok (f : ℤ) disk)
    (hl' : treeLookup (dirname dest) disk=.ok (t : ℤ) disk) :
    storageRename path dest disk=moveName d t (basename path) (basename dest) f disk := by
  refine (found_eq _ hl).trans ?_
  rw [bind_of_ok (getInode_ok hd disk)]
  exact (found_eq _ hf).trans (found_eq _ hl')

/-- `storage_write` after its lookup. -/
theorem storageWrite_eq (hi : i<64) (hl : treeLookup path disk=.ok (i : ℤ) disk)
    (buf : ℕ → UInt8) (size : UInt64) (offset : Int64) :
    storageWrite path buf size offset disk=
      (resizeForWrite (nodeOffset i) (sizeAt disk.bytes i) (wrap32 (offset.toInt+size.toNat)) >>=
        fun _ => writeLoop (nodeOffset i) buf ((offset.toInt+size.toNat)%18446744073709551616)
          loopRounds offset.toInt 0 >>= fun _ => pure (wrap32 size.toNat)) disk := by
  refine (found_eq _ hl).trans ?_
  rw [bind_of_ok (getInode_ok hi disk),bind_of_ok (readSize_ok hi disk)]

/-- `storage_truncate` after its lookup. -/
theorem storageTruncate_eq (hi : i<64) (hl : treeLookup path disk=.ok (i : ℤ) disk)
    (size : Int64) :
    storageTruncate path size disk=
      (if sizeAt disk.bytes i < size.toInt then
        extendInode (nodeOffset i) (sizeAt disk.bytes i) size.toInt
      else if size.toInt < sizeAt disk.bytes i then
        shrinkInode (nodeOffset i) (wrap32 size.toInt) >>= fun _ => pure 0
      else (pure 0 : Nufs ℤ)) disk := by
  refine (found_eq _ hl).trans ?_
  rw [bind_of_ok (getInode_ok hi disk),bind_of_ok (readSize_ok hi disk)]

end Known

/-! ## Searches -/

/-- A directory with an entry has at least its size. -/
theorem size_of_entryCount {size : ℤ} (hl : -2147483648 ≤ size) (hr : size<2147483648)
    (h : 0<entryCount size) : 64 ≤ size := by
  by_contra hs
  have hc : entryCount size≤0 := by
    unfold entryCount wrap32
    dsimp only
    split <;> omega
  omega

/-- A name that `directory_lookup` found was found by the search. -/
theorem search_of_lookup {dd inum : ℤ} {name : List UInt8} {disk : Disk}
    (h : directoryLookup dd name disk=.ok inum disk) (hpos : 0 ≤ inum) :
    ∃ ii, searchDirectory dd name disk=.ok (some ii) disk := by
  obtain ⟨entries,d1,he,hs⟩ := bind_eq_ok.mp h
  have h1 := (directoryGetEntries_readOnly _).eq_of_ok he
  rw [h1] at hs
  obtain ⟨found,d2,hfound,hs⟩ := bind_eq_ok.mp hs
  have h2 := (searchDirectory_readOnly _ _).eq_of_ok hfound
  rw [h2] at hfound
  cases found with
  | some ii => exact ⟨ii,hfound⟩
  | none =>
    obtain ⟨rfl,_⟩ := pure_eq_ok.mp hs
    exact absurd hpos (by decide)

/-- A name is found only in a directory with room for an entry. -/
theorem size_of_lookup {d : ℕ} (hd : d<64) {inum : ℤ} {name : List UInt8} {disk : Disk}
    (h : directoryLookup (nodeOffset d) name disk=.ok inum disk) (hpos : 0 ≤ inum) :
    64 ≤ sizeAt disk.bytes d := by
  obtain ⟨ii,hs⟩ := search_of_lookup h hpos
  have hrange := intAt_range disk.bytes (4096+64*d+12)
  obtain ⟨entries,d1,he,hs⟩ := bind_eq_ok.mp hs
  rw [(directoryGetEntries_readOnly _).eq_of_ok he,bind_of_ok (readSize_ok hd disk)] at hs
  by_contra hsmall
  have hz : (entryCount (sizeAt disk.bytes d)).toNat=0 := by
    by_contra hne
    exact hsmall (size_of_entryCount hrange.1 hrange.2 (by omega))
  rw [hz] at hs
  cases (pure_eq_ok.mp hs).1

/-! ## Directory insertion and removal -/

/-- A returned `directory_put` returns 0. -/
theorem directoryPut_zero {dd inum result : ℤ} {name : List UInt8} {disk next : Disk}
    (h : directoryPut dd name inum disk=.ok result next) : result=0 := by
  obtain ⟨size,d1,_,h⟩ := bind_eq_ok.mp h
  obtain ⟨grown,d2,_,h⟩ := bind_eq_ok.mp h
  obtain ⟨node,d3,_,h⟩ := bind_eq_ok.mp h
  obtain ⟨_,d4,_,h⟩ := bind_eq_ok.mp h
  obtain ⟨first,d5,_,h⟩ := bind_eq_ok.mp h
  obtain ⟨bytes,d6,_,h⟩ := bind_eq_ok.mp h
  obtain ⟨_,d7,_,h⟩ := bind_eq_ok.mp h
  obtain ⟨_,d8,_,h⟩ := bind_eq_ok.mp h
  exact (pure_eq_ok.mp h).1

/-- A returned `removeEntry` returns 0. -/
theorem removeEntry_zero {dd entries size ii result : ℤ} {disk next : Disk}
    (h : removeEntry dd entries size ii disk=.ok result next) : result=0 := by
  obtain ⟨inum,d1,_,h⟩ := bind_eq_ok.mp h
  obtain ⟨node,d2,_,h⟩ := bind_eq_ok.mp h
  obtain ⟨_,d3,_,h⟩ := bind_eq_ok.mp h
  obtain ⟨_,d4,_,h⟩ := bind_eq_ok.mp h
  obtain ⟨_,d5,_,h⟩ := bind_eq_ok.mp h
  obtain ⟨bytes,d6,_,h⟩ := bind_eq_ok.mp h
  obtain ⟨value,d7,_,h⟩ := bind_eq_ok.mp h
  exact (pure_eq_ok.mp h).1

end ComputerSystems.NufsCalls
