import ComputerSystems.NufsCalls

/-!
# Calls that return an error change nothing

Most calls fail before their first write. The exception is `storage_unlink`,
which counts a reference down before `directory_delete` searches the directory
again. That second search finds what the first one found, because the count is
stored in the inode table and no directory with entries has its first block
there.
-/

namespace ComputerSystems.NufsFailure

open StateProgram ByteMemory NufsImage NufsInode NufsPath NufsDirectory NufsStorage NufsCalls

/-- Every inode with room for an entry has a data page as its first block. -/
def FirstBlocks (memory : Bytes) : Prop :=
  ∀ i<64, 64 ≤ sizeAt memory i → 2≤ptrAt memory i 0 ∧ ptrAt memory i 0<256

section Agree

variable {disk other : Disk}

/-- A comparison reads the bytes up to the length of the name. -/
theorem streqAt_agree (name : List UInt8) : ∀ {start : ℕ} {same : Bool} {next : Disk},
    (∀ k≤name.length, other.bytes (start+k)=disk.bytes (start+k)) →
    streqAt start name disk=.ok same next → streqAt start name other=.ok same other := by
  induction name with
  | nil =>
    intro start same next h hs
    obtain ⟨byte,mid,hb,hs⟩ := bind_eq_ok.mp hs
    obtain ⟨_,hr,hbyte,_⟩ := readByte_returned hb
    obtain ⟨rfl,_⟩ := pure_eq_ok.mp hs
    have hsame : other.bytes start=disk.bytes start := h 0 (Nat.zero_le _)
    rw [streqAt,bind_of_ok (readByte_ok (by omega) other),hsame,hbyte,Int.toNat_natCast]
    rfl
  | cons char rest ih =>
    intro start same next h hs
    obtain ⟨byte,mid,hb,hs⟩ := bind_eq_ok.mp hs
    obtain ⟨_,hr,hbyte,hmid⟩ := readByte_returned hb
    have hsame : other.bytes start=disk.bytes start := h 0 (Nat.zero_le _)
    rw [hmid] at hs
    rw [Int.toNat_natCast] at hbyte
    rw [streqAt,bind_of_ok (readByte_ok (by omega) other),hsame,←hbyte]
    by_cases hc : byte=char
    · rw [if_pos hc] at hs ⊢
      have hstart : (start : ℤ)+1=((start+1 : ℕ) : ℤ) := by
        push_cast
        rfl
      rw [hstart] at hs ⊢
      refine ih (fun k hk => ?_) hs
      have hnext := h (k+1) (Nat.succ_le_succ hk)
      rw [Nat.add_comm k 1,←Nat.add_assoc] at hnext
      exact hnext
    · rw [if_neg hc] at hs ⊢
      obtain ⟨rfl,_⟩ := pure_eq_ok.mp hs
      rfl

/-- A comparison that returned began inside the mapping. -/
theorem streqAt_start {start : ℤ} {name : List UInt8} {same : Bool} {next : Disk}
    (h : streqAt start name disk=.ok same next) : 0 ≤ start := by
  cases name with
  | nil =>
    obtain ⟨byte,mid,hb,_⟩ := bind_eq_ok.mp h
    exact (readByte_returned hb).1
  | cons char rest =>
    obtain ⟨byte,mid,hb,_⟩ := bind_eq_ok.mp h
    exact (readByte_returned hb).1

/-- A scan reads so many bytes of each entry. -/
theorem findEntry_agree {start : ℕ} (name : List UInt8) (left : ℕ) :
    ∀ {ii : ℕ} {found : Option ℤ} {next : Disk}, (∀ k, ii≤k → k < ii+left → ∀ n≤name.length,
      other.bytes (start+64*k+n)=disk.bytes (start+64*k+n)) →
    findEntry start name left ii disk=.ok found next →
      findEntry start name left ii other=.ok found other := by
  induction left with
  | zero =>
    intro ii found next _ hs
    obtain ⟨rfl,_⟩ := pure_eq_ok.mp hs
    rfl
  | succ left ih =>
    intro ii found next h hs
    have hentry : (start : ℤ)+64*(ii : ℤ)=((start+64*ii : ℕ) : ℤ) := by
      push_cast
      rfl
    have hnext : (ii : ℤ)+1=((ii+1 : ℕ) : ℤ) := by
      push_cast
      rfl
    obtain ⟨same,mid,hsame,hs⟩ := bind_eq_ok.mp hs
    have hmid := (streqAt_readOnly _ _).eq_of_ok hsame
    rw [hmid] at hs
    rw [hentry] at hsame
    rw [findEntry,hentry,
      bind_of_ok (streqAt_agree name (h ii (Nat.le_refl _) (by omega)) hsame),hnext]
    rw [hnext] at hs
    by_cases hc : same=true
    · rw [if_pos hc] at hs ⊢
      obtain ⟨rfl,_⟩ := pure_eq_ok.mp hs
      rfl
    · rw [if_neg hc] at hs ⊢
      exact ih (fun k hk hk' => h k (by omega) (by omega)) hs

/-- A search reads the directory's first pointer and size and the compared
bytes of its entries. -/
theorem searchDirectory_agree {d : ℕ} (hd : d<64) (hp : ptrAt other.bytes d 0=ptrAt disk.bytes d 0)
    (hs : sizeAt other.bytes d=sizeAt disk.bytes d) {name : List UInt8} {found : Option ℤ}
    {next : Disk} (h : ∀ start : ℕ, pagesGetPage (ptrAt disk.bytes d 0)=start →
      ∀ k < (entryCount (sizeAt disk.bytes d)).toNat, ∀ n≤name.length,
        other.bytes (start+64*k+n)=disk.bytes (start+64*k+n))
    (hf : searchDirectory (nodeOffset d) name disk=.ok found next) :
    searchDirectory (nodeOffset d) name other=.ok found other := by
  have hentries := directoryGetEntries_ok hd
  unfold searchDirectory at hf ⊢
  rw [bind_of_ok (hentries _),bind_of_ok (readSize_ok hd _)] at hf ⊢
  rw [hp,hs]
  generalize hleft : (entryCount (sizeAt disk.bytes d)).toNat=left at h hf ⊢
  cases left with
  | zero =>
    obtain ⟨rfl,_⟩ := pure_eq_ok.mp hf
    rfl
  | succ left =>
    obtain ⟨same,mid,hsame,_⟩ := bind_eq_ok.mp hf
    have hstart := streqAt_start hsame
    rw [mul_zero,add_zero] at hstart
    obtain ⟨start,he⟩ := Int.eq_ofNat_of_zero_le hstart
    rw [he] at hf ⊢
    exact findEntry_agree name _ (fun k _ hk => h start he k (hk.trans_eq (Nat.zero_add _))) hf

end Agree

/-- Counting references does not disturb a search. -/
theorem searchDirectory_refs {disk next : Disk} (hf : FirstBlocks disk.bytes) {d i : ℕ} (hd : d<64)
    (hi : i<64) (value : ℤ) {name : List UInt8} {found : Option ℤ}
    (h : searchDirectory (nodeOffset d) name disk=.ok found next) :
    searchDirectory (nodeOffset d) name {disk with bytes := putInt disk.bytes (4096+64*i+4) value}=
      .ok found {disk with bytes := putInt disk.bytes (4096+64*i+4) value} := by
  refine searchDirectory_agree hd ?_ ?_ ?_ h
  · exact intAt_putInt_apart _ _ (by omega)
  · exact intAt_putInt_apart _ _ (by omega)
  · intro start hstart k hk n _
    have hrange := intAt_range disk.bytes (4096+64*d+12)
    have hc : 0<entryCount (sizeAt disk.bytes d) := by omega
    have hblock := hf d hd (size_of_entryCount hrange.1 hrange.2 hc)
    rw [pagesGetPage_eq (by omega) (by omega)] at hstart
    exact putInt_outside _ _ (by omega)

/-- A deletion whose search finds the name returns 0. -/
theorem directoryDelete_zero {dd result : ℤ} {name : List UInt8} {disk next : Disk} {ii : ℤ}
    (hs : searchDirectory dd name disk=.ok (some ii) disk)
    (h : directoryDelete dd name disk=.ok result next) : result=0 := by
  obtain ⟨entries,d1,he,h⟩ := bind_eq_ok.mp h
  have h1 := (directoryGetEntries_readOnly _).eq_of_ok he
  rw [h1] at h
  obtain ⟨size,d2,hsize,h⟩ := bind_eq_ok.mp h
  have h2 := (readInt_readOnly _).eq_of_ok hsize
  rw [h2,bind_of_ok hs] at h
  exact removeEntry_zero h

/-- `storage_unlink` returns an error only in the unchanged image. -/
theorem unlink_failed {path : List UInt8} {result : ℤ} {disk next : Disk}
    (hf : FirstBlocks disk.bytes) (h : storageUnlink path disk=.ok result next) (hneg : result<0) :
    next=disk := by
  rcases unlink_returned h with hfail|⟨d,i,hd,hi,_,_,⟨inum,hpos,hlookup⟩,hdel⟩
  · exact hfail.2
  · obtain ⟨ii,hs⟩ := search_of_lookup hlookup hpos
    have hz := directoryDelete_zero (searchDirectory_refs hf hd hi _ hs) hdel
    omega

/-- The sizes at which `storage_write` returns a count that is not negative. -/
def SmallBuffer : Call → Prop
  | .write _ _ size _ => size.toNat<2147483648
  | _ => True

/-- A call that returns a negative value leaves the whole image as it was. -/
theorem failed_call_unchanged {call : Call} {disk next : Disk} {result : ℤ}
    (hf : FirstBlocks disk.bytes) (hs : SmallBuffer call)
    (h : exec call disk=.ok result next) (hneg : result<0) : next.bytes=disk.bytes := by
  cases call with
  | mknod path mode =>
    rcases mknod_returned h with hfail|⟨d,_,_,found,_,_,hcreate⟩
    · rw [hfail.2]
    · obtain ⟨inum,d1,_,hcreate⟩ := bind_eq_ok.mp hcreate
      obtain ⟨node,d2,_,hcreate⟩ := bind_eq_ok.mp hcreate
      obtain ⟨_,d3,_,hcreate⟩ := bind_eq_ok.mp hcreate
      obtain ⟨_,d4,_,hcreate⟩ := bind_eq_ok.mp hcreate
      obtain ⟨_,d5,_,hput⟩ := bind_eq_ok.mp hcreate
      have hz := directoryPut_zero hput
      omega
  | link source dest =>
    rcases link_returned h with hfail|⟨s,d,f,_,_,_,_,_,_,_,mid,hput,_⟩
    · rw [hfail.2]
    · have hz := directoryPut_zero hput
      omega
  | unlink path => rw [unlink_failed hf h hneg]
  | rename path dest =>
    rcases rename_returned h with hfail|⟨d,t,_,_,_,_,inum,_,_,mid,hput,_⟩
    · rw [hfail.2]
    · have hz := directoryPut_zero hput
      omega
  | write path buf size offset =>
    rcases write_returned h with hfail|⟨i,_,_,hr,_⟩
    · rw [hfail.2]
    · simp only [SmallBuffer] at hs
      rw [wrap32_of_range (by omega) (by omega)] at hr
      omega
  | truncate path size =>
    rcases truncate_returned h with hfail|⟨i,_,_,hz,_⟩
    · rw [hfail.2]
    · omega

/-- Membership in `FirstBlocks` is checked over the table. -/
instance (memory : Bytes) : Decidable (FirstBlocks memory) := Nat.decidableBallLT _ _

/-- A file `/a` of one byte. -/
def oneByte : Disk :=
  after (exec (.truncate (render [nameA]) 1)) (after (exec (.mknod (render [nameA]) 33188)) fresh)

/-- A failed removal beside it: the root has a block of entries, none of them the
one asked for. -/
theorem failed_unlink_unchanged : sizeAt oneByte.bytes 0=64 ∧
    ∃ result, result<0 ∧
      exec (.unlink (render [nameB])) oneByte=
        .ok result (after (exec (.unlink (render [nameB]))) oneByte) ∧
      (after (exec (.unlink (render [nameB]))) oneByte).bytes=oneByte.bytes := by
  have hpass : passes (exec (.unlink (render [nameB]))) oneByte
      (fun result _ => decide (result<0))=true := by decide +kernel
  obtain ⟨result,hr,hneg⟩ := returned_of_passes hpass
  have hneg := of_decide_eq_true hneg
  have hsmall : SmallBuffer (.unlink (render [nameB])) := trivial
  exact ⟨by decide +kernel,result,hneg,hr,
    failed_call_unchanged (by decide +kernel) hsmall hr hneg⟩

/-- Every path of the call is a normalized absolute one. -/
def Normalized : Call → Prop
  | .mknod path _ => ∃ components, path=render components
  | .link source dest => (∃ components, source=render components) ∧
      ∃ components, dest=render components
  | .unlink path => ∃ components, path=render components
  | .rename path dest => (∃ components, path=render components) ∧
      ∃ components, dest=render components
  | .write path _ _ _ => ∃ components, path=render components
  | .truncate path _ => ∃ components, path=render components

/-- The end of a written range, offset plus size, is below 2^31. -/
def EndBelow : Call → Prop
  | .write _ _ size offset => offset.toInt+size.toNat<2147483648
  | _ => True

/-- Writing 2^31 bytes at offset -2^31. -/
def backwardWrite : Call := .write (render [nameA]) (fun _ => 0) 2147483648 (-2147483648)

/-- A bound on the end of the range alone does not suffice: the backward write
empties the file and then returns its count, a negative `int`. -/
theorem backward_write_changes :
    ¬∀ (call : Call) (disk next : Disk) (result : ℤ), FirstBlocks disk.bytes →
      Normalized call → EndBelow call → exec call disk=.ok result next → result<0 →
      next.bytes=disk.bytes := by
  intro h
  have hpass : passes (exec backwardWrite) oneByte (fun result next =>
      decide (result<0 ∧ sizeAt next.bytes 1≠sizeAt oneByte.bytes 1))=true := by decide +kernel
  obtain ⟨result,hr,htest⟩ := returned_of_passes hpass
  obtain ⟨hneg,hsize⟩ := of_decide_eq_true htest
  have hend : EndBelow backwardWrite := by
    simp only [EndBelow,backwardWrite]
    decide
  have hsame := h backwardWrite oneByte _ result (by decide +kernel) ⟨[nameA],rfl⟩ hend hr hneg
  exact hsize (by rw [hsame])

end ComputerSystems.NufsFailure
