import ComputerSystems.Xv6Log

/-!
# The header of the log and the effect of block operations

Reading a header block gives back what was written to it. The operations of the
buffer cache are described by the data that a later `bread` returns and by what
is on the disk.
-/

namespace ComputerSystems.Xv6Log

open ByteMemory RedoLog TransitionSystem

/-! ## The header block -/

/-- Inside a block its bytes are its own. -/
theorem bytes_putInt (b : Block) (offset : ℕ) (value : ℤ) {k : ℕ} (h : k<512) :
    (b.putInt offset value).bytes k=ByteMemory.putInt b.bytes offset value k := by
  unfold Block.bytes Block.putInt
  exact dif_pos h

/-- Reading back an int that was stored in a block. -/
theorem intAt_putInt_self (b : Block) {offset : ℕ} (value : ℤ) (h : offset+4≤512) :
    intAt (b.putInt offset value).bytes offset=wrap32 value := by
  rw [←intAt_putInt b.bytes offset value]
  exact intAt_congr (fun k _ hk => bytes_putInt b offset value (by omega))

/-- Reading another int of the block. -/
theorem intAt_putInt_other (b : Block) {offset other : ℕ} (value : ℤ) (h : other+4≤512)
    (hapart : other+4≤offset ∨ offset+4≤other) :
    intAt (b.putInt offset value).bytes other=intAt b.bytes other := by
  rw [←intAt_putInt_apart b.bytes value hapart]
  exact intAt_congr (fun k _ hk => bytes_putInt b offset value (by omega))

/-- The blocks stored from an index on leave the ints before them alone. -/
theorem intAt_putBlocks_before (l : List ℕ) : ∀ (hb : Block) (i other : ℕ), other+4≤512 →
    other+4≤4*(i+1) → intAt (putBlocks hb i l).bytes other=intAt hb.bytes other := by
  induction l with
  | nil => exact fun _ _ _ _ _ => rfl
  | cons b rest ih =>
    intro hb i other ho hbefore
    rw [putBlocks,ih _ _ _ ho (by omega),intAt_putInt_other hb b ho (Or.inl hbefore)]

/-- Each stored block is read back, by induction on the blocks. -/
theorem intAt_putBlocks (l : List ℕ) : ∀ (hb : Block) (i k : ℕ) (h : k<l.length),
    i+l.length≤127 →
    intAt (putBlocks hb i l).bytes (4*(i+k+1))=wrap32 (l.get ⟨k,h⟩ : ℕ) := by
  induction l with
  | nil => exact fun _ _ k h _ => absurd h (Nat.not_lt_zero k)
  | cons b rest ih =>
    intro hb i k h hfit
    rw [List.length_cons] at hfit
    cases k with
    | zero =>
      rw [putBlocks,intAt_putBlocks_before rest _ _ _ (by omega) (by omega)]
      exact intAt_putInt_self hb b (by omega)
    | succ k =>
      have hnext := ih (hb.putInt (4*(i+1)) b) (i+1) k (Nat.lt_of_succ_lt_succ h) (by omega)
      rw [putBlocks,show i+(k+1)+1=i+1+k+1 by omega]
      exact hnext

/-- Reading a header block gives back the blocks written to it. -/
theorem headOf_putHead (hb : Block) {lh : List ℕ} (hshort : lh.length≤127)
    (hblocks : ∀ b∈lh, b<4294967296) : headOf (putHead hb lh)=lh := by
  have hcount : intAt (putHead hb lh).bytes 0=(lh.length : ℤ) := by
    rw [putHead,intAt_putBlocks_before lh _ _ _ (by omega) (by omega),
      intAt_putInt_self hb _ (by omega)]
    exact wrap32_of_range (by omega) (by omega)
  rw [headOf,hcount,Int.toNat_natCast]
  refine List.ext_getElem (by rw [List.length_map,List.length_range]) (fun i _ hi => ?_)
  rw [List.getElem_map,List.getElem_range]
  have hstored := intAt_putBlocks lh (hb.putInt 0 lh.length) 0 i hi (by omega)
  rw [Nat.zero_add] at hstored
  have hlow : lh.get ⟨i,hi⟩<4294967296 := hblocks _ (List.get_mem lh ⟨i,hi⟩)
  have hmod : ((lh.get ⟨i,hi⟩ : ℕ) : ℤ).bmod 4294967296%4294967296=
      ((lh.get ⟨i,hi⟩ : ℕ) : ℤ)%4294967296 := Int.bmod_emod
  rw [putHead,hstored,wrap32_eq_bmod,hmod]
  change (((lh.get ⟨i,hi⟩ : ℕ) : ℤ)%4294967296).toNat=lh.get ⟨i,hi⟩
  omega

/-- The header of an empty log. -/
theorem headOf_putHead_nil (hb : Block) : headOf (putHead hb [])=[] :=
  headOf_putHead hb (Nat.zero_le _) (fun _ h => absurd h List.not_mem_nil)

/-! ## The buffer cache -/

section Cache

variable {np : ℕ} (s : State np)

/-- Clean cached blocks agree with the disk. -/
def Coherent : Prop := ∀ b data, s.cache b=some data → s.dirty b=false → data=s.disk b

variable {s}

/-- A clean block is read as it is on the disk. -/
theorem Coherent.view (h : Coherent s) {b : ℕ} (hb : s.dirty b=false) : s.view b=s.disk b := by
  unfold State.view
  cases hc : s.cache b with
  | none => rfl
  | some data => exact h b data hc hb

/-- `bread` changes no data. -/
theorem view_bread (b k : ℕ) : (s.bread b).view k=s.view k := by
  unfold State.view State.bread
  by_cases hk : k=b
  · subst hk
    simp only [Function.update_self,Option.getD_some]
    rfl
  · simp only [Function.update_of_ne hk]

/-- A written block is read as it was written, any other as before. -/
theorem view_bwrite (b : ℕ) (data : Block) (k : ℕ) :
    (s.bwrite b data).view k=if k=b then data else s.view k := by
  unfold State.view State.bwrite
  by_cases hk : k=b
  · subst hk
    simp only [Function.update_self,Option.getD_some,if_true]
  · simp only [Function.update_of_ne hk,if_neg hk]

/-- The disk behind a written block. -/
theorem disk_bwrite (b : ℕ) (data : Block) (k : ℕ) :
    (s.bwrite b data).disk k=if k=b then data else s.disk k := by
  unfold State.bwrite
  by_cases hk : k=b
  · subst hk
    simp only [Function.update_self,if_true]
  · simp only [Function.update_of_ne hk,if_neg hk]

/-- The flags behind a written block. -/
theorem dirty_bwrite (b : ℕ) (data : Block) (k : ℕ) :
    (s.bwrite b data).dirty k=if k=b then false else s.dirty k := by
  unfold State.bwrite
  by_cases hk : k=b
  · subst hk
    simp only [Function.update_self,if_true]
  · simp only [Function.update_of_ne hk,if_neg hk]

/-- `bread` keeps the cache coherent. -/
theorem Coherent.bread (h : Coherent s) (b : ℕ) : Coherent (s.bread b) := by
  intro k data hc hd
  unfold State.bread at hc hd
  dsimp only at hc hd
  by_cases hk : k=b
  · subst hk
    rw [Function.update_self] at hc
    cases hc
    exact h.view hd
  · rw [Function.update_of_ne hk] at hc
    exact h k data hc hd

/-- `bwrite` keeps the cache coherent. -/
theorem Coherent.bwrite (h : Coherent s) (b : ℕ) (data : Block) : Coherent (s.bwrite b data) := by
  intro k other hc hd
  unfold State.bwrite at hc hd ⊢
  dsimp only at hc hd ⊢
  by_cases hk : k=b
  · subst hk
    rw [Function.update_self] at hc ⊢
    cases hc
    rfl
  · rw [Function.update_of_ne hk] at hc hd ⊢
    exact h k other hc hd

/-- Recycling a clean buffer keeps the cache coherent. -/
theorem Coherent.evict (h : Coherent s) (b : ℕ) :
    Coherent {s with cache := Function.update s.cache b none} := by
  intro k data hc hd
  dsimp only at hc hd
  by_cases hk : k=b
  · subst hk
    rw [Function.update_self] at hc
    cases hc
  · rw [Function.update_of_ne hk] at hc
    exact h k data hc hd

/-- Recycling a clean buffer changes no data. -/
theorem view_evict (h : Coherent s) {b : ℕ} (hb : s.dirty b=false) (k : ℕ) :
    ({s with cache := Function.update s.cache b none} : State np).view k=s.view k := by
  by_cases hk : k=b
  · subst hk
    rw [h.view hb]
    unfold State.view
    dsimp only
    rw [Function.update_self,Option.getD_none]
  · unfold State.view
    dsimp only
    rw [Function.update_of_ne hk]

/-- Pinning a block with new contents keeps the cache coherent. -/
theorem Coherent.pin (h : Coherent s) (b : ℕ) (data : Block) :
    Coherent {s with cache := Function.update s.cache b (some data),
                     dirty := Function.update s.dirty b true} := by
  intro k other hc hd
  dsimp only at hc hd ⊢
  by_cases hk : k=b
  · subst hk
    rw [Function.update_self] at hd
    cases hd
  · rw [Function.update_of_ne hk] at hc hd
    exact h k other hc hd

end Cache

end ComputerSystems.Xv6Log
