import ComputerSystems.NufsFrame

/-!
# What the loops put into a file

`storage_write` and `storage_truncate` go through a file page by page. The
buffer pointer of `storage_write` advances by 4096 bytes a round whatever was
copied, so the buffer index that is stored at a position drifts from the
distance to the start when the range starts inside a page and goes on past it.
The loops are specified for every inode whose pages are placed, marked or not.
-/

namespace ComputerSystems.NufsContent

open StateProgram ByteMemory NufsImage NufsInode NufsStorage NufsCalls NufsOwnership NufsResize
  NufsFrame

/-! ## Positions and buffer indices -/

/-- The buffer index at which a range from `start` on handles a position: the
first page counts from the start of the range, every later one from the start
of the first page. -/
def bufferIndex (start position : ℕ) : ℕ :=
  if position/4096=start/4096 then position-start else position-4096*(start/4096)

/-- Positions of the first page. -/
theorem bufferIndex_first {start position : ℕ} (h : position/4096=start/4096) :
    bufferIndex start position=position-start := if_pos h

/-- Positions of the later pages: what a round starting at the next page
boundary adds to the 4096 skipped bytes. -/
theorem bufferIndex_later {start position : ℕ} (h : (start/4096+1)*4096≤position) :
    bufferIndex start position=4096+bufferIndex ((start/4096+1)*4096) position := by
  unfold bufferIndex
  rw [if_neg (by omega)]
  split <;> omega

/-- The range begins at a page boundary or ends in its first page. -/
def Straight (start count : ℕ) : Prop := start%4096=0 ∨ start%4096+count≤4096

/-- Whether a range is straight can be computed. -/
instance (start count : ℕ) : Decidable (Straight start count) :=
  inferInstanceAs (Decidable (_ ∨ _))

/-- In a straight range the index of a position is its distance from the start. -/
theorem bufferIndex_straight {start count position : ℕ} (h : Straight start count)
    (hl : start≤position) (hr : position < start+count) :
    bufferIndex start position=position-start := by
  unfold bufferIndex
  rcases h with h|h
  · split <;> omega
  · rw [if_pos (by omega)]

/-- In every other range the last position has an index past the count. -/
theorem bufferIndex_drifts {start count : ℕ} (h : ¬Straight start count) :
    count≤bufferIndex start (start+count-1) := by
  unfold Straight at h
  unfold bufferIndex
  rw [if_neg (by omega)]
  omega

/-! ## Filling the pages of one inode -/

section Filled

variable {memory mid next : Bytes} {i n : ℕ}

/-- Filling blocks keeps the pages in all slots of the inode. -/
theorem slot_filled (hf : Filled memory next i n) (h : Placed memory i n) {slot : Slot}
    (hu : slot.Used n) : slot.page next i=slot.page memory i := by
  have hi := h.index
  have hn := h.blocks_le
  refine Slot.page_congr hu (fun address hl hr => hf address (fun k hk hp => ?_))
    (fun hb => ?_) (fun hb address hp => hf address (fun k hk he => ?_)) (by omega)
  · have hx := h.range (.block k) hk
    simp only [Slot.page] at hx
    omega
  · have hx := h.range .indirect hb
    simp only [Slot.page] at hx
    omega
  · have ho := h.once (.block k) .indirect hk hb (by simp only [Slot.page]; omega)
    cases ho

/-- Filling blocks keeps the inode placed. -/
theorem placed_filled (hf : Filled memory next i n) (h : Placed memory i n) : Placed next i n where
  index := h.index
  range := by
    intro slot hu
    rw [slot_filled hf h hu]
    exact h.range slot hu
  once := by
    intro slot other hu ho he
    rw [slot_filled hf h hu,slot_filled hf h ho] at he
    exact h.once slot other hu ho he

/-- Filling blocks keeps the size. -/
theorem size_filled (hf : Filled memory next i n) (h : Placed memory i n) :
    sizeAt next i=sizeAt memory i := by
  have hi := h.index
  refine intAt_congr (fun address hl hr => hf address (fun k hk hp => ?_))
  have hx := h.range (.block k) hk
  simp only [Slot.page] at hx
  omega

/-- A range of a file was given new bytes, one for each position; the rest of
its blocks and everything else stayed. -/
structure Written (memory next : Bytes) (i n start finish : ℕ) (source : ℕ → UInt8) : Prop where
  /-- Only bytes of the file's blocks changed. -/
  filled : Filled memory next i n
  /-- Positions of the range hold the new bytes. -/
  inside : ∀ k, start≤k → k<finish → fileByte next i k=source k
  /-- Positions outside hold the old ones. -/
  outside : ∀ k, k/4096<n → (k < start ∨ finish≤k) → fileByte next i k=fileByte memory i k

/-- An empty range needs nothing. -/
theorem Written.refl (memory : Bytes) (i n : ℕ) {start finish : ℕ} (h : finish ≤ start)
    (source : ℕ → UInt8) : Written memory memory i n start finish source :=
  ⟨fun _ _ => rfl,fun _ hl hr => absurd (Nat.lt_of_lt_of_le hr (h.trans hl)) (Nat.lt_irrefl _),
    fun _ _ _ => rfl⟩

/-- Filling in two stages. -/
theorem filled_trans (hf : Filled memory mid i n) (hf' : Filled mid next i n)
    (h : Placed memory i n) : Filled memory next i n := by
  intro address hp
  rw [hf' address (fun k hk he => ?_),hf address hp]
  have hslot := slot_filled hf h (show (Slot.block k).Used n from hk)
  simp only [Slot.page] at hslot
  exact hp k hk (he.trans hslot)

/-- Writing two adjacent ranges. -/
theorem Written.trans {start middle finish : ℕ} {source : ℕ → UInt8}
    (hw : Written memory mid i n start middle source)
    (hw' : Written mid next i n middle finish source) (h : Placed memory i n) (hl : start ≤ middle)
    (hr : middle≤finish) (hn : finish≤4096*n) : Written memory next i n start finish source where
  filled := filled_trans hw.filled hw'.filled h
  inside := by
    intro k hlk hrk
    by_cases hk : k < middle
    · rw [hw'.outside k (by omega) (.inl hk)]
      exact hw.inside k hlk hk
    · exact hw'.inside k (by omega) hrk
  outside := by
    intro k hk hout
    rw [hw'.outside k hk (by omega),hw.outside k hk (by omega)]

/-- The same bytes named in another way. -/
theorem Written.congr {start finish : ℕ} {source source' : ℕ → UInt8}
    (hw : Written memory next i n start finish source)
    (hs : ∀ k, start≤k → k<finish → source k=source' k) :
    Written memory next i n start finish source' :=
  ⟨hw.filled,fun k hl hr => (hw.inside k hl hr).trans (hs k hl hr),hw.outside⟩

end Filled

/-! ## The loops -/

section Loops

variable {i n : ℕ}

/-- The bytes of one round, up to the next page boundary or to the end. -/
theorem written_blit {memory : Bytes} (h : Placed memory i n) {curr limit : ℕ} (hc : curr<limit)
    (hl : limit≤4096*n) (source : ℕ → UInt8) :
    Written memory (blit memory (4096*(pnumAt memory i (curr/4096)).toNat+curr%4096)
        (min ((curr/4096+1)*4096) limit-curr) source) i n curr (min ((curr/4096+1)*4096) limit)
      (fun k => source (k-curr)) := by
  have hblock : curr/4096<n := by omega
  have hp := h.range (.block (curr/4096)) hblock
  simp only [Slot.page] at hp
  have hfilled : Filled memory (blit memory (4096*(pnumAt memory i (curr/4096)).toNat+curr%4096)
      (min ((curr/4096+1)*4096) limit-curr) source) i n := by
    intro address ha
    have hne := ha _ hblock
    exact blit_outside _ _ (by omega)
  refine ⟨hfilled,?_,?_⟩
  · intro k hlk hrk
    have hsame : k/4096=curr/4096 := by omega
    have hslot := slot_filled hfilled h (show (Slot.block (curr/4096)).Used n from hblock)
    simp only [Slot.page] at hslot
    unfold fileByte
    rw [hsame,hslot,blit_inside _ _ (by omega) (by omega)]
    congr 1
    omega
  · intro k hk hout
    have hpk := h.range (.block (k/4096)) hk
    have hslot := slot_filled hfilled h (show (Slot.block (k/4096)).Used n from hk)
    simp only [Slot.page] at hpk hslot
    unfold fileByte
    rw [hslot]
    refine blit_outside _ _ ?_
    by_contra hin
    have honce := h.once (.block (k/4096)) (.block (curr/4096)) hk hblock
      (by simp only [Slot.page]; omega)
    have hsame := Slot.block.inj honce
    omega

/-- One round of the loops, from a position before the end of the range. -/
theorem fillPiece_written {disk : Disk} (h : Placed disk.bytes i n) {curr limit : ℕ}
    (hc : curr<limit) (hl : limit≤4096*n) (source : ℕ → UInt8) :
    ∃ next, fillPiece (nodeOffset i) curr (pieceEnd curr limit) source disk=.ok () next ∧
      Written disk.bytes next.bytes i n curr (min ((curr/4096+1)*4096) limit)
        (fun k => source (k-curr)) :=
  ⟨_,fillPiece_mapped h.mapped hc hl source,written_blit h hc hl source⟩

/-- The copy loop of `storage_write` with rounds enough: by induction on the
rounds left, each of which ends at a page boundary or at the end. -/
theorem writeLoop_written (buf : ℕ → UInt8) {total : ℕ} (hl : total≤4096*n) (left : ℕ) :
    ∀ {disk : Disk} (curr skipped : ℕ), Placed disk.bytes i n → curr≤total → 1≤left →
    (curr<total → total/4096+2≤curr/4096+left) →
    ∃ next, writeLoop (nodeOffset i) buf total left curr skipped disk=.ok () next ∧
      Written disk.bytes next.bytes i n curr total
        (fun k => buf (skipped+bufferIndex curr k)) := by
  induction left with
  | zero =>
    intro disk curr skipped _ _ hleft
    omega
  | succ left ih =>
    intro disk curr skipped h hc _ hrounds
    have hb := h.blocks_le
    unfold writeLoop
    by_cases hcurr : curr<total
    · obtain ⟨mid,hpiece,hwritten⟩ := fillPiece_written h hcurr hl (fun k => buf (skipped+k))
      have hleft := hrounds hcurr
      obtain ⟨next,hrest,hwritten'⟩ := ih (min ((curr/4096+1)*4096) total) (skipped+4096)
        (placed_filled hwritten.filled h) (Nat.min_le_right _ _) (by omega) (by omega)
      refine ⟨next,?_,?_⟩
      · rw [if_pos (by omega),bind_of_ok hpiece,pieceEnd_eq hcurr (by omega)]
        exact hrest
      · have hfirst : Written disk.bytes mid.bytes i n curr (min ((curr/4096+1)*4096) total)
            (fun k => buf (skipped+bufferIndex curr k)) :=
          hwritten.congr (fun k hlk hrk => by rw [bufferIndex_first (by omega)])
        refine hfirst.trans (hwritten'.congr (fun k hlk hrk => ?_)) h (by omega) (by omega) hl
        have hmin : min ((curr/4096+1)*4096) total=(curr/4096+1)*4096 := by omega
        rw [hmin] at hlk ⊢
        rw [bufferIndex_later hlk,Nat.add_assoc]
    · refine ⟨disk,?_,Written.refl _ _ _ (by omega) _⟩
      rw [if_neg (by omega)]
      rfl

/-- The clearing loop of `storage_truncate` with rounds enough. -/
theorem truncateLoop_written {size : ℕ} (hl : size≤4096*n) (left : ℕ) :
    ∀ {disk : Disk} (curr : ℕ), Placed disk.bytes i n → curr ≤ size → 1≤left →
    (curr < size → size/4096+2≤curr/4096+left) →
    ∃ next, truncateLoop (nodeOffset i) size left curr disk=.ok () next ∧
      Written disk.bytes next.bytes i n curr size (fun _ => 0) := by
  induction left with
  | zero =>
    intro disk curr _ _ hleft
    omega
  | succ left ih =>
    intro disk curr h hc _ hrounds
    have hb := h.blocks_le
    unfold truncateLoop
    by_cases hcurr : curr < size
    · obtain ⟨mid,hpiece,hwritten⟩ := fillPiece_written h hcurr hl (fun _ => 0)
      have hleft := hrounds hcurr
      obtain ⟨next,hrest,hwritten'⟩ := ih (min ((curr/4096+1)*4096) size)
        (placed_filled hwritten.filled h) (Nat.min_le_right _ _) (by omega) (by omega)
      refine ⟨next,?_,hwritten.trans hwritten' h (by omega) (by omega) hl⟩
      rw [if_pos (by omega),bind_of_ok hpiece,pieceEnd_eq hcurr (by omega)]
      exact hrest
    · refine ⟨disk,?_,Written.refl _ _ _ (by omega) _⟩
      rw [if_neg (by omega)]
      rfl

/-- The copy loop of `storage_write` depends on the buffer bytes it stores only. -/
theorem writeLoop_congr (buf buf' : ℕ → UInt8) {total : ℕ} (hl : total≤4096*n) (left : ℕ) :
    ∀ {disk : Disk} (curr skipped : ℕ), Placed disk.bytes i n → curr≤total →
    (∀ k, curr≤k → k<total →
      buf (skipped+bufferIndex curr k)=buf' (skipped+bufferIndex curr k)) →
    writeLoop (nodeOffset i) buf total left curr skipped disk=
      writeLoop (nodeOffset i) buf' total left curr skipped disk := by
  induction left with
  | zero =>
    intro disk curr skipped _ _ _
    rfl
  | succ left ih =>
    intro disk curr skipped h hc hsame
    have hb := h.blocks_le
    unfold writeLoop
    by_cases hcurr : curr<total
    · have hpiece := fillPiece_mapped h.mapped hcurr hl (fun k => buf (skipped+k))
      have hpiece' := fillPiece_mapped h.mapped hcurr hl (fun k => buf' (skipped+k))
      have hmid := placed_filled (written_blit h hcurr hl (fun k => buf (skipped+k))).filled h
      have hround : (curr : ℤ)%18446744073709551616<total := by omega
      have hblit : blit disk.bytes (4096*(pnumAt disk.bytes i (curr/4096)).toNat+curr%4096)
          (min ((curr/4096+1)*4096) total-curr) (fun k => buf' (skipped+k))=
          blit disk.bytes (4096*(pnumAt disk.bytes i (curr/4096)).toNat+curr%4096)
          (min ((curr/4096+1)*4096) total-curr) (fun k => buf (skipped+k)) := by
        funext address
        unfold blit
        split
        · rename_i hin
          have hbyte := hsame (curr+(address-(4096*(pnumAt disk.bytes i (curr/4096)).toNat+
            curr%4096))) (by omega) (by omega)
          rw [bufferIndex_first (by omega),Nat.add_sub_cancel_left] at hbyte
          exact hbyte.symm
        · rfl
      rw [hblit] at hpiece'
      rw [if_pos hround,if_pos hround,bind_of_ok hpiece,bind_of_ok hpiece',
        pieceEnd_eq hcurr (by omega)]
      refine ih (min ((curr/4096+1)*4096) total) (skipped+4096) hmid
        (Nat.min_le_right _ _) (fun k hlk hrk => ?_)
      have hmin : min ((curr/4096+1)*4096) total=(curr/4096+1)*4096 := by omega
      rw [hmin] at hlk ⊢
      have hbyte := hsame k (by omega) hrk
      rw [bufferIndex_later hlk,←Nat.add_assoc] at hbyte
      exact hbyte
    · rw [if_neg (by omega),if_neg (by omega)]

end Loops

end ComputerSystems.NufsContent
