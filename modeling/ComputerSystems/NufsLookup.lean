import ComputerSystems.NufsSettled

/-!
# When `tree_lookup` answers

The loop of `tree_lookup` hands the result of each lookup to `get_inode` for the
next one, error codes included, and `get_inode` aborts on everything but the
numbers of inodes. So a path has an answer exactly when every component but the
last is found; a missing last component gives `-ENOENT`, a missing component
before it stops the program.
-/

namespace ComputerSystems.NufsLookup

open StateProgram ByteMemory NufsImage NufsInode NufsOwnership NufsPath NufsDirectory NufsStorage
open NufsCalls NufsListing NufsNamespace NufsFolders NufsSettled

/-- Looking up the components one after the other, from the root, finds a number. -/
inductive Found (disk : Disk) : List Component → ℤ → Prop
  /-- The root is inode 0. -/
  | root : Found disk [] 0
  /-- One more component is found in the inode found before. -/
  | next {front : List Component} {last : Component} {d : ℕ} {inum : ℤ} (hfront : Found disk front d)
      (hd : d<64) (hlook : directoryLookup (nodeOffset d) last.bytes disk=.ok inum disk)
      (hinum : 0 ≤ inum) : Found disk (front++[last]) inum

/-- A component, the last or an earlier one, is missing. -/
def Lacks (disk : Disk) (path : List Component) : Prop :=
  ∃ front last rest, path=front++last::rest ∧ ∃ d : ℕ, Found disk front d ∧ d<64 ∧
    directoryLookup (nodeOffset d) last.bytes disk=.ok noEntry disk

/-- `tree_lookup` of a path returns, and never stops at an assertion: what is found
where every component is found, `-ENOENT` where one is missing. -/
structure Answers (disk : Disk) (path : List Component) : Prop where
  /-- The lookup returns. -/
  returns : ∃ code, treeLookup (render path) disk=.ok code disk
  /-- What is found is returned. -/
  found : ∀ inum, Found disk path inum → treeLookup (render path) disk=.ok inum disk
  /-- A missing component is reported. -/
  missing : Lacks disk path → treeLookup (render path) disk=.ok noEntry disk

/-- Every component but the last is found, and the search for the last one returns. -/
def Passes (disk : Disk) (path : List Component) : Prop :=
  ∀ front last, path=front++[last] → ∃ d : ℕ, Found disk front d ∧ d<64 ∧
    ∃ code, directoryLookup (nodeOffset d) last.bytes disk=.ok code disk

section Paths

variable {disk : Disk} {path front : List Component} {inum : ℤ}

/-- What is found is what `tree_lookup` returns: by induction on the components. -/
theorem Found.lookup (h : Found disk path inum) : treeLookup (render path) disk=.ok inum disk := by
  induction h with
  | root => rfl
  | next _ hd hlook _ ih =>
    rw [treeLookup_concat,bind_of_ok ih,bind_of_ok (getInode_ok hd disk)]
    exact hlook

/-- A path is found as one number only. -/
theorem Found.unique (h : Found disk path inum) {other : ℤ} (h' : Found disk path other) :
    inum=other := by
  have hsame := h.lookup.symm.trans h'.lookup
  exact (EStateM.Result.ok.inj hsame).1

/-- `tree_lookup` of a path returns where the components before the last lead to an
inode and the search there returns. -/
theorem treeLookup_returned {last : Component} {code : ℤ}
    (h : treeLookup (render (front++[last])) disk=.ok code disk) :
    ∃ d : ℕ, treeLookup (render front) disk=.ok (d : ℤ) disk ∧ d<64 ∧
      directoryLookup (nodeOffset d) last.bytes disk=.ok code disk := by
  rw [treeLookup_concat] at h
  obtain ⟨value,mid,hfront,hrest⟩ := bind_eq_ok.mp h
  have hmid := (treeLookup_readOnly _).eq_of_ok hfront
  rw [hmid] at hfront hrest
  obtain ⟨d,rfl,hd,hlook⟩ := located_returned (treeLookup_range hfront) hrest
  exact ⟨d,hfront,hd,hlook⟩

/-- A number that `tree_lookup` returns was found: by induction on the components. -/
theorem found_of_lookup : ∀ (path : List Component) {i : ℕ},
    treeLookup (render path) disk=.ok (i : ℤ) disk → Found disk path i := by
  intro path
  induction path using List.reverseRecOn with
  | nil =>
    intro i h
    have hzero := (pure_eq_ok.mp (show (pure 0 : Nufs ℤ) disk=.ok (i : ℤ) disk from h)).1
    rw [hzero]
    exact Found.root
  | append_singleton front last ih =>
    intro i h
    obtain ⟨d,hfront,hd,hlook⟩ := treeLookup_returned h
    exact Found.next (ih hfront) hd hlook (Int.natCast_nonneg i)

/-- Shorter paths of a path that is found lead to inodes: by induction on the
components. -/
theorem Found.shorter (h : Found disk path inum) (hf : front<+:path) (hne : front≠path) :
    ∃ d : ℕ, Found disk front d ∧ d<64 := by
  induction h with
  | root => exact absurd (List.prefix_nil.mp hf) hne
  | @next before last d inum hfront hd _ _ ih =>
    rcases List.prefix_concat_iff.mp hf with heq|hshort
    · exact absurd heq hne
    · by_cases hsame : front=before
      · rw [hsame]
        exact ⟨d,hfront,hd⟩
      · exact ih hshort hsame

/-- What `tree_lookup` returns behind a path that is found. -/
theorem treeLookup_behind {d : ℕ} (hfront : Found disk front d) (hd : d<64) (last : Component) :
    treeLookup (render (front++[last])) disk=directoryLookup (nodeOffset d) last.bytes disk := by
  rw [treeLookup_concat,bind_of_ok hfront.lookup,bind_of_ok (getInode_ok hd disk)]

/-- A component that is missing is not found. -/
theorem not_found_of_missing {d e : ℕ} {last : Component} (hfront : Found disk front d) (hd : d<64)
    (hlook : directoryLookup (nodeOffset d) last.bytes disk=.ok noEntry disk) :
    ¬Found disk (front++[last]) e := by
  intro hfound
  have hsame := hfound.lookup
  rw [treeLookup_behind hfront hd,hlook] at hsame
  have hcode := (EStateM.Result.ok.inj hsame).1
  unfold noEntry at hcode
  omega

/-- A path with an answer passes. -/
theorem passes_of_returns {code : ℤ} (h : treeLookup (render path) disk=.ok code disk) :
    Passes disk path := by
  rintro front last rfl
  obtain ⟨d,hfront,hd,hlook⟩ := treeLookup_returned h
  exact ⟨d,found_of_lookup front hfront,hd,code,hlook⟩

/-- A path that passes has an answer. -/
theorem answers_of_passes (h : Passes disk path) : Answers disk path := by
  refine ⟨?_,fun inum hfound => hfound.lookup,?_⟩
  · rcases List.eq_nil_or_concat path with rfl|⟨front,last,rfl⟩
    · exact ⟨0,Found.root.lookup⟩
    · obtain ⟨d,hfound,hd,code,hlook⟩ := h front last (List.concat_eq_append ..)
      refine ⟨code,?_⟩
      rw [List.concat_eq_append,treeLookup_behind hfound hd]
      exact hlook
  · rintro ⟨front,last,rest,rfl,d,hfound,hd,hlook⟩
    rcases List.eq_nil_or_concat rest with rfl|⟨between,final,rfl⟩
    · rw [treeLookup_behind hfound hd]
      exact hlook
    · obtain ⟨e,hlonger,-⟩ := h (front++last::between) final (by simp)
      have hpre : front++[last]<+:front++last::between :=
        (List.prefix_append_right_inj front).mpr (List.prefix_append [last] between)
      by_cases hsame : front++[last]=front++last::between
      · rw [←hsame] at hlonger
        exact absurd hlonger (not_found_of_missing hfound hd hlook)
      · obtain ⟨e',hshort,-⟩ := hlonger.shorter hpre hsame
        exact absurd hshort (not_found_of_missing hfound hd hlook)

/-- A path has an answer exactly when it passes. -/
theorem answers_iff_passes : Answers disk path ↔ Passes disk path :=
  ⟨fun h => h.returns.elim (fun _ hcode => passes_of_returns hcode),answers_of_passes⟩

/-- In the image of a regular run a path that leads through directories passes when
every shorter path is found. -/
theorem passes_iff_of_settled (h : Settled disk.bytes)
    (hdirs : ∀ front, front<+:path → front≠path → ∀ d : ℕ, Found disk front d → Folder disk.bytes d) :
    Passes disk path ↔ ∀ front, front<+:path → front≠path → ∃ d : ℕ, Found disk front d := by
  constructor
  · intro hpass front hf hne
    rcases List.eq_nil_or_concat path with rfl|⟨before,last,rfl⟩
    · exact absurd (List.prefix_nil.mp hf) hne
    · rw [List.concat_eq_append] at hpass hf hne
      obtain ⟨d,hfound,-⟩ := hpass before last rfl
      rcases List.prefix_concat_iff.mp hf with heq|hshort
      · exact absurd heq hne
      · by_cases hsame : front=before
        · rw [hsame]
          exact ⟨d,hfound⟩
        · obtain ⟨e,hshorter,-⟩ := hfound.shorter hshort hsame
          exact ⟨e,hshorter⟩
  · rintro hall front last rfl
    obtain ⟨d,hfound⟩ := hall front (List.prefix_append _ _) (by simp)
    have hd := hdirs front (List.prefix_append _ _) (by simp) d hfound
    exact ⟨d,hfound,hd.1.1,_,directoryLookup_folder h.filed h.consistent hd last⟩

end Paths

/-- On every image `tree_lookup` answers a path exactly when every component but the
last is found and the search for the last one returns; in every state of a run of
regular calls, where a path leads through directories, exactly when every component
but the last is found. -/
theorem treeLookup_answers_iff (disk : Disk) (path : List Component) :
    (Answers disk path ↔ Passes disk path) ∧
    (Reachable Regular disk →
      (∀ front, front<+:path → front≠path → ∀ d : ℕ, Found disk front d → Folder disk.bytes d) →
      (Answers disk path ↔ ∀ front, front<+:path → front≠path → ∃ d : ℕ, Found disk front d)) := by
  refine ⟨answers_iff_passes,fun h hdirs => ?_⟩
  rw [answers_iff_passes]
  exact passes_iff_of_settled (settled_of_reachable (fun _ _ hc => hc) h) hdirs

/-- In a fresh image the path `/a` has an answer. -/
theorem answers_placeA : Answers fresh [nameA] := by
  have hroot : Folder fresh.bytes 0 := by decide +kernel
  have hshort : ∀ front, front<+:[nameA] → front≠[nameA] → front=[] := by
    intro front hf hne
    rcases (@List.prefix_concat_iff _ _ [] _).mp hf with heq|hnil
    · exact absurd heq hne
    · exact List.prefix_nil.mp hnil
  refine ((treeLookup_answers_iff fresh [nameA]).2 .refl (fun front hf hne d hfound => ?_)).mpr
    (fun front hf hne => ?_)
  · rw [hshort front hf hne] at hfound
    rw [show d=0 from Int.ofNat_inj.mp (hfound.unique Found.root)]
    exact hroot
  · rw [hshort front hf hne]
    exact ⟨0,Found.root⟩

/-- The path `/a/b` stops the program there. -/
theorem missing_parent_aborts : Reachable Regular fresh ∧ Lacks fresh [nameA,nameB] ∧
    (∀ code, treeLookup (render [nameA,nameB]) fresh≠.ok code fresh) ∧
    ¬Answers fresh [nameA,nameB] := by
  have hlook : directoryLookup (nodeOffset 0) nameA.bytes fresh=.ok noEntry fresh :=
    (directoryLookup_readOnly _ _).returns (by decide +kernel)
  have hstops : passes (treeLookup (render [nameA,nameB])) fresh (fun _ _ => true)=false := by
    decide +kernel
  have hnever : ∀ code, treeLookup (render [nameA,nameB]) fresh≠.ok code fresh := by
    intro code hcode
    unfold passes at hstops
    rw [hcode] at hstops
    cases hstops
  refine ⟨.refl,⟨[],nameA,[nameB],rfl,0,Found.root,by decide,hlook⟩,hnever,fun hanswers => ?_⟩
  obtain ⟨code,hcode⟩ := hanswers.returns
  exact hnever code hcode

end ComputerSystems.NufsLookup
