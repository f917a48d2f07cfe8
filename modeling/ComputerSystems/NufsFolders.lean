import ComputerSystems.NufsRefinement

/-!
# Directories beside files

Images reached by writes hold files whose bytes are no entries. Here an image
is seen as the catalogue of its marked directories only: every one of them is
packed in its first page, and files may be of any size. The building blocks of
the calls act on this view as on catalogues, `tree_lookup` finds what the view
resolves as long as every directory on the way is one, and writing a file
leaves the view alone.
-/

namespace ComputerSystems.NufsFolders

open StateProgram ByteMemory PackedList DirectoryTree NufsImage NufsInode NufsPath NufsDirectory
  NufsStorage NufsCalls NufsOwnership NufsResize NufsFrame NufsEntry NufsSound NufsIsolation
  NufsListing NufsCatalog NufsNamespace NufsLifetime NufsRefinement

/-! ## The view -/

/-- A marked directory. -/
def Folder (memory : Bytes) (d : ℕ) : Prop := Live memory d ∧ Directory memory d

/-- Being a marked directory is decided by one bit and the mode. -/
instance (memory : Bytes) (d : ℕ) : Decidable (Folder memory d) :=
  inferInstanceAs (Decidable (Live memory d ∧ Directory memory d))

/-- The catalogue of the marked directories of an image. -/
def folders (memory : Bytes) : Catalog :=
  {catalog memory with entries := fun l => if Folder memory l then entriesAt memory l else []}

/-- The layout kept beside files: marked directories are packed in one page
each and hold names of at most 47 bytes, and marked inodes know their numbers. -/
structure Filed (memory : Bytes) : Prop where
  /-- The ownership invariant. -/
  sound : Sound memory
  /-- Marked inodes hold their own numbers. -/
  number : ∀ i, Live memory i → inumAt memory i=i
  /-- Directories have at most 64 entries. -/
  size : ∀ d, Folder memory d → ∃ count≤64, sizeAt memory d=((64*count : ℕ) : ℤ)
  /-- Names are components of at most 47 bytes. -/
  name : ∀ d, Folder memory d → ∀ entry∈entriesAt memory d,
    ∃ component : Component, entry.name=component.bytes ∧ component.bytes.length≤47

section Filed

variable {memory : Bytes} {d : ℕ}

/-- The entries of a directory in the view. -/
theorem folders_entries (h : Folder memory d) : (folders memory).entries d=entriesAt memory d :=
  if_pos h

/-- What is no directory has no entries in the view. -/
theorem folders_nil (h : ¬Folder memory d) : (folders memory).entries d=[] := if_neg h

/-- The reference counts of the view. -/
theorem folders_refs (memory : Bytes) {i : ℕ} (hi : i<64) :
    (folders memory).refs i=refsAt memory i := if_pos hi

/-- Directories of the view that are marked are directories of the image. -/
theorem folder_iff : (folders memory).live d ∧ (folders memory).folder d ↔ Folder memory d := by
  constructor
  · rintro ⟨hl,_,hd⟩
    exact ⟨hl,hd⟩
  · rintro ⟨hl,hd⟩
    exact ⟨hl,hl.1,hd⟩

/-- The sizes of directories. -/
theorem Filed.size_le (h : Filed memory) (hd : Folder memory d) : sizeAt memory d≤4096 := by
  obtain ⟨count,hle,hs⟩ := h.size d hd
  omega

/-- Directories can be listed. -/
theorem Filed.listable (h : Filed memory) (hd : Folder memory d) : Listable memory d where
  index := hd.1.1
  size := h.size d hd
  page := fun hpos => (h.sound.first_page hd.1 hpos).2
  names := by
    intro entry he
    obtain ⟨component,hn,hl⟩ := h.name d hd entry he
    rw [hn]
    omega

/-- A directory of the view after a step, when its marks and mode come from one
before and its entries are old ones, none or one more. -/
theorem Filed.of_step {next : Bytes} (h : Filed memory) (hs : Sound next)
    (hn : ∀ i, Live next i → inumAt next i=i)
    (hd : ∀ d, Folder next d → (∃ count≤64, sizeAt next d=((64*count : ℕ) : ℤ)) ∧
      ∀ entry∈entriesAt next d, (∃ l, Folder memory l ∧ entry∈entriesAt memory l) ∨
        ∃ component : Component, entry.name=component.bytes ∧ component.bytes.length≤47) :
    Filed next where
  sound := hs
  number := hn
  size := fun d hf => (hd d hf).1
  name := by
    intro d hf entry he
    rcases (hd d hf).2 entry he with ⟨l,hl,hm⟩|hnew
    · exact h.name l hl entry hm
    · exact hnew

end Filed

/-! ## Building blocks -/

section Blocks

variable {memory grown : Bytes} {d i j count ii : ℕ} {component : Component} {name : List UInt8}

/-- Writing a reference count keeps the marked directories. -/
theorem folder_putRefs (memory : Bytes) (i l : ℕ) (value : ℤ) :
    Folder (putInt memory (4096+64*i+4) value) l ↔ Folder memory l := by
  unfold Folder Directory modeAt
  rw [live_putRefs,intAt_putInt_apart _ _ (by omega)]

/-- Writing a reference count keeps the layout. -/
theorem filed_putRefs (h : Filed memory) (hi : i<64) (value : ℤ) :
    Filed (putInt memory (4096+64*i+4) value) := by
  refine h.of_step (sound_refs h.sound hi value) (fun l hl => ?_) (fun l hl => ?_)
  · exact (intAt_putInt_apart _ _ (by omega)).trans
      (h.number l ((live_putRefs memory i l value).mp hl))
  · have hold := (folder_putRefs memory i l value).mp hl
    rw [size_putRefs,putRefs_listing h.sound hi value (h.size_le hold) (fun _ => hold.1)]
    exact ⟨h.size l hold,fun entry he => .inl ⟨l,hold,he⟩⟩

/-- The view after writing a reference count. -/
theorem folders_putRefs (h : Filed memory) (hi : i<64) {change : ℤ}
    (hr : -2147483648≤refsAt memory i+change ∧ refsAt memory i+change<2147483648) :
    folders (putInt memory (4096+64*i+4) (refsAt memory i+change))=(folders memory).count i change := by
  obtain ⟨hlive,hfolder,hrefs⟩ := putRefs_alike memory hi hr
  refine Catalog.Alike.eq_of_entries ⟨hlive,hfolder,hrefs⟩ (funext (fun l => ?_))
  simp only [Catalog.count]
  by_cases hl : Folder memory l
  · rw [folders_entries hl,folders_entries ((folder_putRefs memory i l _).mpr hl)]
    exact putRefs_listing h.sound hi _ (h.size_le hl) (fun _ => hl.1)
  · rw [folders_nil hl,folders_nil (fun hx => hl ((folder_putRefs memory i l _).mp hx))]

/-- Marked directories after creating an inode. -/
theorem folder_created (memory : Bytes) (mode : ℤ) (hi : i<64) {l : ℕ} (hne : l≠i) :
    Folder (created memory i mode) l ↔ Folder memory l := by
  have hm : modeAt (created memory i mode) l=modeAt memory l :=
    created_field_other mode memory hi 8 hne (by omega)
  unfold Folder Directory
  rw [created_live mode memory hi,hm]
  simp only [hne,false_or]

/-- Creating an inode keeps the layout. -/
theorem filed_created (mode : ℤ) (h : Filed memory) (hi : i<64) (hf : inodeBit memory i=false) :
    Filed (created memory i mode) := by
  have hfields := created_fields mode memory hi
  refine h.of_step (sound_created mode h.sound hi hf) (fun l hl => ?_) (fun l hl => ?_)
  · by_cases he : l=i
    · rw [he]
      exact hfields.1
    · have hold := ((created_live mode memory hi l).mp hl).resolve_left he
      exact (created_field_other mode memory hi 0 he (by omega)).trans (h.number l hold)
  · by_cases he : l=i
    · rw [he,hfields.2.2.2,created_empty mode memory hi]
      exact ⟨⟨0,by omega,rfl⟩,fun entry hm => absurd hm List.not_mem_nil⟩
    · have hold := (folder_created memory mode hi he).mp hl
      have hs : sizeAt (created memory i mode) l=sizeAt memory l :=
        created_field_other mode memory hi 12 he (by omega)
      rw [hs,created_listing mode h.sound hi he (h.size_le hold) (fun _ => hold.1)]
      exact ⟨h.size l hold,fun entry hm => .inl ⟨l,hold,hm⟩⟩

/-- The view after creating an inode. -/
theorem folders_created (mode : ℤ) (h : Filed memory) (hi : i<64) (hf : inodeBit memory i=false) :
    folders (created memory i mode)=(folders memory).create i (IsFolder (wrap32 mode)) := by
  obtain ⟨hlive,hfolder,hrefs⟩ := created_alike mode memory hi
  refine Catalog.Alike.eq_of_entries ⟨hlive,hfolder,hrefs⟩ (funext (fun l => ?_))
  simp only [Catalog.create]
  by_cases he : l=i
  · have hdead : ¬Folder memory l := by
      rintro ⟨⟨_,hb⟩,_⟩
      rw [he,hf] at hb
      cases hb
    rw [folders_nil hdead,he]
    simp only [folders,created_empty mode memory hi,ite_self]
  · by_cases hl : Folder memory l
    · rw [folders_entries hl,folders_entries ((folder_created memory mode hi he).mpr hl)]
      exact created_listing mode h.sound hi he (h.size_le hl) (fun _ => hl.1)
    · rw [folders_nil hl,folders_nil (fun hx => hl ((folder_created memory mode hi he).mp hx))]

/-- Marked directories after an insertion. -/
theorem Entering.folder_next (hi : Entering memory grown d j count name) {l : ℕ} :
    Folder (entered memory grown d j (64*count) name) l ↔ Folder memory l := by
  unfold Folder
  rw [hi.lives]
  refine and_congr_right (fun hl => ?_)
  rw [Directory,modeAt,hi.field 8 hl.1 (by omega) (by omega)]
  rfl

/-- An insertion keeps an image sound. -/
theorem Entering.sound_next (hi : Entering memory grown d j count name) :
    Sound (entered memory grown d j (64*count) name) := by
  have hroom := hi.room
  exact sound_entered hi.sound hi.live hi.size (by omega) hi.index hi.grown hi.short

/-- An insertion keeps the layout. -/
theorem Entering.filed_next (hi : Entering memory grown d j count component.bytes)
    (h : Filed memory) (hd : Folder memory d) (hshort : component.bytes.length≤47) :
    Filed (entered memory grown d j (64*count) component.bytes) := by
  have hroom := hi.room
  refine h.of_step (Entering.sound_next hi) (fun l hl => ?_) (fun l hl => ?_)
  · exact (hi.field 0 hl.1 (by omega) (by omega)).trans (h.number l ((hi.lives l).mp hl))
  · have hold := (Entering.folder_next hi).mp hl
    rw [hi.sizes hl.1.1]
    by_cases he : l=d
    · rw [if_pos he,he,hi.listing (by omega) (fun byte hb => (component.plain byte hb).1)]
      refine ⟨⟨count+1,by omega,rfl⟩,fun entry hm => ?_⟩
      rcases List.mem_append.mp hm with hm|hm
      · exact .inl ⟨d,hd,hm⟩
      · rw [List.mem_singleton.mp hm]
        exact .inr ⟨component,rfl,hshort⟩
    · rw [if_neg he,hi.others hl.1.1 he (h.size_le hold) (fun _ => hold.1)]
      exact ⟨h.size l hold,fun entry hm => .inl ⟨l,hold,hm⟩⟩

/-- The view after an insertion. -/
theorem Entering.folders_next (hi : Entering memory grown d j count component.bytes)
    (h : Filed memory) (hd : Folder memory d) (hshort : component.bytes.length≤47)
    (hr : refsAt memory j+1<2147483648) :
    folders (entered memory grown d j (64*count) component.bytes)=
      (folders memory).put d component.bytes j := by
  obtain ⟨hlive,hfolder,hrefs⟩ := hi.alike hr
  refine Catalog.Alike.eq_of_entries ⟨hlive,hfolder,hrefs⟩ (funext (fun l => ?_))
  simp only [Catalog.put,Catalog.count,Catalog.append]
  by_cases hl : Folder memory l
  · rw [folders_entries ((Entering.folder_next hi).mpr hl)]
    by_cases he : l=d
    · rw [he,Function.update_self,folders_entries hd,
        hi.listing (by omega) (fun byte hb => (component.plain byte hb).1)]
    · rw [Function.update_of_ne he,folders_entries hl]
      exact hi.others hl.1.1 he (h.size_le hl) (fun _ => hl.1)
  · have hne : l≠d := fun he => hl (he ▸ hd)
    rw [folders_nil (fun hx => hl ((Entering.folder_next hi).mp hx)),Function.update_of_ne hne,
      folders_nil hl]

/-- Marked directories after a removal. -/
theorem Leaving.folder_next (hr : Leaving memory d j count ii)
    (hkept : Directory memory j → 1<refsAt memory j) {l : ℕ} :
    Folder (removed memory d j (64*count) ii) l ↔ Folder memory l := by
  have hmode : l<64 → (Directory (removed memory d j (64*count) ii) l ↔ Directory memory l) := by
    intro hl
    rw [Directory,modeAt,hr.field 8 hl (by omega) (by omega) (by omega)]
    rfl
  unfold Folder
  rw [hr.lives]
  constructor
  · rintro ⟨⟨hl,_⟩,hd⟩
    exact ⟨hl,(hmode hl.1).mp hd⟩
  · rintro ⟨hl,hd⟩
    exact ⟨⟨hl,fun he => hkept (he ▸ hd)⟩,(hmode hl.1).mpr hd⟩

/-- A removal keeps the layout. -/
theorem Leaving.filed_next (hr : Leaving memory d j count ii) (h : Filed memory)
    (hd : Folder memory d) (hkept : Directory memory j → 1<refsAt memory j) :
    Filed (removed memory d j (64*count) ii) := by
  have hfull := hr.full
  have hlen : ii<(entriesAt memory d).length := by
    rw [length_entriesAt hr.size]
    exact hr.bound
  refine h.of_step hr.sound_next (fun l hl => ?_) (fun l hl => ?_)
  · exact (hr.field 0 hl.1 (by omega) (by omega) (by omega)).trans
      (h.number l ((hr.lives l).mp hl).1)
  · have hold := (Leaving.folder_next hr hkept).mp hl
    rw [hr.sizes hl.1.1]
    by_cases he : l=d
    · rw [if_pos he,he,hr.listing]
      exact ⟨⟨count-1,by omega,rfl⟩,fun entry hm => .inl ⟨d,hd,mem_of_mem_swapRemove hlen hm⟩⟩
    · rw [if_neg he,hr.others hl.1.1 he (h.size_le hold) (fun _ => hold.1)]
      exact ⟨h.size l hold,fun entry hm => .inl ⟨l,hold,hm⟩⟩

/-- The view after a removal. -/
theorem Leaving.folders_next (hr : Leaving memory d j count ii) (h : Filed memory)
    (hd : Folder memory d) (hkept : Directory memory j → 1<refsAt memory j) :
    folders (removed memory d j (64*count) ii)=(folders memory).delete d ii j := by
  obtain ⟨hlive,hfolder,hrefs⟩ := hr.alike
  refine Catalog.Alike.eq_of_entries ⟨hlive,hfolder,hrefs⟩ (funext (fun l => ?_))
  simp only [Catalog.delete,Catalog.count,Catalog.release,Catalog.remove]
  by_cases hl : Folder memory l
  · rw [folders_entries ((Leaving.folder_next hr hkept).mpr hl)]
    by_cases he : l=d
    · rw [he,Function.update_self,folders_entries hd,hr.listing]
    · rw [Function.update_of_ne he,folders_entries hl]
      exact hr.others hl.1.1 he (h.size_le hl) (fun _ => hl.1)
  · have hne : l≠d := fun he => hl (he ▸ hd)
    rw [folders_nil (fun hx => hl ((Leaving.folder_next hr hkept).mp hx)),
      Function.update_of_ne hne,folders_nil hl]

end Blocks

/-! ## Lookups -/

/-- A path resolves to an inode: `tree_lookup` finds it, and on the way it finds
a marked directory for every shorter path. -/
structure Resolves (disk : Disk) (path : List Component) (i : ℕ) : Prop where
  /-- `tree_lookup` finds the inode. -/
  lookup : treeLookup (render path) disk=.ok (i : ℤ) disk
  /-- The paths on the way lead to directories. -/
  through : ∀ front, front<+:path → front≠path →
    ∃ d : ℕ, treeLookup (render front) disk=.ok (d : ℤ) disk ∧ Folder disk.bytes d

/-- A child function that tells what `directory_lookup` finds in the marked
directories of an image. -/
structure Guide (disk : Disk) (child : ℕ → Component → Option ℕ) : Prop where
  /-- Lookups find the children. -/
  lookup : ∀ d, Folder disk.bytes d → ∀ label : Component,
    directoryLookup (nodeOffset d) label.bytes disk=.ok (foundCode (child d label)) disk
  /-- Only marked directories have children. -/
  folder : ∀ d label j, child d label=some j → Folder disk.bytes d

section Lookup

variable {disk : Disk} {c : Catalog} {child : ℕ → Component → Option ℕ} {d j : ℕ}
  {component : Component}

/-- Only marked directories have children. -/
theorem holder_of_child (hc : Consistent c) (h : childAt c d component=some j) :
    c.live d ∧ c.folder d := by
  refine hc.holder d (fun he => ?_)
  rw [childAt,he] at h
  cases h

/-- `directory_lookup` in a marked directory returns the child, or `-ENOENT`. -/
theorem directoryLookup_folder (h : Filed disk.bytes) (hc : Consistent (folders disk.bytes))
    (hd : Folder disk.bytes d) (component : Component) :
    directoryLookup (nodeOffset d) component.bytes disk=
      .ok (foundCode (childAt (folders disk.bytes) d component)) disk := by
  rw [directoryLookup_eq (h.listable hd) (fun byte hb => (component.plain byte hb).1),
    ←folders_entries hd,hc.lookupCode_child]

/-- `tree_lookup` of a name in a directory that a path leads to. -/
theorem Guide.treeLookup (hg : Guide disk child)
    {front : List Component} (hl : NufsDirectory.treeLookup (render front) disk=.ok (d : ℤ) disk)
    (hd : Folder disk.bytes d) (last : Component) :
    NufsDirectory.treeLookup (render (front++[last])) disk=.ok (foundCode (child d last)) disk := by
  rw [treeLookup_concat,bind_of_ok hl,bind_of_ok (getInode_ok hd.1.1 disk)]
  exact hg.lookup d hd last

/-- A path that resolves is walked along the children: by induction on the path. -/
theorem Guide.walk_of_resolves (hg : Guide disk child) :
    ∀ (path : List Component) {i : ℕ}, Resolves disk path i → walk child 0 path=some i := by
  intro path
  induction path using List.reverseRecOn with
  | nil =>
    intro i hr
    have hz := (pure_eq_ok.mp (show (pure 0 : Nufs ℤ) disk=.ok (i : ℤ) disk from hr.lookup)).1
    rw [show i=0 by omega]
    rfl
  | append_singleton front last ih =>
    intro i hr
    obtain ⟨d,hl,hd⟩ := hr.through front (List.prefix_append _ _) (by simp)
    have hfront : Resolves disk front d := by
      refine ⟨hl,fun short hs hne => hr.through short (hs.trans (List.prefix_append _ _)) ?_⟩
      rintro rfl
      have hlen := hs.length_le
      simp at hlen
    have hcode := hr.lookup
    rw [hg.treeLookup hl hd last] at hcode
    have hx := (EStateM.Result.ok.inj hcode).1
    rw [walk_concat,ih hfront,Option.bind_some]
    cases hf : child d last with
    | none =>
      rw [hf] at hx
      exact absurd hx (by simp only [foundCode,noEntry]; omega)
    | some j =>
      rw [hf] at hx
      simp only [foundCode] at hx
      rw [show j=i by omega]

/-- `tree_lookup` finds where a walk along the children ends: by induction on the
path. -/
theorem Guide.lookup_of_walk (hg : Guide disk child) :
    ∀ (path : List Component) {i : ℕ}, walk child 0 path=some i →
      NufsDirectory.treeLookup (render path) disk=.ok (i : ℤ) disk := by
  intro path
  induction path using List.reverseRecOn with
  | nil =>
    intro i hr
    rw [walk,Option.some.injEq] at hr
    rw [←hr]
    rfl
  | append_singleton front last ih =>
    intro i hr
    rw [walk_concat,Option.bind_eq_some_iff] at hr
    obtain ⟨d,hd,hchild⟩ := hr
    rw [hg.treeLookup (ih hd) (hg.folder d last i hchild) last,hchild]
    rfl

/-- Paths resolve along the children. -/
theorem Guide.resolves_iff (hg : Guide disk child) {path : List Component} {i : ℕ} :
    Resolves disk path i ↔ walk child 0 path=some i := by
  refine ⟨hg.walk_of_resolves path,fun hr => ⟨hg.lookup_of_walk path hr,?_⟩⟩
  intro front hf hne
  obtain ⟨mid,name,next,hm,hchild⟩ := walk_step hr hf hne
  exact ⟨mid,hg.lookup_of_walk front hm,hg.folder mid name next hchild⟩

/-- The view guides the lookups of an image of this layout. -/
theorem guide_of_filed (h : Filed disk.bytes) (hc : Consistent (folders disk.bytes)) :
    Guide disk (childAt (folders disk.bytes)) where
  lookup := fun _ hd label => directoryLookup_folder h hc hd label
  folder := fun _ _ _ hchild => folder_iff.mp (holder_of_child hc hchild)

/-- Paths resolve in the image as they do in the view. -/
theorem resolves_iff (h : Filed disk.bytes) (hc : Consistent (folders disk.bytes))
    {path : List Component} {i : ℕ} :
    Resolves disk path i ↔ resolveAt (folders disk.bytes) path=some i :=
  (guide_of_filed h hc).resolves_iff

/-- A path whose parent resolves to a directory is looked up as in the view. -/
theorem looked_of_resolves (h : Filed disk.bytes) (hc : Consistent (folders disk.bytes))
    {place : Location Component} (hr : Resolves disk place.parent d) (hd : Folder disk.bytes d) :
    Looked disk (folders disk.bytes) place d := by
  obtain ⟨hlive,hfolder⟩ := folder_iff.mpr hd
  refine ⟨⟨(resolves_iff h hc).mp hr,hlive,hfolder⟩,?_,?_,?_⟩
  · rw [pathOf,dirname_render]
    exact hr.lookup
  · rw [pathOf,basename_render]
    exact directoryLookup_folder h hc hd place.base
  · exact (guide_of_filed h hc).treeLookup hr.lookup hd place.base

end Lookup

/-! ## The layout -/

/-- Images of this layout act on the calls as their views do; an entry can be
taken out where that frees nothing in use. -/
theorem folders_layout : Layout Filed folders DeleteFits where
  marks := fun _ => rfl
  create := fun _ _ mode h hi hf => ⟨filed_created mode h hi hf,folders_created mode h hi hf⟩
  count := by
    intro memory i change h hi hl hr
    rw [folders_refs memory hi] at hl hr
    exact ⟨filed_putRefs h hi _,folders_putRefs h hi ⟨hl,hr⟩⟩
  put := by
    intro disk d j component h hd hfolder hroom hj hshort hrefs
    have hf := folder_iff.mp ⟨hd,hfolder⟩
    rw [folders_refs disk.bytes hj] at hrefs
    rw [folders_entries hf] at hroom
    obtain ⟨count,_,hs⟩ := h.size d hf
    rw [length_entriesAt hs] at hroom
    refine (directoryPut_entering disk h.sound hf.1 hs hroom hj (by omega)).weaken
      (fun result next hpost => ?_)
    obtain ⟨hz,grown,he,hn⟩ := hpost
    rw [hn]
    exact ⟨hz,Entering.filed_next he h hf hshort,Entering.folders_next he h hf hshort hrefs⟩
  delete := by
    intro disk d j component h hsafe hf hj hcounted hkept
    have hj' : Live disk.bytes j := hj
    have hfolder : Folder disk.bytes d := by
      by_contra hd
      rw [folders_nil hd] at hf
      cases hf
    rw [folders_refs disk.bytes hj'.1] at hcounted hkept
    rw [folders_entries hfolder] at hf
    obtain ⟨count,hle,hs⟩ := h.size d hfolder
    have hshrink := hsafe.safe
    rw [hs,Int.toNat_natCast] at hshrink
    have hkept' : Directory disk.bytes j → 1<refsAt disk.bytes j := fun hx => hkept ⟨hj'.1,hx⟩
    obtain ⟨hr,hdelete⟩ := directoryDelete_leaving disk h.sound hfolder.1 (h.listable hfolder) hs hf
      hj (h.number j hj) hcounted hshrink
    refine ⟨_,hdelete,Leaving.filed_next hr h hfolder hkept',?_⟩
    rw [Leaving.folders_next hr h hfolder hkept',deleteName,folders_entries hfolder]

/-! ## Files -/

/-- A step on one inode that is no directory keeps the layout and the view. -/
theorem filed_of_isolated {memory next : Bytes} {i : ℕ} (h : Filed memory) (hs : Sound next)
    (hi : ¬Directory memory i) (hiso : Isolated memory next i) :
    Filed next ∧ folders next=folders memory := by
  obtain ⟨htable,hkept⟩ := hiso
  have hmode : ∀ l, l<64 → (Directory next l ↔ Directory memory l) := by
    intro l hl
    rw [Directory,modeAt,htable.field 8 hl (by omega)]
    rfl
  have hfolder : ∀ l, Folder next l ↔ Folder memory l := by
    intro l
    unfold Folder
    rw [htable.live]
    exact and_congr_right (fun hl => hmode l hl.1)
  have hentries : ∀ l, Folder memory l → sizeAt next l=sizeAt memory l ∧
      entriesAt next l=entriesAt memory l := by
    intro l hl
    have hne : l≠i := fun he => hi (he ▸ hl.2)
    have hsize := htable.size hl.1.1 hne
    refine ⟨hsize,entriesAt_congr (h.size_le hl) hsize (fun hpos => ?_)⟩
    obtain ⟨hb,hp⟩ := h.sound.first_page hl.1 hpos
    have hk := hkept l hl.1 hne
    have hpage := hk.slots (.block 0) hb
    have hpnum : pnumAt memory l 0=ptrAt memory l 0 := by
      rw [pnumAt,if_pos (by omega)]
    simp only [Slot.page,pnumAt,if_pos (show 0<2 by omega)] at hpage
    refine ⟨hpage,fun address ha => hk.bytes 0 hb address ?_⟩
    rw [hpnum,ha,Int.toNat_of_nonneg (by omega)]
  refine ⟨h.of_step hs (fun l hl => ?_) (fun l hl => ?_),?_⟩
  · exact (htable.inum hl.1).trans (h.number l (htable.live.mp hl))
  · have hold := (hfolder l).mp hl
    obtain ⟨hsize,hlist⟩ := hentries l hold
    rw [hsize,hlist]
    exact ⟨h.size l hold,fun entry hm => .inl ⟨l,hold,hm⟩⟩
  · refine Catalog.ext (funext (fun l => ?_)) (funext (fun l => propext htable.live))
      (funext (fun l => ?_)) (funext (fun l => ?_))
    · by_cases hl : Folder memory l
      · rw [folders_entries hl,folders_entries ((hfolder l).mpr hl)]
        exact (hentries l hl).2
      · rw [folders_nil hl,folders_nil (fun hx => hl ((hfolder l).mp hx))]
    · exact propext (and_congr_right (fun hl => hmode l hl))
    · simp only [folders,catalog]
      split
      · rename_i hl
        exact htable.field 4 hl (by omega)
      · rfl

end ComputerSystems.NufsFolders
