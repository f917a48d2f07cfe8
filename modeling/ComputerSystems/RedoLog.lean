import Mathlib.Data.List.Nodup
import Mathlib.Logic.Function.Basic

/-!
# Redo logs

A disk holds a value at every home block, and beside them a log: a header that
lists home blocks, and one slot for each of them. The header decides what the
disk stands for: a listed block stands for its slot, any other block for itself.
A change of one block at a time keeps this reading as long as slots are filled
while the header is empty and listed blocks receive their own slot's value; only
a new header changes it, at once for all listed blocks. This module names no
particular log.
-/

namespace ComputerSystems.RedoLog

variable {κ β : Type*} [DecidableEq κ]

/-- What is on a disk with a redo log. -/
structure Image (κ β : Type*) where
  /-- The home blocks listed in the header. -/
  head : List κ
  /-- The slots of the log. -/
  slot : ℕ → β
  /-- The home blocks. -/
  home : κ → β

/-- What a home block stands for. -/
def Image.logical (d : Image κ β) (k : κ) : β :=
  if k∈d.head then d.slot (d.head.idxOf k) else d.home k

/-- The slots of the listed blocks hold these values. -/
def Image.Filled (d : Image κ β) (l : List κ) (value : κ → β) : Prop :=
  ∀ i (h : i<l.length), d.slot i=value (l.get ⟨i,h⟩)

/-- With an empty header every block stands for itself. -/
theorem Image.logical_empty {d : Image κ β} (h : d.head=[]) (k : κ) : d.logical k=d.home k :=
  if_neg (by rw [h]; exact List.not_mem_nil)

/-- A block that is not listed stands for itself. -/
theorem Image.logical_unlisted {d : Image κ β} {k : κ} (h : k∉d.head) : d.logical k=d.home k :=
  if_neg h

/-- A listed block stands for its slot. -/
theorem Image.logical_listed {d : Image κ β} (hnodup : d.head.Nodup) {i : ℕ}
    (h : i<d.head.length) : d.logical (d.head.get ⟨i,h⟩)=d.slot i := by
  rw [Image.logical,if_pos (List.get_mem d.head ⟨i,h⟩)]
  congr 1
  exact hnodup.idxOf_getElem i h

/-- What filled slots hold is what their blocks stand for. -/
theorem Image.Filled.logical {d : Image κ β} {value : κ → β} (h : d.Filled d.head value) {k : κ}
    (hk : k∈d.head) : d.logical k=value k := by
  have hidx : d.head.idxOf k<d.head.length := List.idxOf_lt_length_iff.mpr hk
  rw [Image.logical,if_pos hk,h _ hidx]
  congr 1
  exact List.getElem_idxOf hidx

/-- Writing a slot changes nothing as long as the header is empty. -/
theorem logical_fill {d d' : Image κ β} {k : κ} (hempty : d.head=[]) (hhead : d'.head=d.head)
    (hhome : d'.home k=d.home k) : d'.logical k=d.logical k := by
  rw [Image.logical_empty hempty,Image.logical_empty (hhead.trans hempty),hhome]

/-- Writing to a listed block changes nothing. -/
theorem logical_install {d d' : Image κ β} {k : κ} (hhead : d'.head=d.head)
    (hslot : ∀ j<d.head.length, d'.slot j=d.slot j) (hhome : k∉d.head → d'.home k=d.home k) :
    d'.logical k=d.logical k := by
  unfold Image.logical
  rw [hhead]
  by_cases hk : k∈d.head
  · rw [if_pos hk,if_pos hk]
    exact hslot _ (List.idxOf_lt_length_iff.mpr hk)
  · rw [if_neg hk,if_neg hk]
    exact hhome hk

/-- A header that lists the changed blocks, with their slots filled, makes the
disk stand for the changed values. -/
theorem logical_commit {d' : Image κ β} {value : κ → β} {k : κ} (hfilled : d'.Filled d'.head value)
    (hrest : k∉d'.head → d'.home k=value k) : d'.logical k=value k := by
  by_cases hk : k∈d'.head
  · exact hfilled.logical hk
  · rw [Image.logical_unlisted hk]
    exact hrest hk

/-- Emptying the header changes nothing once the listed blocks hold what they
stand for. -/
theorem logical_clear {d d' : Image κ β} {k : κ} (hempty : d'.head=[]) (hhome : d'.home k=d.home k)
    (hinstalled : k∈d.head → d.home k=d.logical k) : d'.logical k=d.logical k := by
  rw [Image.logical_empty hempty,hhome]
  by_cases hk : k∈d.head
  · exact hinstalled hk
  · exact (Image.logical_unlisted hk).symm

/-! ## A store with transactions -/

/-- What a log is for: a store whose changes last from a commit on, and are lost
in a crash before it. -/
structure Store (κ β : Type*) where
  /-- The values that survive a crash. -/
  durable : κ → β
  /-- The values with every change made so far. -/
  current : κ → β
  /-- Operations under way. -/
  active : ℕ

/-- What happens to a store. -/
inductive Event (κ β : Type*)
  /-- An operation begins. -/
  | begin
  /-- An operation under way changes a block. -/
  | write (block : κ) (value : β)
  /-- An operation ends. -/
  | finish
  /-- The changes made so far last from here on. -/
  | commit
  /-- What has not been committed is lost, with the operations under way. -/
  | crash

/-- One event. A change needs an operation under way, and while one is under way
nothing is committed, so that of every operation all changes last or none. -/
def Store.step : Event κ β → Store κ β → Option (Store κ β)
  | .begin,a => some {a with active := a.active+1}
  | .write block value,a =>
    if 0<a.active then some {a with current := Function.update a.current block value} else none
  | .finish,a => if 0<a.active then some {a with active := a.active-1} else none
  | .commit,a => if a.active=0 then some {a with durable := a.current} else none
  | .crash,a => some {a with current := a.durable,active := 0}

/-- A store without operations under way. -/
def Store.opened (values : κ → β) : Store κ β := {durable := values,current := values,active := 0}

end ComputerSystems.RedoLog
