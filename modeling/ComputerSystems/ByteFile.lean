import ComputerSystems.ByteMemory
import Mathlib.Data.List.GetD

/-!
# Files as byte sequences

A file is the list of its bytes. A write at a position replaces bytes there,
extends the file when it ends past the old end, and fills a gap with zeros;
numbers are stored least significant byte first, one record after the other.
The module names no particular program.
-/

namespace ComputerSystems.ByteFile

open ByteMemory

/-- The contents of a file. -/
abbrev File := List UInt8

/-- A mapped file reads as zero past its end. -/
def fileMemory (file : File) : Bytes := fun address => file.getD address 0

/-- The little-endian bytes of a number. -/
def leBytes (count value : ℕ) : List UInt8 :=
  (List.range count).map (fun k => UInt8.ofNat (value/256^k))

/-- Numbers of one width, one after the other. -/
def records (width : ℕ) (values : List ℕ) : File := values.flatMap (leBytes width)

/-- `write` of some bytes at a position of the file. -/
def writeAt (file : File) (position : ℕ) (bytes : List UInt8) : File :=
  (file++List.replicate (position-file.length) 0).take position++bytes++
    file.drop (position+bytes.length)

@[simp] theorem length_leBytes (count value : ℕ) : (leBytes count value).length=count := by
  rw [leBytes,List.length_map,List.length_range]

@[simp] theorem length_records (width : ℕ) (values : List ℕ) :
    (records width values).length=width*values.length := by
  induction values with
  | nil => rfl
  | cons value rest ih =>
    change (leBytes width value++records width rest).length=_
    rw [List.length_append,length_leBytes,ih,List.length_cons,Nat.mul_succ,Nat.add_comm]

/-- A write extends the file exactly when it ends past the end. -/
theorem length_writeAt (file : File) (position : ℕ) (bytes : List UInt8) :
    (writeAt file position bytes).length=max file.length (position+bytes.length) := by
  simp only [writeAt,List.length_append,List.length_take,List.length_drop,List.length_replicate]
  omega

/-- Some of the bytes of a number stored anywhere in a file spell a part of it. -/
theorem wordAt_leBytes (front back : File) {count offset size : ℕ} (value : ℕ)
    (hsize : offset+size≤count) :
    wordAt (fileMemory (front++leBytes count value++back)) (front.length+offset) size=
      value/256^offset%256^size := by
  refine wordAt_digits _ front.length value size offset (fun k hk => ?_)
  have hinside : offset+k<(leBytes count value).length := by
    rw [length_leBytes]
    omega
  rw [fileMemory,Nat.add_assoc,List.append_assoc,List.getD_append_right _ _ _ _ (by omega),
    Nat.add_sub_cancel_left,List.getD_append _ _ _ _ hinside]
  rw [leBytes,List.getD_eq_getElem?_getD,List.getElem?_map,List.getElem?_range (by omega)]
  rfl

/-- One record stands between those before and those after it. -/
theorem records_split (width : ℕ) (values : List ℕ) {k : ℕ} (hk : k<values.length) :
    records width values=records width (values.take k)++leBytes width (values.get ⟨k,hk⟩)++
      records width (values.drop (k+1)) := by
  have hsplit : values=values.take k++(values.get ⟨k,hk⟩::values.drop (k+1)) := by
    rw [List.get_eq_getElem,←List.drop_eq_getElem_cons hk,List.take_append_drop]
  conv_lhs => rw [hsplit]
  simp only [records,List.flatMap_append,List.flatMap_cons,List.append_assoc]

end ComputerSystems.ByteFile
