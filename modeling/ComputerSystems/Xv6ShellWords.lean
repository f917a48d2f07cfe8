import ComputerSystems.Xv6ShellParser

/-!
# Words in the memory of the xv6 shell

`nulterminate` writes its terminators into the line, over signs and white space
that the parser is done with. A word ends at such a character, so that no
terminator falls into a word, and each is read as it stood in the line.
-/

namespace ComputerSystems.Xv6Shell

variable {α β : Type} {P : α → Prop} {line memory : List UInt8} {w : Word} {c : Cmd Word}

/-- The words of a tree, in the order in which they are terminated. -/
def Cmd.words : Cmd α → List α
  | .exec argv => argv
  | .redir cmd file _ _ => cmd.words++[file]
  | .pipe left right => left.words++right.words
  | .list left right => left.words++right.words
  | .back cmd => cmd.words

/-- `nulterminate` terminates word after word. -/
theorem nulterminate_eq (c : Cmd Word) (memory : List UInt8) :
    nulterminate c memory=c.words.foldl (fun memory w => terminate w memory) memory := by
  induction c generalizing memory with
  | exec argv => rfl
  | redir cmd file mode fd ih =>
    rw [nulterminate,Cmd.words,List.foldl_append,ih]
    rfl
  | pipe left right ihl ihr => rw [nulterminate,Cmd.words,List.foldl_append,ihl,ihr]
  | list left right ihl ihr => rw [nulterminate,Cmd.words,List.foldl_append,ihl,ihr]
  | back cmd ih => exact ih memory

/-- All words of a tree are as they should be. -/
theorem Cmd.Fits.words {t : Cmd α} (h : t.Fits P) : ∀ w∈t.words, P w := by
  induction t with
  | exec argv => exact h.2
  | redir cmd file mode fd ih =>
    intro w hw
    rcases List.mem_append.mp hw with hcmd|hfile
    · exact ih h.1 w hcmd
    · rw [List.mem_singleton.mp hfile]
      exact h.2.1
  | pipe left right ihl ihr =>
    intro w hw
    exact (List.mem_append.mp hw).elim (ihl h.1 w) (ihr h.2 w)
  | list left right ihl ihr =>
    intro w hw
    exact (List.mem_append.mp hw).elim (ihl h.1 w) (ihr h.2 w)
  | back cmd ih => exact ih h

theorem map_congr {t : Cmd α} {f g : α → β} (h : ∀ w∈t.words, f w=g w) : t.map f=t.map g := by
  induction t with
  | exec argv => exact congrArg Cmd.exec (List.map_congr_left h)
  | redir cmd file mode fd ih =>
    rw [Cmd.map,Cmd.map,ih fun w hw => h w (List.mem_append_left _ hw),
      h file (List.mem_append_right _ List.mem_cons_self)]
  | pipe left right ihl ihr =>
    rw [Cmd.map,Cmd.map,ihl fun w hw => h w (List.mem_append_left _ hw),
      ihr fun w hw => h w (List.mem_append_right _ hw)]
  | list left right ihl ihr =>
    rw [Cmd.map,Cmd.map,ihl fun w hw => h w (List.mem_append_left _ hw),
      ihr fun w hw => h w (List.mem_append_right _ hw)]
  | back cmd ih => exact congrArg Cmd.back (ih h)

/-! ## The memory of the line -/

/-- The characters of the words are still there. -/
structure Agrees (line memory : List UInt8) : Prop where
  /-- Nothing moved. -/
  length : memory.length=line.length
  /-- The characters of words are those of the line. -/
  kept : ∀ (i : ℕ) (d : UInt8), (line)[i]?=some d → isArg d=true → memory[i]?=some d

/-- A word ends at what does not belong to a word. -/
theorem Stands.end_not_arg (h : Stands line w) {d : UInt8}
    (hd : (line)[line.length-w.eq.length]?=some d) : isArg d=false := by
  obtain ⟨u,hu⟩ := h.inside
  obtain ⟨text,hsplit,-⟩ := h.split
  have hline : line=(u++text)++w.eq := by rw [←hu,hsplit,List.append_assoc]
  have hindex : line.length-w.eq.length=(u++text).length := by
    rw [hline,List.length_append]
    omega
  rw [hindex,hline,List.getElem?_append_right le_rfl,Nat.sub_self] at hd
  exact h.whole d (List.head?_eq_getElem? (l := w.eq) ▸ hd)

/-- A terminator leaves the words. -/
theorem Agrees.terminate (h : Agrees line memory) (hw : Stands line w) :
    Agrees line (terminate w memory) := by
  refine ⟨(List.length_set).trans h.length,fun i d hi hd => ?_⟩
  have hne : memory.length-w.eq.length≠i := by
    rintro rfl
    rw [h.length] at hi
    cases (hw.end_not_arg hi).symm.trans hd
  exact (List.getElem?_set_ne hne).trans (h.kept i d hi hd)

/-- A terminator stays. -/
theorem terminate_stays {i : ℕ} (h : memory[i]?=some 0) : (terminate w memory)[i]?=some 0 := by
  by_cases hi : memory.length-w.eq.length=i
  · subst hi
    exact List.getElem?_set_self (List.getElem?_eq_some_iff.mp h).1
  · exact (List.getElem?_set_ne hi).trans h

/-- After `nulterminate` the words are there, and each is terminated. -/
theorem agrees_foldl {ws : List Word} (h : Agrees line memory) (hws : ∀ w∈ws, Stands line w) :
    Agrees line (ws.foldl (fun memory w => terminate w memory) memory) ∧
      (∀ i : ℕ, memory[i]?=some 0 →
        (ws.foldl (fun memory w => terminate w memory) memory)[i]?=some 0) ∧
      ∀ w∈ws, w.eq≠[] →
        (ws.foldl (fun memory w => terminate w memory) memory)[line.length-w.eq.length]?=some 0 := by
  induction ws generalizing memory with
  | nil =>
    refine ⟨h,fun _ hi => hi,fun w hw => ?_⟩
    cases hw
  | cons v ws ih =>
    obtain ⟨hagrees,hstays,hends⟩ := ih (h.terminate (hws v List.mem_cons_self))
      (fun w hw => hws w (List.mem_cons_of_mem v hw))
    refine ⟨hagrees,fun i hi => hstays i (terminate_stays hi),fun w hw hne => ?_⟩
    rcases List.mem_cons.mp hw with rfl|hw
    · have hpos := List.length_pos_of_ne_nil hne
      have hv := hws w List.mem_cons_self
      obtain ⟨text,hsplit,-⟩ := hv.split
      have hle := hv.inside.length_le
      rw [hsplit,List.length_append] at hle
      refine hstays _ ?_
      rw [←h.length]
      exact List.getElem?_set_self (by rw [h.length]; omega)
    · exact hends w hw hne

/-- The characters between two pointers. -/
theorem text_of_append {w : Word} {text : List UInt8} (h : w.q=text++w.eq) : w.text=text := by
  rw [Word.text,h,List.length_append,Nat.add_sub_cancel]
  exact List.take_left

/-- What is read at a word that is terminated. -/
theorem stringAt_eq (h : Agrees line memory) (hw : Stands line w) (hline : ∀ d∈line, d≠0)
    (hend : w.eq≠[] → memory[line.length-w.eq.length]?=some 0) : stringAt memory w=w.text := by
  obtain ⟨u,hu⟩ := hw.inside
  obtain ⟨text,hsplit,-,hargs⟩ := hw.split
  have htext := text_of_append hsplit
  have hlength : line.length=u.length+(text.length+w.eq.length) := by
    rw [←hu,hsplit,List.length_append,List.length_append]
  have hstart : memory.length-w.q.length=u.length := by
    rw [h.length,hlength,hsplit,List.length_append]
    omega
  have htake : (memory.drop u.length).take text.length=text := by
    refine List.ext_getElem? fun i => ?_
    by_cases hi : i < text.length
    · have hget : (line)[u.length+i]?=some text[i] := by
        rw [←hu,hsplit,List.getElem?_append_right (Nat.le_add_right _ _),Nat.add_sub_cancel_left,
          List.getElem?_append_left hi,List.getElem?_eq_getElem hi]
      rw [List.getElem?_take_of_lt hi,List.getElem?_drop,List.getElem?_eq_getElem hi]
      exact h.kept _ _ hget (hargs _ (List.getElem_mem hi))
    · rw [List.getElem?_eq_none (by rw [List.length_take]; omega),
        List.getElem?_eq_none (Nat.le_of_not_lt hi)]
  have hmemory : memory.drop u.length=text++memory.drop (u.length+text.length) := by
    conv_lhs => rw [←List.take_append_drop text.length (memory.drop u.length)]
    rw [htake,List.drop_drop]
  have hnonzero : ∀ d∈text, decide (d≠0)=true := by
    intro d hd
    refine decide_eq_true (hline d ?_)
    rw [←hu,hsplit]
    exact List.mem_append_right _ (List.mem_append_left _ hd)
  have hstop : (memory.drop (u.length+text.length)).takeWhile (fun c => decide (c≠0))=[] := by
    by_cases hnil : w.eq=[]
    · rw [List.drop_eq_nil_of_le (by rw [h.length,hlength,hnil]; exact Nat.le_of_eq rfl)]
      rfl
    · have hget := hend hnil
      rw [show line.length-w.eq.length=u.length+text.length by omega] at hget
      rw [List.drop_eq_getElem_cons (List.getElem?_eq_some_iff.mp hget).1,
        (List.getElem?_eq_some_iff.mp hget).2]
      rfl
  rw [stringAt,hstart,hmemory,List.takeWhile_append_of_pos hnonzero,hstop,List.append_nil,htext]

/-- The words of a tree are read as they stand in the line. -/
theorem words_read (h : c.Fits (Stands line)) (hline : ∀ d∈line, d≠0) :
    c.map (stringAt (nulterminate c line))=c.map Word.text := by
  have hwords := h.words
  have hline' : Agrees line line := ⟨rfl,fun _ _ hi _ => hi⟩
  obtain ⟨hagrees,-,hends⟩ := agrees_foldl hline' hwords
  rw [←nulterminate_eq] at hagrees hends
  exact map_congr fun w hw => stringAt_eq hagrees (hwords w hw) hline (hends w hw)

end ComputerSystems.Xv6Shell
