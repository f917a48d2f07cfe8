import Mathlib.Data.Finmap
import Mathlib.Tactic.Common

/-!
# Directory trees as finite maps

A tree of directories is a finite map from pairs of a node and a name to
nodes. Paths are resolved by walking from a root; the four operations on names
look their parents up first and report why they did nothing. Nodes and names
are arbitrary; the module names no particular program.
-/

namespace ComputerSystems.DirectoryTree

variable {Node Name : Type}

/-- Follow the names of a path from a node. -/
def walk (child : Node → Name → Option Node) : Node → List Name → Option Node
  | node,[] => some node
  | node,name::rest => (child node name).bind (fun next => walk child next rest)

/-- A path with a last name is followed to its parent first. -/
theorem walk_concat (child : Node → Name → Option Node) (node : Node) (front : List Name)
    (last : Name) :
    walk child node (front++[last])=(walk child node front).bind (fun parent => child parent last) := by
  induction front generalizing node with
  | nil =>
    simp only [List.nil_append,walk,Option.bind_some]
    cases child node last with
    | none => rfl
    | some next => rfl
  | cons name rest ih =>
    simp only [List.cons_append,walk]
    cases child node name with
    | none => rfl
    | some next => exact ih next

/-- Walks agree where the children do. -/
theorem walk_congr {child other : Node → Name → Option Node}
    (h : ∀ node name, child node name=other node name) (node : Node) (path : List Name) :
    walk child node path=walk other node path := by
  have he : child=other := funext (fun node => funext (fun name => h node name))
  rw [he]

/-- A walk ends at its start or at some child. -/
theorem walk_end {child : Node → Name → Option Node} {node last : Node} {path : List Name}
    (h : walk child node path=some last) :
    last=node ∨ ∃ parent name, child parent name=some last := by
  cases path using List.reverseRecOn with
  | nil => exact .inl (Option.some.inj h).symm
  | append_singleton front name =>
    rw [walk_concat,Option.bind_eq_some_iff] at h
    obtain ⟨parent,_,hc⟩ := h
    exact .inr ⟨parent,name,hc⟩

/-- A walk that ends somewhere follows a child at every node on the way. -/
theorem walk_step {child : Node → Name → Option Node} {node last : Node} {path front : List Name}
    (h : walk child node path=some last) (hf : front<+:path) (hne : front≠path) :
    ∃ mid name next, walk child node front=some mid ∧ child mid name=some next := by
  obtain ⟨rest,rfl⟩ := hf
  induction front generalizing node with
  | nil =>
    cases rest with
    | nil => exact absurd rfl hne
    | cons name rest =>
      rw [List.nil_append,walk,Option.bind_eq_some_iff] at h
      obtain ⟨next,hc,_⟩ := h
      exact ⟨node,name,next,rfl,hc⟩
  | cons name front ih =>
    rw [List.cons_append,walk,Option.bind_eq_some_iff] at h
    obtain ⟨next,hc,hw⟩ := h
    obtain ⟨mid,label,below,hm,hb⟩ := ih hw (fun he => hne (by rw [List.cons_append,←he]))
    refine ⟨mid,label,below,?_,hb⟩
    rw [walk,hc,Option.bind_some]
    exact hm

/-- Nodes that are children once, and the start that is none, are reached by one
path: by induction on the path, since its last child fixes parent and name. -/
theorem walk_unique {child : Node → Name → Option Node} {node : Node} {Inner : Node → Prop}
    (hroot : ∀ parent name, child parent name≠some node)
    (honce : ∀ parent other name label next, Inner next → child parent name=some next →
      child other label=some next → parent=other ∧ name=label)
    (hinner : ∀ parent name next, child parent name=some next → Inner parent) :
    ∀ {path other : List Name} {last : Node}, Inner last → walk child node path=some last →
      walk child node other=some last → path=other := by
  intro path
  induction path using List.reverseRecOn with
  | nil =>
    intro other last _ hp ho
    rw [walk,Option.some.injEq] at hp
    subst hp
    cases other using List.reverseRecOn with
    | nil => rfl
    | append_singleton front name =>
      rw [walk_concat,Option.bind_eq_some_iff] at ho
      obtain ⟨parent,_,hc⟩ := ho
      exact absurd hc (hroot parent name)
  | append_singleton front name ih =>
    intro other last hl hp ho
    rw [walk_concat,Option.bind_eq_some_iff] at hp
    obtain ⟨parent,hw,hc⟩ := hp
    cases other using List.reverseRecOn with
    | nil =>
      rw [walk,Option.some.injEq] at ho
      subst ho
      exact absurd hc (hroot parent name)
    | append_singleton back label =>
      rw [walk_concat,Option.bind_eq_some_iff] at ho
      obtain ⟨parent',hw',hc'⟩ := ho
      obtain ⟨rfl,rfl⟩ := honce parent parent' name label last hl hc hc'
      rw [ih (hinner parent name last hc) hw hw']

/-- Two trees whose children differ at some names only, and there only by nodes
without children: a path resolves alike in both, or its last name is one of
those names in a directory that both resolve alike. -/
theorem walk_changed {child other : Node → Name → Option Node} {Edge : Node → Name → Prop}
    (hsame : ∀ parent name, ¬Edge parent name → other parent name=child parent name)
    (hleaf : ∀ parent name next, Edge parent name → child parent name=some next →
      ∀ label, child next label=none)
    (hleaf' : ∀ parent name next, Edge parent name → other parent name=some next →
      ∀ label, other next label=none) (node : Node) (path : List Name) :
    walk other node path=walk child node path ∨ ∃ front name parent, path=front++[name] ∧
      walk child node front=some parent ∧ walk other node front=some parent ∧
        Edge parent name := by
  induction path using List.reverseRecOn with
  | nil => exact .inl rfl
  | append_singleton front name ih =>
    rcases ih with he|⟨short,label,parent,rfl,hc,ho,hedge⟩
    · cases hw : walk child node front with
      | none =>
        left
        rw [walk_concat,walk_concat,he,hw,Option.bind_none,Option.bind_none]
      | some parent =>
        by_cases hedge : Edge parent name
        · exact .inr ⟨front,name,parent,rfl,hw,he.trans hw,hedge⟩
        · left
          rw [walk_concat,walk_concat,he,hw,Option.bind_some,Option.bind_some,hsame _ _ hedge]
    · left
      rw [walk_concat,walk_concat _ _ (short++[label]),walk_concat,walk_concat,hc,ho,
        Option.bind_some,Option.bind_some]
      have hnone : (child parent label).bind (fun next => child next name)=none := by
        cases hx : child parent label with
        | none => rfl
        | some next => exact hleaf parent label next hedge hx name
      have hnone' : (other parent label).bind (fun next => other next name)=none := by
        cases hx : other parent label with
        | none => rfl
        | some next => exact hleaf' parent label next hedge hx name
      rw [hnone,hnone']

/-- Why an operation on names did nothing, or that it was carried out. -/
inductive Outcome
  /-- The operation was carried out. -/
  | done
  /-- A name is missing. -/
  | missing
  /-- The new name is present already. -/
  | present
  deriving DecidableEq

/-- A finite map from directories and names to nodes. -/
abbrev Tree (Node Name : Type) : Type := Finmap (fun _ : Node×Name => Node)

/-- A name in the directory reached by a path. -/
structure Location (Name : Type) where
  /-- The path of the directory. -/
  parent : List Name
  /-- The name in it. -/
  base : Name

variable [DecidableEq Node] [DecidableEq Name]

/-- The node of a name in a directory. -/
def child (tree : Tree Node Name) (node : Node) (name : Name) : Option Node :=
  tree.lookup (node,name)

/-- Resolution of a path from the root. -/
def resolve (tree : Tree Node Name) (root : Node) (path : List Name) : Option Node :=
  walk (child tree) root path

/-- Some directory has a name for the node. -/
def Named (tree : Tree Node Name) (node : Node) : Prop :=
  ∃ directory name, child tree directory name=some node

/-- Enter a new node under a name that is not there yet. -/
def create (root : Node) (place : Location Name) (new : Node) (tree : Tree Node Name) :
    Outcome×Tree Node Name :=
  match resolve tree root place.parent with
  | none => (.missing,tree)
  | some directory => match child tree directory place.base with
    | some _ => (.present,tree)
    | none => (.done,tree.insert (directory,place.base) new)

/-- Enter the node of a name under a second name. -/
def link (root : Node) (source target : Location Name) (tree : Tree Node Name) :
    Outcome×Tree Node Name :=
  match (resolve tree root source.parent).bind (fun directory => child tree directory source.base),
      resolve tree root target.parent with
  | none,_ => (.missing,tree)
  | some _,none => (.missing,tree)
  | some node,some directory => match child tree directory target.base with
    | some _ => (.present,tree)
    | none => (.done,tree.insert (directory,target.base) node)

/-- Take a name away. -/
def unlink (root : Node) (place : Location Name) (tree : Tree Node Name) :
    Outcome×Tree Node Name :=
  match resolve tree root place.parent with
  | none => (.missing,tree)
  | some directory => match child tree directory place.base with
    | none => (.missing,tree)
    | some _ => (.done,tree.erase (directory,place.base))

/-- Move the node of a name to another name. -/
def rename (root : Node) (source target : Location Name) (tree : Tree Node Name) :
    Outcome×Tree Node Name :=
  match resolve tree root source.parent,resolve tree root target.parent with
  | some old,some new => match child tree old source.base with
    | none => (.missing,tree)
    | some node => (.done,(tree.insert (new,target.base) node).erase (old,source.base))
  | _,_ => (.missing,tree)

/-- Children after an insertion. -/
theorem child_insert (tree : Tree Node Name) (directory node : Node) (name : Name)
    (other : Node) (label : Name) :
    child (tree.insert (directory,name) node) other label=
      if other=directory ∧ label=name then some node else child tree other label := by
  unfold child
  by_cases h : other=directory ∧ label=name
  · rw [if_pos h,h.1,h.2,Finmap.lookup_insert]
  · rw [if_neg h,Finmap.lookup_insert_of_ne _ (fun he => h (Prod.mk.inj he))]

/-- Children after an erasure. -/
theorem child_erase (tree : Tree Node Name) (directory : Node) (name : Name)
    (other : Node) (label : Name) :
    child (tree.erase (directory,name)) other label=
      if other=directory ∧ label=name then none else child tree other label := by
  unfold child
  by_cases h : other=directory ∧ label=name
  · rw [if_pos h,h.1,h.2,Finmap.lookup_erase]
  · rw [if_neg h,Finmap.lookup_erase_ne (fun he => h (Prod.mk.inj he))]

end ComputerSystems.DirectoryTree
