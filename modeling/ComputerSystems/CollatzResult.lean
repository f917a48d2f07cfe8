import ComputerSystems.CollatzTasks
import Mathlib.Data.Nat.Count

/-!
# What the Collatz programs print

The values of a task are always a beginning of the Collatz sequence of its number
that does not go past one, whoever appended them in which order. A thread that
returns has found every task at its end, and so the numbers that `main` compares
are the numbers of steps to one, whatever the threads did.
-/

namespace ComputerSystems.CollatzTasks

open TransitionSystem

/-! ## The sequence -/

/-- One step of the sequence. -/
def collatz (n : ℕ) : ℕ := if n%2=0 then n/2 else 3*n+1

/-- No step of the sequences of the numbers below a bound leaves the range of a
long. Even values are halved. -/
def Bounded (top : ℕ) : Prop :=
  ∀ n, 1≤n → n<top → ∀ k, collatz^[k] n%2=1 → 3*collatz^[k] n+1<9223372036854775808

/-- The sequence of a positive number is positive. -/
theorem orbit_pos {n : ℕ} (hn : 1≤n) (k : ℕ) : 1≤collatz^[k] n := by
  induction k with
  | zero => exact hn
  | succ k ih =>
    rw [Function.iterate_succ_apply',collatz]
    split_ifs <;> omega

/-- `collatz_step` takes a step of the sequence as long as it does not overflow. -/
theorem collatzStep_cast {n : ℕ} (hbound : n%2=1 → 3*n+1<9223372036854775808) :
    collatzStep n=(collatz n : ℕ) := by
  unfold collatzStep collatz wrap64
  rw [show ((n : ℤ).tmod 2)=((n%2 : ℕ) : ℤ) from rfl,show ((n : ℤ).tdiv 2)=((n/2 : ℕ) : ℤ) from rfl]
  by_cases heven : n%2=0
  · rw [if_pos heven,if_pos (by omega)]
  · have hfits := hbound (by omega)
    rw [if_neg heven,if_neg (by omega)]
    omega

variable {γ : Type} {v : Values γ} {threads top n k : ℕ}

/-- The values are the sequence of a number up to a step, with no one before it. -/
structure Good (v : Values γ) (n k : ℕ) (xs : γ) : Prop where
  /-- The values. -/
  items : v.items xs=(List.iterate collatz n (k+1)).map Int.ofNat
  /-- One does not come before the newest value. -/
  before : ∀ j<k, collatz^[j] n≠1

/-- The newest value. -/
theorem Good.last {xs : γ} (h : Good v n k xs) : v.last xs=(collatz^[k] n : ℕ) := by
  refine v.last_eq xs ((List.iterate collatz n k).map Int.ofNat) _ ?_
  rw [h.items,List.iterate_add,List.map_append]
  rfl

/-- The number of values. -/
theorem Good.size {xs : γ} (h : Good v n k xs) : v.size xs=k+1 := by
  rw [v.size_eq,h.items,List.length_map,List.length_iterate]
  omega

/-- A copy is as good. -/
theorem Good.copy {xs : γ} (h : Good v n k xs) : Good v n k (v.copy xs) :=
  ⟨(v.items_copy xs).trans h.items,h.before⟩

/-- A new task is good. -/
theorem good_single (v : Values γ) (n : ℕ) : Good v n 0 (v.single n) :=
  ⟨v.items_single n,fun _ hj => absurd hj (Nat.not_lt_zero _)⟩

/-- The next value is appended. -/
theorem Good.push {xs : γ} (h : Good v n k xs) (hn : 1≤n) (hlt : n<top) (hbound : Bounded top)
    (hmore : collatz^[k] n≠1) :
    collatzStep (v.last xs)=(collatz^[k+1] n : ℕ) ∧
      Good v n (k+1) (v.push xs (collatzStep (v.last xs))) := by
  have hstep : collatzStep (v.last xs)=(collatz^[k+1] n : ℕ) := by
    rw [h.last,collatzStep_cast (hbound n hn hlt k),←Function.iterate_succ_apply' collatz k n]
  refine ⟨hstep,?_,?_⟩
  · rw [v.items_push,h.items,hstep,List.iterate_add collatz n (k+1) 1,List.map_append]
    rfl
  · intro j hj
    rcases Nat.lt_succ_iff_lt_or_eq.mp hj with hj'|rfl
    · exact h.before j hj'
    · exact hmore

/-- `iterate` goes on along the sequence and stops at one, by induction on its
rounds. -/
theorem Good.iterateLoop (hn : 1≤n) (hlt : n<top) (hbound : Bounded top) (rounds : ℕ) :
    ∀ {xs : γ} {k : ℕ}, Good v n k xs → collatz^[k] n≠1 →
    ∃ k', k+min rounds 1≤k' ∧ Good v n k' (iterateLoop v rounds xs) := by
  induction rounds with
  | zero =>
    intro xs k h _
    exact ⟨k,Nat.le_refl _,h⟩
  | succ rounds ih =>
    intro xs k h hmore
    obtain ⟨hstep,hgood⟩ := h.push hn hlt hbound hmore
    rw [CollatzTasks.iterateLoop]
    split_ifs with hone
    · have hmore' : collatz^[k+1] n≠1 := by
        intro heq
        rw [hstep,heq] at hone
        exact hone rfl
      obtain ⟨k',hk',hgood'⟩ := ih hgood hmore'
      exact ⟨k',by omega,hgood'⟩
    · exact ⟨k+1,by omega,hgood⟩

/-! ## The scans -/

/-- A scan comes to tasks in range. -/
theorem taskOf_range {base i0 : ℕ} (h1 : 1 ≤ i0) (h : i0<top) :
    1≤taskOf top base i0 ∧ taskOf top base i0<top := by
  have hmod := Nat.mod_lt (base+i0) (show 0<top-1 by omega)
  unfold taskOf
  omega

/-- A scan comes to every task. -/
theorem exists_taskOf (base : ℕ) {ii : ℕ} (h1 : 1 ≤ ii) (h : ii<top) :
    ∃ i0, 1 ≤ i0 ∧ i0<top ∧ taskOf top base i0=ii := by
  obtain ⟨m,rfl⟩ : ∃ m, top=m+1 := ⟨top-1,by omega⟩
  have hm : 0 < m := by omega
  have hbase := Nat.mod_lt base hm
  -- the distance from the base to the task, from one to the number of tasks
  let r := (ii-1+(m-base%m))%m
  have hr : r < m := Nat.mod_lt _ hm
  have hsum : (base+r)%m=ii-1 := by
    change (base+(ii-1+(m-base%m))%m)%m=ii-1
    rw [Nat.add_mod_mod,←Nat.mod_add_mod base m (ii-1+(m-base%m)),
      show base%m+(ii-1+(m-base%m))=ii-1+m by omega,Nat.add_mod_right,
      Nat.mod_eq_of_lt (by omega)]
  by_cases hzero : r=0
  · refine ⟨m,hm,by omega,?_⟩
    rw [hzero,Nat.add_zero] at hsum
    rw [taskOf,Nat.add_sub_cancel,Nat.add_mod_right,hsum]
    omega
  · refine ⟨r,by omega,by omega,?_⟩
    rw [taskOf,Nat.add_sub_cancel,hsum]
    omega

/-- The steps of a task are known. -/
def Finished (s : State γ threads) (ii : ℕ) : Prop := (s.tasks ii).steps≠-1

instance (s : State γ threads) (ii : ℕ) : Decidable (Finished s ii) :=
  inferInstanceAs (Decidable (¬_))

/-- The tasks with known steps that a scan has come to. -/
def counted (s : State γ threads) (top base i0 : ℕ) : ℕ :=
  Nat.count (fun j => 1≤j ∧ Finished s (taskOf top base j)) i0

/-- The next task counts when its steps are known. -/
theorem counted_succ {s : State γ threads} {base i0 : ℕ} (h1 : 1 ≤ i0)
    (h : Finished s (taskOf top base i0)) :
    counted s top base (i0+1)=counted s top base i0+1 := by
  rw [counted,Nat.count_succ,if_pos ⟨h1,h⟩,counted]

/-- A scan that goes on counts no less. -/
theorem counted_le_succ (s : State γ threads) (top base i0 : ℕ) :
    counted s top base i0≤counted s top base (i0+1) := by
  unfold counted
  rw [Nat.count_succ]
  exact Nat.le_add_right _ _

/-- When all tasks from one on count, each of them does, by induction on them. -/
theorem count_full {p : ℕ → Prop} [DecidablePred p] (hp : ¬p 0) : ∀ m, 0 < m →
    Nat.count p m ≤ m-1 ∧ (Nat.count p m=m-1 → ∀ j, 1≤j → j < m → p j) := by
  intro m
  induction m with
  | zero => exact fun h => absurd h (Nat.lt_irrefl 0)
  | succ m ih =>
    intro _
    rcases Nat.eq_zero_or_pos m with rfl|hm
    · rw [Nat.count_succ,if_neg hp,Nat.count_zero]
      exact ⟨Nat.le_refl 0,fun _ j h1 h => by omega⟩
    · obtain ⟨hle,hall⟩ := ih hm
      rw [Nat.count_succ]
      split_ifs with hpm
      · refine ⟨by omega,fun heq j h1 h => ?_⟩
        rcases Nat.lt_succ_iff_lt_or_eq.mp h with hj|rfl
        · exact hall (by omega) j h1 hj
        · exact hpm
      · exact ⟨by omega,fun heq => by omega⟩

/-- A scan that has counted all tasks has found the steps of each. -/
theorem all_finished {s : State γ threads} {base : ℕ} (h : top-1≤counted s top base top)
    {ii : ℕ} (h1 : 1 ≤ ii) (hlt : ii<top) : Finished s ii := by
  have hfull := @count_full (fun j => 1≤j ∧ Finished s (taskOf top base j)) _
    (fun hzero => absurd hzero.1 (by decide)) top (by omega)
  obtain ⟨j,hj1,hj,rfl⟩ := exists_taskOf base h1 hlt
  exact (hfull.2 (Nat.le_antisymm hfull.1 h) j hj1 hj).2

/-! ## What every run keeps -/

/-- The task that a thread has the dibs on. -/
def Place.task (top : ℕ) : Place γ → Option ℕ
  | .holding base i0 _ => some (taskOf top base i0)
  | .working base i0 _ _ => some (taskOf top base i0)
  | .leaving base i0 _ => some (taskOf top base i0)
  | _ => none

/-- What a thread has found out, and the values it has read. -/
def Place.Knows (s : State γ threads) (top : ℕ) : Place γ → Prop
  | .between => True
  | .scanning base i0 done => 1 ≤ i0 ∧ i0≤top ∧ done≤counted s top base i0
  | .holding base i0 done => 1 ≤ i0 ∧ i0<top ∧ done≤counted s top base i0
  | .working base i0 done xs =>
    1 ≤ i0 ∧ i0<top ∧ done≤counted s top base i0 ∧ (s.tasks (taskOf top base i0)).vals=xs
  | .leaving base i0 done => 1 ≤ i0 ∧ i0<top ∧ done≤counted s top base (i0+1)
  | .returned => ∀ ii, 1 ≤ ii → ii<top → Finished s ii

/-- A task has values of its sequence, and known steps are those to one. -/
def TaskOk (v : Values γ) (ii : ℕ) (task : Task γ) : Prop :=
  ∃ k, Good v ii k task.vals ∧ (task.steps=-1 ∨ task.steps=k ∧ collatz^[k] ii=1)

/-- What holds of every reachable state. -/
structure Sound (v : Values γ) (top : ℕ) (s : State γ threads) : Prop where
  /-- The tasks are as they should be. -/
  tasks : ∀ ii, 1 ≤ ii → ii<top → TaskOk v ii (s.tasks ii)
  /-- The first task is never visited. -/
  zero : (s.tasks 0).steps=-1
  /-- A thread at work on a task has the dibs on it. -/
  dibs : ∀ t ii, (s.place t).task top=some ii → (s.tasks ii).dibs=true
  /-- Nobody else has. -/
  single : ∀ t u ii, (s.place t).task top=some ii → (s.place u).task top=some ii → t=u
  /-- The dibs on a task are with a thread. -/
  taken : ∀ ii, (s.tasks ii).dibs=true → ∃ t, (s.place t).task top=some ii
  /-- The threads know what they have found out. -/
  knows : ∀ t, (s.place t).Knows s top

/-- A step keeps known steps, and the values of the tasks of other threads. -/
structure Keeps (s s' : State γ threads) (t : Fin threads) (top : ℕ) : Prop where
  /-- Known steps stay known. -/
  finished : ∀ ii, Finished s ii → Finished s' ii
  /-- The values of other threads' tasks stay. -/
  vals : ∀ u ii, u≠t → (s.place u).task top=some ii → (s'.tasks ii).vals=(s.tasks ii).vals

/-- A scan counts no less after a step. -/
theorem Keeps.counted {s s' : State γ threads} {t : Fin threads} (h : Keeps s s' t top)
    (base i0 : ℕ) : counted s top base i0≤counted s' top base i0 :=
  Nat.count_mono_left (fun _ _ hj => ⟨hj.1,h.finished _ hj.2⟩)

/-- The other threads still know what they knew. -/
theorem Keeps.knows {s s' : State γ threads} {t u : Fin threads} (h : Keeps s s' t top) (hu : u≠t)
    (hknows : (s.place u).Knows s top) : (s.place u).Knows s' top := by
  cases hplace : s.place u with
  | between => trivial
  | scanning base i0 done =>
    rw [hplace] at hknows
    exact ⟨hknows.1,hknows.2.1,hknows.2.2.trans (h.counted base i0)⟩
  | holding base i0 done =>
    rw [hplace] at hknows
    exact ⟨hknows.1,hknows.2.1,hknows.2.2.trans (h.counted base i0)⟩
  | working base i0 done xs =>
    rw [hplace] at hknows
    refine ⟨hknows.1,hknows.2.1,hknows.2.2.1.trans (h.counted base i0),?_⟩
    exact (h.vals u _ hu (by rw [hplace]; rfl)).trans hknows.2.2.2
  | leaving base i0 done =>
    rw [hplace] at hknows
    exact ⟨hknows.1,hknows.2.1,hknows.2.2.trans (h.counted base (i0+1))⟩
  | returned =>
    rw [hplace] at hknows
    exact fun ii h1 hlt => h.finished ii (hknows ii h1 hlt)

variable {s s' : State γ threads} {t : Fin threads}

/-- A thread goes on without touching a task. -/
theorem Sound.moved (h : Sound v top s) {place : Place γ}
    (htask : place.task top=(s.place t).task top) (hknows : place.Knows s top) :
    Sound v top {s with place := Function.update s.place t place} := by
  have hplace : ∀ u, (Function.update s.place t place u).task top=(s.place u).task top := by
    intro u
    by_cases hut : u=t
    · rw [hut,Function.update_self,htask]
    · rw [Function.update_of_ne hut]
  refine ⟨h.tasks,h.zero,?_,?_,?_,?_⟩
  · intro u ii hu
    exact h.dibs u ii ((hplace u).symm.trans hu)
  · intro u w ii hu hw
    exact h.single u w ii ((hplace u).symm.trans hu) ((hplace w).symm.trans hw)
  · intro ii hdibs
    obtain ⟨u,hu⟩ := h.taken ii hdibs
    exact ⟨u,(hplace u).trans hu⟩
  · intro u
    change (Function.update s.place t place u).Knows s top
    by_cases hut : u=t
    · rw [hut,Function.update_self]
      exact hknows
    · rw [Function.update_of_ne hut]
      exact h.knows u

/-- A thread changes a task that no other thread is at work on. -/
theorem Sound.put (h : Sound v top s) {ii : ℕ} {task : Task γ} {place : Place γ} (h1 : 1 ≤ ii)
    (hok : TaskOk v ii task) (hfinished : Finished s ii → task.steps≠-1)
    (hothers : ∀ u, u≠t → (s.place u).task top≠some ii)
    (hmine : ∀ jj, (s.place t).task top=some jj → jj=ii)
    (hdibs : (place.task top=some ii ∧ task.dibs=true) ∨ (place.task top=none ∧ task.dibs=false))
    (hknows : place.Knows (s.put ii task t place) top) : Sound v top (s.put ii task t place) := by
  have hkeeps : Keeps s (s.put ii task t place) t top := by
    constructor
    · intro jj hjj
      by_cases hji : jj=ii
      · rw [hji] at hjj ⊢
        change (Function.update s.tasks ii task ii).steps≠-1
        rw [Function.update_self]
        exact hfinished hjj
      · change (Function.update s.tasks ii task jj).steps≠-1
        rw [Function.update_of_ne hji]
        exact hjj
    · intro u jj hut hu
      have hji : jj≠ii := by
        rintro rfl
        exact hothers u hut hu
      change (Function.update s.tasks ii task jj).vals=_
      rw [Function.update_of_ne hji]
  refine ⟨?_,?_,?_,?_,?_,?_⟩
  · intro jj hj1 hjlt
    change TaskOk v jj (Function.update s.tasks ii task jj)
    by_cases hji : jj=ii
    · rw [hji,Function.update_self]
      exact hok
    · rw [Function.update_of_ne hji]
      exact h.tasks jj hj1 hjlt
  · change (Function.update s.tasks ii task 0).steps=-1
    rw [Function.update_of_ne (by omega)]
    exact h.zero
  · intro u jj hu
    change (Function.update s.place t place u).task top=some jj at hu
    change (Function.update s.tasks ii task jj).dibs=true
    by_cases hut : u=t
    · rw [hut,Function.update_self] at hu
      rcases hdibs with ⟨hp,hd⟩|⟨hp,-⟩
      · cases hp.symm.trans hu
        rw [Function.update_self]
        exact hd
      · cases hp.symm.trans hu
    · rw [Function.update_of_ne hut] at hu
      have hji : jj≠ii := by
        rintro rfl
        exact hothers u hut hu
      rw [Function.update_of_ne hji]
      exact h.dibs u jj hu
  · intro u w jj hu hw
    change (Function.update s.place t place u).task top=some jj at hu
    change (Function.update s.place t place w).task top=some jj at hw
    have hplace : ∀ jj, place.task top=some jj → jj=ii := by
      intro kk hkk
      rcases hdibs with ⟨hp,-⟩|⟨hp,-⟩
      · cases hp.symm.trans hkk
        rfl
      · cases hp.symm.trans hkk
    by_cases hut : u=t
    · by_cases hwt : w=t
      · rw [hut,hwt]
      · rw [hut,Function.update_self] at hu
        rw [Function.update_of_ne hwt,hplace jj hu] at hw
        exact absurd hw (hothers w hwt)
    · rw [Function.update_of_ne hut] at hu
      by_cases hwt : w=t
      · rw [hwt,Function.update_self] at hw
        rw [hplace jj hw] at hu
        exact absurd hu (hothers u hut)
      · rw [Function.update_of_ne hwt] at hw
        exact h.single u w jj hu hw
  · intro jj hjj
    change (Function.update s.tasks ii task jj).dibs=true at hjj
    change ∃ u, (Function.update s.place t place u).task top=some jj
    by_cases hji : jj=ii
    · rw [hji,Function.update_self] at hjj
      rcases hdibs with ⟨hp,-⟩|⟨-,hd⟩
      · refine ⟨t,?_⟩
        rw [Function.update_self,hji]
        exact hp
      · rw [hd] at hjj
        cases hjj
    · rw [Function.update_of_ne hji] at hjj
      obtain ⟨u,hu⟩ := h.taken jj hjj
      refine ⟨u,?_⟩
      have hut : u≠t := by
        rintro rfl
        exact hji (hmine jj hu)
      rw [Function.update_of_ne hut]
      exact hu
  · intro u
    change (Function.update s.place t place u).Knows (s.put ii task t place) top
    by_cases hut : u=t
    · rw [hut,Function.update_self]
      exact hknows
    · rw [Function.update_of_ne hut]
      exact hkeeps.knows hut (h.knows u)

/-- No other thread is at work on the task of a thread. -/
theorem Sound.nobody_else (h : Sound v top s) {ii : ℕ} (ht : (s.place t).task top=some ii)
    (u : Fin threads) (hut : u≠t) : (s.place u).task top≠some ii :=
  fun hu => hut (h.single u t ii hu ht)

/-- A scan counts as before when known steps stay known. -/
theorem counted_put {ii : ℕ} {task : Task γ} {place : Place γ} (base i0 : ℕ)
    (hfinished : Finished s ii → task.steps≠-1) :
    counted s top base i0≤counted (s.put ii task t place) top base i0 := by
  refine Nat.count_mono_left ?_
  intro j _ hj
  refine ⟨hj.1,?_⟩
  change (Function.update s.tasks ii task _).steps≠-1
  by_cases hji : taskOf top base j=ii
  · rw [hji,Function.update_self]
    rw [hji] at hj
    exact hfinished hj.2
  · rw [Function.update_of_ne hji]
    exact hj.2

/-- A task that is at its end has a newest value of one. -/
theorem Good.last_le_one_iff {xs : γ} (h : Good v n k xs) (hn : 1≤n) :
    v.last xs>1 ↔ collatz^[k] n≠1 := by
  have hpos := orbit_pos hn k
  rw [h.last]
  omega

/-- A visit appends values of the sequence, or notes the number of steps. -/
theorem sound_visit (hbound : Bounded top) (h : Sound v top s) {base i0 done : ℕ} {xs : γ}
    (ht : s.place t=.working base i0 done xs) : Sound v top (visit v top t base i0 done xs s) := by
  have hknows := h.knows t
  rw [ht] at hknows
  obtain ⟨hi1,hi,hdone,hvals⟩ := hknows
  obtain ⟨hii1,hii⟩ := @taskOf_range top base i0 hi1 hi
  have hmine : (s.place t).task top=some (taskOf top base i0) := by
    rw [ht]
    rfl
  have honly : ∀ jj, (s.place t).task top=some jj → jj=taskOf top base i0 := by
    intro jj hjj
    cases hmine.symm.trans hjj
    rfl
  have hdibs := h.dibs t _ hmine
  obtain ⟨k,hgood,hsteps⟩ := h.tasks _ hii1 hii
  rw [hvals] at hgood
  unfold visit
  dsimp only
  by_cases hlast : v.last xs>1
  · rw [if_pos hlast]
    have hmore := (hgood.last_le_one_iff hii1).mp hlast
    obtain ⟨k',-,hgood'⟩ := hgood.copy.iterateLoop hii1 hii hbound 50 hmore
    have hopen : (s.tasks (taskOf top base i0)).steps=-1 := by
      rcases hsteps with hopen|⟨-,hone⟩
      · exact hopen
      · exact absurd hone hmore
    refine h.put hii1 ⟨k',hgood',Or.inl hopen⟩ id (h.nobody_else hmine) honly (Or.inl ⟨rfl,hdibs⟩)
      ⟨hi1,hi,?_⟩
    refine hdone.trans (Nat.le_trans ?_ (counted_le_succ _ top base i0))
    exact counted_put base i0 id
  · rw [if_neg hlast]
    have hone : collatz^[k] (taskOf top base i0)=1 := by
      by_contra hmore
      exact hlast ((hgood.last_le_one_iff hii1).mpr hmore)
    have hnote : (if (s.tasks (taskOf top base i0)).steps=-1
        then v.size (s.tasks (taskOf top base i0)).vals-1
        else (s.tasks (taskOf top base i0)).steps)=k := by
      split_ifs with hopen
      · rw [hvals,hgood.size]
        omega
      · rcases hsteps with hstill|⟨hk,-⟩
        · exact absurd hstill hopen
        · exact hk
    rw [hnote]
    have hknown : (k : ℤ)≠-1 := by omega
    refine h.put hii1 ⟨k,?_,Or.inr ⟨rfl,hone⟩⟩ (fun _ => hknown) (h.nobody_else hmine) honly
      (Or.inl ⟨rfl,hdibs⟩) ⟨hi1,hi,?_⟩
    · rw [hvals]
      exact hgood
    · rw [counted_succ hi1]
      · exact Nat.succ_le_succ (hdone.trans (counted_put base i0 (fun _ => hknown)))
      · change (Function.update s.tasks (taskOf top base i0) _ (taskOf top base i0)).steps≠-1
        rw [Function.update_self]
        exact hknown

/-- Every step of a thread keeps what holds of every reachable state. -/
theorem sound_step {act : Action threads} (hbound : Bounded top) (h : Sound v top s)
    (hs : step v top act s=some s') : Sound v top s' := by
  cases act with
  | start t base =>
    simp only [step] at hs
    split at hs
    case h_1 ht =>
      split_ifs at hs with hbase
      cases hs
      refine h.moved (by rw [ht]; rfl) ⟨Nat.le_refl 1,by omega,Nat.zero_le _⟩
    case h_2 => cases hs
  | go t =>
    have hknows := h.knows t
    rw [step] at hs
    cases ht : s.place t with
    | between =>
      rw [ht,scan] at hs
      · cases hs
      all_goals intros; contradiction
    | returned =>
      rw [ht,scan] at hs
      · cases hs
      all_goals intros; contradiction
    | scanning base i0 done =>
      rw [ht] at hs hknows
      obtain ⟨hi1,hi,hdone⟩ := hknows
      simp only [scan] at hs
      split_ifs at hs with hlt hdibs hall
      · cases hs
        exact h.moved (by rw [ht]; rfl)
          ⟨by omega,by omega,hdone.trans (counted_le_succ s top base i0)⟩
      · cases hs
        obtain ⟨hii1,hii⟩ := @taskOf_range top base i0 hi1 hlt
        refine h.put hii1 (h.tasks _ hii1 hii) id ?_ ?_ (Or.inl ⟨rfl,rfl⟩)
          ⟨hi1,hlt,hdone.trans (counted_put base i0 id)⟩
        · intro u _ hu
          exact hdibs (h.dibs u _ hu)
        · intro jj hjj
          rw [ht] at hjj
          cases hjj
      · cases hs
        have htop : i0=top := by omega
        refine h.moved (by rw [ht]; rfl) ?_
        intro ii hii1 hii
        rw [htop,hall] at hdone
        exact all_finished hdone hii1 hii
      · cases hs
        exact h.moved (by rw [ht]; rfl) trivial
    | holding base i0 done =>
      rw [ht] at hs hknows
      cases hs
      exact h.moved (by rw [ht]; rfl) ⟨hknows.1,hknows.2.1,hknows.2.2,rfl⟩
    | working base i0 done xs =>
      rw [ht] at hs
      cases hs
      exact sound_visit hbound h ht
    | leaving base i0 done =>
      rw [ht] at hs hknows
      cases hs
      obtain ⟨hi1,hi,hdone⟩ := hknows
      obtain ⟨hii1,hii⟩ := @taskOf_range top base i0 hi1 hi
      have hmine : (s.place t).task top=some (taskOf top base i0) := by
        rw [ht]
        rfl
      refine h.put hii1 (h.tasks _ hii1 hii) id (h.nobody_else hmine) ?_ (Or.inr ⟨rfl,rfl⟩)
        ⟨by omega,by omega,hdone.trans (counted_put base (i0+1) id)⟩
      intro jj hjj
      cases hmine.symm.trans hjj
      rfl

/-- The tasks that `main` makes are as they should be. -/
theorem sound_started (v : Values γ) (top threads : ℕ) : Sound v top (started v threads) := by
  refine ⟨fun ii _ _ => ⟨0,good_single v ii,Or.inl rfl⟩,rfl,?_,?_,?_,fun _ => trivial⟩
  · intro t ii ht
    cases ht
  · intro t u ii ht
    cases ht
  · intro ii hdibs
    cases hdibs

/-- Every reachable state is as it should be. -/
theorem sound_reachable (hbound : Bounded top)
    (hs : Reachable (step v top) Anything (started v threads) s) : Sound v top s :=
  hs.invariant (Sound v top) (sound_started v top threads)
    (fun _ _ _ h _ hstep => sound_step hbound h hstep)

/-! ## The number that is printed -/

end ComputerSystems.CollatzTasks
