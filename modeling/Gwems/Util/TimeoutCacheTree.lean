import Gwems.Library.SearchTree
import Gwems.Util.TimeoutCache

/-!
# The tree of `timedQ`

`timedQ` is a `TreeSet` of objects that `put`, `setTtl` and `remove` change in place. Its comparator
reads their deadlines, so a change to an element of the tree would leave it where no search finds
it. The bodies take an object out of the tree before they change it, and put it back behind.

The model of `TimeoutCache` takes the set as a list, where an element is always found. Here it is a
search tree: `TreeCache` has the tree with the elements, and its bodies search in it with the
comparator of the source, which subtracts deadlines as `long`s. Trees are balanced in any way: each
action says what is done to the tree behind a deletion and behind an insertion.

As long as deadlines differ by a `long` (`Fits`), the machine with the tree does what the machine
with the list does (`refines`), and `represented` says where the elements of the tree are: strictly
sorted, at most one for each key, and held by the cache under that key.
-/

namespace Gwems

open SearchTree (toList find? Rebalance Cuts)

/-! ### The list is sorted -/

instance {R : Type*} : Std.TransCmp (TimedKey.compare (R := R)) :=
  inferInstanceAs (Std.TransCmp
    (compareLex (compareOn TimedKey.expires) (compareOn fun o => Utf16.codeUnits o.key)))

namespace TimeoutCache

variable {V R : Type*} {s t : TimeoutCache V R} {r r' : ℕ}

instance (s : TimeoutCache V R) : Std.TransCmp s.compare where
  eq_swap {a b} :=
    @Std.OrientedCmp.eq_swap _ TimedKey.compare _ (s.timedKeys a) (s.timedKeys b)
  isLE_trans {a b c} :=
    @Std.TransCmp.isLE_trans _ TimedKey.compare _ (s.timedKeys a) (s.timedKeys b) (s.timedKeys c)

/-- The elements of `timedQ` are strictly sorted. -/
def Ordered (s : TimeoutCache V R) : Prop := s.timedQ.Pairwise fun r r' => s.compare r r' = .lt

theorem Ordered.timedQ_remove (h : s.Ordered) (r : ℕ) : (s.timedQ_remove r).Ordered :=
  List.Pairwise.filter _ h

theorem Ordered.timedQ_add (h : s.Ordered) (r : ℕ) : (s.timedQ_add r).Ordered := by
  by_cases hany : (s.timedQ.any fun r' => (s.compare r r').isEq) = true
  · have hq : (s.timedQ_add r).timedQ = s.timedQ := if_pos hany
    rw [Ordered, hq]
    exact h
  · have hq : (s.timedQ_add r).timedQ =
        s.timedQ.orderedInsert (fun a b => (s.compare a b).isLE) r := if_neg hany
    have hne : ∀ r' ∈ s.timedQ, s.compare r r' ≠ .eq := fun r' hr' heq =>
      hany (List.any_eq_true.mpr ⟨r', hr', Ordering.isEq_iff_eq_eq.mpr heq⟩)
    rw [Ordered, hq]
    exact SearchTree.pairwise_orderedInsert h hne

/-- An object that is not in the queue can be changed. -/
theorem Ordered.update (h : s.Ordered) (hr : r ∉ s.timedQ) {tkey : TimedKey R}
    (hkeys : t.timedKeys = Function.update s.timedKeys r tkey) (hq : t.timedQ = s.timedQ) :
    t.Ordered := by
  have hother : ∀ x ∈ s.timedQ, t.timedKeys x = s.timedKeys x := by
    rintro x hx
    rw [hkeys, Function.update_of_ne]
    rintro rfl
    exact hr hx
  rw [Ordered, hq]
  refine List.Pairwise.imp_of_mem ?_ h
  intro a b ha hb hab
  rwa [compare, hother a ha, hother b hb]

/-- Any two deadlines differ by a `long`. -/
def Fits (s : TimeoutCache V R) : Prop :=
  ∀ r < s.allocated, ∀ r' < s.allocated,
    -2 ^ 63 ≤ (s.timedKeys r).expires - (s.timedKeys r').expires ∧
      (s.timedKeys r).expires - (s.timedKeys r').expires < 2 ^ 63

instance (s : TimeoutCache V R) : Decidable s.Fits :=
  inferInstanceAs (Decidable (∀ r < s.allocated, ∀ r' < s.allocated, _ ∧ _))

/-- The actions that change `timedQ` or an object. -/
def Action.touchesQueue : Action V R → Bool
  | .put _ _ _ _ | .setTtl _ _ | .remove _ | .poll => true
  | .tick _ | .wake | .test | .copy _ | .start _ | .finish _ _ | .close _ => false

theorem queue_step {a : Action V R} (ha : a.touchesQueue = false)
    (hst : (machine V R).step s a = some t) :
    t.timedQ = s.timedQ ∧ t.timedKeys = s.timedKeys ∧ t.allocated = s.allocated := by
  obtain ⟨ms, rfl, rfl⟩ | ⟨key, value, ttl, notified, rfl, rfl⟩ | ⟨key, ttl, rfl, rfl⟩ |
    ⟨key, rfl, rfl⟩ | ⟨watcher, rfl⟩ | ⟨time, rfl, rfl⟩ | ⟨i, task, phase, hi, rfl, -⟩ :=
    step_cases hst
  · exact ⟨rfl, rfl, rfl⟩
  · cases ha
  · cases ha
  · cases ha
  · exact ⟨rfl, rfl, rfl⟩
  · cases ha
  · exact ⟨rfl, rfl, rfl⟩

end TimeoutCache

/-! ### The machine with the tree -/

/-- The comparator of the source: `o1.expires - o2.expires` is a `long`. -/
def TimedKey.comparator {R : Type*} (o1 o2 : TimedKey R) : Ordering :=
  let val := Int.bmod (o1.expires - o2.expires) (2 ^ 64)
  if val > 0 then .gt else if val < 0 then .lt else Utf16.compareTo o1.key o2.key

/-- Where deadlines differ by a `long`, the comparator compares them. -/
theorem TimedKey.comparator_eq {R : Type*} {o1 o2 : TimedKey R}
    (h : -2 ^ 63 ≤ o1.expires - o2.expires ∧ o1.expires - o2.expires < 2 ^ 63) :
    o1.comparator o2 = o1.compare o2 := by
  have hval : Int.bmod (o1.expires - o2.expires) (2 ^ 64) = o1.expires - o2.expires := by
    rw [Int.bmod_eq_iff (by decide)]
    exact ⟨by omega, by omega, by simp⟩
  rw [TimedKey.comparator, hval, TimedKey.compare]
  rcases lt_trichotomy o1.expires o2.expires with hlt | heq | hgt
  · rw [compare_lt_iff_lt.mpr hlt, if_neg (by omega), if_pos (by omega)]
    rfl
  · rw [compare_eq_iff_eq.mpr heq, if_neg (by omega), if_neg (by omega)]
    rfl
  · rw [compare_gt_iff_gt.mpr hgt, if_pos (by omega)]
    rfl

/-- A `TimeoutCache` with the tree of `timedQ`; the field `timedQ` is what an iteration yields. -/
structure TreeCache (V R : Type*) extends TimeoutCache V R where
  tree : BinaryTree ℕ := .nil

namespace TreeCache

variable {V R : Type*}

/-- The comparator, on references. -/
def comparator (s : TreeCache V R) (r r' : ℕ) : Ordering :=
  (s.timedKeys r).comparator (s.timedKeys r')

/-- Change the tree. -/
def setTree (s : TreeCache V R) (tree : BinaryTree ℕ) : TreeCache V R :=
  { s with tree := tree, timedQ := toList tree }

/-- How the tree is balanced behind a deletion and behind an insertion. -/
structure Fixes where
  deletion : Rebalance ℕ := .none
  insertion : Rebalance ℕ := .none

/-- `timedQ.add(r)`. -/
def timedQ_add (s : TreeCache V R) (fix : Fixes) (r : ℕ) : TreeCache V R :=
  s.setTree (fix.insertion.fix (SearchTree.insert (s.comparator r) r s.tree))

/-- `timedQ.remove(r)`. -/
def timedQ_remove (s : TreeCache V R) (fix : Fixes) (r : ℕ) : TreeCache V R :=
  s.setTree (fix.deletion.fix (SearchTree.erase (s.comparator r) s.tree))

/-- The `TimedKey` that `put` uses. -/
def put_tkey (s : TreeCache V R) (fix : Fixes) (key : String) : ℕ × TreeCache V R :=
  match s.cache key with
  | some holder => (holder.key, s.timedQ_remove fix holder.key)
  | none => (s.allocated, { s with allocated := s.allocated + 1 })

/-- `put(key, value, ttl, notified...)`. -/
def put (s : TreeCache V R) (fix : Fixes) (key : String) (value : Option V) (ttl : ℤ)
    (notified : List R) : TreeCache V R :=
  let (tkey, s') := s.put_tkey fix key
  let s' := { s' with
    timedKeys := Function.update s'.timedKeys tkey
      { key := key, expires := s.now + ttl, runners := notified } }
  let s' := { s' with
    cache := Function.update s'.cache key (some { key := tkey, value := value })
    lastSet := Function.update s'.lastSet key (some (s.now + ttl)) }
  s'.timedQ_add fix tkey

/-- `setTtl(key, ttl)`. -/
def setTtl (s : TreeCache V R) (fix : Fixes) (key : String) (ttl : ℤ) : TreeCache V R :=
  match s.cache key with
  | some holder =>
    let s' := s.timedQ_remove fix holder.key
    let s' := { s' with
      timedKeys := Function.update s'.timedKeys holder.key
        { s'.timedKeys holder.key with expires := s.now + ttl } }
    let s' := { s' with lastSet := Function.update s'.lastSet key (some (s.now + ttl)) }
    s'.timedQ_add fix holder.key
  | none => s

/-- `remove(key)`. -/
def remove (s : TreeCache V R) (fix : Fixes) (key : String) : TreeCache V R :=
  match s.cache key with
  | some holder =>
    let s' := s.timedQ_remove fix holder.key
    let s' := { s' with
      timedKeys := Function.update s'.timedKeys holder.key
        { s'.timedKeys holder.key with runners := [], expires := s.now - 1 } }
    s'.timedQ_add fix holder.key
  | none => s

/-- Pop the first element and hand a task for it to the pool. -/
def pollFirst (s : TreeCache V R) (fix : Fixes) (time : ℤ) : TreeCache V R :=
  match SearchTree.popFirst s.tree with
  | some (head, tree) =>
    { s.setTree (fix.deletion.fix tree) with
      watcher := .testing time
      tasks := s.tasks ++ [{ head := some head, time := time }] }
  | none =>
    { s with watcher := .testing time, tasks := s.tasks ++ [{ head := none, time := time }] }

/-- An action, and how the tree is balanced in it. -/
structure Action (V R : Type*) where
  action : TimeoutCache.Action V R
  fix : Fixes := {}

/-- Callers, watcher and pool tasks in any order. What does not touch the tree is done as in the
machine with the list. -/
def machine (V R : Type*) : Machine (TreeCache V R) (Action V R) where
  step s a :=
    match a.action with
    | .put key value ttl notified => some (s.put a.fix key value ttl notified)
    | .setTtl key ttl => some (s.setTtl a.fix key ttl)
    | .remove key => some (s.remove a.fix key)
    | .poll =>
      match s.watcher with
      | .polling time => some (s.pollFirst a.fix time)
      | _ => none
    | action =>
      ((TimeoutCache.machine V R).step s.toTimeoutCache action).map fun t =>
        { s with toTimeoutCache := t }

/-- A step to a state in which deadlines fit. -/
def Fitting (s : TreeCache V R) (a : Action V R) : Prop := ∀ t ∈ (machine V R).step s a, t.Fits

instance (s : TreeCache V R) (a : Action V R) : Decidable (Fitting s a) :=
  inferInstanceAs (Decidable (∀ t ∈ (machine V R).step s a, t.Fits))

/-! ### The tree holds the list -/

/-- The tree holds the elements of the list, in an order that searches can use. -/
structure Sound (s : TreeCache V R) : Prop where
  toList_tree : toList s.tree = s.timedQ
  ordered : s.toTimeoutCache.Ordered
  queued : ∀ r ∈ s.timedQ, r < s.allocated
  fits : s.toTimeoutCache.Fits

variable {s t : TreeCache V R} {r : ℕ} {fix : Fixes}

theorem Sound.comparator_eq (h : s.Sound) (hr : r < s.allocated) :
    ∀ x ∈ toList s.tree, s.comparator r x = s.compare r x := by
  intro x hx
  rw [h.toList_tree] at hx
  exact TimedKey.comparator_eq (h.fits r hr x (h.queued x hx))

theorem Sound.cuts (h : s.Sound) (r : ℕ) : Cuts (s.compare r) (toList s.tree) := by
  rw [h.toList_tree]
  exact Cuts.of_pairwise h.ordered r

/-- Another tree with the elements of another list. -/
theorem Sound.setTree (h : s.Sound) {tree : BinaryTree ℕ} {u : TimeoutCache V R}
    (hu : { s.toTimeoutCache with timedQ := toList tree } = u) (hordered : u.Ordered)
    (hqueued : ∀ x ∈ u.timedQ, x < s.allocated) :
    (s.setTree tree).toTimeoutCache = u ∧ (s.setTree tree).Sound := by
  subst hu
  exact ⟨rfl, rfl, hordered, hqueued, h.fits⟩

/-- `timedQ.remove` finds what it is to find. -/
theorem Sound.timedQ_remove (h : s.Sound) (hr : r < s.allocated) (fix : Fixes) :
    (s.timedQ_remove fix r).toTimeoutCache = s.toTimeoutCache.timedQ_remove r ∧
      (s.timedQ_remove fix r).Sound := by
  have hlist : toList (fix.deletion.fix (SearchTree.erase (s.comparator r) s.tree)) =
      (s.toTimeoutCache.timedQ_remove r).timedQ := by
    rw [Rebalance.toList_fix, SearchTree.erase_congr (h.comparator_eq hr),
      SearchTree.toList_erase (h.cuts r), h.toList_tree]
    rfl
  rw [TreeCache.timedQ_remove]
  refine h.setTree ?_ (h.ordered.timedQ_remove r) fun x hx => ?_
  · rw [hlist]
    rfl
  · exact h.queued x (TimeoutCache.mem_timedQ_of_mem_remove hx)

/-- And `timedQ.add` the place of what it adds. -/
theorem Sound.timedQ_add (h : s.Sound) (hr : r < s.allocated) (fix : Fixes) :
    (s.timedQ_add fix r).toTimeoutCache = s.toTimeoutCache.timedQ_add r ∧
      (s.timedQ_add fix r).Sound := by
  have hlist : toList (fix.insertion.fix (SearchTree.insert (s.comparator r) r s.tree)) =
      (s.toTimeoutCache.timedQ_add r).timedQ := by
    rw [Rebalance.toList_fix, SearchTree.insert_congr (h.comparator_eq hr),
      SearchTree.toList_insert (h.cuts r), h.toList_tree]
    rfl
  rw [TreeCache.timedQ_add]
  refine h.setTree ?_ (h.ordered.timedQ_add r) fun x hx => ?_
  · rw [hlist]
    rfl
  · rcases TimeoutCache.mem_timedQ_of_mem_add hx with hx | rfl
    · exact h.queued x hx
    · exact hr

/-! ### The bodies -/

variable {key : String} {value : Option V} {ttl : ℤ} {notified : List R}
  {cache : String → Option (ObjectHolder V)} {lastSet : String → Option ℤ} {tkey : TimedKey R}

/-- An object is taken out, changed and put back. -/
theorem Sound.requeue (h : s.Sound) (hr : r < s.allocated) (fix : Fixes)
    (hfits : TimeoutCache.Fits { s.toTimeoutCache with
      timedKeys := Function.update s.timedKeys r tkey }) :
    let s' : TreeCache V R := { s.timedQ_remove fix r with
      timedKeys := Function.update s.timedKeys r tkey, cache := cache, lastSet := lastSet }
    (s'.timedQ_add fix r).toTimeoutCache =
        TimeoutCache.timedQ_add { s.toTimeoutCache.timedQ_remove r with
          timedKeys := Function.update s.timedKeys r tkey, cache := cache, lastSet := lastSet } r ∧
      (s'.timedQ_add fix r).Sound := by
  intro s'
  obtain ⟨heq, hs⟩ := h.timedQ_remove hr fix
  have heq' : s'.toTimeoutCache = { s.toTimeoutCache.timedQ_remove r with
      timedKeys := Function.update s.timedKeys r tkey, cache := cache, lastSet := lastSet } :=
    congrArg (fun u : TimeoutCache V R => { u with
      timedKeys := Function.update s.timedKeys r tkey, cache := cache, lastSet := lastSet }) heq
  have hout : r ∉ (s.timedQ_remove fix r).timedQ := by
    rw [heq]
    exact TimeoutCache.notMem_timedQ_remove _ r
  -- outside of the tree the object can be changed
  have hs' : s'.Sound := ⟨hs.toList_tree, hs.ordered.update hout rfl rfl, hs.queued, hfits⟩
  obtain ⟨hadd, hsound⟩ := hs'.timedQ_add hr fix
  exact ⟨heq' ▸ hadd, hsound⟩

/-- A new object is put into the tree. -/
theorem Sound.enqueue (h : s.Sound) (fix : Fixes)
    (hfits : TimeoutCache.Fits { s.toTimeoutCache with
      allocated := s.allocated + 1
      timedKeys := Function.update s.timedKeys s.allocated tkey }) :
    let s' : TreeCache V R := { s with
      allocated := s.allocated + 1
      timedKeys := Function.update s.timedKeys s.allocated tkey
      cache := cache
      lastSet := lastSet }
    (s'.timedQ_add fix s.allocated).toTimeoutCache =
        s'.toTimeoutCache.timedQ_add s.allocated ∧
      (s'.timedQ_add fix s.allocated).Sound := by
  intro s'
  have hout : s.allocated ∉ s.timedQ := fun hq => lt_irrefl _ (h.queued _ hq)
  have hs' : s'.Sound := ⟨h.toList_tree, h.ordered.update hout rfl rfl,
    fun x hx => Nat.lt_succ_of_lt (h.queued x hx), hfits⟩
  exact hs'.timedQ_add (Nat.lt_succ_self _) fix

theorem Sound.put (h : s.Sound) (ho : s.Owned)
    (hfits : (s.put fix key value ttl notified).Fits) :
    (s.put fix key value ttl notified).toTimeoutCache =
        s.toTimeoutCache.put key value ttl notified ∧
      (s.put fix key value ttl notified).Sound := by
  cases hk : s.cache key with
  | some holder =>
    simp only [TreeCache.put, put_tkey, TimeoutCache.put, TimeoutCache.put_tkey, hk] at hfits ⊢
    exact h.requeue (ho.cached key holder hk).1 fix hfits
  | none =>
    simp only [TreeCache.put, put_tkey, TimeoutCache.put, TimeoutCache.put_tkey, hk] at hfits ⊢
    exact h.enqueue fix hfits

theorem Sound.setTtl (h : s.Sound) (ho : s.Owned) (hfits : (s.setTtl fix key ttl).Fits) :
    (s.setTtl fix key ttl).toTimeoutCache = s.toTimeoutCache.setTtl key ttl ∧
      (s.setTtl fix key ttl).Sound := by
  cases hk : s.cache key with
  | some holder =>
    simp only [TreeCache.setTtl, TimeoutCache.setTtl, hk] at hfits ⊢
    exact h.requeue (ho.cached key holder hk).1 fix hfits
  | none =>
    simp only [TreeCache.setTtl, TimeoutCache.setTtl, hk]
    exact ⟨trivial, h⟩

theorem Sound.remove (h : s.Sound) (ho : s.Owned) (hfits : (s.remove fix key).Fits) :
    (s.remove fix key).toTimeoutCache = s.toTimeoutCache.remove key ∧
      (s.remove fix key).Sound := by
  cases hk : s.cache key with
  | some holder =>
    simp only [TreeCache.remove, TimeoutCache.remove, hk] at hfits ⊢
    exact h.requeue (ho.cached key holder hk).1 fix hfits
  | none =>
    simp only [TreeCache.remove, TimeoutCache.remove, hk]
    exact ⟨trivial, h⟩

theorem Sound.pollFirst (h : s.Sound) (fix : Fixes) (time : ℤ) :
    (s.pollFirst fix time).toTimeoutCache = s.toTimeoutCache.pollFirst time ∧
      (s.pollFirst fix time).Sound := by
  rw [TreeCache.pollFirst]
  cases hpop : SearchTree.popFirst s.tree with
  | none =>
    have hq : s.timedQ = [] := by
      rw [← h.toList_tree, SearchTree.popFirst_eq_none_iff.mp hpop]
      rfl
    refine ⟨?_, h.toList_tree, h.ordered, h.queued, h.fits⟩
    simp only [TimeoutCache.pollFirst, hq, List.tail_nil, List.head?_nil]
  | some popped =>
    obtain ⟨head, tree⟩ := popped
    have hq : s.timedQ = head :: toList tree := by
      rw [← h.toList_tree, SearchTree.toList_of_popFirst hpop]
    have hlist : toList (fix.deletion.fix tree) = s.timedQ.tail := by
      rw [Rebalance.toList_fix, hq, List.tail_cons]
    refine ⟨?_, rfl, ?_, fun r hr => ?_, h.fits⟩
    · simp only [TreeCache.setTree, TimeoutCache.pollFirst, hlist, hq, List.tail_cons,
        List.head?_cons]
    · have hordered := h.ordered
      rw [TimeoutCache.Ordered, hq] at hordered
      have htail := (List.pairwise_cons.mp hordered).2
      rw [TimeoutCache.Ordered]
      simp only [TreeCache.setTree, hlist, hq, List.tail_cons]
      exact htail
    · simp only [TreeCache.setTree, hlist] at hr
      exact h.queued r (List.mem_of_mem_tail hr)

/-! ### Runs -/

/-- A step that does not touch the queue. -/
theorem Sound.frame (h : s.Sound) {u : TimeoutCache V R} (hq : u.timedQ = s.timedQ)
    (hkeys : u.timedKeys = s.timedKeys) (hallocated : u.allocated = s.allocated) :
    Sound { s with toTimeoutCache := u } := by
  refine ⟨h.toList_tree.trans hq.symm, ?_, ?_, ?_⟩
  · have hordered := h.ordered
    rw [TimeoutCache.Ordered, ← hq] at hordered
    refine hordered.imp fun {a b} hab => ?_
    rwa [TimeoutCache.compare, hkeys]
  · rw [hq, hallocated]
    exact h.queued
  · rw [TimeoutCache.Fits, hallocated, hkeys]
    exact h.fits

/-- **One step**: what the machine with the tree does, the machine with the list does too. -/
theorem Sound.step (h : s.Sound) (ho : s.Owned) {a : Action V R} (hfits : Fitting s a)
    (hst : (machine V R).step s a = some t) :
    (TimeoutCache.machine V R).step s.toTimeoutCache a.action = some t.toTimeoutCache ∧
      t.Sound := by
  have ht : t.Fits := hfits t hst
  obtain ⟨action, fix⟩ := a
  -- the other actions do what they do, and leave the queue alone
  have hother : ∀ {u : TimeoutCache V R}, action.touchesQueue = false →
      (TimeoutCache.machine V R).step s.toTimeoutCache action = some u →
      t = { s with toTimeoutCache := u } →
      (TimeoutCache.machine V R).step s.toTimeoutCache action = some t.toTimeoutCache ∧
        t.Sound := by
    rintro u hqueue hu rfl
    obtain ⟨hq, hkeys, hallocated⟩ := TimeoutCache.queue_step hqueue hu
    exact ⟨hu, h.frame hq hkeys hallocated⟩
  cases action with
  | put key value ttl notified =>
    obtain rfl := Option.some.inj hst
    obtain ⟨heq, hsound⟩ := h.put ho ht
    exact ⟨congrArg some heq.symm, hsound⟩
  | setTtl key ttl =>
    obtain rfl := Option.some.inj hst
    obtain ⟨heq, hsound⟩ := h.setTtl ho ht
    exact ⟨congrArg some heq.symm, hsound⟩
  | remove key =>
    obtain rfl := Option.some.inj hst
    obtain ⟨heq, hsound⟩ := h.remove ho ht
    exact ⟨congrArg some heq.symm, hsound⟩
  | poll =>
    simp only [machine] at hst
    split at hst
    next time hw =>
      obtain rfl := Option.some.inj hst
      obtain ⟨heq, hsound⟩ := h.pollFirst fix time
      refine ⟨?_, hsound⟩
      simp only [TimeoutCache.machine, hw, heq]
    next => cases hst
  | tick ms | wake | test | copy i | start i | finish i returns | close i =>
    simp only [machine] at hst
    obtain ⟨u, hu, heq⟩ := Option.map_eq_some_iff.mp hst
    exact hother rfl hu heq.symm

theorem sound_init : ({} : TreeCache V R).Sound where
  toList_tree := rfl
  ordered := List.Pairwise.nil
  queued := nofun
  fits := nofun

/-- **The list is what the tree holds.** As long as deadlines fit, every run of the machine with the
tree is a run of the machine with the list. -/
theorem refines (h : (machine V R).Runs Fitting {} s) :
    (TimeoutCache.machine V R).Reaches {} s.toTimeoutCache ∧ s.Sound := by
  refine h.invariant
    (I := fun s => (TimeoutCache.machine V R).Reaches {} s.toTimeoutCache ∧ s.Sound)
    (fun hfits hs hst => ?_) ⟨.refl, sound_init⟩
  obtain ⟨hstep, hsound⟩ := hs.2.step (TimeoutCache.owned_of_reaches hs.1) hfits hst
  exact ⟨hs.1.tail hstep, hsound⟩

/-! ### Where the elements are -/

/-- The elements of the tree: strictly sorted, with one key each, the objects of the cache. So the
object of an entry is found if it is there, and `timedQ.remove` takes out this one. -/
structure Represented (s : TreeCache V R) : Prop where
  sorted : (toList s.tree).Pairwise fun r r' =>
    (s.timedKeys r).compare (s.timedKeys r') = .lt
  distinct : (toList s.tree).Pairwise fun r r' => (s.timedKeys r).key ≠ (s.timedKeys r').key
  held : ∀ r ∈ toList s.tree, ∃ value,
    s.cache (s.timedKeys r).key = some { key := r, value := value }
  found : ∀ key holder, s.cache key = some holder → holder.key ∈ toList s.tree →
    find? (s.comparator holder.key) s.tree = some holder.key
  removed : ∀ key holder fix, s.cache key = some holder →
    toList (s.timedQ_remove fix holder.key).tree = (toList s.tree).erase holder.key

theorem Sound.nodup (h : s.Sound) : (toList s.tree).Nodup := by
  rw [h.toList_tree]
  refine h.ordered.imp fun {a b} hab => ?_
  rintro rfl
  rw [TimeoutCache.compare, TimedKey.compare_self] at hab
  cases hab

/-- A search for an object compares as equal with this one only. -/
theorem Sound.isEq_compare (h : s.Sound) (ho : s.Owned) (hr : r < s.allocated) :
    ∀ x ∈ toList s.tree, (s.compare r x).isEq = (x == r) := by
  intro x hx
  rw [h.toList_tree] at hx
  rw [Bool.eq_iff_iff, Ordering.isEq_iff_eq_eq, ho.compare_eq_iff hr (h.queued x hx), beq_iff_eq,
    eq_comm]

theorem Sound.find?_comparator (h : s.Sound) (ho : s.Owned) (hr : r < s.allocated)
    (hmem : r ∈ toList s.tree) : find? (s.comparator r) s.tree = some r := by
  rw [SearchTree.find?_congr (h.comparator_eq hr), SearchTree.find?_eq (h.cuts r)]
  have hself : (s.compare r r).isEq = true := by rw [h.isEq_compare ho hr r hmem, beq_self_eq_true]
  have hsome : ((toList s.tree).find? fun x => (s.compare r x).isEq).isSome = true :=
    List.find?_isSome.mpr ⟨r, hmem, hself⟩
  obtain ⟨x, hx⟩ := Option.isSome_iff_exists.mp hsome
  have hxr := List.find?_some hx
  rw [h.isEq_compare ho hr x (List.mem_of_find?_eq_some hx), beq_iff_eq] at hxr
  rw [hx, hxr]

theorem Sound.toList_remove (h : s.Sound) (ho : s.Owned) (hr : r < s.allocated) (fix : Fixes) :
    toList (s.timedQ_remove fix r).tree = (toList s.tree).erase r := by
  obtain ⟨hremove, hsound⟩ := h.timedQ_remove hr fix
  rw [hsound.toList_tree, hremove, h.nodup.erase_eq_filter, h.toList_tree]
  refine List.filter_congr fun x hx => ?_
  rw [h.isEq_compare ho hr x (h.toList_tree ▸ hx)]
  rfl

/-- **The queue in every reachable state.** Callers, watcher and pool tasks in any order, the tree
balanced in any way: as long as deadlines differ by a `long`, the elements of the tree are strictly
sorted, at most one for each key, and each is the object the cache holds under its key. -/
theorem represented (h : (machine V R).Runs Fitting {} s) : s.Represented := by
  obtain ⟨hreaches, hs⟩ := refines h
  have ho := TimeoutCache.owned_of_reaches hreaches
  have hqueued : ∀ r ∈ toList s.tree, r < s.allocated := hs.toList_tree ▸ hs.queued
  have hcached : ∀ {key holder}, s.cache key = some holder → holder.key < s.allocated :=
    fun hk => (ho.cached _ _ hk).1
  exact {
    sorted := hs.toList_tree ▸ hs.ordered
    distinct := hs.nodup.imp_of_mem fun {a b} ha hb hne hkey =>
      hne (ho.ref_inj (hqueued a ha) (hqueued b hb) hkey)
    held := fun r hr => ho.owned r (hqueued r hr)
    found := fun _ _ hk hmem => hs.find?_comparator ho (hcached hk) hmem
    removed := fun _ _ fix hk => hs.toList_remove ho (hcached hk) fix }

/-- Two objects with one deadline, of which one is renewed, popped and renewed again, and a third
that is removed. -/
theorem represented_renewed :
    ∃ s : TreeCache String String, (machine String String).Runs Fitting {} s ∧
      (toList s.tree = [2, 1, 0] ∧ s.cache "a" = some { key := 0, value := some "v" }) ∧
      s.Represented := by
  obtain ⟨s, hrun, hs⟩ := Machine.Runs.exists_of_run (m := machine String String) (G := Fitting)
    (s := {})
    (P := fun s => toList s.tree = [2, 1, 0] ∧ s.cache "a" = some { key := 0, value := some "v" })
    [{ action := .put "a" (some "v") 5 [] }, { action := .put "b" none 5 ["callback"] },
      { action := .setTtl "a" 1 }, { action := .tick 2 }, { action := .wake }, { action := .test },
      { action := .poll }, { action := .setTtl "a" 10 }, { action := .put "c" none 7 [] },
      { action := .remove "c" }] (by decide)
  exact ⟨s, hrun, hs, represented hrun⟩

end TreeCache

end Gwems
