import Mathlib.Data.List.Nodup
import Mathlib.Data.List.Perm.Subperm
import ShadPS4.Lib.Transition

/-!
# Least recently used items

A cache keeps its items in a doubly linked list by the time of their last use. The nodes are in a pool, and a node
that was freed is used again.
-/

namespace ShadPS4.Common

open List

structure Item (α : Type) where
  obj : α
  tick : BitVec 64
  next : Option ℕ := none
  prev : Option ℕ := none

/-- `LeastRecentlyUsedCache`, for ticks of type `u64`. -/
structure LeastRecentlyUsedCache (α : Type) where
  item_pool : ℕ → Item α
  size : ℕ := 0
  free_items : List ℕ := []
  first_item : Option ℕ := none
  last_item : Option ℕ := none

/-- What a callback does to the item that it is given: it frees it or not, and returns a `bool`. -/
structure Callback where
  frees : ℕ → Bool
  returns : ℕ → Bool

/-- `std::is_same_v<std::invoke_result<Func, ObjectType>, bool>`. -/
def RETURNS_BOOL : Bool := false

namespace LeastRecentlyUsedCache

variable {α : Type}

section

variable (c : LeastRecentlyUsedCache α)

def setItem (id : ℕ) (item : Item α) : LeastRecentlyUsedCache α :=
  { c with item_pool := fun u => if u = id then item else c.item_pool u }

def setNext (id : ℕ) (next : Option ℕ) : LeastRecentlyUsedCache α :=
  c.setItem id { c.item_pool id with next }

def setPrev (id : ℕ) (prev : Option ℕ) : LeastRecentlyUsedCache α :=
  c.setItem id { c.item_pool id with prev }

/-- `Build`: the number of a node without neighbours. -/
def build : LeastRecentlyUsedCache α × ℕ :=
  match c.free_items with
  | [] => ({ c.setItem c.size { c.item_pool c.size with next := none, prev := none } with
      size := c.size + 1 }, c.size)
  | item_id :: rest =>
    ({ c.setItem item_id { c.item_pool item_id with next := none, prev := none } with
      free_items := rest }, item_id)

def attach (id : ℕ) : LeastRecentlyUsedCache α :=
  let c := if c.first_item = none then { c with first_item := some id } else c
  match c.last_item with
  | none => { c with last_item := some id }
  | some last =>
    { ((c.setPrev id (some last)).setNext last (some id)).setNext id none with last_item := some id }

def detach (id : ℕ) : LeastRecentlyUsedCache α :=
  let c := (c.item_pool id).prev.elim c fun prev => c.setNext prev (c.item_pool id).next
  let c := (c.item_pool id).next.elim c fun next => c.setPrev next (c.item_pool id).prev
  let c := if c.first_item = some id then
      let first := (c.item_pool id).next
      first.elim { c with first_item := none } fun id => { c.setPrev id none with first_item := first }
    else c
  if c.last_item = some id then
    let last := (c.item_pool id).prev
    last.elim { c with last_item := none } fun id => { c.setNext id none with last_item := last }
  else c

/-- `Insert`, with the number that it returns. -/
def insert (obj : α) (tick : BitVec 64) : LeastRecentlyUsedCache α × ℕ :=
  let (c, new_id) := c.build
  ((c.setItem new_id { c.item_pool new_id with obj, tick }).attach new_id, new_id)

def touch (id : ℕ) (tick : BitVec 64) : LeastRecentlyUsedCache α :=
  if tick ≤ (c.item_pool id).tick then c
  else
    let c := c.setItem id { c.item_pool id with tick }
    if c.last_item = some id then c else (c.detach id).attach id

def free (id : ℕ) : LeastRecentlyUsedCache α :=
  let c := c.detach id
  { c.setItem id { c.item_pool id with prev := none, next := none } with
    free_items := c.free_items ++ [id] }

/-- The difference of the ticks, as values of type `s64`, is not negative. -/
def below (tick : BitVec 64) (id : ℕ) : Bool :=
  0 ≤ (tick - (c.item_pool id).tick).toInt

end

/-- The loop of `ForEachItemBelow`, with the items that the callback is given. -/
def forEachFrom (tick : BitVec 64) (func : Callback) :
    ℕ → LeastRecentlyUsedCache α → Option ℕ → LeastRecentlyUsedCache α × List ℕ
  | 0, c, _ => (c, [])
  | _ + 1, c, none => (c, [])
  | fuel + 1, c, some id =>
    if c.below tick id = false then (c, [])
    else
      let next := (c.item_pool id).next
      let c := if func.frees id then c.free id else c
      if RETURNS_BOOL && func.returns id then (c, [id])
      else
        let r := forEachFrom tick func fuel c next
        (r.1, id :: r.2)

/-- `ForEachItemBelow`. No list is longer than the pool. -/
def forEachItemBelow (c : LeastRecentlyUsedCache α) (tick : BitVec 64) (func : Callback) :
    LeastRecentlyUsedCache α × List ℕ :=
  forEachFrom tick func (c.size + 1) c c.first_item

end LeastRecentlyUsedCache

/-- The nodes of the list are linked to each other, between two nodes. -/
def Seg {α : Type} (items : ℕ → Item α) : Option ℕ → List ℕ → Option ℕ → Prop
  | _, [], _ => True
  | before, id :: rest, after => (items id).prev = before ∧ (items id).next = rest.head?.or after ∧
    Seg items (some id) rest after

section

variable {α : Type} {items items' : ℕ → Item α} {before before' after after' : Option ℕ}
  {l a b : List ℕ} {id : ℕ}

theorem seg_append : Seg items before (a ++ b) after ↔
    Seg items before a (b.head?.or after) ∧ Seg items (a.getLast?.or before) b after := by
  induction a generalizing before with
  | nil => simp [Seg]
  | cons id a ih =>
    rw [cons_append, Seg, Seg, ih]
    cases a with
    | nil => simp [and_assoc]
    | cons id' a => simp [getLast?_cons, and_assoc]

theorem Seg.congr (h : Seg items before l after)
    (hsame : ∀ u ∈ l, (items' u).prev = (items u).prev ∧ (items' u).next = (items u).next) :
    Seg items' before l after := by
  induction l generalizing before with
  | nil => trivial
  | cons id l ih =>
    obtain ⟨hprev, hnext, h⟩ := h
    obtain ⟨hprev', hnext'⟩ := hsame id mem_cons_self
    exact ⟨hprev'.trans hprev, hnext'.trans hnext, ih h fun u hu => hsame u (mem_cons_of_mem id hu)⟩

theorem Seg.exit (h : Seg items before l after) (hnodup : l.Nodup) (hprev : ∀ u ∈ l, (items' u).prev = (items u).prev)
    (hnext : ∀ u ∈ l, (items' u).next = if l.getLast? = some u then after' else (items u).next) :
    Seg items' before l after' := by
  induction l generalizing before with
  | nil => trivial
  | cons id l ih =>
    obtain ⟨hprev0, hnext0, h⟩ := h
    have hfirst := hnext id mem_cons_self
    obtain ⟨hid, hnodup⟩ := nodup_cons.mp hnodup
    refine ⟨(hprev id mem_cons_self).trans hprev0, ?_, ih h hnodup
      (fun u hu => hprev u (mem_cons_of_mem id hu)) fun u hu => ?_⟩
    · cases l with
      | nil => exact hfirst.trans (if_pos rfl)
      | cons id' l =>
        have hne : (id :: id' :: l).getLast? ≠ some id := by
          exact fun hlast => hid (mem_of_getLast? hlast)
        rw [hfirst, if_neg hne, hnext0]
        rfl
    · rw [hnext u (mem_cons_of_mem id hu)]
      cases l with
      | nil => cases hu
      | cons id' l => rw [getLast?_cons_cons]

theorem Seg.entry (h : Seg items before l after)
    (hprev : ∀ u ∈ l, (items' u).prev = if l.head? = some u then before' else (items u).prev)
    (hnext : ∀ u ∈ l, (items' u).next = (items u).next) (hnodup : l.Nodup) : Seg items' before' l after := by
  cases l with
  | nil => trivial
  | cons id l =>
    obtain ⟨-, hnext0, h⟩ := h
    obtain ⟨hid, -⟩ := nodup_cons.mp hnodup
    refine ⟨(hprev id mem_cons_self).trans (if_pos rfl),
      (hnext id mem_cons_self).trans hnext0, h.congr fun u hu => ?_⟩
    have hne : (id :: l).head? ≠ some u := fun hsome => by
      cases hsome
      exact hid hu
    rw [hprev u (mem_cons_of_mem id hu), if_neg hne]
    exact ⟨rfl, hnext u (mem_cons_of_mem id hu)⟩

end

/-! ## The list of the items -/

namespace LeastRecentlyUsedCache

variable {α : Type} {c c' : LeastRecentlyUsedCache α} {l a b : List ℕ} {id : ℕ}

structure Linked (c : LeastRecentlyUsedCache α) (l : List ℕ) : Prop where
  first : c.first_item = l.head?
  last : c.last_item = l.getLast?
  links : Seg c.item_pool none l none
  nodup : l.Nodup

theorem Linked.detach_eq (h : c.Linked (a ++ id :: b)) : c.detach id = { c with
    item_pool := fun u => { c.item_pool u with
      next := if a.getLast? = some u then b.head? else (c.item_pool u).next
      prev := if b.head? = some u then a.getLast? else (c.item_pool u).prev }
    first_item := (a ++ b).head?
    last_item := (a ++ b).getLast? } := by
  obtain ⟨hfirst, hlast, hlinks, hnodup⟩ := h
  obtain ⟨-, hprev, hnext, -⟩ := seg_append.mp hlinks
  obtain ⟨-, hnb, hdisj⟩ := nodup_append.mp hnodup
  obtain ⟨hidb, -⟩ := nodup_cons.mp hnb
  have hida (u : ℕ) (hu : u ∈ a) : u ≠ id := hdisj u hu id mem_cons_self
  have hne (u : ℕ) (hu : u ∈ b) : u ≠ id := fun heq => hidb (heq ▸ hu)
  unfold LeastRecentlyUsedCache.detach
  -- The neighbours are other nodes, and one that is missing is an end of the list.
  have hhead (ha : a ≠ []) : c.first_item ≠ some id := by
    obtain ⟨x, a', rfl⟩ := exists_cons_of_ne_nil ha
    rw [hfirst]
    exact fun hsome => hida x mem_cons_self (Option.some.inj hsome)
  have hback (hb : b ≠ []) : c.last_item ≠ some id := by
    rw [hlast, getLast?_append_cons, getLast?_cons, getLast?_eq_some_getLast hb]
    exact fun hsome => hne _ (getLast_mem hb) (Option.some.inj hsome)
  rcases eq_nil_or_concat a with rfl | ⟨a', x, rfl⟩
  · cases b with
    | nil => simp_all
    | cons y b =>
      have hy := hne y mem_cons_self
      simp [setPrev, setItem, hprev, hnext, hfirst, hback, hy.symm]
      refine ⟨funext fun u => ?_, by simp [hlast]⟩
      rcases eq_or_ne u y with rfl | hu <;> simp [*, Ne.symm]
  · have hx := hida x (by simp)
    cases b with
    | nil =>
      simp [setNext, setItem, hprev, hnext, hhead, hlast, hx.symm]
      refine ⟨funext fun u => ?_, by simp [hfirst]⟩
      rcases eq_or_ne u x with rfl | hu <;> simp [*, Ne.symm]
    | cons y b =>
      simp [setNext, setPrev, setItem, hprev, hnext, hhead, hback, hx.symm]
      refine ⟨funext fun u => ?_, by simp [hfirst], by simp [hlast]⟩
      rcases eq_or_ne u x with rfl | hu <;> rcases eq_or_ne u y with rfl | hu' <;> simp [*, Ne.symm]

/-- The second cache has the ticks of the first one, and its free nodes. -/
structure SameItems (c c' : LeastRecentlyUsedCache α) : Prop where
  size : c'.size = c.size
  free_items : c'.free_items = c.free_items
  tick : ∀ u, (c'.item_pool u).tick = (c.item_pool u).tick

theorem Linked.detach (h : c.Linked (a ++ id :: b)) : (c.detach id).Linked (a ++ b) ∧ c.SameItems (c.detach id) := by
  rw [h.detach_eq]
  refine ⟨?_, rfl, rfl, fun _ => rfl⟩
  obtain ⟨ha, -, -, hb⟩ := seg_append.mp h.links
  obtain ⟨hna, hnb, hdisj⟩ := nodup_append.mp h.nodup
  constructor
  case first => rfl
  case last => rfl
  case nodup => exact h.nodup.sublist ((sublist_cons_self id b).append_left a)
  case links =>
    rw [seg_append, Option.or_none, Option.or_none]
    constructor
    · apply ha.exit hna
      · exact fun u hu => if_neg fun hsome =>
          hdisj u hu u (mem_cons_of_mem id (mem_of_head? hsome)) rfl
      · exact fun u _ => rfl
    · apply hb.entry
      · exact fun u _ => rfl
      · exact fun u hu => if_neg fun hsome =>
          hdisj u (mem_of_getLast? hsome) u (mem_cons_of_mem id hu) rfl
      · exact hnb.of_cons

theorem Linked.attach_eq (h : c.Linked l) (hid : id ∉ l)
    (halone : l = [] → (c.item_pool id).prev = none ∧ (c.item_pool id).next = none) : c.attach id = { c with
      item_pool := fun u => if u = id then { c.item_pool id with next := none, prev := l.getLast? }
        else { c.item_pool u with
          next := if l.getLast? = some u then some id else (c.item_pool u).next }
      first_item := (l ++ [id]).head?
      last_item := some id } := by
  obtain ⟨hfirst, hlast, -, -⟩ := h
  unfold LeastRecentlyUsedCache.attach
  rcases eq_nil_or_concat' l with rfl | ⟨l', last, rfl⟩
  · obtain ⟨hprev, hnext⟩ := halone rfl
    simp [hfirst, hlast]
    funext u
    rcases eq_or_ne u id with rfl | hu
    · cases hitem : c.item_pool u
      simp_all
    · simp [hu]
  · have hne : last ≠ id := by
      rintro rfl
      exact hid (by simp)
    simp [hfirst, hlast, setNext, setPrev, setItem, hne, hne.symm]
    funext u
    rcases eq_or_ne u id with rfl | hu
    · simp
    · rcases eq_or_ne u last with rfl | hu' <;> simp [*, Ne.symm]

theorem Linked.attach (h : c.Linked l) (hid : id ∉ l)
    (halone : l = [] → (c.item_pool id).prev = none ∧ (c.item_pool id).next = none) :
    (c.attach id).Linked (l ++ [id]) ∧ c.SameItems (c.attach id) := by
  rw [h.attach_eq hid halone]
  have hne (u : ℕ) (hu : u ∈ l) : u ≠ id := fun heq => hid (heq ▸ hu)
  constructor
  · constructor
    case first => rfl
    case last => simp
    case nodup => exact nodup_append.mpr ⟨h.nodup, pairwise_singleton _ id, fun u hu v hv =>
      mem_singleton.mp hv ▸ hne u hu⟩
    case links =>
      rw [seg_append, Option.or_none]
      constructor
      · apply h.links.exit h.nodup
        · intro u hu
          simp [hne u hu]
        · intro u hu
          simp [hne u hu]
      · simp [Seg]
  · refine ⟨rfl, rfl, fun u => ?_⟩
    rcases eq_or_ne u id with rfl | hu <;> simp [*]

/-! ## The invariant -/

/-- What holds between the operations, for the list of the items, the live ones, and the last tick. -/
structure Kept (c : LeastRecentlyUsedCache α) (l : List ℕ) (live : ℕ → Prop) (now : BitVec 64) :
    Prop where
  linked : c.Linked l
  live : ∀ id, id ∈ l ↔ live id
  pool : ∀ id, id < c.size ↔ id ∈ l ∨ id ∈ c.free_items
  apart : (l ++ c.free_items).Nodup
  sorted : l.Pairwise fun u v => (c.item_pool u).tick ≤ (c.item_pool v).tick
  past : ∀ id ∈ l, (c.item_pool id).tick ≤ now

variable {live : ℕ → Prop} {now tick : BitVec 64}

theorem Linked.setItem (h : c.Linked l) (item : Item α)
    (hid : id ∉ l ∨ item.prev = (c.item_pool id).prev ∧ item.next = (c.item_pool id).next) :
    (c.setItem id item).Linked l := by
  refine ⟨h.first, h.last, h.links.congr fun u hu => ?_, h.nodup⟩
  unfold LeastRecentlyUsedCache.setItem
  dsimp only
  split_ifs with heq
  · subst heq
    exact hid.resolve_left (not_not.mpr hu)
  · exact ⟨rfl, rfl⟩

theorem Kept.free (h : c.Kept (a ++ id :: b) live now) : (c.free id).Kept (a ++ b) (fun u => live u ∧ u ≠ id) now ∧
      ∀ u, ((c.free id).item_pool u).tick = (c.item_pool u).tick := by
  obtain ⟨hlinked, hsame⟩ := h.linked.detach
  have htick (u : ℕ) : ((c.free id).item_pool u).tick = (c.item_pool u).tick := by
    rw [← hsame.tick u]
    show (ite _ _ _ : Item α).tick = _
    split_ifs with hu
    · rw [hu]
    · rfl
  have hmem (u : ℕ) : u ∈ a ++ id :: b ↔ u ∈ a ++ b ∨ u = id := by
    simp only [mem_append, mem_cons]
    tauto
  have hid : id ∉ a ++ b := (nodup_cons.mp (nodup_middle.mp h.linked.nodup)).1
  refine ⟨?_, htick⟩
  constructor
  case linked =>
    obtain ⟨hfirst, hlast, hlinks, hnodup⟩ := hlinked.setItem
      { (c.detach id).item_pool id with prev := none, next := none } (.inl hid)
    exact ⟨hfirst, hlast, hlinks, hnodup⟩
  case live =>
    intro u
    rw [← h.live u, hmem u]
    constructor
    · exact fun hu => ⟨.inl hu, fun heq => hid (heq ▸ hu)⟩
    · exact fun hu => hu.1.resolve_right hu.2
  case pool =>
    intro u
    show u < (c.detach id).size ↔ u ∈ a ++ b ∨ u ∈ (c.detach id).free_items ++ [id]
    rw [hsame.size, hsame.free_items, h.pool u, hmem u, mem_append (t := [id]), mem_singleton]
    tauto
  case apart =>
    show (a ++ b ++ ((c.detach id).free_items ++ [id])).Nodup
    rw [hsame.free_items, ← append_assoc]
    have hperm : List.Perm (a ++ id :: b) (id :: (a ++ b)) := perm_middle
    exact ((hperm.append_right _).trans (perm_append_singleton id _).symm).nodup_iff.mp h.apart
  case sorted =>
    refine (h.sorted.sublist ((sublist_cons_self id b).append_left a)).imp fun hle => ?_
    rwa [htick, htick]
  case past =>
    intro u hu
    rw [htick]
    exact h.past u ((hmem u).mpr (.inl hu))

theorem Kept.append (hlinked : c'.Linked (l ++ [id])) (hfree : c'.free_items = items)
    (hpool : ∀ u, u < c'.size ↔ u ∈ l ∨ u = id ∨ u ∈ items) (hapart : (l ++ [id] ++ items).Nodup)
    (hlive : ∀ u, u ∈ l ∨ u = id ↔ live u) (hid : (c'.item_pool id).tick = tick)
    (hsorted : l.Pairwise fun u v => (c'.item_pool u).tick ≤ (c'.item_pool v).tick)
    (hpast : ∀ u ∈ l, (c'.item_pool u).tick ≤ tick) : c'.Kept (l ++ [id]) live tick := by
  have hmem (u : ℕ) : u ∈ l ++ [id] ↔ u ∈ l ∨ u = id := by
    rw [mem_append, mem_singleton]
  constructor
  case linked => exact hlinked
  case live => exact fun u => (hmem u).trans (hlive u)
  case pool => exact fun u => by rw [hpool, hmem, hfree, or_assoc]
  case apart => rwa [hfree]
  case sorted =>
    refine pairwise_append.mpr ⟨hsorted, pairwise_singleton _ id, fun u hu v hv => ?_⟩
    rw [mem_singleton.mp hv, hid]
    exact hpast u hu
  case past =>
    intro u hu
    rcases (hmem u).mp hu with hu | rfl
    · exact hpast u hu
    · rw [hid]
      exact BitVec.le_refl tick

theorem Kept.touch (h : c.Kept (a ++ id :: b) live now) (hnow : now ≤ tick) :
    ∃ l, (c.touch id tick).Kept l live tick := by
  obtain ⟨hlinked, hlive, hpool, hapart, hsorted, hpast⟩ := h
  have hmem (u : ℕ) : u ∈ a ++ id :: b ↔ u ∈ a ++ b ∨ u = id := by
    simp only [mem_append, mem_cons]
    tauto
  have hid := (nodup_cons.mp (nodup_middle.mp hlinked.nodup)).1
  have hpast' (u : ℕ) (hu : u ∈ a ++ id :: b) : (c.item_pool u).tick ≤ tick :=
    BitVec.le_trans (hpast u hu) hnow
  unfold LeastRecentlyUsedCache.touch
  dsimp only
  split_ifs with hold hlast
  · exact ⟨_, hlinked, hlive, hpool, hapart, hsorted, hpast'⟩
  -- The item has the new tick, and the others have theirs.
  all_goals
    have hset := hlinked.setItem { c.item_pool id with tick } (.inr ⟨rfl, rfl⟩)
    have htick (u : ℕ) : ((c.setItem id { c.item_pool id with tick }).item_pool u).tick =
        if u = id then tick else (c.item_pool u).tick := by
      show (ite _ _ _ : Item α).tick = _
      split_ifs <;> rfl
    have hother (u : ℕ) (hu : u ∈ a ++ b) :
        ((c.setItem id { c.item_pool id with tick }).item_pool u).tick = (c.item_pool u).tick := by
      have hne : u ≠ id := fun heq => hid (heq ▸ hu)
      rw [htick, if_neg hne]
    have hsorted' := hsorted.sublist ((sublist_cons_self id b).append_left a)
    have hperm : (a ++ id :: b).Perm (a ++ b ++ [id]) :=
      List.perm_middle.trans (perm_append_singleton id _).symm
    have hpool' (u : ℕ) : u < c.size ↔ u ∈ a ++ b ∨ u = id ∨ u ∈ c.free_items := by
      rw [hpool, hmem, or_assoc]
    have hlive' (u : ℕ) : u ∈ a ++ b ∨ u = id ↔ live u := (hmem u).symm.trans (hlive u)
    have hapart' := (hperm.append_right _).nodup_iff.mp hapart
  · obtain rfl : b = [] := by
      by_contra hne
      have hback : c.last_item = some id := hlast
      rw [hlinked.last, getLast?_append_cons, getLast?_cons, getLast?_eq_some_getLast hne] at hback
      exact hid (mem_append_right a (Option.some.inj hback ▸ getLast_mem hne))
    refine ⟨_, Kept.append (by rwa [append_nil]) rfl hpool' hapart' hlive' ?_ ?_ ?_⟩
    · rw [htick, if_pos rfl]
    · exact hsorted'.imp_of_mem fun hu hv hle => by rwa [hother _ hu, hother _ hv]
    · exact fun u hu => hother u hu ▸ hpast' u ((hmem u).mpr (.inl hu))
  · obtain ⟨hdetached, hsame⟩ := hset.detach
    obtain ⟨hattached, hsame'⟩ := hdetached.attach hid fun hnil => by
      obtain ⟨rfl, rfl⟩ := append_eq_nil_iff.mp hnil
      exact absurd hlinked.last hlast
    have hticks (u : ℕ) := (hsame'.tick u).trans (hsame.tick u)
    refine ⟨_, Kept.append hattached (hsame'.free_items.trans hsame.free_items) ?_ hapart' hlive' ?_ ?_ ?_⟩
    · intro u
      rw [hsame'.size, hsame.size]
      exact hpool' u
    · rw [hticks, htick, if_pos rfl]
    · exact hsorted'.imp_of_mem fun hu hv hle => by rwa [hticks, hticks, hother _ hu, hother _ hv]
    · intro u hu
      rw [hticks, hother u hu]
      exact hpast' u ((hmem u).mpr (.inl hu))

theorem build_spec (hpool : ∀ u, u < c.size ↔ u ∈ l ∨ u ∈ c.free_items)
    (hapart : (l ++ c.free_items).Nodup) : c.build.2 ∉ l ∧ (l ++ [c.build.2] ++ c.build.1.free_items).Nodup ∧
    ∀ u, u < c.build.1.size ↔ u ∈ l ∨ u = c.build.2 ∨ u ∈ c.build.1.free_items := by
  unfold build
  cases hfree : c.free_items with
  | nil =>
    rw [hfree] at hpool hapart
    have hnew : c.size ∉ l := fun hin => absurd ((hpool _).mpr (.inl hin)) (Nat.lt_irrefl _)
    refine ⟨hnew, ?_, fun u => ?_⟩
    · show (l ++ [c.size] ++ c.free_items).Nodup
      rw [hfree, append_nil]
      exact (perm_append_singleton _ l).nodup_iff.mpr (nodup_cons.mpr ⟨hnew, by rwa [append_nil] at hapart⟩)
    · show u < c.size + 1 ↔ u ∈ l ∨ u = c.size ∨ u ∈ c.free_items
      rw [hfree, Nat.lt_succ_iff_lt_or_eq, hpool u]
      simp
  | cons id rest =>
    rw [hfree] at hpool hapart
    refine ⟨fun hin => ?_, by rwa [append_assoc], fun u => ?_⟩
    · exact (nodup_append.mp hapart).2.2 id hin id mem_cons_self rfl
    · show u < c.size ↔ u ∈ l ∨ u = id ∨ u ∈ rest
      rw [hpool u, mem_cons]

theorem Kept.insert (h : c.Kept l live now) (hnow : now ≤ tick) (obj : α) :
    ¬ live (c.insert obj tick).2 ∧ (c.insert obj tick).1.Kept (l ++ [(c.insert obj tick).2])
      (fun u => live u ∨ u = (c.insert obj tick).2) tick := by
  obtain ⟨hlinked, hlive, hpool, hapart, hsorted, hpast⟩ := h
  obtain ⟨hnew, hapart', hpool'⟩ := build_spec hpool hapart
  -- The node is alone, and the others are as they were.
  have hbuild : (c.build.1.item_pool c.build.2).prev = none ∧
      (c.build.1.item_pool c.build.2).next = none ∧ c.build.1.first_item = c.first_item ∧
      c.build.1.last_item = c.last_item ∧
      ∀ u ≠ c.build.2, c.build.1.item_pool u = c.item_pool u := by
    unfold build
    cases c.free_items <;> refine ⟨?_, ?_, rfl, rfl, fun u hu => if_neg hu⟩ <;>
      simp [LeastRecentlyUsedCache.setItem]
  obtain ⟨hprev, hnext, hfirst, hlast, hothers⟩ := hbuild
  have hne (u : ℕ) (hu : u ∈ l) : u ≠ c.build.2 := fun heq => hnew (heq ▸ hu)
  have hbuilt : c.build.1.Linked l :=
    ⟨hfirst.trans hlinked.first, hlast.trans hlinked.last, hlinked.links.congr fun u hu => by
      rw [hothers u (hne u hu)]; exact ⟨rfl, rfl⟩, hlinked.nodup⟩
  have hset := hbuilt.setItem { c.build.1.item_pool c.build.2 with obj, tick } (.inl hnew)
  obtain ⟨hattached, hsame⟩ := hset.attach hnew fun _ => by
    simp [LeastRecentlyUsedCache.setItem, hprev, hnext]
  have htick (u : ℕ) : ((c.insert obj tick).1.item_pool u).tick =
      if u = c.build.2 then tick else (c.item_pool u).tick := by
    refine (hsame.tick u).trans ?_
    show (ite _ _ _ : Item α).tick = _
    split_ifs with hu
    · rfl
    · rw [hothers u hu]
  have hother (u : ℕ) (hu : u ∈ l) : ((c.insert obj tick).1.item_pool u).tick = (c.item_pool u).tick := by
    rw [htick, if_neg (hne u hu)]
  refine ⟨fun hin => hnew ((hlive _).mpr hin), Kept.append hattached hsame.free_items ?_ hapart' ?_ ?_ ?_ ?_⟩
  · exact fun u => hsame.size ▸ hpool' u
  · exact fun u => or_congr_left (hlive u)
  · rw [htick]
    exact if_pos rfl
  · exact hsorted.imp_of_mem fun hu hv hle => by rwa [hother _ hu, hother _ hv]
  · intro u hu
    rw [hother u hu]
    exact BitVec.le_trans (hpast u hu) hnow

theorem Kept.congr (h : c.Kept l live now) (hlive : ∀ u, live u ↔ live' u) :
    c.Kept l live' now := { h with live := fun u => (h.live u).trans (hlive u) }

theorem Kept.forEachFrom (tick : BitVec 64) (func : Callback) (h : c.Kept (a ++ b) live now)
    (hfuel : b.length < fuel) : (forEachFrom tick func fuel c b.head?).2 = b.takeWhile (c.below tick) ∧
    ∃ l, (forEachFrom tick func fuel c b.head?).1.Kept l (fun u => live u ∧
      ¬ (u ∈ b.takeWhile (c.below tick) ∧ func.frees u = true)) now := by
  induction b generalizing c a live fuel with
  | nil =>
    obtain ⟨fuel, rfl⟩ := Nat.exists_eq_succ_of_ne_zero (Nat.ne_of_gt hfuel)
    exact ⟨rfl, a ++ [], h.congr fun u => by simp⟩
  | cons id b ih =>
    obtain ⟨fuel, rfl⟩ := Nat.exists_eq_succ_of_ne_zero (Nat.ne_of_gt (Nat.zero_lt_of_lt hfuel))
    have hfuel' : b.length < fuel := Nat.lt_of_succ_lt_succ hfuel
    rw [head?_cons]
    unfold LeastRecentlyUsedCache.forEachFrom
    cases hbelow : c.below tick id with
    | false =>
      rw [if_pos rfl, takeWhile_cons_of_neg (by simp [hbelow])]
      exact ⟨rfl, a ++ id :: b, h.congr fun u => by simp⟩
    | true =>
      rw [if_neg (Bool.false_ne_true ∘ Eq.symm), takeWhile_cons_of_pos hbelow]
      have hnext : (c.item_pool id).next = b.head? := by
        obtain ⟨-, -, hnext, -⟩ := seg_append.mp h.linked.links
        rwa [Option.or_none] at hnext
      -- The rest of the list is as it was, whether the item was freed or not.
      obtain ⟨c1, a1, hc1, hkept, htick⟩ : ∃ c1 a1, (if func.frees id then c.free id else c) = c1 ∧
          c1.Kept (a1 ++ b) (fun u => live u ∧ ¬ (u = id ∧ func.frees u = true)) now ∧
          ∀ u, (c1.item_pool u).tick = (c.item_pool u).tick := by
        cases hfrees : func.frees id with
        | true => exact ⟨_, a, rfl, h.free.1.congr fun u => by grind, h.free.2⟩
        | false =>
          refine ⟨_, a ++ [id], rfl, ?_, fun _ => rfl⟩
          rw [append_assoc]
          exact h.congr fun u => by grind
      have hsame : c1.below tick = c.below tick := by
        funext u
        unfold below
        rw [htick]
      obtain ⟨hvisited, l, hl⟩ := ih hkept hfuel'
      have hgoes : ¬ (RETURNS_BOOL && func.returns id) = true := by simp [RETURNS_BOOL]
      dsimp only
      rw [hc1, hnext, if_neg hgoes, hvisited, hsame]
      exact ⟨rfl, l, hl.congr fun u => by grind⟩

theorem Kept.forEachItemBelow (h : c.Kept l live now) (func : Callback) :
    (c.forEachItemBelow tick func).2 = l.takeWhile (c.below tick) ∧
    ∃ l', (c.forEachItemBelow tick func).1.Kept l' (fun u => live u ∧
      ¬ (u ∈ (c.forEachItemBelow tick func).2 ∧ func.frees u = true)) now := by
  have hsize : l.length < c.size + 1 := by
    have hsub : l ⊆ range c.size := fun u hu => mem_range.mpr ((h.pool u).mpr (.inl hu))
    have hle := (List.Nodup.subperm h.linked.nodup hsub).length_le
    rw [length_range] at hle
    omega
  have hspec := Kept.forEachFrom (a := []) tick func h hsize
  rw [← h.linked.first] at hspec
  have hvisited : (c.forEachItemBelow tick func).2 = l.takeWhile (c.below tick) := hspec.1
  rw [hvisited]
  exact ⟨rfl, hspec.2⟩

/-- The items that are not later than the tick, up to the first for which the callback returns `true`. -/
def wanted (c : LeastRecentlyUsedCache α) (tick : BitVec 64) (returns : ℕ → Bool) : List ℕ → List ℕ
  | [] => []
  | id :: rest =>
    if (c.item_pool id).tick ≤ tick then
      id :: if returns id then [] else c.wanted tick returns rest
    else c.wanted tick returns rest

/-- Up to the first item that is later, the signed difference tells that the others are not; and where
the callback returns `true`, no item follows that is below the tick. -/
def Agrees (c : LeastRecentlyUsedCache α) (tick : BitVec 64) (returns : ℕ → Bool) : List ℕ → Prop
  | [] => True
  | id :: rest => (c.below tick id = true ↔ (c.item_pool id).tick ≤ tick) ∧
    ((c.item_pool id).tick ≤ tick →
      if returns id then ∀ next ∈ rest.head?, c.below tick next = false
      else c.Agrees tick returns rest)

theorem wanted_eq_nil {returns : ℕ → Bool} (h : ∀ u ∈ l, ¬ (c.item_pool u).tick ≤ tick) :
    c.wanted tick returns l = [] := by
  induction l with
  | nil => rfl
  | cons id l ih =>
    rw [wanted, if_neg (h id mem_cons_self)]
    exact ih fun u hu => h u (mem_cons_of_mem id hu)

theorem takeWhile_below_iff {returns : ℕ → Bool}
    (hsorted : l.Pairwise fun u v => (c.item_pool u).tick ≤ (c.item_pool v).tick) :
    l.takeWhile (c.below tick) = c.wanted tick returns l ↔ c.Agrees tick returns l := by
  induction l with
  | nil => exact iff_of_true rfl trivial
  | cons id l ih =>
    obtain ⟨hid, hsorted⟩ := pairwise_cons.mp hsorted
    rw [wanted, Agrees]
    by_cases hle : (c.item_pool id).tick ≤ tick
    · simp only [hle, if_true, iff_true, forall_const]
      cases hbelow : c.below tick id with
      | false => simp [hbelow]
      | true =>
        rw [takeWhile_cons_of_pos hbelow, cons_inj_right]
        split_ifs with hreturns
        · cases l with
          | nil => simp
          | cons next l => cases hnext : c.below tick next <;> simp [hnext]
        · simpa using ih hsorted
    · have hlater (u : ℕ) (hu : u ∈ l) : ¬ (c.item_pool u).tick ≤ tick :=
        fun hu' => hle (BitVec.le_trans (hid u hu) hu')
      rw [if_neg hle, wanted_eq_nil hlater]
      cases hbelow : c.below tick id <;> simp [hbelow, hle]

end LeastRecentlyUsedCache

/-! ## Runs -/

/-- A cache in a run, with its live items, and the last tick. -/
structure LruRun (α : Type) where
  cache : LeastRecentlyUsedCache α
  live : ℕ → Prop
  now : BitVec 64

inductive LruOp (α : Type)
  | insert (obj : α) (tick : BitVec 64)
  | touch (id : ℕ) (tick : BitVec 64)
  | free (id : ℕ)
  | forEachItemBelow (tick : BitVec 64) (func : Callback)

namespace LruRun

variable {α : Type} {s s' : LruRun α}

def step (s : LruRun α) : LruOp α → LruRun α
  | .insert obj tick =>
    { cache := (s.cache.insert obj tick).1
      live := fun u => s.live u ∨ u = (s.cache.insert obj tick).2
      now := tick }
  | .touch id tick => { s with cache := s.cache.touch id tick, now := tick }
  | .free id => { s with cache := s.cache.free id, live := fun u => s.live u ∧ u ≠ id }
  | .forEachItemBelow tick func =>
    { s with
      cache := (s.cache.forEachItemBelow tick func).1
      live := fun u => s.live u ∧
        ¬ (u ∈ (s.cache.forEachItemBelow tick func).2 ∧ func.frees u = true) }

/-- The ticks never decrease, and the items that are touched or freed are live. -/
def Valid (s : LruRun α) : LruOp α → Prop
  | .insert _ tick => s.now ≤ tick
  | .touch id tick => s.live id ∧ s.now ≤ tick
  | .free id => s.live id
  | .forEachItemBelow _ _ => True

def IsNew (s : LruRun α) : Prop :=
  s.cache.size = 0 ∧ s.cache.free_items = [] ∧ s.cache.first_item = none ∧ s.cache.last_item = none ∧
    s.now = 0 ∧ ∀ id, ¬ s.live id

theorem kept_step (h : s.cache.Kept l s.live s.now) (hvalid : s.Valid o) :
    ∃ l, (s.step o).cache.Kept l (s.step o).live (s.step o).now := by
  cases o with
  | insert obj tick => exact ⟨_, (h.insert hvalid obj).2⟩
  | touch id tick =>
    obtain ⟨a, b, rfl⟩ := append_of_mem ((h.live id).mpr hvalid.1)
    exact h.touch hvalid.2
  | free id =>
    obtain ⟨a, b, rfl⟩ := append_of_mem ((h.live id).mpr hvalid)
    exact ⟨_, h.free.1⟩
  | forEachItemBelow tick func => exact (h.forEachItemBelow func).2

/-- In every run there is a list of exactly the live items, in the order of their ticks, and the links of the nodes
agree with it. -/
theorem lru_run (h : Run IsNew (fun s o s' => s' = s.step o) Valid s) :
    ∃ l, s.cache.Linked l ∧ (∀ id, id ∈ l ↔ s.live id) ∧
      l.Pairwise (fun u v => (s.cache.item_pool u).tick ≤ (s.cache.item_pool v).tick) ∧
      ∀ tick func, (s.cache.forEachItemBelow tick func).2 = s.cache.wanted tick func.returns l ↔
        s.cache.Agrees tick func.returns l := by
  obtain ⟨l, hkept⟩ : ∃ l, s.cache.Kept l s.live s.now := by
    apply h.invariant
    · rintro s ⟨hsize, hfree, hfirst, hlast, -, hlive⟩
      refine ⟨[], ⟨hfirst, hlast, trivial, .nil⟩, fun id => ?_, fun id => ?_, ?_, .nil, nofun⟩
      · exact iff_of_false not_mem_nil (hlive id)
      · simp [hsize, hfree]
      · simp [hfree]
    · rintro s o _ ⟨l, hkept⟩ hvalid rfl
      exact kept_step hkept hvalid
  refine ⟨l, hkept.linked, hkept.live, hkept.sorted, fun tick func => ?_⟩
  rw [(hkept.forEachItemBelow func).1]
  exact LeastRecentlyUsedCache.takeWhile_below_iff hkept.sorted

def emptyRun : LruRun Unit := ⟨⟨fun _ => ⟨(), 0, none, none⟩, 0, [], none, none⟩, fun _ => False, 0⟩

def twoItems : LruRun Unit := (emptyRun.step (.insert () 1)).step (.insert () 2)

theorem twoItems_run : Run IsNew (fun s o s' => s' = s.step o) Valid twoItems := by
  have hnew : IsNew emptyRun := ⟨rfl, rfl, rfl, rfl, rfl, fun _ => id⟩
  have hfirst : emptyRun.Valid (.insert () 1) := (by decide : (0 : BitVec 64) ≤ 1)
  have hsecond : (emptyRun.step (.insert () 1)).Valid (.insert () 2) :=
    (by decide : (1 : BitVec 64) ≤ 2)
  exact .step (.step (.start hnew) hfirst rfl) hsecond rfl

theorem lru_run_sample : ∃ l, twoItems.cache.Linked l ∧ ∀ id, id ∈ l ↔ twoItems.live id := by
  obtain ⟨l, hlinked, hlive, -⟩ := lru_run twoItems_run
  exact ⟨l, hlinked, hlive⟩

/-- The callback returns `true` for the first item, and is given the second one. -/
theorem forEachItemBelow_goes_on : twoItems.cache.Linked [0, 1] ∧
    (twoItems.cache.forEachItemBelow 5 ⟨fun _ => false, fun _ => true⟩).2 = [0, 1] ∧
    twoItems.cache.wanted 5 (fun _ => true) [0, 1] = [0] :=
  ⟨⟨rfl, rfl, ⟨rfl, rfl, rfl, rfl, trivial⟩, by decide⟩, by decide, by decide⟩

end LruRun

end ShadPS4.Common
