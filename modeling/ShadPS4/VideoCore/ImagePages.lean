import Mathlib.Data.List.Dedup
import Mathlib.Data.List.Range
import Mathlib.Data.List.TakeWhile
import ShadPS4.Lib.Transition

/-!
# The page table of the texture cache

The table lists the registered images by page. A region is searched page by page, and an image is visited on the first
page that it is found on.
-/

namespace ShadPS4.ImagePages

open Function
open List (mem_cons_self any_cons filter_cons append_nil flatten_cons mem_append mem_filter)
open Option (some.inj)

structure Image where
  guest_address : ℕ
  guest_size : ℕ
  registered : Bool
  picked : Bool

/-- The images by their id, and the table, empty where it has no page. -/
structure TextureCache where
  slot_images : ℕ → Image
  page_table : ℕ → List ℕ

def Image.overlaps (image : Image) (overlap_cpu_addr overlap_size : ℕ) : Bool :=
  image.guest_address < overlap_cpu_addr + overlap_size ∧ overlap_cpu_addr < image.guest_address + image.guest_size

/-- The pages of `ForEachPage`. -/
def pages (addr size : ℕ) : List ℕ := List.range' (addr / 2^20) ((addr + size - 1) / 2^20 + 1 - addr / 2^20)

variable (s : TextureCache)

/-- `RegisterImage`, with its assertion. -/
def registerImage (image_id : ℕ) : Option TextureCache :=
  let image := s.slot_images image_id
  if image.registered then none
  else some {
    slot_images := update s.slot_images image_id { image with registered := true }
    page_table := (pages image.guest_address image.guest_size).foldl
      (fun table page => update table page (table page ++ [image_id])) s.page_table }

/-- `UnregisterImage`, with its assertions. -/
def unregisterImage (image_id : ℕ) : Option TextureCache :=
  let image := s.slot_images image_id
  if image.registered then do
    let page_table ← (pages image.guest_address image.guest_size).foldlM (fun table page =>
      if image_id ∈ table page then some (update table page ((table page).erase image_id)) else none) s.page_table
    some { slot_images := update s.slot_images image_id { image with registered := false }, page_table }
  else none

/-- The images of a page that `ForEachImageInRegion` visits, until `func` returns true. -/
def visit (func : ℕ → Bool) (cpu_addr size : ℕ) : List ℕ → (ℕ → Image) × List ℕ → (ℕ → Image) × List ℕ
  | [], visited => visited
  | image_id :: rest, (slot_images, images) =>
    let image := slot_images image_id
    if image.picked then visit func cpu_addr size rest (slot_images, images)
    else if image.overlaps cpu_addr size then
      let visited := (update slot_images image_id { image with picked := true }, images ++ [image_id])
      if func image_id then visited else visit func cpu_addr size rest visited
    else visit func cpu_addr size rest (slot_images, images)

/-- `ForEachImageInRegion`, with the images that it calls `func` for. -/
def forEachImageInRegion (func : ℕ → Bool) (cpu_addr size : ℕ) : List ℕ × TextureCache :=
  let (slot_images, images) := (pages cpu_addr size).foldl
    (fun visited page => visit func cpu_addr size (s.page_table page) visited) (s.slot_images, [])
  (images, { s with slot_images := images.foldl (fun slot_images image_id =>
    update slot_images image_id { slot_images image_id with picked := false }) slot_images })

/-! ## Searches of lists -/

section

variable {α : Type} {f : α → Bool} {xs images : List α}

/-- A list up to the first element that is true. -/
def upTo (f : α → Bool) (xs : List α) : List α := xs.take (xs.findIdx f + 1)

theorem upTo_cons (x : α) : upTo f (x :: xs) = x :: if f x then [] else upTo f xs := by
  unfold upTo
  rw [List.findIdx_cons, List.take_succ_cons]
  cases f x <;> rfl

theorem upTo_eq_of_false (h : ∀ x ∈ upTo f xs, f x = false) : upTo f xs = xs := by
  induction xs with
  | nil => rfl
  | cons x rest ih =>
    rw [upTo_cons] at h ⊢
    have hx := h x mem_cons_self
    rw [hx] at h ⊢
    exact congrArg (x :: ·) (ih fun y hy => h y (List.mem_cons_of_mem _ hy))

theorem any_upTo : (upTo f xs).any f = xs.any f := by
  induction xs with
  | nil => rfl
  | cons x rest ih =>
    rw [upTo_cons, any_cons, any_cons]
    cases f x with
    | true => rfl
    | false => exact congrArg (false || ·) ih

theorem upTo_upTo : upTo f (upTo f xs) = upTo f xs := by
  induction xs with
  | nil => rfl
  | cons x rest ih =>
    rw [upTo_cons, upTo_cons]
    cases f x with
    | true => rfl
    | false => exact congrArg (x :: ·) ih

theorem upTo_append (ys : List α) : upTo f (xs ++ ys) = if xs.any f then upTo f xs else xs ++ upTo f ys := by
  induction xs with
  | nil => rfl
  | cons x rest ih =>
    rw [List.cons_append, upTo_cons, upTo_cons, ih, any_cons]
    cases f x with
    | true => rfl
    | false =>
      simp only [Bool.false_or, Bool.false_eq_true, if_false]
      split_ifs <;> rfl

theorem mem_upTo (h : x ∈ upTo f xs) : x ∈ xs := List.mem_of_mem_take h

variable [DecidableEq α]

theorem upTo_filter (h : ∀ x ∈ images, f x = false) :
    upTo f (xs.filter (· ∉ images)) = (upTo f xs).filter (· ∉ images) := by
  induction xs with
  | nil => rfl
  | cons x rest ih =>
    rw [upTo_cons, filter_cons, filter_cons]
    by_cases hx : x ∈ images
    · rw [if_neg (by simpa using hx), if_neg (by simpa using hx), h x hx, ih]
      rfl
    · rw [if_pos (by simpa using hx), if_pos (by simpa using hx), upTo_cons, ih]
      split_ifs <;> rfl

/-- The elements of lists that are new, of each up to the first that is true. -/
def search (f : α → Bool) (images : List α) (lists : List (List α)) : List α :=
  lists.foldl (fun images xs => images ++ upTo f (xs.filter (· ∉ images))) images

variable {lists : List (List α)}

theorem search_cons : search f images (xs :: lists) = search f (images ++ upTo f (xs.filter (· ∉ images))) lists := rfl

theorem exists_search : ∃ rest, search f images lists = images ++ rest := by
  induction lists generalizing images with
  | nil => exact ⟨[], (append_nil _).symm⟩
  | cons xs lists ih =>
    obtain ⟨rest, hrest⟩ := @ih (images ++ upTo f (xs.filter (· ∉ images)))
    exact ⟨_, hrest.trans (List.append_assoc ..)⟩

theorem search_nodup (hi : images.Nodup) (hl : ∀ xs ∈ lists, xs.Nodup) : (search f images lists).Nodup := by
  induction lists generalizing images with
  | nil => exact hi
  | cons xs lists ih =>
    refine ih (hi.append ?_ ?_) fun ys hys => hl ys (List.mem_cons_of_mem _ hys)
    · exact ((hl xs mem_cons_self).filter _).sublist (List.take_sublist _ _)
    · intro x hx hx'
      have hnew := List.of_mem_filter (mem_upTo hx')
      exact absurd hx (of_decide_eq_true hnew)

theorem mem_of_mem_search (h : x ∈ search f images lists) : x ∈ images ∨ x ∈ lists.flatten := by
  induction lists generalizing images with
  | nil => exact .inl h
  | cons xs lists ih =>
    rw [flatten_cons, mem_append]
    rcases ih h with hi | hl
    · rcases mem_append.mp hi with hi | hx
      · exact .inl hi
      · exact .inr (.inl (List.mem_of_mem_filter (mem_upTo hx)))
    · exact .inr (.inr hl)

/-- Where nothing that is found is true, all is found. -/
theorem mem_search (h : ∀ x ∈ search f images lists, f x = false) (hx : x ∈ lists.flatten) :
    x ∈ search f images lists := by
  induction lists generalizing images with
  | nil => cases hx
  | cons xs lists ih =>
    rw [search_cons] at h ⊢
    rw [flatten_cons, mem_append] at hx
    rcases hx with hx | hx
    · obtain ⟨rest, hrest⟩ : ∃ rest, search f _ lists = _ ++ rest := exists_search
      rw [hrest] at h ⊢
      have hnone : ∀ y ∈ upTo f (xs.filter (· ∉ images)), f y = false := fun y hy =>
        h y (List.mem_append_left _ (List.mem_append_right _ hy))
      apply List.mem_append_left
      by_cases hi : x ∈ images
      · exact List.mem_append_left _ hi
      · rw [upTo_eq_of_false hnone]
        exact List.mem_append_right _ (mem_filter.mpr ⟨hx, decide_eq_true hi⟩)
    · exact ih h hx

theorem search_eq_self : search f images lists = images ↔ ∀ x ∈ lists.flatten, x ∈ images := by
  induction lists generalizing images with
  | nil => exact iff_of_true rfl nofun
  | cons xs lists ih =>
    rw [search_cons, flatten_cons]
    obtain ⟨rest, hrest⟩ : ∃ rest, search f _ lists = _ ++ rest := exists_search
    by_cases hnew : xs.filter (· ∉ images) = []
    · have hin : ∀ x ∈ xs, x ∈ images := fun x hx => by
        simpa using List.filter_eq_nil_iff.mp hnew x hx
      rw [hnew, show upTo f ([] : List α) = [] from rfl, append_nil, ih]
      simp only [mem_append]
      exact ⟨fun h x hx => hx.elim (hin x) (h x), fun h x hx => h x (.inr hx)⟩
    · obtain ⟨x, xs', hxs⟩ := List.exists_cons_of_ne_nil hnew
      have hx : x ∈ xs.filter (· ∉ images) := hxs ▸ mem_cons_self
      refine iff_of_false (fun heq => ?_) fun h => ?_
      · rw [hrest, hxs, upTo_cons, List.append_assoc] at heq
        exact absurd (List.append_right_eq_self.mp heq) nofun
      · have hout : x ∉ images := of_decide_eq_true (mem_filter.mp hx).2
        exact hout (h x (List.mem_append_left _ (List.mem_of_mem_filter hx)))

/-- After the first list with a true element, the lists have only elements that were found by then. -/
def FoundBy (f : α → Bool) (images : List α) (lists : List (List α)) : Prop :=
  match lists.dropWhile fun xs => !xs.any f with
  | [] => True
  | xs :: rest => ∀ x ∈ rest.flatten, x ∈ images ++ (lists.takeWhile fun xs => !xs.any f).flatten ++ upTo f xs

theorem search_ends (h : ∀ x ∈ images, f x = false) :
    upTo f (search f images lists) = search f images lists ↔ FoundBy f images lists := by
  induction lists generalizing images with
  | nil => exact iff_of_true (upTo_eq_of_false fun x hx => h x (mem_upTo hx)) trivial
  | cons xs lists ih =>
    have hfilter : _ = (upTo f xs).filter _ := upTo_filter h
    have hmem (x : α) : x ∈ images ++ (upTo f xs).filter (· ∉ images) ↔ x ∈ images ∨ x ∈ upTo f xs := by
      rw [mem_append, mem_filter, decide_eq_true_eq]
      exact ⟨fun hx => hx.imp_right And.left, fun hx => (Classical.em (x ∈ images)).imp_right fun hout =>
        ⟨hx.resolve_left hout, hout⟩⟩
    rw [search_cons, hfilter]
    unfold FoundBy
    by_cases hany : xs.any f = true
    · rw [List.dropWhile_cons_of_neg (by simpa using hany), List.takeWhile_cons_of_neg (by simpa using hany)]
      obtain ⟨rest, hrest⟩ : ∃ rest, search f _ lists = _ ++ rest := exists_search
      have himages : images.any f = false := List.any_eq_false.mpr fun x hx => by simp [h x hx]
      have hfound : (images ++ (upTo f xs).filter (· ∉ images)).any f = true := by
        obtain ⟨x, hx, hfx⟩ := List.any_eq_true.mp (any_upTo.trans hany)
        exact List.any_eq_true.mpr ⟨x, (hmem x).mpr (.inr hx), hfx⟩
      have hends : upTo f (images ++ (upTo f xs).filter (· ∉ images)) =
          images ++ (upTo f xs).filter (· ∉ images) := by
        rw [upTo_append, himages, if_neg Bool.false_ne_true, ← hfilter, upTo_upTo]
      -- Nothing may be found after the first that is true.
      rw [hrest, upTo_append, if_pos hfound, hends, ← hrest, eq_comm, search_eq_self]
      simp only [hmem, List.flatten_nil, append_nil, mem_append]
    · have hnone : ∀ x ∈ upTo f xs, f x = false := fun x hx =>
        Bool.eq_false_iff.mpr fun hfx => hany (List.any_eq_true.mpr ⟨x, mem_upTo hx, hfx⟩)
      rw [List.dropWhile_cons_of_pos (by simpa using hany), List.takeWhile_cons_of_pos (by simpa using hany),
        ih fun x hx => ((hmem x).mp hx).elim (h x) (hnone x)]
      unfold FoundBy
      split
      · rfl
      · refine forall₂_congr fun x _ => ?_
        rw [mem_append, mem_append, hmem, upTo_eq_of_false hnone, flatten_cons]
        simp only [mem_append, or_assoc]

end

/-! ## What the table lists -/

def Image.Meets (image : Image) (page : ℕ) : Prop :=
  page * 2^20 < image.guest_address + image.guest_size ∧ image.guest_address < (page + 1) * 2^20

instance (image : Image) (page : ℕ) : Decidable (image.Meets page) := instDecidableAnd

/-- An image that can be registered: it has bytes, in the 40 bits of the addresses of the table. -/
def Image.Fits (image : Image) : Prop := 0 < image.guest_size ∧ image.guest_address + image.guest_size ≤ 2^40

/-- How often an image is listed on a page: once if it is registered and has bytes of it. -/
def Image.times (image : Image) (page : ℕ) : ℕ := if image.registered = true ∧ image.Meets page then 1 else 0

/-- The registered images are listed once on each of their pages. No image is picked. -/
structure TextureCache.Listed (s : TextureCache) : Prop where
  listed : ∀ page id, (s.page_table page).count id = (s.slot_images id).times page
  fits : ∀ id, (s.slot_images id).registered = true → (s.slot_images id).Fits
  picked : ∀ id, (s.slot_images id).picked = false

variable {s : TextureCache} {id page : ℕ}

theorem pages_nodup (addr size : ℕ) : (pages addr size).Nodup := List.nodup_range'

theorem mem_pages {image : Image} (h : image.Fits) :
    page ∈ pages image.guest_address image.guest_size ↔ image.Meets page := by
  have hpos := h.1
  unfold pages Image.Meets
  rw [List.mem_range'_1]
  omega

/-- A loop over pages that changes each. -/
theorem foldl_update {β : Type} (f : β → β) {ps : List ℕ} (hps : ps.Nodup) (table : ℕ → β) (page : ℕ) :
    ps.foldl (fun table page => update table page (f (table page))) table page =
      if page ∈ ps then f (table page) else table page := by
  induction ps generalizing table with
  | nil => rfl
  | cons p rest ih =>
    obtain ⟨hp, hrest⟩ := List.nodup_cons.mp hps
    rw [List.foldl_cons, ih hrest]
    rcases eq_or_ne page p with rfl | hne
    · rw [if_neg hp, update_self, if_pos mem_cons_self]
    · rw [update_of_ne hne]
      simp only [List.mem_cons, hne, false_or]

theorem foldlM_erase {ps : List ℕ} (hps : ps.Nodup) (table : ℕ → List ℕ) (hin : ∀ page ∈ ps, id ∈ table page) :
    ps.foldlM (fun table page =>
      if id ∈ table page then some (update table page ((table page).erase id)) else none) table =
      some (ps.foldl (fun table page => update table page ((table page).erase id)) table) := by
  induction ps generalizing table with
  | nil => rfl
  | cons p rest ih =>
    obtain ⟨hp, hrest⟩ := List.nodup_cons.mp hps
    rw [List.foldlM_cons, if_pos (hin p mem_cons_self), Option.bind_eq_bind, Option.bind_some]
    refine ih hrest _ fun page hpage => ?_
    rw [update_of_ne (ne_of_mem_of_not_mem hpage hp)]
    exact hin page (List.mem_cons_of_mem _ hpage)

namespace TextureCache.Listed

variable (h : s.Listed)

include h

theorem mem_iff : id ∈ s.page_table page ↔ (s.slot_images id).registered = true ∧ (s.slot_images id).Meets page := by
  rw [← List.count_pos_iff, h.listed]
  unfold Image.times
  split_ifs with hin
  · exact iff_of_true Nat.one_pos hin
  · exact iff_of_false (Nat.lt_irrefl 0) hin

/-- An image is registered or not from now on, and the lists of its pages are changed. -/
theorem change (hfits : (s.slot_images id).Fits) (registered : Bool) {f : List ℕ → List ℕ}
    (hself : ∀ page, (s.slot_images id).Meets page → (f (s.page_table page)).count id = registered.toNat)
    (hothers : ∀ ids, ∀ other ≠ id, (f ids).count other = ids.count other) : TextureCache.Listed {
      slot_images := update s.slot_images id { s.slot_images id with registered }
      page_table := (pages (s.slot_images id).guest_address (s.slot_images id).guest_size).foldl
        (fun table page => update table page (f (table page))) s.page_table } := by
  constructor
  case listed =>
    intro page other
    dsimp only
    have hlisted := h.listed page other
    rw [foldl_update f (pages_nodup _ _)]
    rcases eq_or_ne other id with rfl | hne
    · have hpages : page ∈ _ ↔ _ := mem_pages hfits
      rw [update_self]
      unfold Image.times at hlisted ⊢
      by_cases hmeets : (s.slot_images other).Meets page
      · rw [if_pos (hpages.mpr hmeets), hself page hmeets]
        cases registered with
        | true => exact (if_pos ⟨rfl, hmeets⟩).symm
        | false => rfl
      · rw [if_neg (mt hpages.mp hmeets), hlisted, if_neg fun hin => hmeets hin.2]
        exact (if_neg fun hin => hmeets hin.2).symm
    · rw [update_of_ne hne, ← hlisted]
      split_ifs
      · exact hothers _ other hne
      · rfl
  case fits =>
    intro other hother
    dsimp only at hother ⊢
    rcases eq_or_ne other id with rfl | hne
    · rw [update_self]
      exact hfits
    · rw [update_of_ne hne] at hother ⊢
      exact h.fits other hother
  case picked =>
    intro other
    dsimp only
    rcases eq_or_ne other id with rfl | hne
    · rw [update_self]
      exact h.picked other
    · rw [update_of_ne hne]
      exact h.picked other

theorem register (hnew : (s.slot_images id).registered = false) (hfits : (s.slot_images id).Fits) :
    ∃ s', registerImage s id = some s' ∧ s'.Listed := by
  refine ⟨_, if_neg (by rw [hnew]; exact Bool.false_ne_true),
    h.change hfits true (f := (· ++ [id])) (fun page _ => ?_) fun ids other hne => ?_⟩
  · have hlisted : (s.page_table page).count id = 0 := by
      rw [h.listed]
      exact if_neg fun hin => by rw [hnew] at hin; exact Bool.false_ne_true hin.1
    rw [List.count_append, hlisted, List.count_singleton_self]
    rfl
  · rw [List.count_append, List.count_singleton, if_neg (by simpa using hne.symm), Nat.add_zero]

theorem unregister (hin : (s.slot_images id).registered = true) :
    ∃ s', unregisterImage s id = some s' ∧ s'.Listed := by
  have hfits := h.fits id hin
  have herase := foldlM_erase (pages_nodup _ _) s.page_table fun page hpage =>
    h.mem_iff.mpr ⟨hin, (mem_pages hfits).mp hpage⟩
  refine ⟨_, ?_, h.change hfits false (f := (List.erase · id)) (fun page hmeets => ?_) fun ids other hne => ?_⟩
  · unfold unregisterImage
    rw [if_pos hin, herase]
    rfl
  · have hlisted : (s.page_table page).count id = 1 := (h.listed page id).trans (if_pos ⟨hin, hmeets⟩)
    rw [List.count_erase_self, hlisted]
    rfl
  · exact List.count_erase_of_ne hne

end TextureCache.Listed

/-! ## Regions -/

def picking (slot_images : ℕ → Image) (images : List ℕ) : ℕ → Image := fun id =>
  { slot_images id with picked := decide (id ∈ images) }

theorem update_picking (slot_images : ℕ → Image) (images : List ℕ) (id : ℕ) :
    update (picking slot_images images) id { picking slot_images images id with picked := true } =
      picking slot_images (images ++ [id]) := by
  funext other
  unfold picking
  rcases eq_or_ne other id with rfl | hne
  · rw [update_self]
    simp
  · rw [update_of_ne hne]
    simp [hne]

theorem visit_eq (func : ℕ → Bool) (slot_images : ℕ → Image) (addr size : ℕ) (hids : ids.Nodup)
    (images : List ℕ) : visit func addr size ids (picking slot_images images, images) =
      let found := images ++ upTo func ((ids.filter fun id => (slot_images id).overlaps addr size).filter (· ∉ images))
      (picking slot_images found, found) := by
  induction ids generalizing images with
  | nil =>
    show (_, _) = (picking slot_images (images ++ []), images ++ [])
    rw [append_nil]
  | cons id rest ih =>
    obtain ⟨hid, hrest⟩ := List.nodup_cons.mp hids
    have ih := ih hrest
    rw [filter_cons]
    unfold visit
    by_cases hi : id ∈ images
    · -- It is picked.
      rw [if_pos (show (picking slot_images images id).picked = true from decide_eq_true hi), ih]
      split_ifs
      · rw [filter_cons, if_neg (by simpa using hi)]
      · rfl
    rw [if_neg (show ¬ (picking slot_images images id).picked = true from by simpa [picking] using hi)]
    have hoverlaps : (picking slot_images images id).overlaps addr size = (slot_images id).overlaps addr size := rfl
    rw [hoverlaps]
    by_cases ho : (slot_images id).overlaps addr size = true
    · have hout : decide (id ∉ images) = true := decide_eq_true hi
      rw [if_pos ho, if_pos ho, filter_cons, if_pos hout, upTo_cons, update_picking]
      split_ifs with hfunc
      · rfl
      · have hnew : (rest.filter fun id => (slot_images id).overlaps addr size).filter (· ∉ images ++ [id]) =
            (rest.filter fun id => (slot_images id).overlaps addr size).filter (· ∉ images) := by
          refine List.filter_congr fun other hother => ?_
          have hne : other ≠ id := ne_of_mem_of_not_mem (List.mem_of_mem_filter hother) hid
          simp [hne]
        rw [ih, hnew]
        simp only [List.append_assoc, List.singleton_append]
    · rw [if_neg ho, if_neg ho]
      exact ih images

def TextureCache.lists (s : TextureCache) (addr size : ℕ) : List (List ℕ) :=
  (pages addr size).map fun page => (s.page_table page).filter fun id => (s.slot_images id).overlaps addr size

namespace TextureCache.Listed

theorem nodup (h : s.Listed) (page : ℕ) : (s.page_table page).Nodup := by
  rw [List.nodup_iff_count_le_one]
  intro id
  rw [h.listed]
  unfold Image.times
  split_ifs <;> decide

/-- The images of a region are searched for, and none is picked after that. -/
theorem forEachImageInRegion_eq (h : s.Listed) (func : ℕ → Bool) (addr size : ℕ) :
    forEachImageInRegion s func addr size = (search func [] (s.lists addr size), s) := by
  have hfold (ps images : List ℕ) : ps.foldl (fun visited page => visit func addr size (s.page_table page) visited)
      (picking s.slot_images images, images) =
      let found := search func images (ps.map fun page =>
        (s.page_table page).filter fun id => (s.slot_images id).overlaps addr size)
      (picking s.slot_images found, found) := by
    induction ps generalizing images with
    | nil => rfl
    | cons page rest ih =>
      rw [List.foldl_cons, visit_eq func _ _ _ (h.nodup page)]
      exact ih _
  have hunpicked (id : ℕ) : { s.slot_images id with picked := false } = s.slot_images id := by
    rw [← h.picked id]
  have hnone : picking s.slot_images [] = s.slot_images := funext hunpicked
  have hclear (images : List ℕ) : ∀ slot_images : ℕ → Image, (∀ id, slot_images id = s.slot_images id ∨
      (id ∈ images ∧ { slot_images id with picked := false } = s.slot_images id)) →
      images.foldl (fun slot_images image_id => update slot_images image_id
        { slot_images image_id with picked := false }) slot_images = s.slot_images := by
    induction images with
    | nil => exact fun _ hslots => funext fun id => (hslots id).resolve_right nofun
    | cons id rest ih =>
      intro slot_images hslots
      refine ih _ fun other => ?_
      dsimp only
      rcases eq_or_ne other id with rfl | hne
      · rw [update_self]
        refine .inl ((hslots other).elim (fun hsame => ?_) And.right)
        rw [hsame, hunpicked]
      · rw [update_of_ne hne]
        exact (hslots other).imp_right fun hin => ⟨(List.mem_cons.mp hin.1).resolve_left hne, hin.2⟩
  have hpicking (images : List ℕ) (id : ℕ) : picking s.slot_images images id = s.slot_images id ∨
      (id ∈ images ∧ { picking s.slot_images images id with picked := false } = s.slot_images id) := by
    by_cases hi : id ∈ images
    · exact .inr ⟨hi, hunpicked id⟩
    · left
      unfold picking
      rw [decide_eq_false hi]
      exact hunpicked id
  have hsearch := hfold (pages addr size) []
  rw [hnone] at hsearch
  unfold forEachImageInRegion
  rw [hsearch]
  dsimp only
  rw [hclear _ _ (hpicking _)]
  rfl

/-- The images that are listed for a region are those that overlap it. -/
theorem mem_lists (h : s.Listed) (hsize : 0 < size) : id ∈ (s.lists addr size).flatten ↔
    (s.slot_images id).registered = true ∧ (s.slot_images id).overlaps addr size = true := by
  unfold TextureCache.lists pages
  rw [List.mem_flatten]
  simp only [List.mem_map, exists_exists_and_eq_and, mem_filter, h.mem_iff, List.mem_range'_1]
  constructor
  · rintro ⟨page, -, ⟨hin, -⟩, ho⟩
    exact ⟨hin, ho⟩
  · rintro ⟨hin, ho⟩
    have hfits := (h.fits id hin).1
    have hoverlaps := ho
    unfold Image.overlaps at hoverlaps
    rw [decide_eq_true_eq] at hoverlaps
    refine ⟨max addr (s.slot_images id).guest_address / 2^20, ?_, ⟨hin, ?_⟩, ho⟩
    · omega
    · unfold Image.Meets
      omega

end TextureCache.Listed

/-- Each overlapping image is visited once, up to the first that `func` returns true for, and no image stays picked. -/
structure Visits (s : TextureCache) (func : ℕ → Bool) (addr size : ℕ) : Prop where
  once : (forEachImageInRegion s func addr size).1.Nodup
  overlapping : ∀ id ∈ (forEachImageInRegion s func addr size).1,
    (s.slot_images id).registered = true ∧ (s.slot_images id).overlaps addr size = true
  all : (∀ id ∈ (forEachImageInRegion s func addr size).1, func id = false) → ∀ id,
    (s.slot_images id).registered = true → (s.slot_images id).overlaps addr size = true →
      id ∈ (forEachImageInRegion s func addr size).1
  stops : upTo func (forEachImageInRegion s func addr size).1 = (forEachImageInRegion s func addr size).1
  cleared : (forEachImageInRegion s func addr size).2 = s

theorem visits_iff (h : s.Listed) (func : ℕ → Bool) (hsize : 0 < size) :
    Visits s func addr size ↔ FoundBy func [] (s.lists addr size) := by
  have heq := h.forEachImageInRegion_eq func addr size
  have hends : _ ↔ FoundBy func [] (s.lists addr size) := search_ends nofun
  constructor
  · intro hvisits
    have hstops := hvisits.stops
    rw [heq] at hstops
    exact hends.mp hstops
  · intro hfound
    constructor <;> rw [heq]
    case once =>
      refine search_nodup List.nodup_nil fun ids hids => ?_
      obtain ⟨page, -, rfl⟩ := List.mem_map.mp hids
      exact (h.nodup page).filter _
    case overlapping => exact fun id hid => (h.mem_lists hsize).mp ((mem_of_mem_search hid).resolve_left nofun)
    case all => exact fun hnone id hin ho => mem_search hnone ((h.mem_lists hsize).mpr ⟨hin, ho⟩)
    case stops => exact hends.mpr hfound

/-- What changes the table. Another image is put in a slot when none is registered there. -/
inductive Op
  | insert (id : ℕ) (image : Image)
  | register (id : ℕ)
  | unregister (id : ℕ)

def step (s : TextureCache) : Op → Option TextureCache
  | .insert id image => some { s with
    slot_images := update s.slot_images id { image with registered := false, picked := false } }
  | .register id => registerImage s id
  | .unregister id => unregisterImage s id

def Allowed (s : TextureCache) : Op → Prop
  | .insert id _ => (s.slot_images id).registered = false
  | .register id => (s.slot_images id).registered = false ∧ (s.slot_images id).Fits
  | .unregister id => (s.slot_images id).registered = true

def noImages : TextureCache := ⟨fun _ => ⟨0, 0, false, false⟩, fun _ => []⟩

theorem listed_run (h : Run (· = noImages) (fun s o s' => step s o = some s') Allowed s) : s.Listed := by
  refine h.invariant ?_ fun s o s' hs hallowed hstep => ?_
  · rintro s rfl
    exact ⟨fun _ _ => rfl, nofun, fun _ => rfl⟩
  · cases o with
    | insert id image =>
      obtain rfl := some.inj hstep
      have hnew (page : ℕ) : (s.page_table page).count id = 0 :=
        (hs.listed page id).trans (if_neg fun hin => Bool.false_ne_true (hallowed.symm.trans hin.1))
      refine ⟨fun page other => ?_, fun other hother => ?_, fun other => ?_⟩
      all_goals dsimp only at *
      all_goals rcases eq_or_ne other id with rfl | hne
      · rw [update_self, hnew]
        rfl
      · rw [update_of_ne hne]
        exact hs.listed page other
      · rw [update_self] at hother
        cases hother
      · rw [update_of_ne hne] at hother ⊢
        exact hs.fits other hother
      · rw [update_self]
      · rw [update_of_ne hne]
        exact hs.picked other
    | register id =>
      obtain ⟨s'', hregister, hlisted⟩ := hs.register hallowed.1 hallowed.2
      exact some.inj (hregister.symm.trans hstep) ▸ hlisted
    | unregister id =>
      obtain ⟨s'', hunregister, hlisted⟩ := hs.unregister hallowed
      exact some.inj (hunregister.symm.trans hstep) ▸ hlisted

/-- The table has each registered image once on each of its pages, and they can be unregistered. -/
theorem image_run (h : Run (· = noImages) (fun s o s' => step s o = some s') Allowed s) :
    (∀ page id, (s.page_table page).count id = (s.slot_images id).times page) ∧
    (∀ id, (s.slot_images id).registered = true → ∃ s', unregisterImage s id = some s') ∧
    ∀ addr size, 0 < size → addr + size ≤ 2^40 → Visits s (fun _ => false) addr size ∧
      ∀ func, Visits s func addr size ↔ FoundBy func [] (s.lists addr size) := by
  have hs := listed_run h
  refine ⟨hs.listed, fun id hin => (hs.unregister hin).imp fun _ => And.left, fun addr size hsize _ => ⟨?_, ?_⟩⟩
  · refine (visits_iff hs _ hsize).mpr ?_
    have hnone : (s.lists addr size).dropWhile (fun xs => !xs.any fun _ => false) = [] :=
      List.dropWhile_eq_nil_iff.mpr fun xs _ => by
        rw [List.any_eq_false.mpr fun _ _ => Bool.false_ne_true]
        rfl
    unfold FoundBy
    rw [hnone]
    trivial
  · exact fun func => visits_iff hs func hsize

/-- An image of two pages. -/
theorem image_run_sample : ∃ s, (s.slot_images 0).registered = true ∧ Visits s (fun _ => false) 0 0x200000 := by
  refine ⟨_, rfl, ((image_run (.step (o := .register 0) (.step (o := .insert 0 ⟨0, 0x200000, false, false⟩)
    (.start rfl) rfl rfl) ⟨rfl, by decide, by decide⟩ rfl)).2.2 0 0x200000 (by decide) (by decide)).1⟩

/-- The second page is searched after `func` has returned true on the first. -/
theorem second_page_visited : ∃ s, Run (· = noImages) (fun s o s' => step s o = some s') Allowed s ∧
    ¬ Visits s (fun _ => true) 0 0x200000 := by
  refine ⟨_, .step (o := .register 1) (.step (o := .register 0)
    (.step (o := .insert 1 ⟨0x100000, 0x100000, false, false⟩) (.step (o := .insert 0 ⟨0, 0x100000, false, false⟩)
      (.start rfl) rfl rfl) rfl rfl) ⟨rfl, by decide, by decide⟩ rfl) ⟨rfl, by decide, by decide⟩ rfl,
    fun hvisits => absurd hvisits.stops ?_⟩
  decide

end ShadPS4.ImagePages
