import Mathlib.Data.List.Nodup
import ShadPS4.VideoCore.TrackerSpec

/-!
# Runs of the tracker

The table never points to one manager twice, and a manager that waits in the pool is as new (`MemoryTracker.Wf`).
-/

namespace ShadPS4.VideoCore

open List
open ShadPS4.Common

/-! ## The table and the pool -/

/-- What holds of the table and the pool. -/
structure MemoryTracker.Wf (t : MemoryTracker) : Prop where
  region : ∀ p k, t.top_tier p = some k → k ∉ t.free_managers ∧
    ∃ m, t.manager_pool[k]? = some m ∧ m.cpu_addr = p * 4194304
  injective : ∀ p q k, t.top_tier p = some k → t.top_tier q = some k → p = q
  free : ∀ k ∈ t.free_managers, ∃ cpu_addr, t.manager_pool[k]? = some { cpu_addr }
  nodup : t.free_managers.Nodup

section

variable {t : MemoryTracker}

theorem MemoryTracker.Wf.manager_eq_none (h : t.Wf) {p : ℕ} :
    t.manager p = none ↔ t.top_tier p = none := by
  unfold MemoryTracker.manager
  cases hp : t.top_tier p with
  | none => simp
  | some k =>
    obtain ⟨-, m, hm, -⟩ := h.region p k hp
    simp [hm]

theorem MemoryTracker.Wf.cpu_addr {t : MemoryTracker} (h : t.Wf) {p : ℕ} {m : RegionManager}
    (hm : t.manager p = some m) : m.cpu_addr = p * 4194304 := by
  unfold MemoryTracker.manager at hm
  cases hp : t.top_tier p with
  | none => simp [hp] at hm
  | some k =>
    obtain ⟨-, m', hm', haddr⟩ := h.region p k hp
    simp only [hp, Option.bind_some, hm', Option.some.injEq] at hm
    exact hm ▸ haddr

theorem MemoryTracker.Wf.refill (h : t.Wf) : MemoryTracker.Wf { t with
      manager_pool := t.manager_pool ++ replicate managerPoolSize { cpu_addr := 0 }
      free_managers := range' t.manager_pool.length managerPoolSize } ∧
    ∀ q, MemoryTracker.manager { t with
      manager_pool := t.manager_pool ++ replicate managerPoolSize { cpu_addr := 0 }
      free_managers := range' t.manager_pool.length managerPoolSize } q = t.manager q := by
  have hlt : ∀ p k, t.top_tier p = some k → k < t.manager_pool.length := by
    intro p k hp
    obtain ⟨-, m, hm, -⟩ := h.region p k hp
    exact (List.getElem?_eq_some_iff.mp hm).1
  refine ⟨⟨fun p k hp => ⟨fun hk => ?_, ?_⟩, h.injective, fun k hk => ?_, nodup_range' ..⟩,
    fun q => ?_⟩
  · have := hlt p k hp
    rw [mem_range'_1] at hk
    omega
  · obtain ⟨-, m, hm, haddr⟩ := h.region p k hp
    exact ⟨m, by rw [getElem?_append_left (hlt p k hp)]; exact hm, haddr⟩
  · rw [mem_range'_1] at hk
    refine ⟨0, ?_⟩
    rw [getElem?_append_right hk.1, getElem?_replicate, if_pos (by omega)]
  · unfold MemoryTracker.manager
    cases hq : t.top_tier q with
    | none => rfl
    | some k => exact getElem?_append_left (hlt q k hq)

theorem MemoryTracker.Wf.assign (h : t.Wf) {p k : ℕ} (hp : t.top_tier p = none)
    (hk : t.free_managers.getLast? = some k) : MemoryTracker.Wf { t with
      manager_pool := t.manager_pool.modify k fun m => { m with cpu_addr := p * 4194304 }
      free_managers := t.free_managers.dropLast
      top_tier := fun q => if q = p then some k else t.top_tier q } ∧
    ∀ q, MemoryTracker.manager { t with
      manager_pool := t.manager_pool.modify k fun m => { m with cpu_addr := p * 4194304 }
      free_managers := t.free_managers.dropLast
      top_tier := fun q => if q = p then some k else t.top_tier q } q =
      if q = p then some { cpu_addr := p * 4194304 } else t.manager q := by
  have hsplit : t.free_managers = t.free_managers.dropLast ++ [k] := by
    rw [dropLast_append_getLast? k hk]
  have hmem : k ∈ t.free_managers := mem_of_getLast? hk
  obtain ⟨cpu_addr, hnew⟩ := h.free k hmem
  have hnodup := h.nodup
  rw [hsplit] at hnodup
  have hnot : k ∉ t.free_managers.dropLast := fun hin =>
    (nodup_append.mp hnodup).2.2 k hin k (by simp) rfl
  -- No region has the manager yet.
  have hother : ∀ q k', t.top_tier q = some k' → k' ≠ k := by
    intro q k' hq heq
    subst heq
    exact (h.region q k' hq).1 hmem
  have hself : (t.manager_pool.modify k fun m => { m with cpu_addr := p * 4194304 })[k]? =
      some { cpu_addr := p * 4194304 } := by
    rw [getElem?_modify_eq, hnew]
    rfl
  have hkeep : ∀ k' ≠ k, (t.manager_pool.modify k fun m => { m with cpu_addr := p * 4194304 })[k']? =
      t.manager_pool[k']? := fun k' hne => getElem?_modify_ne _ _ (Ne.symm hne)
  refine ⟨⟨fun q k' hq => ?_, fun q q' k' hq hq' => ?_, fun k' hk' => ?_, hnodup.of_append_left⟩, fun q => ?_⟩
  · dsimp only at hq ⊢
    by_cases hqp : q = p
    · rw [if_pos hqp, Option.some.injEq] at hq
      subst hq hqp
      exact ⟨hnot, _, hself, rfl⟩
    · rw [if_neg hqp] at hq
      obtain ⟨hfree, m, hm, haddr⟩ := h.region q k' hq
      rw [hkeep k' (hother q k' hq)]
      exact ⟨fun hin => hfree (dropLast_subset _ hin), m, hm, haddr⟩
  · dsimp only at hq hq'
    by_cases hqp : q = p
    · by_cases hqp' : q' = p
      · exact hqp.trans hqp'.symm
      · rw [if_pos hqp, Option.some.injEq] at hq
        rw [if_neg hqp'] at hq'
        exact absurd hq.symm (hother q' k' hq')
    · by_cases hqp' : q' = p
      · rw [if_pos hqp', Option.some.injEq] at hq'
        rw [if_neg hqp] at hq
        exact absurd hq'.symm (hother q k' hq)
      · rw [if_neg hqp] at hq
        rw [if_neg hqp'] at hq'
        exact h.injective q q' k' hq hq'
  · have hne : k' ≠ k := fun heq => hnot (heq ▸ hk')
    obtain ⟨cpu_addr', hm⟩ := h.free k' (dropLast_subset _ hk')
    exact ⟨cpu_addr', (hkeep k' hne).trans hm⟩
  · unfold MemoryTracker.manager
    dsimp only
    by_cases hqp : q = p
    · rw [if_pos hqp, if_pos hqp, Option.bind_some, hself]
    · rw [if_neg hqp, if_neg hqp]
      cases hq : t.top_tier q with
      | none => rfl
      | some k' => exact hkeep k' (hother q k' hq)

theorem MemoryTracker.Wf.createRegion {t : MemoryTracker} (h : t.Wf) {p : ℕ}
    (hp : t.top_tier p = none) : (t.createRegion p).Wf ∧ ∀ q, (t.createRegion p).manager q =
        if q = p then some { cpu_addr := p * 4194304 } else t.manager q := by
  unfold MemoryTracker.createRegion
  by_cases hempty : t.free_managers.isEmpty
  · rw [if_pos hempty]
    obtain ⟨hrefill, hmanager⟩ := h.refill
    have hlast : (range' t.manager_pool.length managerPoolSize).getLast? =
        some (t.manager_pool.length + 31) := by
      unfold managerPoolSize
      rw [getLast?_range']
      simp
    obtain ⟨hwf, hassign⟩ := hrefill.assign hp hlast
    refine ⟨hwf, fun q => (hassign q).trans ?_⟩
    rw [hmanager]
  · rw [if_neg hempty]
    cases hlast : t.free_managers.getLast? with
    | none => simp_all
    | some k =>
      dsimp only
      rw [hlast]
      exact h.assign hp hlast

theorem MemoryTracker.Wf.store (h : t.Wf) {p k : ℕ} (hp : t.top_tier p = some k)
    {m : RegionManager} (haddr : m.cpu_addr = p * 4194304) :
    MemoryTracker.Wf { t with manager_pool := t.manager_pool.set k m } ∧
    ∀ q, MemoryTracker.manager { t with manager_pool := t.manager_pool.set k m } q =
      if q = p then some m else t.manager q := by
  obtain ⟨hfree, m', hm', -⟩ := h.region p k hp
  have hlt : k < t.manager_pool.length := (List.getElem?_eq_some_iff.mp hm').1
  have hself : (t.manager_pool.set k m)[k]? = some m := by
    rw [getElem?_set_self hlt]
  have hkeep : ∀ k' ≠ k, (t.manager_pool.set k m)[k']? = t.manager_pool[k']? := fun k' hne =>
    getElem?_set_ne (Ne.symm hne)
  refine ⟨⟨fun q k' hq => ?_, h.injective, fun k' hk' => ?_, h.nodup⟩, fun q => ?_⟩
  · dsimp only at hq ⊢
    obtain ⟨hfree', m'', hm'', haddr''⟩ := h.region q k' hq
    refine ⟨hfree', ?_⟩
    by_cases hkk : k' = k
    · subst hkk
      obtain rfl := h.injective q p k' hq hp
      exact ⟨m, hself, haddr⟩
    · exact ⟨m'', (hkeep k' hkk).trans hm'', haddr''⟩
  · obtain ⟨cpu_addr, hnew⟩ := h.free k' hk'
    have hne : k' ≠ k := fun heq => hfree (heq ▸ hk')
    exact ⟨cpu_addr, (hkeep k' hne).trans hnew⟩
  · unfold MemoryTracker.manager
    by_cases hqp : q = p
    · subst hqp
      rw [if_pos rfl, hp, Option.bind_some, hself]
    · rw [if_neg hqp]
      cases hq : t.top_tier q with
      | none => rfl
      | some k' => exact hkeep k' fun heq => hqp (h.injective q p k (heq ▸ hq) hp)

end

/-! ## The loop over the regions -/

theorem touches_region (hle : offset + size ≤ 4194304) :
    Touches (p * 4194304 + offset) size page ↔ page / 1024 = p ∧ Touches offset size (page % 1024) := by
  rw [touches_iff, touches_iff]
  omega

theorem touches_split (hoffset : offset < 4194304) :
    Touches (p * 4194304 + offset) size page ↔ Touches (p * 4194304 + offset) (min (4194304 - offset) size) page ∨
        Touches ((p + 1) * 4194304 + 0) (size - min (4194304 - offset) size) page := by
  rw [touches_iff, touches_iff, touches_iff]
  omega

/-- What an operation has done: the flags of the touched pages are changed by `g`, and the caller was
called for those of them that `e` selects. -/
structure Performs (g : PageFlags → PageFlags) (e : PageFlags → Bool) (touched : ℕ → Prop)
    (t t' : MemoryTracker) (notices : List Notice) : Prop where
  wf : t'.Wf
  on : ∀ page, touched page → t'.flags page = g (t.flags page)
  off : ∀ page, ¬ touched page → t'.flags page = t.flags page
  covers : Covers (rangesOf notices) fun page => touched page ∧ e (t.flags page) = true
  stays : ∀ q, t.manager q ≠ none → t'.manager q ≠ none

theorem Covers.append (hx : Covers xs P) (hy : Covers ys Q)
    (hlt : ∀ p q, P p → Q q → p < q) : Covers (xs ++ ys) fun page => P page ∨ Q page := by
  refine ⟨fun r hr => ?_, ?_, fun page => ?_⟩
  · rcases mem_append.mp hr with hr | hr
    · exact hx.aligned r hr
    · exact hy.aligned r hr
  · refine pairwise_append.mpr ⟨hx.ordered, hy.ordered, fun r hr r' hr' => ?_⟩
    -- The last page of the first range comes before the first page of the second one.
    have haligned := hx.aligned r hr
    have haligned' := hy.aligned r' hr'
    unfold trackerBytesPerPage at haligned haligned'
    have hlast : P ((r.1 + r.2) / 4096 - 1) :=
      (hx.union _).mp ⟨r, hr, by unfold HasPage trackerBytesPerPage; omega⟩
    have hfirst : Q (r'.1 / 4096) :=
      (hy.union _).mp ⟨r', hr', by unfold HasPage trackerBytesPerPage; omega⟩
    have := hlt _ _ hlast hfirst
    omega
  · rw [← hx.union, ← hy.union]
    simp only [mem_append, or_and_right, exists_or]

theorem Covers.congr (hx : Covers xs P) (h : ∀ page, P page ↔ Q page) : Covers xs Q :=
  ⟨hx.aligned, hx.ordered, fun page => (hx.union page).trans (h page)⟩

theorem Performs.trans
     (h : Performs g e P t t' xs) (h' : Performs g e Q t' t'' ys) (hlt : ∀ p q, P p → Q q → p < q) :
    Performs g e (fun page => P page ∨ Q page) t t'' (xs ++ ys) := by
  have hapart : ∀ page, P page → ¬ Q page := fun page hp hq => absurd (hlt page page hp hq) (by omega)
  refine ⟨h'.wf, fun page hon => ?_, fun page hoff => ?_, ?_, fun q hq => h'.stays q (h.stays q hq)⟩
  · rcases hon with hp | hq
    · rw [h'.off page (hapart page hp), h.on page hp]
    · rw [h'.on page hq, h.off page fun hp => hapart page hp hq]
  · rw [not_or] at hoff
    rw [h'.off page hoff.2, h.off page hoff.1]
  · rw [rangesOf_append]
    refine (h.covers.append h'.covers fun p q hp hq => hlt p q hp.1 hq.1).congr fun page => ?_
    constructor
    · rintro (⟨hp, he⟩ | ⟨hq, he⟩)
      · exact ⟨.inl hp, he⟩
      · rw [h.off page fun hp => hapart page hp hq] at he
        exact ⟨.inr hq, he⟩
    · rintro ⟨hp | hq, he⟩
      · exact .inl ⟨hp, he⟩
      · rw [← h.off page fun hp => hapart page hp hq] at he
        exact .inr ⟨hq, he⟩

theorem Performs.idle (h : t.Wf) (hnone : ∀ page, ¬ P page) : Performs g e P t t [] :=
  ⟨h, fun page hp => absurd hp (hnone page), fun _ _ => rfl, .nil fun page hp => hnone page hp.1,
    fun _ hq => hq⟩

theorem Performs.congr
     (h : Performs g e P t t' xs) (hflags : t.flags = s.flags) (hstays : ∀ q, s.manager q ≠ none → t.manager q ≠ none)
    (hpages : ∀ page, Q page ↔ P page) : Performs g e Q s t' xs := by
  refine ⟨h.wf, fun page hq => ?_, fun page hq => ?_, ?_, fun q hq => h.stays q (hstays q hq)⟩
  · rw [h.on page ((hpages page).mp hq), hflags]
  · rw [h.off page fun hp => hq ((hpages page).mpr hp), hflags]
  · refine h.covers.congr fun page => ?_
    rw [hpages, hflags]

section

variable {t : MemoryTracker}

theorem flags_of_manager {page : ℕ} {m : RegionManager}
    (h : t.manager (page / 1024) = some m) : t.flags page = m.flags (page % 1024) := by
  unfold MemoryTracker.flags
  rw [h]

theorem flags_of_none {page : ℕ} (h : t.manager (page / 1024) = none) :
    t.flags page = .default := by
  unfold MemoryTracker.flags
  rw [h]

theorem MemoryTracker.Wf.visit (h : t.Wf) {p k : ℕ} (hp : t.top_tier p = some k)
    {m : RegionManager} (hm : t.manager p = some m) {g : PageFlags → PageFlags}
    {e : PageFlags → Bool} {offset size : ℕ} (hle : offset + size ≤ 4194304)
    {result : RegionManager × List Notice} (hdoes : Does g e m offset size result) :
    Performs g e (Touches (p * 4194304 + offset) size) t
      { t with manager_pool := t.manager_pool.set k result.1 } result.2 := by
  have haddr := h.cpu_addr hm
  obtain ⟨hwf, hmanager⟩ := h.store hp (hdoes.cpu_addr.trans haddr)
  have hin : ∀ page, page / 1024 = p → MemoryTracker.flags { t with
      manager_pool := t.manager_pool.set k result.1 } page = if Touches offset size (page % 1024)
        then g (t.flags page) else t.flags page := by
    intro page hpage
    have hself := hmanager (page / 1024)
    rw [if_pos hpage] at hself
    rw [flags_of_manager hself, flags_of_manager (hpage ▸ hm)]
    exact hdoes.flags _ (Nat.mod_lt _ (by omega))
  refine ⟨hwf, fun page htouch => ?_, fun page htouch => ?_, ?_, fun q hq => ?_⟩
  · rw [touches_region hle] at htouch
    rw [hin page htouch.1, if_pos htouch.2]
  · rw [touches_region hle, not_and] at htouch
    by_cases hpage : page / 1024 = p
    · rw [hin page hpage, if_neg (htouch hpage)]
    · unfold MemoryTracker.flags
      rw [hmanager, if_neg hpage]
  · refine hdoes.covers.congr fun page => ?_
    rw [touches_region hle, haddr]
    constructor
    · rintro ⟨i, hi, rfl, htouch, he⟩
      have hpage : (p * 4194304 / 4096 + i) / 1024 = p := by omega
      have hmod : (p * 4194304 / 4096 + i) % 1024 = i := by omega
      rw [flags_of_manager (hpage.symm ▸ hm), hpage, hmod]
      exact ⟨⟨rfl, htouch⟩, he⟩
    · rintro ⟨⟨hpage, htouch⟩, he⟩
      rw [flags_of_manager (hpage.symm ▸ hm)] at he
      exact ⟨page % 1024, Nat.mod_lt _ (by omega), by omega, htouch, he⟩
  · rw [hmanager]
    split_ifs
    · simp
    · exact hq

theorem MemoryTracker.Wf.ensure (h : t.Wf) (create : Bool) (p : ℕ) :
    ∃ t', (if (t.top_tier p).isNone && create then t.createRegion p else t) = t' ∧ t'.Wf ∧
      t'.flags = t.flags ∧ (∀ q, t.manager q ≠ none → t'.manager q ≠ none) ∧
      (create = true → t'.top_tier p ≠ none) := by
  refine ⟨_, rfl, ?_⟩
  by_cases hmake : ((t.top_tier p).isNone && create) = true
  · rw [if_pos hmake]
    rw [Bool.and_eq_true, Option.isNone_iff_eq_none] at hmake
    obtain ⟨hwf, hmanager⟩ := h.createRegion hmake.1
    refine ⟨hwf, ?_, fun q hq => ?_, fun _ => ?_⟩
    · funext page
      by_cases hpage : page / 1024 = p
      · have hnew := hmanager (page / 1024)
        rw [if_pos hpage] at hnew
        rw [flags_of_manager hnew, RegionManager.flags_new _ (Nat.mod_lt _ (by omega)),
          flags_of_none (h.manager_eq_none.mpr (hpage ▸ hmake.1))]
      · unfold MemoryTracker.flags
        rw [hmanager, if_neg hpage]
    · rw [hmanager]
      split_ifs
      · simp
      · exact hq
    · rw [Ne, ← hwf.manager_eq_none, hmanager, if_pos rfl]
      simp
  · rw [if_neg hmake]
    refine ⟨h, rfl, fun q hq => hq, fun hcreate hnone => hmake ?_⟩
    rw [hnone, hcreate]
    rfl

theorem MemoryTracker.Wf.lookup (h : t.Wf) (p : ℕ) :
    (t.top_tier p = none ∧ ((t.top_tier p).bind fun k => (t.manager_pool[k]?).map fun m => (k, m)) = none) ∨
    ∃ k m, t.top_tier p = some k ∧ t.manager p = some m ∧
      ((t.top_tier p).bind fun k => (t.manager_pool[k]?).map fun m => (k, m)) = some (k, m) := by
  cases hp : t.top_tier p with
  | none => exact .inl ⟨rfl, rfl⟩
  | some k =>
    obtain ⟨-, m, hm, -⟩ := h.region p k hp
    refine .inr ⟨k, m, rfl, ?_, ?_⟩
    · unfold MemoryTracker.manager
      rw [hp]
      exact hm
    · simp [hm]

end

/-- What a callback that does not end the loop does in each region. -/
def EachDoes (g : PageFlags → PageFlags) (e : PageFlags → Bool)
    (func : RegionManager → ℕ → ℕ → RegionManager × List Notice) : Prop :=
  ∀ m offset size, m.cpu_addr % 4096 = 0 → 0 < size → offset + size ≤ 4194304 →
    Does g e m offset size (func m offset size)

theorem iterate_performs {create : Bool} {g : PageFlags → PageFlags} {e : PageFlags → Bool}
    {func : RegionManager → ℕ → ℕ → RegionManager × List Notice} (hfunc : EachDoes g e func)
    {fuel p offset size : ℕ} {t : MemoryTracker} (h : t.Wf) (hoffset : offset < 4194304)
    (hfuel : size ≤ fuel) (hspace : size = 0 ∨ p + (offset + size - 1) / 4194304 < 262144) (habsent : create = true ∨ (g .default = .default ∧ e .default = false) ∨
      ∀ page, Touches (p * 4194304 + offset) size page → t.manager (page / 1024) ≠ none) :
    ∃ t' notices, MemoryTracker.iterate create (.of func) fuel p offset size t = some (t', notices, false) ∧
      Performs g e (Touches (p * 4194304 + offset) size) t t' notices ∧
      (create = true → ∀ page, Touches (p * 4194304 + offset) size page → t'.manager (page / 1024) ≠ none) := by
  have hnone : ∀ page, ¬ Touches (p * 4194304 + offset) 0 page := fun page => by
    rw [touches_iff]
    omega
  induction fuel generalizing p offset size t with
  | zero =>
    obtain rfl : size = 0 := by omega
    exact ⟨t, [], rfl, .idle h hnone, fun _ page hp => absurd hp (hnone page)⟩
  | succ fuel ih =>
    unfold MemoryTracker.iterate
    by_cases hsize : size = 0
    · subst hsize
      exact ⟨t, [], rfl, .idle h hnone, fun _ page hp => absurd hp (hnone page)⟩
    rw [if_neg hsize, if_neg (by unfold numHighPages; omega)]
    unfold trackerHigherPageSize
    dsimp only
    obtain ⟨t1, heq, hwf1, hflags, hstays, hmade⟩ := h.ensure create p
    rw [heq]
    have hcopy : 0 < min (4194304 - offset) size := by omega
    have hle : offset + min (4194304 - offset) size ≤ 4194304 := by omega
    have hbefore : ∀ q q', Touches (p * 4194304 + offset) (min (4194304 - offset) size) q →
        Touches ((p + 1) * 4194304 + 0) (size - min (4194304 - offset) size) q' → q < q' := by
      intro q q' hq hq'
      rw [touches_iff] at hq hq'
      omega
    -- What a round leaves to the next ones.
    have hnext : ∀ t2 xs, Performs g e (Touches (p * 4194304 + offset) (min (4194304 - offset) size)) t1 t2 xs →
        (create = true → t2.manager p ≠ none) →
        ∃ t' ys, MemoryTracker.iterate create (.of func) fuel (p + 1) 0
          (size - min (4194304 - offset) size) t2 = some (t', ys, false) ∧
          Performs g e (Touches (p * 4194304 + offset) size) t t' (xs ++ ys) ∧
          (create = true → ∀ page, Touches (p * 4194304 + offset) size page →
            t'.manager (page / 1024) ≠ none) := by
      intro t2 xs hfirst hregion
      have hlater : create = true ∨ (g .default = .default ∧ e .default = false) ∨
          ∀ page, Touches ((p + 1) * 4194304 + 0) (size - min (4194304 - offset) size) page →
            t2.manager (page / 1024) ≠ none := by
        refine habsent.imp_right (Or.imp_right fun hpresent page htouch => ?_)
        exact hfirst.stays _ (hstays _ (hpresent page ((touches_split hoffset).mpr (.inr htouch))))
      obtain ⟨t', ys, hrun, hrest, hrestmade⟩ := ih hfirst.wf (by omega) (by omega) (by omega) hlater
        fun page => by rw [touches_iff]; omega
      refine ⟨t', ys, hrun, (hfirst.trans hrest hbefore).congr hflags hstays fun page =>
        touches_split hoffset, fun hcreate page htouch => ?_⟩
      rcases (touches_split hoffset).mp htouch with htouch | htouch
      · rw [((touches_region hle).mp htouch).1]
        exact hrest.stays p (hregion hcreate)
      · exact hrestmade hcreate page htouch
    rcases hwf1.lookup p with ⟨hnone1, hlookup⟩ | ⟨k, m, hk, hm, hlookup⟩
    · -- The region is not made, and does not matter.
      rw [hlookup]
      have hmanager : t1.manager p = none := hwf1.manager_eq_none.mpr hnone1
      have hcreate : create ≠ true := fun hc => hmade hc hnone1
      have hdefault : g .default = .default ∧ e .default = false := by
        rcases habsent with hc | hd | hpresent
        · exact absurd hc hcreate
        · exact hd
        · refine absurd hmanager ?_
          have hpage := hstays _ (hpresent ((p * 4194304 + offset) / 4096)
            (touches_iff.mpr ⟨by omega, by omega, by omega⟩))
          rwa [show (p * 4194304 + offset) / 4096 / 1024 = p by omega] at hpage
      have hflag : ∀ page, Touches (p * 4194304 + offset) (min (4194304 - offset) size) page →
          t1.flags page = .default := fun page htouch =>
        flags_of_none (((touches_region hle).mp htouch).1 ▸ hmanager)
      have hfirst : Performs g e (Touches (p * 4194304 + offset) (min (4194304 - offset) size)) t1 t1 [] := by
        refine ⟨hwf1, fun page htouch => ?_, fun _ _ => rfl, .nil fun page hp => ?_, fun _ hq => hq⟩
        · rw [hflag page htouch, hdefault.1]
        · rw [hflag page hp.1, hdefault.2] at hp
          simp at hp
      exact hnext t1 [] hfirst fun hc => absurd hc hcreate
    · rw [hlookup]
      have haddr := hwf1.cpu_addr hm
      have hfirst := hwf1.visit hk hm hle (hfunc m offset _ (by omega) hcopy hle)
      obtain ⟨t', ys, hrun, hall, hallmade⟩ := hnext _ _ hfirst fun _ =>
        hfirst.stays p (by rw [hm]; simp)
      refine ⟨t', (func m offset (min (4194304 - offset) size)).2 ++ ys, ?_, hall, hallmade⟩
      simp only [Visit.of, Bool.false_eq_true, if_false]
      rw [hrun]
      rfl

theorem iterate_query {create : Bool} {type : TrackType}
    (hdefault : create = true ∨ PageFlags.default type = false) {fuel p offset size : ℕ}
    {t : MemoryTracker} (h : t.Wf) (hoffset : offset < 4194304) (hfuel : size ≤ fuel)
    (hspace : size = 0 ∨ p + (offset + size - 1) / 4194304 < 262144) : ∃ t' result, MemoryTracker.iterate create
        (fun m offset size => (m, [], m.isRegionModified type offset size)) fuel p offset size t =
        some (t', [], result) ∧ t'.Wf ∧ t'.flags = t.flags ∧ (result = true ↔
        ∃ page, Touches (p * 4194304 + offset) size page ∧ t.flags page type = true) := by
  induction fuel generalizing p offset size t with
  | zero =>
    refine ⟨t, false, rfl, h, rfl, ?_⟩
    simp only [touches_iff]
    refine ⟨by simp, fun ⟨page, hp, _⟩ => by omega⟩
  | succ fuel ih =>
    unfold MemoryTracker.iterate
    by_cases hsize : size = 0
    · rw [if_pos hsize]
      refine ⟨t, false, rfl, h, rfl, ?_⟩
      simp only [touches_iff]
      refine ⟨by simp, fun ⟨page, hp, _⟩ => by omega⟩
    rw [if_neg hsize, if_neg (by unfold numHighPages; omega)]
    unfold trackerHigherPageSize
    dsimp only
    obtain ⟨t1, heq, hwf1, hflags, -, hmade⟩ := h.ensure create p
    rw [heq]
    have hcopy : 0 < min (4194304 - offset) size := by omega
    have hle : offset + min (4194304 - offset) size ≤ 4194304 := by omega
    -- The answer is that of the first region, or of the rest.
    have hsplit : (∃ page, Touches (p * 4194304 + offset) size page ∧ t.flags page type = true) ↔
        (∃ page, Touches (p * 4194304 + offset) (min (4194304 - offset) size) page ∧
          t.flags page type = true) ∨
        ∃ page, Touches ((p + 1) * 4194304 + 0) (size - min (4194304 - offset) size) page ∧
          t.flags page type = true := by
      rw [← exists_or]
      refine exists_congr fun page => ?_
      rw [touches_split hoffset, or_and_right]
    rcases hwf1.lookup p with ⟨hnone1, hlookup⟩ | ⟨k, m, hk, hm, hlookup⟩
    · rw [hlookup]
      obtain ⟨t', result, hrun, hwf', hflags', hresult⟩ := @ih (p + 1) 0
        (size - min (4194304 - offset) size) t1 hwf1 (by omega) (by omega) (by omega)
      refine ⟨t', result, hrun, hwf', hflags'.trans hflags, ?_⟩
      rw [hresult, hsplit, hflags]
      refine ⟨.inr, fun hor => hor.resolve_left fun ⟨page, htouch, hflag⟩ => ?_⟩
      have hcreate : create ≠ true := fun hc => hmade hc hnone1
      have hnone := flags_of_none (((touches_region hle).mp htouch).1 ▸ hwf1.manager_eq_none.mpr hnone1)
      rw [← hflags, hnone, hdefault.resolve_left hcreate] at hflag
      simp at hflag
    · rw [hlookup]
      dsimp only
      have haddr := hwf1.cpu_addr hm
      obtain ⟨hwf2, hmanager⟩ := hwf1.store hk haddr
      have hsame : MemoryTracker.flags { t1 with manager_pool := t1.manager_pool.set k m } = t.flags := by
        rw [← hflags]
        funext page
        unfold MemoryTracker.flags
        rw [hmanager]
        split_ifs with hpage
        · rw [hpage, hm]
        · rfl
      have hfirst : m.isRegionModified type offset (min (4194304 - offset) size) = true ↔
          ∃ page, Touches (p * 4194304 + offset) (min (4194304 - offset) size) page ∧
            t.flags page type = true := by
        rw [isRegionModified_iff m type hcopy hle]
        constructor
        · rintro ⟨i, hi, htouch, hflag⟩
          have hpage : (p * 1024 + i) / 1024 = p := by omega
          have hmod : (p * 1024 + i) % 1024 = i := by omega
          refine ⟨p * 1024 + i, (touches_region hle).mpr ⟨hpage, hmod.symm ▸ htouch⟩, ?_⟩
          rw [← hflags, flags_of_manager (hpage.symm ▸ hm), hmod]
          exact hflag
        · rintro ⟨page, htouch, hflag⟩
          obtain ⟨hpage, htouch⟩ := (touches_region hle).mp htouch
          rw [← hflags, flags_of_manager (hpage.symm ▸ hm)] at hflag
          exact ⟨page % 1024, Nat.mod_lt _ (by omega), htouch, hflag⟩
      by_cases hstop : m.isRegionModified type offset (min (4194304 - offset) size) = true
      · rw [if_pos hstop]
        refine ⟨_, true, rfl, hwf2, hsame, ?_⟩
        rw [hsplit]
        exact ⟨fun _ => .inl (hfirst.mp hstop), fun _ => rfl⟩
      · rw [if_neg hstop]
        obtain ⟨t', result, hrun, hwf', hflags', hresult⟩ := @ih (p + 1) 0
          (size - min (4194304 - offset) size) _ hwf2 (by omega) (by omega) (by omega)
        refine ⟨t', result, by rw [hrun]; rfl, hwf', hflags'.trans hsame, ?_⟩
        rw [hresult, hsplit, hsame]
        exact ⟨.inr, fun hor => hor.resolve_left fun hex => hstop (hfirst.mpr hex)⟩

/-! ## Requests -/

theorem space_index (h : address + size ≤ 2^40) :
    size = 0 ∨ address / 4194304 + (address % 4194304 + size - 1) / 4194304 < 262144 := by
  rcases Nat.eq_zero_or_pos size with hzero | hpos
  · exact .inl hzero
  · have hlt : (address + size - 1) / 4194304 < 262144 := by
      refine Nat.div_lt_of_lt_mul ?_
      exact Nat.lt_of_lt_of_le (Nat.sub_lt (by omega) Nat.one_pos) h
    have hsum : address / 4194304 + (address % 4194304 + size - 1) / 4194304 =
        (address + size - 1) / 4194304 := by omega
    exact .inr (hsum ▸ hlt)

theorem iteratePages_performs (create : Bool) {g : PageFlags → PageFlags} {e : PageFlags → Bool}
    {func : RegionManager → ℕ → ℕ → RegionManager × List Notice} (hfunc : EachDoes g e func)
    {address size : ℕ} {t : MemoryTracker} (h : t.Wf) (hspace : address + size ≤ 2^40)
    (habsent : create = true ∨ (g .default = .default ∧ e .default = false) ∨
      ∀ page, Touches address size page → t.manager (page / 1024) ≠ none) :
    ∃ t' notices, t.iteratePages create address size (.of func) = some (t', notices, false) ∧
      Performs g e (Touches address size) t t' notices ∧
      (create = true → ∀ page, Touches address size page → t'.manager (page / 1024) ≠ none) := by
  have haddress : address / 4194304 * 4194304 + address % 4194304 = address := by omega
  have hrun := @iterate_performs create g e func hfunc size (address / 4194304) (address % 4194304)
    size t h (Nat.mod_lt _ (by omega)) (Nat.le_refl _) (space_index hspace)
  rw [haddress] at hrun
  exact hrun habsent

theorem iteratePages_query (create : Bool) (type : TrackType)
    (hdefault : create = true ∨ PageFlags.default type = false) {address size : ℕ}
    {t : MemoryTracker} (h : t.Wf) (hspace : address + size ≤ 2^40) : ∃ t' result, t.iteratePages create address size
        (fun m offset size => (m, [], m.isRegionModified type offset size)) =
        some (t', [], result) ∧ t'.Wf ∧ t'.flags = t.flags ∧
      (result = true ↔ ∃ page, Touches address size page ∧ t.flags page type = true) := by
  have haddress : address / 4194304 * 4194304 + address % 4194304 = address := by omega
  have hrun := @iterate_query create type hdefault size (address / 4194304) (address % 4194304)
    size t h (Nat.mod_lt _ (by omega)) (Nat.le_refl _) (space_index hspace)
  rw [haddress] at hrun
  exact hrun

/-- A request to the tracker. The mode of the readbacks is read anew in each. -/
inductive TrackerOp where
  | markRegionAsCpuModified (mode : GpuReadbacksMode) (address size : ℕ)
  | unmarkRegionAsGpuModified (mode : GpuReadbacksMode) (address size : ℕ)
  | forEachUploadRange (mode : GpuReadbacksMode) (address size : ℕ) (is_written : Bool)
  | forEachDownloadRange (mode : GpuReadbacksMode) (clear : Bool) (address size : ℕ)
  | isRegionCpuModified (address size : ℕ)
  | isRegionGpuModified (address size : ℕ)

namespace TrackerOp

def exec (t : MemoryTracker) : TrackerOp → Tracking
  | .markRegionAsCpuModified mode address size => t.markRegionAsCpuModified mode address size
  | .unmarkRegionAsGpuModified mode address size => t.unmarkRegionAsGpuModified mode address size
  | .forEachUploadRange mode address size is_written =>
    t.forEachUploadRange mode address size is_written
  | .forEachDownloadRange mode clear address size => t.forEachDownloadRange mode clear address size
  | .isRegionCpuModified address size => t.isRegionCpuModified address size
  | .isRegionGpuModified address size => t.isRegionGpuModified address size

/-- A request stays inside the space of 2^40 bytes. -/
def InSpace : TrackerOp → Prop
  | .markRegionAsCpuModified _ address size | .unmarkRegionAsGpuModified _ address size
  | .forEachUploadRange _ address size _ | .forEachDownloadRange _ _ address size
  | .isRegionCpuModified address size | .isRegionGpuModified address size => address + size ≤ 2^40

/-- What a request is to do to a map from pages to flags. -/
def effect (pages : ℕ → PageFlags) : TrackerOp → ℕ → PageFlags
  | .markRegionAsCpuModified _ address size => fun page =>
    if Touches address size page then .set .cpu true (pages page) else pages page
  | .unmarkRegionAsGpuModified _ address size => fun page =>
    if Touches address size page then .set .gpu false (pages page) else pages page
  | .forEachUploadRange _ address size is_written => fun page =>
    if Touches address size page then
      if is_written then .set .gpu true (.set .cpu false (pages page))
      else .set .cpu false (pages page)
    else pages page
  | .forEachDownloadRange _ clear address size => fun page =>
    if Touches address size page ∧ clear = true then .set .gpu false (pages page) else pages page
  | .isRegionCpuModified _ _ | .isRegionGpuModified _ _ => pages

/-- What a request is to call for, and to return. -/
def Answers (pages : ℕ → PageFlags) (notices : List Notice) (result : Bool) : TrackerOp → Prop
  | .markRegionAsCpuModified _ _ _ | .unmarkRegionAsGpuModified _ _ _ => rangesOf notices = []
  | .forEachUploadRange _ address size _ => Covers (rangesOf notices) fun page =>
    Touches address size page ∧ pages page .cpu = true
  | .forEachDownloadRange _ _ address size => Covers (rangesOf notices) fun page =>
    Touches address size page ∧ pages page .gpu = true
  | .isRegionCpuModified address size => result = true ↔
    ∃ page, Touches address size page ∧ pages page .cpu = true
  | .isRegionGpuModified address size => result = true ↔
    ∃ page, Touches address size page ∧ pages page .gpu = true

end TrackerOp

theorem Performs.flags_eq
     (h : Performs g e (Touches address size) t t' xs)
    (page : ℕ) : t'.flags page = if Touches address size page then g (t.flags page)
      else t.flags page := by
  split_ifs with htouch
  · exact h.on page htouch
  · exact h.off page htouch

theorem Covers.eq_nil (h : Covers xs P) (hnone : ∀ page, ¬ P page) : xs = [] := by
  refine eq_nil_iff_forall_not_mem.mpr fun r hr => ?_
  have haligned := h.aligned r hr
  unfold trackerBytesPerPage at haligned
  refine hnone (r.1 / 4096) ((h.union _).mp ⟨r, hr, ?_⟩)
  unfold HasPage trackerBytesPerPage
  omega

theorem eachDoes_change (mode : GpuReadbacksMode) (type : TrackType) (enable : Bool) :
    EachDoes (PageFlags.set type enable) (fun _ => false)
      fun m offset size => m.changeRegionState mode type enable (m.cpu_addr + offset) size :=
  fun m _ _ _ hpos hle => changeRegionState_does m mode type enable hpos hle

theorem eachDoes_forEach (mode : GpuReadbacksMode) (type : TrackType) (clear : Bool) :
    EachDoes (fun flags => if clear then PageFlags.set type false flags else flags) (fun flags => flags type)
      fun m offset size => m.forEachModifiedRange mode type clear (m.cpu_addr + offset) size :=
  fun _ _ _ haddr hpos hle => forEachModifiedRange_does haddr mode type clear hpos hle

theorem TrackerOp.exec_spec {t : MemoryTracker} (h : t.Wf) (op : TrackerOp) (hspace : op.InSpace) :
    ∃ t' notices result, op.exec t = some (t', notices, result) ∧ t'.Wf ∧
      (∀ page, t'.flags page = op.effect t.flags page) ∧ op.Answers t.flags notices result := by
  cases op with
  | markRegionAsCpuModified mode address size =>
    have hdefault : PageFlags.set .cpu true .default = .default := by
      funext type
      cases type <;> rfl
    obtain ⟨t', notices, hrun, hperforms, -⟩ := iteratePages_performs false
      (eachDoes_change mode .cpu true) h hspace (.inr (.inl ⟨hdefault, rfl⟩))
    exact ⟨t', notices, false, hrun, hperforms.wf, hperforms.flags_eq, hperforms.covers.eq_nil (by simp)⟩
  | unmarkRegionAsGpuModified mode address size =>
    have hdefault : PageFlags.set .gpu false .default = .default := by
      funext type
      cases type <;> rfl
    obtain ⟨t', notices, hrun, hperforms, -⟩ := iteratePages_performs false
      (eachDoes_change mode .gpu false) h hspace (.inr (.inl ⟨hdefault, rfl⟩))
    exact ⟨t', notices, false, hrun, hperforms.wf, hperforms.flags_eq, hperforms.covers.eq_nil (by simp)⟩
  | forEachUploadRange mode address size is_written =>
    obtain ⟨t1, first, hrun, hfirst, hmade⟩ := iteratePages_performs true
      (eachDoes_forEach mode .cpu true) h hspace (.inl rfl)
    simp only [exec, MemoryTracker.forEachUploadRange, hrun, Option.bind_eq_bind, Option.bind_some]
    cases is_written with
    | false =>
      refine ⟨t1, first ++ [.onUpload], false, rfl, hfirst.wf, hfirst.flags_eq, ?_⟩
      show Covers (rangesOf (first ++ [.onUpload])) _
      rw [rangesOf_append, show rangesOf [.onUpload] = [] from rfl, append_nil]
      exact hfirst.covers
    | true =>
      -- The regions of the request have been made by the first loop.
      obtain ⟨t2, second, hrun', hsecond, -⟩ := iteratePages_performs false
        (eachDoes_change mode .gpu true) hfirst.wf hspace (.inr (.inr (hmade rfl)))
      simp only [hrun', if_true, Option.bind_some]
      refine ⟨t2, first ++ .onUpload :: second, false, rfl, hsecond.wf, fun page => ?_, ?_⟩
      · rw [hsecond.flags_eq, hfirst.flags_eq]
        simp only [effect]
        split_ifs <;> rfl
      · show Covers (rangesOf (first ++ .onUpload :: second)) _
        have hnone : rangesOf (.onUpload :: second) = [] := hsecond.covers.eq_nil (by simp)
        rw [rangesOf_append, hnone, append_nil]
        exact hfirst.covers
  | forEachDownloadRange mode clear address size =>
    have hdefault : (if clear then PageFlags.set .gpu false .default else .default) = PageFlags.default := by
      funext type
      cases clear <;> cases type <;> rfl
    obtain ⟨t', notices, hrun, hperforms, -⟩ := iteratePages_performs false
      (eachDoes_forEach mode .gpu clear) h hspace (.inr (.inl ⟨hdefault, rfl⟩))
    refine ⟨t', notices, false, hrun, hperforms.wf, fun page => ?_, hperforms.covers⟩
    rw [hperforms.flags_eq]
    simp only [effect]
    cases clear <;> simp
  | isRegionCpuModified address size =>
    obtain ⟨t', result, hrun, hwf, hflags, hresult⟩ := iteratePages_query true .cpu (.inl rfl) h hspace
    exact ⟨t', [], result, hrun, hwf, fun page => congrFun hflags page, hresult⟩
  | isRegionGpuModified address size =>
    obtain ⟨t', result, hrun, hwf, hflags, hresult⟩ := iteratePages_query false .gpu (.inr rfl) h hspace
    exact ⟨t', [], result, hrun, hwf, fun page => congrFun hflags page, hresult⟩

/-! ## Runs -/

/-- The tracker after requests that are made one after another. -/
def MemoryTracker.run (t : MemoryTracker) : List TrackerOp → Option MemoryTracker
  | [] => some t
  | op :: rest => do
    let (t, _, _) ← op.exec t
    t.run rest

/-- The map from pages to flags after requests in order. -/
def pagesAfter (ops : List TrackerOp) : ℕ → PageFlags :=
  ops.foldl TrackerOp.effect fun _ => .default

theorem MemoryTracker.Wf.new : MemoryTracker.Wf {} :=
  ⟨by simp, by simp, by simp, nodup_nil⟩

theorem MemoryTracker.Wf.run {t : MemoryTracker} (h : t.Wf) {ops : List TrackerOp}
    (hspace : ∀ op ∈ ops, op.InSpace) : ∃ t', t.run ops = some t' ∧ t'.Wf ∧
      ∀ page, t'.flags page = ops.foldl TrackerOp.effect t.flags page := by
  induction ops generalizing t with
  | nil => exact ⟨t, rfl, h, fun _ => rfl⟩
  | cons op rest ih =>
    obtain ⟨t1, notices, result, hexec, hwf, hflags, -⟩ :=
      op.exec_spec h (hspace op mem_cons_self)
    obtain ⟨t', hrun, hwf', hflags'⟩ := ih hwf fun op hop => hspace op (mem_cons_of_mem _ hop)
    refine ⟨t', ?_, hwf', fun page => ?_⟩
    · unfold MemoryTracker.run
      rw [hexec]
      exact hrun
    · rw [hflags' page, foldl_cons, funext hflags]

/-- An upload across a region border that writes, a mark and a download. -/
def sampleRequests : List TrackerOp :=
  [.forEachUploadRange .precise 4190208 8192 true, .markRegionAsCpuModified .precise 4194305 1,
    .forEachDownloadRange .relaxed true 4190208 1]

/-- What a request is to store in a flag of a page. -/
def TrackerOp.stores (type : TrackType) (page : ℕ) : TrackerOp → Option Bool
  | .markRegionAsCpuModified _ address size =>
    if type = .cpu ∧ Touches address size page then some true else none
  | .unmarkRegionAsGpuModified _ address size =>
    if type = .gpu ∧ Touches address size page then some false else none
  | .forEachUploadRange _ address size is_written =>
    if Touches address size page ∧ (type = .cpu ∨ is_written) then some (type == .gpu) else none
  | .forEachDownloadRange _ clear address size =>
    if type = .gpu ∧ clear ∧ Touches address size page then some false else none
  | .isRegionCpuModified _ _ | .isRegionGpuModified _ _ => none

theorem TrackerOp.effect_eq (op : TrackerOp) (pages : ℕ → PageFlags) (page : ℕ) (type : TrackType) :
    op.effect pages page type = (op.stores type page).getD (pages page type) := by
  cases op <;> cases type <;> simp only [effect, stores] <;> try split_ifs
  all_goals simp_all [PageFlags.set]

end ShadPS4.VideoCore
