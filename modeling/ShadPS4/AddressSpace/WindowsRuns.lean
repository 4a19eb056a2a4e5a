import ShadPS4.AddressSpace.WindowsCalls
import ShadPS4.Lib.Transition

/-!
# Runs of the address space

The calls `Map`, `Unmap` and `Protect` are compared with those of a flat map from pages to what stands behind them
and their protection (`Call.flat`).
-/

namespace ShadPS4.AddressSpace

/-! ## The start -/

/-- The free blocks that `VirtualQuery` reports, in order: they are not empty, end in the user's half
of the address space, and are kept apart by the blocks in between, which are in use. -/
structure FreeBlocks (blocks : List (ℕ × ℕ)) : Prop where
  pos : ∀ r ∈ blocks, 0 < r.2
  bound : ∀ r ∈ blocks, r.1 + r.2 ≤ 2^47
  apart : blocks.Pairwise fun r q => r.1 + r.2 < q.1

namespace Impl

variable {blocks : List (ℕ × ℕ)} {m : OrdMap MemoryRegion} {R : ℕ → Prop}

theorem emplaceFree_spec (hb : FreeBlocks blocks) (hm : Laid m R)
    (hnew : ∀ r ∈ blocks, ∀ x, r.1 ≤ x → x < r.1 + r.2 → ¬ R x) :
    Laid (emplaceFree blocks m) (fun x => R x ∨ ∃ r ∈ blocks, r.1 ≤ x ∧ x < r.1 + r.2) ∧
      ∀ k a, (k, a) ∈ emplaceFree blocks m → (k, a) ∈ m ∨ (a.is_mapped = false ∧ (k, a.size) ∈ blocks) := by
  induction blocks generalizing m R with
  | nil =>
    refine ⟨⟨hm.partition.congr fun x => by simp, hm.sound⟩, fun k a ha => .inl ha⟩
  | cons block blocks ih =>
    obtain ⟨addr, size⟩ := block
    have hpos : 0 < size := hb.pos (addr, size) List.mem_cons_self
    have hapart := List.pairwise_cons.mp hb.apart
    unfold emplaceFree
    dsimp only
    have hkey : ¬ m.HasKey addr := by
      rintro ⟨a, ha⟩
      refine hnew (addr, size) List.mem_cons_self addr (Nat.le_refl _) (by simp only; omega) ?_
      exact (hm.partition.cover addr).mpr ⟨addr, a, ha, Nat.le_refl _, by
        have := hm.partition.pos addr a ha
        omega⟩
    rw [OrdMap.emplace_of_not_hasKey hkey]
    have hlaid : Laid (m.insert addr
        { base := addr, phys_base := noPhys, size, prot := .noAccess, fd := -1, is_mapped := false })
        fun x => R x ∨ addr ≤ x ∧ x < addr + size := by
      refine ⟨hm.partition.extend hpos (hnew (addr, size) List.mem_cons_self), fun k a ha => ?_⟩
      rw [OrdMap.mem_insert, Prod.mk.injEq] at ha
      rcases ha with ⟨rfl, rfl⟩ | ⟨ha, -⟩
      · exact ⟨rfl, fun _ => rfl, fun h => by simp at h⟩
      · exact hm.sound k a ha
    have hrest := ih ⟨fun r hr => hb.pos r (List.mem_cons_of_mem _ hr),
        fun r hr => hb.bound r (List.mem_cons_of_mem _ hr), hapart.2⟩ hlaid
      (fun r hr x hx hx' => by
        rw [not_or]
        have := hapart.1 r hr
        exact ⟨hnew r (List.mem_cons_of_mem _ hr) x hx hx', by omega⟩)
    refine ⟨⟨hrest.1.partition.congr fun x => ?_, hrest.1.sound⟩, fun k a ha => ?_⟩
    · simp only [List.mem_cons, exists_eq_or_imp, or_assoc]
    · rcases hrest.2 k a ha with hin | ⟨hf, hin⟩
      · rw [OrdMap.mem_insert, Prod.mk.injEq] at hin
        rcases hin with ⟨rfl, rfl⟩ | ⟨hin, -⟩
        · exact .inr ⟨rfl, List.mem_cons_self⟩
        · exact .inl hin
      · exact .inr ⟨hf, List.mem_cons_of_mem _ hin⟩

theorem create_spec (hb : FreeBlocks blocks) : (create blocks).Wf ∧ ∀ l, ¬ FreeSeam (create blocks).regions l := by
  obtain ⟨hlaid, hmem⟩ := emplaceFree_spec (m := ∅) (R := fun _ => False) hb
    ⟨OrdMap.empty_partition, fun k r hr => absurd hr OrdMap.not_mem_empty⟩ (fun _ _ _ _ _ => id)
  have hfree : ∀ k a, (k, a) ∈ (create blocks).regions → a.is_mapped = false ∧ (k, a.size) ∈ blocks := by
    intro k a ha
    rcases hmem k a ha with hin | hin
    · exact absurd hin OrdMap.not_mem_empty
    · exact hin
  refine ⟨⟨⟨hlaid.partition.congr fun x => ?_, hlaid.sound⟩, fun k r hr x _ _ => ?_,
    fun _ _ => rfl, hb.bound⟩, ?_⟩
  · rw [false_or]
    rfl
  · rw [if_neg (by simp [(hfree k r hr).1])]
    rfl
  · -- Two blocks do not meet, in either order.
    rintro l ⟨k, a, b, ha, hb', -, -, hkl⟩
    have ha := (hfree k a ha).2
    have hb' := (hfree l b hb').2
    have hpos := hb.pos _ ha
    have hpos' := hb.pos _ hb'
    have hor : (k, a.size) = (l, b.size) ∨ k + a.size < l ∨ l + b.size < k := by
      have hsymm : Std.Symm fun r q : ℕ × ℕ => r = q ∨ r.1 + r.2 < q.1 ∨ q.1 + q.2 < r.1 := by
        refine ⟨fun r q h => ?_⟩
        rcases h with rfl | h | h
        · exact .inl rfl
        · exact .inr (.inr h)
        · exact .inr (.inl h)
      exact (hb.apart.imp fun h => .inr (.inl h)).forall_of_forall
        (R := fun r q : ℕ × ℕ => r = q ∨ r.1 + r.2 < q.1 ∨ q.1 + q.2 < r.1) (fun r _ => .inl rfl)
        ha hb'
    simp only [Prod.mk.injEq] at hor hpos hpos'
    omega

end Impl

inductive Call
  | map (virtual_addr phys_addr size : ℕ) (prot : PageProt) (fd : ℤ)
  | unmap (virtual_addr size : ℕ)
  | protect (virtual_addr size : ℕ) (read write execute : Bool)

namespace Call

/-- The addresses and sizes of the call are 64-bit numbers. -/
def InRange : Call → Prop
  | .map virtual_addr phys_addr size _ _ =>
    virtual_addr < 2^64 ∧ phys_addr < 2^64 ∧ size < 2^64
  | .unmap virtual_addr size => virtual_addr < 2^64 ∧ size < 2^64
  | .protect virtual_addr size .. => virtual_addr < 2^64 ∧ size < 2^64

instance (c : Call) : Decidable c.InRange := by
  cases c <;> exact inferInstanceAs (Decidable (_ ∧ _))

def exec (s : Impl) : Call → Except Fault Impl
  | .map virtual_addr phys_addr size prot fd => s.map virtual_addr phys_addr size prot fd
  | .unmap virtual_addr size => s.unmap virtual_addr size
  | .protect virtual_addr size read write execute => s.protect virtual_addr size read write execute

/-- What the call means on a flat map: the pages of its range are mapped, freed, or given another
protection, and no other page changes. -/
def flat (f : ℕ → Option FlatPage) : Call → ℕ → Option FlatPage
  | .map virtual_addr phys_addr size prot fd, x =>
    if virtual_addr ≤ x ∧ x < virtual_addr + size then
      some { source := sourceAt virtual_addr phys_addr fd x, prot }
    else f x
  | .unmap virtual_addr size, x =>
    if virtual_addr ≤ x ∧ x < virtual_addr + size then none else f x
  | .protect virtual_addr size read write execute, x =>
    if virtual_addr ≤ x ∧ x < add64 virtual_addr size then
      (f x).map fun page => { page with prot := Impl.newFlags read write execute }
    else f x

/-- The condition under which the call leaves the protection of the other pages alone: an `Unmap`
that cuts a mapped region finds the pages outside of its range with the protection that the region
records. -/
def KeepsProt (s : Impl) : Call → Prop
  | .unmap virtual_addr size => s.ProtKept virtual_addr size
  | _ => True

theorem exec_spec {s s' : Impl} {c : Call} (h : c.exec s = .ok s') (hs : s.Wf)
    (hseam : ∀ l, ¬ FreeSeam s.regions l) (hc : c.InRange) (hkept : c.KeepsProt s) :
    s'.Wf ∧ (∀ l, ¬ FreeSeam s'.regions l) ∧ s'.process.reserved = s.process.reserved ∧
      s'.process.flat = c.flat s.process.flat := by
  cases c with
  | map virtual_addr phys_addr size prot fd =>
    obtain ⟨hwf, hseam', hres, hflat⟩ := Impl.map_spec h hs hseam hc.1
    exact ⟨hwf, hseam', hres, funext hflat⟩
  | unmap virtual_addr size =>
    obtain ⟨hwf, hseam', hres, hflat⟩ := Impl.unmap_spec h hs hseam hc.1 hkept
    exact ⟨hwf, hseam', hres, funext hflat⟩
  | protect virtual_addr size read write execute =>
    obtain ⟨hwf, hregs, hres, hflat⟩ := Impl.protect_spec h hs
    refine ⟨hwf, ?_, hres, funext hflat⟩
    rw [hregs]
    exact hseam

end Call

/-! ## Runs -/

/-- The address space as it is made, beside a flat map with nothing mapped. -/
def Started (blocks : List (ℕ × ℕ)) (σ : Impl × (ℕ → Option FlatPage)) : Prop :=
  σ = (.create blocks, fun _ => none)

/-- A call that returns, beside the same call on the flat map. -/
def Steps (σ : Impl × (ℕ → Option FlatPage)) (c : Call) (σ' : Impl × (ℕ → Option FlatPage)) : Prop :=
  c.InRange ∧ c.exec σ.1 = .ok σ'.1 ∧ σ'.2 = c.flat σ.2

/-- The pair that a list of calls leads to, if each of them returns. -/
def replay : List Call → Impl × (ℕ → Option FlatPage) → Option (Impl × (ℕ → Option FlatPage))
  | [], σ => some σ
  | c :: cs, σ =>
    if c.InRange then
      match c.exec σ.1 with
      | .ok s => replay cs (s, c.flat σ.2)
      | .error _ => none
    else none

theorem run_of_replay (h : Run (Started blocks) Steps (fun _ _ => True) σ)
    (hr : replay cs σ = some σ') : Run (Started blocks) Steps (fun _ _ => True) σ' := by
  induction cs generalizing σ with
  | nil =>
    rw [replay, Option.some.injEq] at hr
    exact hr ▸ h
  | cons c cs ih =>
    simp only [replay] at hr
    split_ifs at hr with hc
    split at hr
    · rename_i s he
      exact ih (.step h trivial ⟨hc, he, rfl⟩) hr
    · contradiction

theorem exists_of_replay (h : (replay cs (.create blocks, fun _ => none)).any t = true) :
    ∃ σ, Run (Started blocks) Steps (fun _ _ => True) σ ∧ t σ = true := by
  obtain ⟨σ, hσ, ht⟩ := Option.any_eq_true _ _ |>.mp h
  exact ⟨σ, run_of_replay (.start rfl) hσ, ht⟩

theorem exists_of_any {x : Except Fault Impl} {t : Impl → Bool}
    (h : x.toOption.any t = true) : ∃ s, x = .ok s ∧ t s = true := by
  cases x with
  | error e => contradiction
  | ok s => exact ⟨s, rfl, h⟩

theorem freeBlocks_sample : FreeBlocks [(0x400000, 0x10000000)] :=
  ⟨by decide, by decide, by decide⟩

end ShadPS4.AddressSpace
